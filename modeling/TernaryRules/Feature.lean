import TernaryRules.Interval

/-!
# Features

A feature has a name, a field and the range of values it can take within the field. A table
declares the features in order; the position of a feature is its number.
-/

namespace TernaryRules

/-- The number of a feature. -/
abbrev FeatureId := UInt32

/-- A declared feature. -/
structure Feature where
  name : String
  field : Field
  range : Interval
  hi_le : range.hi ≤ field.maxValue
deriving DecidableEq

namespace Feature

/-- The feature that takes the values from `min` to `max`. -/
def ofRange (name : String) (bits min max : Nat) : Except DomainError Feature :=
  match Field.ofWidth bits with
  | .error e => .error e
  | .ok field =>
      if h : min ≤ max ∧ max ≤ field.maxValue then .ok ⟨name, field, ⟨min, max, h.1⟩, h.2⟩
      else .error (.unfitRange name bits min max)

/-- The feature that takes every value of its field, but for the bounds that are given. -/
def ofBounds (name : String) (bits : Nat) (min max : Option Nat) : Except DomainError Feature :=
  match Field.ofWidth bits with
  | .error e => .error e
  | .ok field => ofRange name bits (min.getD 0) (max.getD field.maxValue)

/-- The feature that takes every value of its field. -/
def full (name : String) (bits : Nat) : Except DomainError Feature := ofBounds name bits none none

end Feature

/-- The declared features, in order. -/
structure FeatureTable where
  features : List Feature
deriving DecidableEq

namespace FeatureTable

def empty : FeatureTable := ⟨[]⟩

def size (t : FeatureTable) : Nat := t.features.length

/-- The table with one more feature, and the number of that feature. -/
def push (t : FeatureTable) (f : Feature) : FeatureTable × FeatureId :=
  (⟨t.features ++ [f]⟩, t.size.toUInt32)

def get? (t : FeatureTable) (id : FeatureId) : Option Feature := t.features[id.toNat]?

/-- The number of the first feature of that name. -/
def position? (t : FeatureTable) (name : String) : Option FeatureId :=
  (t.features.findIdx? fun f => f.name == name).map Nat.toUInt32

/-- Whether a point has one coordinate for each feature, each within the range declared. -/
def containsPoint (t : FeatureTable) (point : List Nat) : Bool :=
  point.length == t.size && (t.features.zip point).all fun (f, v) => f.range.contains v

end FeatureTable

end TernaryRules
