import TernaryRules.Rule.Line

/-!
# Sinks

A sink takes rules one by one. `LineSink` writes each as a line into a buffer of bytes that may
have a capacity: the buffer keeps what there is room for, and a line that does not fit whole is a
failure, of which the part that fitted stays in the buffer.
-/

namespace TernaryRules

/-- The buffer had no room for the whole line. -/
inductive SinkError where
  | bufferFull
deriving DecidableEq, Repr

def SinkError.message : SinkError → String
  | bufferFull => "I/O error: failed to write whole buffer"

/-- Lines in a buffer, the number of rules written whole, and how often the sink was finished. -/
structure LineSink where
  format : LineFormat
  capacity : Option Nat
  bytes : Array UInt8
  written : Nat
  finished : Nat

namespace LineSink

def ofFormat (format : LineFormat) (capacity : Option Nat) : LineSink :=
  ⟨format, capacity, #[], 0, 0⟩

/-- The bytes of a text. -/
def utf8 (text : List Char) : List UInt8 := text.flatMap String.utf8EncodeChar

/-- The number of further bytes the buffer has room for, out of those wanted. -/
def room (s : LineSink) (wanted : Nat) : Nat :=
  match s.capacity with
  | none => wanted
  | some capacity => min wanted (capacity - s.bytes.size)

/-- A single write: the buffer keeps what it has room for and answers how much that is. -/
def write (s : LineSink) (chunk : List UInt8) : LineSink × Nat :=
  let kept := s.room chunk.length
  ({ s with bytes := s.bytes ++ (chunk.take kept).toArray }, kept)

/-- Writes until nothing of the chunk is left. A write that keeps nothing is a failure. -/
def writeAll (s : LineSink) : List UInt8 → LineSink × Except SinkError Unit
  | [] => (s, .ok ())
  | byte :: chunk =>
      match s.write (byte :: chunk) with
      | (s, 0) => (s, .error .bufferFull)
      | (s, kept + 1) => s.writeAll (chunk.drop kept)
termination_by chunk => chunk.length
decreasing_by
  simp only [List.length_drop, List.length_cons]
  omega

/-- Writes the line of a rule, and then its end. -/
def emit (s : LineSink) (r : Rule) : LineSink × Except SinkError Unit :=
  match s.writeAll (utf8 (s.format.line r)) with
  | (s, .error e) => (s, .error e)
  | (s, .ok ()) =>
      match s.writeAll (utf8 ['\n']) with
      | (s, .error e) => (s, .error e)
      | (s, .ok ()) => ({ s with written := s.written + 1 }, .ok ())

/-- Ends the writing. What was written is in the buffer already. -/
def finish (s : LineSink) : LineSink × Except SinkError Unit :=
  ({ s with finished := s.finished + 1 }, .ok ())

/-- Writes rules in order up to the first that fails. -/
def emitEach (s : LineSink) : List Rule → LineSink × Except SinkError Unit
  | [] => (s, .ok ())
  | r :: rest =>
      match s.emit r with
      | (s, .ok ()) => emitEach s rest
      | (s, .error e) => (s, .error e)

/-- Writes all rules in order and finishes the sink; the answer is their number. -/
def emitAll (s : LineSink) (rules : List Rule) : LineSink × Except SinkError Nat :=
  match s.emitEach rules with
  | (s, .error e) => (s, .error e)
  | (s, .ok ()) =>
      let (s, result) := s.finish
      (s, result.map fun () => rules.length)

/-- The buffer as text; a character that was cut off is shown by the replacement character. -/
def text (s : LineSink) : String :=
  let decode (cut : Nat) : Option String :=
    String.fromUTF8? ⟨s.bytes.extract 0 (s.bytes.size - cut)⟩
  match decode 0 with
  | some t => t
  | none => (([1, 2, 3].findSome? decode).getD "").push '\uFFFD'

end LineSink

end TernaryRules
