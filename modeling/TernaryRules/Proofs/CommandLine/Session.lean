import TernaryRules.CommandLine.Run
import TernaryRules.Proofs.CommandLine.System

/-!
# A directory is a lawful system

What is seen of a session are the files of its directory, by their outlets, and what has gone to
other places (`Session.view`).  Its operations do what a run counts on (`Session.system_lawful`).
-/

namespace TernaryRules.CommandLine

namespace Directory

theorem lookup_filter {α β : Type} [BEq α] [LawfulBEq α] (keep : α → Bool) (key : α)
    (items : List (α × β)) :
    (items.filter fun item => keep item.1).lookup key =
      if keep key then items.lookup key else none := by
  induction items with
  | nil => simp
  | cons item items ih =>
      obtain ⟨k, value⟩ := item
      rw [List.filter_cons, List.lookup_cons]
      by_cases hk : key = k
      · subst hk
        cases hkeep : keep key <;> simp [ih, hkeep]
      · have hne : (key == k) = false := beq_eq_false_iff_ne.2 hk
        cases keep k <;> simp [ih, hne, List.lookup_cons]

/-- A file is put as a whole, and no other file changes. -/
theorem text?_put (d : Directory) (location : List String) (text : String) :
    (d.put location text).text? = Function.update d.text? location (some text) := by
  funext other
  rw [text?, put, List.lookup_append, lookup_filter fun path => path != location]
  by_cases h : other = location
  · subst h
    simp
  · have hne : (other == location) = false := beq_eq_false_iff_ne.2 h
    simp [List.lookup_cons, h, hne, text?]

end Directory

namespace Session

/-- What goes to an outlet is kept in a file, or is sent to a device or a stream. -/
def view : View Session Outlet Outlet where
  look s := {
    text? := fun
      | .file location => s.directory.text? location
      | _ => none
    sent := fun
      | .elsewhere => s.elsewhere
      | _ => ""
    stdout := s.stdout
    stderr := s.stderr }
  target := fun
    | .file location => .file (.file location)
    | .elsewhere => .device .elsewhere
    | .full => .device .full
    | .stdout => .stdout
    | .stderr => .stderr

/-- A file that is put is seen, and nothing else changes. -/
theorem look_put (s : Session) (location : List String) (text : String) :
    view.look { s with directory := s.directory.put location text } =
      { view.look s with
        text? := Function.update (view.look s).text? (.file location) (some text) } := by
  simp only [view, Directory.text?_put, Look.mk.injEq, and_true]
  funext outlet
  by_cases h : outlet = .file location
  · subst h
    simp
  · rw [Function.update_of_ne h]
    cases outlet with
    | file other => exact Function.update_of_ne (fun heq => h (congrArg Outlet.file heq)) _ _
    | _ => rfl

theorem look_clear (s : Session) (outlet : Outlet) :
    view.look (s.clear outlet) = (view.look s).clear (view.target outlet) := by
  cases outlet with
  | file location => exact s.look_put location ""
  | _ => rfl

theorem look_append (s : Session) {outlet : Outlet} (h : outlet ≠ .full) (text : String) :
    view.look (s.append outlet text) = (view.look s).append (view.target outlet) text := by
  cases outlet with
  | file location => exact s.look_put location _
  | elsewhere =>
      simp only [append, view, Look.append, Look.mk.injEq, true_and, and_true]
      funext outlet
      cases outlet <;> rfl
  | full => exact absurd rfl h
  | stdout => rfl
  | stderr => rfl

theorem createFile_run (path : String) (s : Session) :
    (system.createFile path).run s =
      match s.directory.createFile path with
      | .error e => (.error e, s)
      | .ok outlet => (.ok outlet, s.clear outlet) :=
  rfl

/-- **A directory is a lawful system.** -/
theorem system_lawful : system.Lawful view where
  openFile _ _ := rfl
  readFile _ _ := rfl
  createFile_error {path s s' e} h := by
    rw [createFile_run] at h
    split at h
    · cases h
      rfl
    · cases h
  createFile_ok {path s s' outlet} h := by
    rw [createFile_run] at h
    split at h
    · cases h
    · cases h
      exact s.look_clear outlet
  stdout := rfl
  write_error {outlet text s s' e} h := by
    cases outlet with
    | full =>
        cases h
        exact ⟨"", text, by simp, by simp [view, Look.append]⟩
    | _ => cases h
  write_ok {outlet text s s'} h := by
    cases outlet with
    | full => cases h
    | _ =>
        cases h
        exact s.look_append (by rintro ⟨⟩) text
  log text s := s.look_append (by rintro ⟨⟩) text

theorem code_run (args : List String) (d : Directory) :
    (CommandLine.run args d).code = ((system.run args).run (.start d)).1 := rfl

/-- Reading leaves a session as it is. -/
theorem eq_of_reads {s s' : Session} {path text : String} (h : system.Reads s path text s') :
    s = s' := by
  obtain ⟨file, s₁, hopen, hread⟩ := h
  have hfirst : s = s₁ := congrArg Prod.snd hopen
  have hsecond : s₁ = s' := congrArg Prod.snd hread
  rw [hfirst, hsecond]

end Session

end TernaryRules.CommandLine
