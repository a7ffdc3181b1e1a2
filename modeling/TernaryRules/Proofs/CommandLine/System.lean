import Mathlib.Logic.Function.Basic
import TernaryRules.CommandLine.Command
import TernaryRules.Proofs.Outcome

/-!
# What a run may count on

A system acts on states of its own.  A *view* says what is seen of them: the texts of files, what
devices have been sent, and what has come out on the two streams of a run (`Look`).  The laws of
`System.Lawful` say what the operations of a system do to that, as far as a run has to count on it.
Reading shows in nothing; a file that cannot be created has not been touched; a file that has been
created is empty and keeps what is written to it.

A run of steps is quiet (`Quietly`) when nothing of it is seen but lines of the log, and this is so
when each step is quiet (`Quietly.bind`).
-/

namespace TernaryRules.CommandLine

/-- What the text for an output goes to. -/
inductive Target (φ : Type) where
  | file (f : φ)
  | device (d : φ)
  | stdout
  | stderr

/-- What is seen of a state: the text of each file that is there, what has been sent to each device,
and what has come out on the streams of the run. -/
structure Look (φ : Type) where
  text? : φ → Option String
  sent : φ → String
  stdout : String
  stderr : String

/-- What is seen of the states of a system, and where the text for its outputs goes. -/
structure View (σ η φ : Type) where
  look : σ → Look φ
  target : η → Target φ

namespace Look

variable {φ : Type}

section Actions

variable [DecidableEq φ]

/-- What is seen when a target has just been opened: a file is there and is empty. -/
def clear (l : Look φ) : Target φ → Look φ
  | .file f => { l with text? := Function.update l.text? f (some "") }
  | .device _ | .stdout | .stderr => l

/-- What is seen when a text has gone to a target, behind what is there. -/
def append (l : Look φ) (target : Target φ) (text : String) : Look φ :=
  match target with
  | .file f => { l with text? := Function.update l.text? f (some ((l.text? f).getD "" ++ text)) }
  | .device d => { l with sent := Function.update l.sent d (l.sent d ++ text) }
  | .stdout => { l with stdout := l.stdout ++ text }
  | .stderr => { l with stderr := l.stderr ++ text }

end Actions

/-- From the first to the second, no file has changed and nothing has come out but on standard
error. -/
structure Quiet (a b : Look φ) : Prop where
  text?_eq : b.text? = a.text?
  sent_eq : b.sent = a.sent
  stdout_eq : b.stdout = a.stdout
  stderr_eq : ∃ log, b.stderr = a.stderr ++ log

/-- From the first to the second, the target has got a text and nothing else has changed: a file has
this text and no other, a device or a stream has been sent it as a whole.  Standard error may have
got more besides. -/
def Delivers (a b : Look φ) (text : String) : Target φ → Prop
  | .file f => b.text? f = some text ∧ (∀ g ≠ f, b.text? g = a.text? g) ∧ b.sent = a.sent ∧
      b.stdout = a.stdout
  | .device d => b.text? = a.text? ∧ b.sent d = a.sent d ++ text ∧
      (∀ e ≠ d, b.sent e = a.sent e) ∧ b.stdout = a.stdout
  | .stdout => b.text? = a.text? ∧ b.sent = a.sent ∧ b.stdout = a.stdout ++ text
  | .stderr => b.text? = a.text? ∧ b.sent = a.sent ∧ b.stdout = a.stdout ∧
      ∃ log closing, b.stderr = a.stderr ++ (log ++ text ++ closing)

theorem Quiet.refl (l : Look φ) : l.Quiet l := ⟨rfl, rfl, rfl, "", by simp⟩

theorem Quiet.of_eq {a b : Look φ} (h : b = a) : a.Quiet b := h ▸ .refl b

theorem Quiet.trans {a b c : Look φ} (h : a.Quiet b) (h' : b.Quiet c) : a.Quiet c := by
  obtain ⟨log, hlog⟩ := h.stderr_eq
  obtain ⟨log', hlog'⟩ := h'.stderr_eq
  exact ⟨h'.text?_eq.trans h.text?_eq, h'.sent_eq.trans h.sent_eq, h'.stdout_eq.trans h.stdout_eq,
    log ++ log', by rw [hlog', hlog, String.append_assoc]⟩

variable [DecidableEq φ]

theorem quiet_append_stderr (l : Look φ) (text : String) : l.Quiet (l.append .stderr text) :=
  ⟨rfl, rfl, rfl, text, rfl⟩

/-- What is written to a target that has just been opened is delivered to it, if all is quiet before
and behind. -/
theorem Quiet.delivers {a b c : Look φ} {target : Target φ} {text : String} (h : a.Quiet b)
    (h' : ((b.clear target).append target text).Quiet c) : a.Delivers c text target := by
  cases target with
  | file f =>
      refine ⟨?_, fun g hg => ?_, h'.sent_eq.trans h.sent_eq, h'.stdout_eq.trans h.stdout_eq⟩
      · rw [h'.text?_eq]
        simp [append, clear]
      · rw [h'.text?_eq, ← h.text?_eq]
        simp [append, clear, hg]
  | device d =>
      refine ⟨h'.text?_eq.trans h.text?_eq, ?_, fun e he => ?_, h'.stdout_eq.trans h.stdout_eq⟩
      · rw [h'.sent_eq, ← h.sent_eq]
        simp [append, clear]
      · rw [h'.sent_eq, ← h.sent_eq]
        simp [append, clear, he]
  | stdout =>
      refine ⟨h'.text?_eq.trans h.text?_eq, h'.sent_eq.trans h.sent_eq, ?_⟩
      rw [h'.stdout_eq, ← h.stdout_eq]
      rfl
  | stderr =>
      refine ⟨h'.text?_eq.trans h.text?_eq, h'.sent_eq.trans h.sent_eq,
        h'.stdout_eq.trans h.stdout_eq, ?_⟩
      obtain ⟨log, hlog⟩ := h.stderr_eq
      obtain ⟨closing, hclosing⟩ := h'.stderr_eq
      refine ⟨log, closing, ?_⟩
      rw [hclosing, append, clear, hlog]
      simp only [String.append_assoc]

end Look

variable {σ ρ η φ : Type}

/-- What a run counts on.  To open a file and to read it changes nothing that is seen.  If a file
cannot be created nothing has changed; otherwise it is there and empty, and nothing else has changed.
What is written comes behind what is there, as a whole or, where this fails, up to some place.
Standard error takes all that is logged, and neither of the streams is one of the files. -/
structure System.Lawful [DecidableEq φ] (sys : System (StateM σ) ρ η) (v : View σ η φ) : Prop where
  openFile (path : String) (s : σ) : v.look ((sys.openFile path).run s).2 = v.look s
  readFile (file : ρ) (s : σ) : v.look ((sys.readFile file).run s).2 = v.look s
  createFile_error {path : String} {s s' : σ} {e : FileError} :
    (sys.createFile path).run s = (.error e, s') → v.look s' = v.look s
  createFile_ok {path : String} {s s' : σ} {out : η} :
    (sys.createFile path).run s = (.ok out, s') → v.look s' = (v.look s).clear (v.target out)
  stdout : v.target sys.stdout = .stdout
  write_error {out : η} {text : String} {s s' : σ} {e : FileError} :
    (sys.write out text).run s = (.error e, s') → ∃ part rest, text = part ++ rest ∧
      v.look s' = (v.look s).append (v.target out) part
  write_ok {out : η} {text : String} {s s' : σ} :
    (sys.write out text).run s = (.ok (), s') → v.look s' = (v.look s).append (v.target out) text
  log (text : String) (s : σ) :
    v.look ((sys.log text).run s).2 = (v.look s).append .stderr text

/-! ### Steps of a run -/

section Steps

variable {ε ε' α β : Type}

/-- A step behind another one starts in the state that the first one leads to. -/
theorem bind_run (x : ExceptT ε (StateM σ) α) (f : α → ExceptT ε (StateM σ) β) (s : σ) :
    (x >>= f).run.run s =
      match x.run.run s with
      | (.ok a, s') => (f a).run.run s'
      | (.error e, s') => (.error e, s') := by
  rw [ExceptT.run_bind, StateT.run_bind]
  rcases x.run.run s with ⟨_ | _, s'⟩ <;> rfl

theorem bind_run_eq_ok {x : ExceptT ε (StateM σ) α} {f : α → ExceptT ε (StateM σ) β} {s s' : σ}
    {b : β} :
    (x >>= f).run.run s = (.ok b, s') ↔
      ∃ a s₁, x.run.run s = (.ok a, s₁) ∧ (f a).run.run s₁ = (.ok b, s') := by
  rw [bind_run]
  rcases x.run.run s with ⟨e | a, s₁⟩
  · constructor
    · rintro ⟨⟩
    · rintro ⟨_, _, ⟨⟩, _⟩
  · constructor
    · intro h
      exact ⟨a, s₁, rfl, h⟩
    · rintro ⟨_, _, ⟨⟩, h⟩
      exact h

theorem attempt_run (f : ε → ε') (action : StateM σ (Except ε α)) (s : σ) :
    (attempt f action).run.run s = ((action.run s).1.mapError f, (action.run s).2) := rfl

theorem attempt_run_eq_ok {f : ε → ε'} {action : StateM σ (Except ε α)} {s s' : σ} {a : α} :
    (attempt f action).run.run s = (.ok a, s') ↔ action.run s = (.ok a, s') := by
  rw [attempt_run, Prod.mk.injEq, mapError_eq_ok, Prod.ext_iff]

theorem settle_run_eq_ok {result : Except ε α} {s s' : σ} {a : α} :
    (settle (m := StateM σ) result).run.run s = (.ok a, s') ↔ result = .ok a ∧ s' = s := by
  change (result, s) = (.ok a, s') ↔ _
  rw [Prod.mk.injEq, eq_comm (a := s)]

/-- Nothing is seen of a step but lines of the log. -/
def Quietly (v : View σ η φ) (step : ExceptT ε (StateM σ) α) : Prop :=
  ∀ s, (v.look s).Quiet (v.look (step.run.run s).2)

variable {v : View σ η φ}

theorem Quietly.bind {x : ExceptT ε (StateM σ) α} {f : α → ExceptT ε (StateM σ) β}
    (hx : Quietly v x) (hf : ∀ a, Quietly v (f a)) : Quietly v (x >>= f) := by
  intro s
  have h := hx s
  rw [bind_run]
  generalize x.run.run s = after at h ⊢
  obtain ⟨e | a, s₁⟩ := after
  · exact h
  · exact h.trans (hf a s₁)

theorem quietly_settle (result : Except ε α) : Quietly v (settle result) :=
  fun s => .refl (v.look s)

theorem quietly_attempt {f : ε → ε'} {action : StateM σ (Except ε α)}
    (h : ∀ s, v.look (action.run s).2 = v.look s) : Quietly v (attempt f action) :=
  fun s => .of_eq (h s)

end Steps

/-! ### Reading and logging -/

/-- What a path leads to is opened and read to its end, as this text. -/
def System.Reads (sys : System (StateM σ) ρ η) (s : σ) (path text : String) (s' : σ) : Prop :=
  ∃ file s₁, (sys.openFile path).run s = (.ok file, s₁) ∧
    (sys.readFile file).run s₁ = (.ok text, s')

theorem readText_run_eq_ok {sys : System (StateM σ) ρ η} {path text : String}
    {unreadable : String → RunError} {s s' : σ} :
    (sys.readText path unreadable).run.run s = (.ok text, s') ↔ sys.Reads s path text s' := by
  simp only [System.readText, bind_run_eq_ok, attempt_run_eq_ok, System.Reads]

namespace System.Lawful

variable [DecidableEq φ] {sys : System (StateM σ) ρ η} {v : View σ η φ} (h : sys.Lawful v)
include h

theorem quiet_log (text : String) (s : σ) :
    (v.look s).Quiet (v.look ((sys.log text).run s).2) :=
  h.log text s ▸ (v.look s).quiet_append_stderr text

theorem quietly_log {ε : Type} (text : String) :
    Quietly v (liftM (sys.log text) : ExceptT ε (StateM σ) Unit) :=
  fun s => h.quiet_log text s

theorem quietly_readText (path : String) (unreadable : String → RunError) :
    Quietly v (sys.readText path unreadable) :=
  (quietly_attempt (h.openFile path)).bind fun file => quietly_attempt (h.readFile file)

end System.Lawful

end TernaryRules.CommandLine
