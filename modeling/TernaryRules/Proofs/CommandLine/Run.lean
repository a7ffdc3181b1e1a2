import TernaryRules.Proofs.CommandLine.Arguments
import TernaryRules.Proofs.CommandLine.Session
import TernaryRules.Proofs.Document
import TernaryRules.Proofs.Plan

/-!
# Runs do all or nothing

A job renders the rules that its inputs are compiled to (`Job.Renders`), and which rules these are
depends on the threads, the verbosity and a limit that is only warned of in no way
(`renders_congr`).  On every lawful system, a run that comes so far opens the output of the job and
writes the whole document to it (`Job.Settles`); every other run is quiet, so that no file has
changed and nothing has come out but on standard error (`run_all_or_nothing`).

What a path leads to is for the system to say, and need not be a file.  A run told to write to the
name of its own standard output does so (`run_stdout`).
-/

namespace TernaryRules.CommandLine

variable {σ ρ η φ : Type} {sys : System (StateM σ) ρ η} {v : View σ η φ}

/-! ### The rules of a job -/

/-- What the inputs of a job are compiled to, and the state once this has been logged. -/
def Job.Compiles (j : Job) (sys : System (StateM σ) ρ η) (s : σ) (output : Output) (s' : σ) :
    Prop :=
  ∃ modelText s₁ m tree tableText s₂ table settings,
    sys.Reads s j.input modelText s₁ ∧ Fitted.ofJson modelText = .ok m ∧ m.tree = .ok tree ∧
      sys.Reads s₁ j.domains tableText s₂ ∧ FeatureTable.ofJson tableText = .ok table ∧
        j.settings = .ok settings ∧ compile settings tree table = .ok output ∧
          s' = ((sys.log (logText settings tree table)).run s₂).2

/-- The document with the rules of a job, in its format. -/
def Job.Renders (j : Job) (sys : System (StateM σ) ρ η) (s : σ) (document : String) : Prop :=
  ∃ output s', j.Compiles sys s output s' ∧ document = j.format.document output.rules

namespace Job

variable {j : Job}

theorem runPlaced_eq_ok {α : Type} {r : Json.Reader α} {text : String} {a : α} :
    r.runPlaced text = .ok a ↔ r.run text = .ok a := mapError_eq_ok

theorem parseModel_eq_ok {text : String} {tree : Tree} :
    parseModel text = .ok tree ↔ ∃ m, Fitted.ofJson text = .ok m ∧ m.tree = .ok tree := by
  constructor
  · intro h
    unfold parseModel at h
    split at h
    · cases h
    · next m hm => exact ⟨m, runPlaced_eq_ok.1 hm, mapError_eq_ok.1 h⟩
  · rintro ⟨m, hm, htree⟩
    have hplaced : Fitted.reader.runPlaced text = .ok m := runPlaced_eq_ok.2 hm
    rw [parseModel, hplaced]
    exact mapError_eq_ok.2 htree

theorem parseTable_eq_ok {text : String} {table : FeatureTable} :
    parseTable text = .ok table ↔ FeatureTable.ofJson text = .ok table :=
  mapError_eq_ok.trans runPlaced_eq_ok

theorem inputs_run_eq_ok {s s' : σ} {settings : Settings} {tree : Tree} {table : FeatureTable} :
    (j.inputs sys).run.run s = (.ok (settings, tree, table), s') ↔
      ∃ modelText s₁ tableText, sys.Reads s j.input modelText s₁ ∧
        parseModel modelText = .ok tree ∧ sys.Reads s₁ j.domains tableText s' ∧
          parseTable tableText = .ok table ∧ j.settings = .ok settings := by
  simp only [inputs, bind_run_eq_ok, readText_run_eq_ok, settle_run_eq_ok, mapError_eq_ok]
  constructor
  · rintro ⟨modelText, s₁, hmodel, _, _, ⟨htree, rfl⟩, tableText, _, htext, _, _, ⟨htable, rfl⟩, _,
      _, ⟨hsettings, rfl⟩, h⟩
    cases h
    exact ⟨modelText, _, tableText, hmodel, htree, htext, htable, hsettings⟩
  · rintro ⟨modelText, s₁, tableText, hmodel, htree, htext, htable, hsettings⟩
    exact ⟨modelText, s₁, hmodel, _, _, ⟨htree, rfl⟩, tableText, _, htext, _, _, ⟨htable, rfl⟩, _, _,
      ⟨hsettings, rfl⟩, rfl⟩

/-- What the inputs are compiled to is what a run compiles. -/
theorem compileInputs_run_eq_ok {s s' : σ} {output : Output} :
    (j.compileInputs sys).run.run s = (.ok output, s') ↔ j.Compiles sys s output s' := by
  simp only [compileInputs, bind_run_eq_ok, settle_run_eq_ok, mapError_eq_ok]
  constructor
  · rintro ⟨⟨settings, tree, table⟩, s₂, hinputs, _, _, hlog, hcompile, rfl⟩
    obtain ⟨modelText, s₁, tableText, hmodel, htree, htext, htable, hsettings⟩ :=
      inputs_run_eq_ok.1 hinputs
    obtain ⟨m, hm, htree⟩ := parseModel_eq_ok.1 htree
    exact ⟨modelText, s₁, m, tree, tableText, s₂, table, settings, hmodel, hm, htree, htext,
      parseTable_eq_ok.1 htable, hsettings, hcompile, (congrArg Prod.snd hlog).symm⟩
  · rintro ⟨modelText, s₁, m, tree, tableText, s₂, table, settings, hmodel, hm, htree, htext, htable,
      hsettings, hcompile, rfl⟩
    exact ⟨(settings, tree, table), s₂, inputs_run_eq_ok.2 ⟨modelText, s₁, tableText, hmodel,
      parseModel_eq_ok.2 ⟨m, hm, htree⟩, htext, parseTable_eq_ok.2 htable, hsettings⟩, (), _, rfl,
      hcompile, rfl⟩

/-- The inputs of a job are compiled without a change to the directory. -/
theorem Compiles.directory_eq {s s' : Session} {output : Output}
    (h : j.Compiles Session.system s output s') : s'.directory = s.directory := by
  obtain ⟨_, s₁, _, _, _, s₂, _, _, hmodel, -, -, htable, -, -, -, rfl⟩ := h
  rw [Session.eq_of_reads hmodel, Session.eq_of_reads htable]
  rfl

/-- A zero limit is refused, every other one is kept. -/
theorem settings_eq_ok {s : Settings} (h : j.settings = .ok s) :
    j.limit ≠ some 0 ∧ s.priorityBase = 1 ∧ s.priorityOrder = .ascending ∧
      s.ruleLimit = j.limit ∧ s.limitAction = if j.rejectOverLimit then .reject else .warn := by
  unfold settings Settings.withRuleLimit at h
  split at h
  · cases h
  · next hlimit =>
      cases h
      exact ⟨hlimit, rfl, rfl, rfl, rfl⟩

theorem exists_settings (h : j.limit ≠ some 0) : ∃ s, j.settings = .ok s :=
  ⟨_, if_neg h⟩

end Job

/-! ### What the rules do not depend on -/

/-- Settings that number alike and do not refuse more rules lead to the same rules. -/
theorem compile_rules_of_settings {s s' : Settings} {tree : Tree} {table : FeatureTable}
    (hbase : s'.priorityBase = s.priorityBase) (horder : s'.priorityOrder = s.priorityOrder)
    (hlimit : ∀ n, s.checkLimit n = .ok () → s'.checkLimit n = .ok ()) {output : Output}
    (h : compile s tree table = .ok output) :
    ∃ output', compile s' tree table = .ok output' ∧ output'.rules = output.rules := by
  obtain ⟨p, bodies, hp, hl, hpriorities, hbodies, rfl⟩ := compile_eq_ok.1 h
  obtain ⟨extraction, counts, he, hc, rfl⟩ := plan_eq_ok.1 hp
  have hchecked : s'.checkPriorities (clampedSum counts) = .ok () := by
    rwa [Settings.checkPriorities, hbase]
  have hnumber : ∀ n bodies, number s' n bodies = number s n bodies := fun n bodies => by
    simp only [number, Settings.priority, hbase, horder]
  exact ⟨_, compile_eq_ok.2 ⟨_, bodies, plan_eq_ok.2 ⟨extraction, counts, he, hc, rfl⟩,
    hlimit _ hl, hchecked, hbodies, rfl⟩, hnumber _ _⟩

/-- The jobs have the same inputs and format, and the same limit unless it is one that neither of
them refuses rules for. -/
structure Job.Alike (j j' : Job) : Prop where
  input : j'.input = j.input
  domains : j'.domains = j.domains
  format : j'.format = j.format
  limit : (j'.limit = j.limit ∧ j'.rejectOverLimit = j.rejectOverLimit) ∨
    (j'.limit ≠ some 0 ∧ j.limit ≠ some 0 ∧ j'.rejectOverLimit = false ∧ j.rejectOverLimit = false)

theorem Job.Alike.symm {j j' : Job} (h : j.Alike j') : j'.Alike j where
  input := h.input.symm
  domains := h.domains.symm
  format := h.format.symm
  limit := by
    rcases h.limit with ⟨hlimit, hreject⟩ | ⟨hlimit', hlimit, hreject', hreject⟩
    · exact .inl ⟨hlimit.symm, hreject.symm⟩
    · exact .inr ⟨hlimit, hlimit', hreject, hreject'⟩

theorem Job.Alike.renders {j j' : Job} (h : j.Alike j') {s : σ} {document : String}
    (hj : j.Renders sys s document) : j'.Renders sys s document := by
  obtain ⟨output, _, ⟨modelText, s₁, m, tree, tableText, s₂, table, settings, hmodel, hm, htree,
    htext, htable, hs, hcompile, -⟩, rfl⟩ := hj
  obtain ⟨hne, hbase, horder, hlimit, haction⟩ := Job.settings_eq_ok hs
  have hne' : j'.limit ≠ some 0 := by
    rcases h.limit with ⟨heq, -⟩ | ⟨hne', -⟩
    · rwa [heq]
    · exact hne'
  obtain ⟨settings', hs'⟩ := Job.exists_settings hne'
  obtain ⟨-, hbase', horder', hlimit', haction'⟩ := Job.settings_eq_ok hs'
  have hcheck : ∀ n, settings.checkLimit n = .ok () → settings'.checkLimit n = .ok () := by
    intro n hn
    rw [Settings.checkLimit, hlimit', haction']
    rw [Settings.checkLimit, hlimit, haction] at hn
    rcases h.limit with ⟨heq, hreject⟩ | ⟨-, -, hreject, -⟩
    · rwa [heq, hreject]
    · -- a limit that is only warned of lets every number of rules pass
      rw [hreject]
      cases j'.limit <;> rfl
  obtain ⟨output', hcompile', hrules⟩ := compile_rules_of_settings (hbase'.trans hbase.symm)
    (horder'.trans horder.symm) hcheck hcompile
  refine ⟨output', _, ⟨modelText, s₁, m, tree, tableText, s₂, table, settings', ?_, hm, htree, ?_,
    htable, hs', hcompile', rfl⟩, ?_⟩
  · rwa [h.input]
  · rwa [h.domains]
  · rw [h.format, hrules]

/-- **Threads, verbosity and a limit that is only warned of do not show in the document.** -/
theorem renders_congr {j j' : Job} (h : j.Alike j') (s : σ) (document : String) :
    j.Renders sys s document ↔ j'.Renders sys s document :=
  ⟨h.renders, h.symm.renders⟩

/-! ### Outcomes -/

/-- What a run does with a document that is ready.  If there is an output for it, the document is
written to it, as a whole or, where this fails, up to some place; the output is standard output if
the job names none.  Of a run without an output nothing is seen but lines of the log. -/
def Job.Settles (j : Job) (sys : System (StateM σ) ρ η) (v : View σ η φ) (document : String) (s : σ)
    (code : Nat) (a b : Look φ) : Prop :=
  match (j.openOutput sys).run s with
  | (.error _, _) => code = 1 ∧ a.Quiet b
  | (.ok out, s') =>
      (j.output = none → v.target out = .stdout) ∧
        match (sys.write out document).run s' with
        | (.error _, _) => code = 1 ∧ ∃ part rest, document = part ++ rest ∧
            a.Delivers b part (v.target out)
        | (.ok (), _) => code = 0 ∧ a.Delivers b document (v.target out)

namespace Job

variable {j : Job}

section Lawful

variable [DecidableEq φ] (h : sys.Lawful v)
include h

theorem quietly_inputs (j : Job) : Quietly v (j.inputs sys) := by
  refine (h.quietly_readText _ _).bind fun _ => (quietly_settle _).bind fun _ => ?_
  refine (h.quietly_readText _ _).bind fun _ => (quietly_settle _).bind fun _ => ?_
  exact (quietly_settle _).bind fun settings => fun s => .refl _

theorem quietly_compileInputs (j : Job) : Quietly v (j.compileInputs sys) :=
  (quietly_inputs h j).bind fun _ => (h.quietly_log _).bind fun _ => quietly_settle _

theorem Compiles.quiet {s s' : σ} {output : Output} (hc : j.Compiles sys s output s') :
    (v.look s).Quiet (v.look s') := by
  have hquiet := quietly_compileInputs h j s
  rwa [compileInputs_run_eq_ok.2 hc] at hquiet

/-- A job whose inputs are not compiled fails, and is quiet. -/
theorem perform_of_not_compiles {s : σ} (hnone : ¬ ∃ output s', j.Compiles sys s output s') :
    ∃ e s', (j.perform sys).run.run s = (.error e, s') ∧ (v.look s).Quiet (v.look s') := by
  have hquiet := quietly_compileInputs h j s
  rw [perform, bind_run]
  rcases hrun : (j.compileInputs sys).run.run s with ⟨e | output, s'⟩
  · rw [hrun] at hquiet
    exact ⟨e, s', rfl, hquiet⟩
  · exact absurd ⟨output, s', compileInputs_run_eq_ok.1 hrun⟩ hnone

theorem look_openOutput_error {s s' : σ} {e : FileError}
    (hopen : (j.openOutput sys).run s = (.error e, s')) : v.look s' = v.look s := by
  unfold openOutput at hopen
  split at hopen
  · cases hopen
  · exact h.createFile_error hopen

theorem look_openOutput_ok {s s' : σ} {out : η}
    (hopen : (j.openOutput sys).run s = (.ok out, s')) :
    v.look s' = (v.look s).clear (v.target out) ∧ (j.output = none → v.target out = .stdout) := by
  unfold openOutput at hopen
  split at hopen
  · cases hopen
    rw [h.stdout]
    exact ⟨rfl, fun _ => rfl⟩
  · next path hpath =>
      refine ⟨h.createFile_ok hopen, fun hnone => ?_⟩
      rw [hpath] at hnone
      cases hnone

end Lawful

theorem perform_of_compiles {s s₁ : σ} {output : Output} (hc : j.Compiles sys s output s₁) :
    (j.perform sys).run.run s = (j.deliver sys output).run.run s₁ := by
  rw [perform, bind_run, compileInputs_run_eq_ok.2 hc]

/-- A document that is ready is settled by what opening its output and writing to it come to. -/
theorem deliver_run (j : Job) (sys : System (StateM σ) ρ η) (output : Output) (s : σ) :
    (j.deliver sys output).run.run s =
      match (j.openOutput sys).run s with
      | (.error e, s₁) => (.error (.file e), s₁)
      | (.ok out, s₁) =>
          match (sys.write out (j.format.document output.rules)).run s₁ with
          | (.error e, s₂) => (.error (.write e), s₂)
          | (.ok (), s₂) => (.ok (), ((sys.log (j.closing output)).run s₂).2) := by
  rw [deliver, bind_run, attempt_run]
  rcases (j.openOutput sys).run s with ⟨e | out, s₁⟩
  · rfl
  dsimp only [Except.mapError]
  rw [bind_run, attempt_run]
  rcases (sys.write out (j.format.document output.rules)).run s₁ with ⟨e | ⟨⟩, s₂⟩
  · rfl
  · rfl

end Job

/-! ### Runs -/

/-- The formats that can be asked for have no end of line in their words. -/
theorem format?_singleLine {name : String} {f : LineFormat} (h : Options.format? name = some f) :
    f.SingleLine := by
  unfold Options.format? at h
  split_ifs at h <;> cases h <;> decide

theorem Asks.singleLine {args : List String} {j : Job} (h : Asks args j) :
    j.format.SingleLine := by
  obtain ⟨phrases, settings, -, hphrases, hj⟩ := h
  rw [hj.format]
  cases hlast : Setting.last? Setting.format? settings with
  | none => exact (by decide : tableAdd.SingleLine)
  | some f =>
      obtain ⟨s, hs, hf⟩ := List.mem_filterMap.1 (List.mem_of_getLast? hlast)
      obtain ⟨i, hi⟩ := List.getElem?_of_mem hs
      obtain ⟨phrase, -, hphrase⟩ := exists_getElem?_of_forall₂ hphrases hi
      cases hphrase with
      | format hname => exact Option.some.inj hf ▸ format?_singleLine hname
      | _ => cases hf

/-- A run carries out the job that is asked for; its code tells whether the job is done. -/
theorem run_of_asks {args : List String} {j : Job} (h : Asks args j)
    (sys : System (StateM σ) ρ η) (s : σ) :
    (sys.run args).run s =
      match (j.perform sys).run.run s with
      | (.error e, s') => (1, ((sys.log s!"error: {e.message}\n").run s').2)
      | (.ok (), s') => (0, s') := by
  rw [System.run, request_eq_job_iff.2 h]
  dsimp only
  rw [StateT.run_bind]
  rcases (j.perform sys).run.run s with ⟨e | ⟨⟩, s'⟩
  · rfl
  · rfl

theorem run_of_asksHelp {args : List String} (h : AsksHelp args) (sys : System (StateM σ) ρ η)
    (s : σ) : (sys.run args).run s = (0, ((sys.log s!"{usage}\n").run s).2) := by
  rw [System.run, request_eq_help_iff.2 h]
  rfl

/-- Arguments that ask for nothing are refused. -/
theorem run_of_not_asks {args : List String} (hhelp : ¬ AsksHelp args) (hjob : ¬ ∃ j, Asks args j)
    (sys : System (StateM σ) ρ η) (s : σ) :
    ∃ text, (sys.run args).run s = (2, ((sys.log text).run s).2) := by
  cases hrequest : request args with
  | error e =>
      refine ⟨s!"error: {e.message}\n\n{usage}\n", ?_⟩
      rw [System.run, hrequest]
      rfl
  | ok request =>
      cases request with
      | help => exact absurd (request_eq_help_iff.1 hrequest) hhelp
      | job j => exact absurd ⟨j, request_eq_job_iff.1 hrequest⟩ hjob

/-- Code 2 is for arguments that ask for nothing. -/
theorem run_code_eq_two_iff {args : List String} {s : σ} :
    ((sys.run args).run s).1 = 2 ↔ ¬ AsksHelp args ∧ ¬ ∃ j, Asks args j := by
  constructor
  · refine fun hcode => ⟨fun hhelp => ?_, fun ⟨j, hj⟩ => ?_⟩
    · rw [run_of_asksHelp hhelp] at hcode
      exact absurd hcode (by simp)
    · rw [run_of_asks hj] at hcode
      generalize (j.perform sys).run.run s = performed at hcode
      obtain ⟨e | ⟨⟩, s'⟩ := performed <;> exact absurd hcode (by simp)
  · rintro ⟨hhelp, hjob⟩
    obtain ⟨text, htext⟩ := run_of_not_asks hhelp hjob sys s
    rw [htext]

section Lawful

variable [DecidableEq φ] (h : sys.Lawful v) {args : List String} {j : Job} (hasks : Asks args j)
include h hasks

/-- A job whose inputs are not compiled fails, and nothing is seen of it but its log. -/
theorem run_of_not_compiles {s : σ} (hnone : ¬ ∃ output s', j.Compiles sys s output s') :
    ((sys.run args).run s).1 = 1 ∧
      (v.look s).Quiet (v.look ((sys.run args).run s).2) := by
  obtain ⟨e, s', hperform, hquiet⟩ := Job.perform_of_not_compiles h hnone
  rw [run_of_asks hasks, hperform]
  exact ⟨rfl, hquiet.trans (h.quiet_log _ s')⟩

/-- A job whose inputs are compiled settles the document of its rules. -/
theorem run_of_compiles {s s₁ : σ} {output : Output} (hc : j.Compiles sys s output s₁) :
    j.Settles sys v (j.format.document output.rules) s₁ ((sys.run args).run s).1 (v.look s)
      (v.look ((sys.run args).run s).2) := by
  have hquiet := hc.quiet h
  rw [run_of_asks hasks, Job.perform_of_compiles hc, Job.deliver_run, Job.Settles]
  rcases hopen : (j.openOutput sys).run s₁ with ⟨e | out, s₂⟩
  · have hsame := Look.Quiet.of_eq (Job.look_openOutput_error h hopen)
    exact ⟨rfl, hquiet.trans (hsame.trans (h.quiet_log _ s₂))⟩
  obtain ⟨hclear, hstdout⟩ := Job.look_openOutput_ok h hopen
  refine ⟨hstdout, ?_⟩
  dsimp only
  rcases hwrite : (sys.write out (j.format.document output.rules)).run s₂ with ⟨e | ⟨⟩, s₃⟩
  · obtain ⟨part, rest, hdocument, hpart⟩ := h.write_error hwrite
    refine ⟨rfl, part, rest, hdocument, hquiet.delivers ?_⟩
    rw [← hclear, ← hpart]
    exact h.quiet_log _ s₃
  · refine ⟨rfl, hquiet.delivers ?_⟩
    rw [← hclear, ← h.write_ok hwrite]
    exact h.quiet_log _ s₃

end Lawful

/-- **A run does all or nothing.**  On every lawful system, arguments that are refused lead to code
2, a request for help and a job that is done to code 0, and a job that fails to code 1.  A job whose
inputs are compiled settles the document of its rules, a line for each; of every other run nothing is
seen but lines of the log.  The document depends on nothing but the inputs, the format and a limit
that rules are refused for. -/
theorem run_all_or_nothing [DecidableEq φ] (h : sys.Lawful v) (args : List String) (s : σ) :
    ∃ code s', (sys.run args).run s = (code, s') ∧
      (code = 2 ↔ ¬ AsksHelp args ∧ ¬ ∃ j, Asks args j) ∧
      (code = 2 → (v.look s).Quiet (v.look s')) ∧
      (AsksHelp args → code = 0 ∧ (v.look s).Quiet (v.look s')) ∧
      ∀ j, Asks args j →
        ((¬ ∃ output s₁, j.Compiles sys s output s₁) →
          code = 1 ∧ (v.look s).Quiet (v.look s')) ∧
        ∀ output s₁, j.Compiles sys s output s₁ →
          j.Settles sys v (j.format.document output.rules) s₁ code (v.look s) (v.look s') ∧
          (j.format.document output.rules).toList.splitOn '\n' =
            output.rules.map j.format.line ++ [[]] ∧
          ∀ j', j.Alike j' → j'.Renders sys s (j.format.document output.rules) := by
  refine ⟨((sys.run args).run s).1, ((sys.run args).run s).2, rfl, run_code_eq_two_iff,
    fun hcode => ?_, fun hhelp => ?_, fun j hj => ?_⟩
  · obtain ⟨hhelp, hjob⟩ := run_code_eq_two_iff.1 hcode
    obtain ⟨text, htext⟩ := run_of_not_asks hhelp hjob sys s
    rw [htext]
    exact h.quiet_log text s
  · rw [run_of_asksHelp hhelp]
    exact ⟨rfl, h.quiet_log _ s⟩
  · refine ⟨run_of_not_compiles h hj, fun output s₁ hc => ⟨run_of_compiles h hj hc, ?_, ?_⟩⟩
    · exact LineFormat.splitOn_document hj.singleLine output.rules
    · exact fun j' halike => (renders_congr halike s _).1 ⟨output, s₁, hc, rfl⟩

/-- A classifier with one class and a table with one feature. -/
def singleLeaf : Directory := .ofFiles [
  ("model.json", "\x7b\"children_left\": [-1], \"children_right\": [-1], \"feature\": [-2], " ++
    "\"threshold\": [-2.0], \"value\": [[[3.0]]], \"classes\": [4.0]\x7d"),
  ("domains.json", "\x7b\"features\": [\x7b\"name\": \"x\", \"bits\": 5\x7d]\x7d")]

/-- Arguments to write the rules of `singleLeaf` to a path. -/
def writeTo (path : String) : List String :=
  ["-i", "model.json", "-d", "domains.json", "-o", path]

/-- The job of `writeTo`. -/
def writeToJob (path : String) : Job :=
  ⟨"model.json", "domains.json", some path, tableAdd, none, false, none, .warning⟩

theorem asks_writeTo (path : String) : Asks (writeTo path) (writeToJob path) :=
  ⟨[["-i", "model.json"], ["-d", "domains.json"], ["-o", path]],
    [.input "model.json", .domains "domains.json", .output path], rfl,
    .cons (.input _ (.inl rfl)) (.cons (.domains _ (.inl rfl)) (.cons (.output _ (.inl rfl)) .nil)),
    ⟨rfl, rfl, rfl, rfl, rfl, rfl, rfl, rfl⟩⟩

/-- What a run leaves behind that is told to write to the name of its own standard output. -/
theorem run_writeTo_stdout :
    run (writeTo "/dev/stdout") singleLeaf =
      ⟨0, "table_add MyIngress.ml_code set_result 0->0 => 4 1\n",
        "1 rules from 1 leaves (0 unreachable, max 1 rules per leaf)\n" ++
          "Rules written to: /dev/stdout\n", singleLeaf⟩ := by
  decide +kernel

/-- Where the rules go to plays no part in their compilation. -/
theorem exists_compiles_singleLeaf (path : String) :
    ∃ output s, (writeToJob path).Compiles Session.system (.start singleLeaf) output s := by
  by_contra hnone
  have hcode := run_of_not_compiles Session.system_lawful (asks_writeTo "/dev/stdout") hnone
  rw [← Session.code_run, run_writeTo_stdout] at hcode
  cases hcode.1

/-- A file that is not there yet is created with the document. -/
theorem run_all_or_nothing_singleLeaf :
    ∃ output s s', Asks (writeTo "rules.txt") (writeToJob "rules.txt") ∧
      (writeToJob "rules.txt").Compiles Session.system (.start singleLeaf) output s ∧
      (Session.system.run (writeTo "rules.txt")).run (.start singleLeaf) = (0, s') ∧
      s'.stdout = "" ∧
      s'.directory.text? ["rules.txt"] = some (tableAdd.document output.rules) := by
  obtain ⟨output, s, hcompiles⟩ := exists_compiles_singleLeaf "rules.txt"
  have hcreate : s.directory.createFile "rules.txt" = .ok (.file ["rules.txt"]) := by
    rw [hcompiles.directory_eq]
    decide +kernel
  have hopen : ((writeToJob "rules.txt").openOutput Session.system).run s =
      (.ok (.file ["rules.txt"]), s.clear (.file ["rules.txt"])) := by
    change (Session.system.createFile "rules.txt").run s = _
    rw [Session.createFile_run, hcreate]
  obtain ⟨code, s', hrun, -, -, -, hjobs⟩ :=
    run_all_or_nothing Session.system_lawful (writeTo "rules.txt") (.start singleLeaf)
  obtain ⟨hsettles, -⟩ := (hjobs _ (asks_writeTo "rules.txt")).2 output s hcompiles
  rw [Job.Settles, hopen] at hsettles
  obtain ⟨-, hcode, htext, -, -, hstdout⟩ := hsettles
  exact ⟨output, s, s', asks_writeTo "rules.txt", hcompiles, hcode ▸ hrun, hstdout, htext⟩

/-- The name of standard output is accepted as that of a file, and the document goes there. -/
theorem run_stdout :
    Session.system.Lawful Session.view ∧
    Asks (writeTo "/dev/stdout") (writeToJob "/dev/stdout") ∧
    (∃ output s, (writeToJob "/dev/stdout").Compiles Session.system (.start singleLeaf) output
      s) ∧
    singleLeaf.createFile "/dev/stdout" = .ok .stdout ∧
    (run (writeTo "/dev/stdout") singleLeaf).code = 0 ∧
    (run (writeTo "/dev/stdout") singleLeaf).stdout ≠ "" := by
  rw [run_writeTo_stdout]
  exact ⟨Session.system_lawful, asks_writeTo _, exists_compiles_singleLeaf _, by decide +kernel, rfl,
    by decide⟩

end TernaryRules.CommandLine
