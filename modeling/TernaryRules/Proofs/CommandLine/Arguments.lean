import Mathlib.Data.List.Forall2
import Mathlib.Data.List.Induction
import TernaryRules.CommandLine.Options
import TernaryRules.Proofs.Outcome

/-!
# What arguments ask for

An argument list is cut into phrases, each a flag with its value or a flag that stands alone
(`Phrase`).  The value is the next argument, whatever it looks like, so the cut is that of a reading
from left to right.  A list that is all phrases asks for the job whose options are the last ones
said (`Asks`); a list with phrases up to a request for help asks for help, whatever follows
(`AsksHelp`).  Arguments are read exactly so, and all others are refused (`request_eq_job_iff`,
`request_eq_help_iff`).
-/

namespace TernaryRules.CommandLine

/-- What a phrase sets. -/
inductive Setting where
  | input (path : String)
  | domains (path : String)
  | output (path : String)
  | format (f : LineFormat)
  | limit (n : Nat)
  | threads (n : Nat)
  | reject
  | verbosity (v : Verbosity)

/-- The arguments that set something. -/
inductive Phrase : List String → Setting → Prop where
  | input {flag : String} (path : String) : flag = "-i" ∨ flag = "--input" →
      Phrase [flag, path] (.input path)
  | domains {flag : String} (path : String) : flag = "-d" ∨ flag = "--domains" →
      Phrase [flag, path] (.domains path)
  | output {flag : String} (path : String) : flag = "-o" ∨ flag = "--output" →
      Phrase [flag, path] (.output path)
  | format {name : String} {f : LineFormat} : Options.format? name = some f →
      Phrase ["--format", name] (.format f)
  | limit {raw : String} {n : Nat} : Options.number? raw = some n →
      Phrase ["--limit", raw] (.limit n)
  | threads {raw : String} {n : Nat} : Options.number? raw = some n → n ≠ 0 →
      Phrase ["--threads", raw] (.threads n)
  | reject : Phrase ["--reject-over-limit"] .reject
  | info : Phrase ["-v"] (.verbosity .info)
  | debug : Phrase ["-vv"] (.verbosity .debug)

namespace Setting

def input? : Setting → Option String
  | input path => some path
  | _ => none

def domains? : Setting → Option String
  | domains path => some path
  | _ => none

def output? : Setting → Option String
  | output path => some path
  | _ => none

def format? : Setting → Option LineFormat
  | format f => some f
  | _ => none

def limit? : Setting → Option Nat
  | limit n => some n
  | _ => none

def threads? : Setting → Option Nat
  | threads n => some n
  | _ => none

def reject? : Setting → Option Unit
  | reject => some ()
  | _ => none

def verbosity? : Setting → Option Verbosity
  | verbosity v => some v
  | _ => none

/-- The last value of one kind that is set. -/
def last? {α : Type} (get : Setting → Option α) (settings : List Setting) : Option α :=
  (settings.filterMap get).getLast?

/-- The options with one more setting. -/
def apply (o : Options) : Setting → Options
  | input path => { o with input := some path }
  | domains path => { o with domains := some path }
  | output path => { o with output := some path }
  | format f => { o with format := f }
  | limit n => { o with limit := some n }
  | threads n => { o with threads := some n }
  | reject => { o with rejectOverLimit := true }
  | verbosity v => { o with verbosity := v }

end Setting

/-- The job has the last value of each kind; both inputs have to be there. -/
structure Described (settings : List Setting) (j : Job) : Prop where
  input : Setting.last? Setting.input? settings = some j.input
  domains : Setting.last? Setting.domains? settings = some j.domains
  output : j.output = Setting.last? Setting.output? settings
  format : j.format = (Setting.last? Setting.format? settings).getD tableAdd
  limit : j.limit = Setting.last? Setting.limit? settings
  rejectOverLimit : j.rejectOverLimit = (Setting.last? Setting.reject? settings).isSome
  threads : j.threads = Setting.last? Setting.threads? settings
  verbosity : j.verbosity = (Setting.last? Setting.verbosity? settings).getD .warning

/-- The arguments are phrases that describe a job. -/
def Asks (args : List String) (j : Job) : Prop :=
  ∃ phrases settings, args = phrases.flatten ∧ List.Forall₂ Phrase phrases settings ∧
    Described settings j

/-- The arguments are phrases up to a request for help. -/
def AsksHelp (args : List String) : Prop :=
  ∃ phrases settings flag rest, args = phrases.flatten ++ flag :: rest ∧
    List.Forall₂ Phrase phrases settings ∧ (flag = "-h" ∨ flag = "--help")

/-! ### One phrase -/

theorem read_value {o o' : Options} {flag : Options.Valued} {arg value : String}
    (hflag : Options.Valued.ofArg? arg = some flag) (h : o.set flag arg value = .ok o')
    (rest : List String) : o.read (arg :: value :: rest) = o'.read rest := by
  rw [Options.read, hflag]
  dsimp only
  rw [h]

/-- A phrase is read first, on top of what has been read. -/
theorem read_phrase {phrase : List String} {s : Setting} (h : Phrase phrase s) (o : Options)
    (rest : List String) : o.read (phrase ++ rest) = (s.apply o).read rest := by
  cases h with
  | input path hflag => rcases hflag with rfl | rfl <;> exact read_value rfl rfl rest
  | domains path hflag => rcases hflag with rfl | rfl <;> exact read_value rfl rfl rest
  | output path hflag => rcases hflag with rfl | rfl <;> exact read_value rfl rfl rest
  | format hf => exact read_value rfl (by rw [Options.set, hf]; rfl) rest
  | limit hn => exact read_value rfl (by rw [Options.set, hn]; rfl) rest
  | threads hn hpos =>
      obtain ⟨n, rfl⟩ := Nat.exists_eq_succ_of_ne_zero hpos
      exact read_value rfl (by rw [Options.set, hn]; rfl) rest
  | reject => rfl
  | info => rfl
  | debug => rfl

/-- The ways to write a flag. -/
def Options.Valued.names : Options.Valued → List String
  | input => ["-i", "--input"]
  | domains => ["-d", "--domains"]
  | output => ["-o", "--output"]
  | format => ["--format"]
  | limit => ["--limit"]
  | threads => ["--threads"]

theorem mem_names_of_ofArg? {arg : String} {flag : Options.Valued}
    (h : Options.Valued.ofArg? arg = some flag) : arg ∈ flag.names := by
  unfold Options.Valued.ofArg? at h
  split_ifs at h <;> cases h <;> simp [Options.Valued.names, *]

/-- A value that is accepted makes a phrase with its flag. -/
theorem exists_phrase_of_set {o o' : Options} {flag : Options.Valued} {arg value : String}
    (hflag : Options.Valued.ofArg? arg = some flag) (h : o.set flag arg value = .ok o') :
    ∃ s, Phrase [arg, value] s ∧ o' = s.apply o := by
  have hnames := mem_names_of_ofArg? hflag
  cases flag with
  | input =>
      cases h
      exact ⟨.input value, .input value (by simpa [Options.Valued.names] using hnames), rfl⟩
  | domains =>
      cases h
      exact ⟨.domains value, .domains value (by simpa [Options.Valued.names] using hnames), rfl⟩
  | output =>
      cases h
      exact ⟨.output value, .output value (by simpa [Options.Valued.names] using hnames), rfl⟩
  | format =>
      obtain rfl : arg = "--format" := List.mem_singleton.1 hnames
      rw [Options.set] at h
      split at h
      · next f hf =>
          cases h
          exact ⟨.format f, .format hf, rfl⟩
      · cases h
  | limit =>
      obtain rfl : arg = "--limit" := List.mem_singleton.1 hnames
      rw [Options.set] at h
      split at h
      · next n hn =>
          cases h
          exact ⟨.limit n, .limit hn, rfl⟩
      · cases h
  | threads =>
      obtain rfl : arg = "--threads" := List.mem_singleton.1 hnames
      rw [Options.set] at h
      split at h
      · next n hn =>
          cases h
          exact ⟨.threads (n + 1), .threads hn n.succ_ne_zero, rfl⟩
      · cases h

theorem exists_phrase_of_switch {o o' : Options} {arg : String} (h : o.switch? arg = some o') :
    ∃ s, Phrase [arg] s ∧ o' = s.apply o := by
  unfold Options.switch? at h
  split at h
  · next harg =>
      cases h
      exact ⟨.reject, harg ▸ Phrase.reject, rfl⟩
  · split at h
    · next harg =>
        cases h
        exact ⟨.verbosity .info, harg ▸ Phrase.info, rfl⟩
    · split at h
      · next harg =>
          cases h
          exact ⟨.verbosity .debug, harg ▸ Phrase.debug, rfl⟩
      · cases h

/-! ### All phrases -/

theorem read_phrases {phrases : List (List String)} {settings : List Setting}
    (h : List.Forall₂ Phrase phrases settings) (o : Options) (rest : List String) :
    o.read (phrases.flatten ++ rest) = (settings.foldl Setting.apply o).read rest := by
  induction h generalizing o with
  | nil => rfl
  | cons hphrase _ ih =>
      rw [List.flatten_cons, List.append_assoc, read_phrase hphrase, ih, List.foldl_cons]

/-- The arguments are phrases up to their end or up to a request for help. -/
def ReadAs (o : Options) (args : List String) (result : Option Options) : Prop :=
  ∃ phrases settings, List.Forall₂ Phrase phrases settings ∧
    ((args = phrases.flatten ∧ result = some (settings.foldl Setting.apply o)) ∨
      ∃ flag rest, args = phrases.flatten ++ flag :: rest ∧ (flag = "-h" ∨ flag = "--help") ∧
        result = none)

theorem ReadAs.cons {o : Options} {phrase rest : List String} {s : Setting}
    {result : Option Options} (hphrase : Phrase phrase s) (h : ReadAs (s.apply o) rest result) :
    ReadAs o (phrase ++ rest) result := by
  obtain ⟨phrases, settings, hphrases, hargs⟩ := h
  refine ⟨phrase :: phrases, s :: settings, .cons hphrase hphrases, ?_⟩
  rcases hargs with ⟨rfl, rfl⟩ | ⟨flag, rest, rfl, hflag, rfl⟩
  · exact .inl ⟨rfl, rfl⟩
  · exact .inr ⟨flag, rest, (List.append_assoc _ _ _).symm, hflag, rfl⟩

/-- Reading cuts the arguments into phrases. -/
theorem read_eq_ok_iff {o : Options} {args : List String} {result : Option Options} :
    o.read args = .ok result ↔ ReadAs o args result := by
  constructor
  · intro h
    fun_induction Options.read o args with
    | case1 o =>
        cases h
        exact ⟨[], [], .nil, .inl ⟨rfl, rfl⟩⟩
    | case2 => cases h
    | case3 => cases h
    | case4 o arg flag hflag value rest o' hset ih =>
        obtain ⟨s, hphrase, rfl⟩ := exists_phrase_of_set hflag hset
        exact (ih h).cons hphrase
    | case5 o arg rest _ o' hswitch ih =>
        obtain ⟨s, hphrase, rfl⟩ := exists_phrase_of_switch hswitch
        exact (ih h).cons hphrase
    | case6 o arg rest _ _ hhelp =>
        cases h
        exact ⟨[], [], .nil, .inr ⟨arg, rest, rfl, hhelp, rfl⟩⟩
    | case7 => cases h
  · rintro ⟨phrases, settings, hphrases, ⟨rfl, rfl⟩ | ⟨flag, rest, rfl, hflag, rfl⟩⟩
    · have hread := read_phrases hphrases o []
      rwa [List.append_nil] at hread
    · rw [read_phrases hphrases]
      rcases hflag with rfl | rfl <;> rfl

/-! ### The last values -/

theorem last?_append_singleton {α : Type} (get : Setting → Option α) (settings : List Setting)
    (s : Setting) :
    Setting.last? get (settings ++ [s]) = (get s).or (Setting.last? get settings) := by
  rw [Setting.last?, Setting.last?, List.filterMap_append, List.getLast?_append]
  cases h : get s <;> simp [h]

/-- The last settings make the options. -/
theorem foldl_apply (settings : List Setting) :
    settings.foldl Setting.apply .none =
      { input := Setting.last? Setting.input? settings
        domains := Setting.last? Setting.domains? settings
        output := Setting.last? Setting.output? settings
        format := (Setting.last? Setting.format? settings).getD tableAdd
        limit := Setting.last? Setting.limit? settings
        rejectOverLimit := (Setting.last? Setting.reject? settings).isSome
        threads := Setting.last? Setting.threads? settings
        verbosity := (Setting.last? Setting.verbosity? settings).getD .warning } := by
  induction settings using List.reverseRecOn with
  | nil => rfl
  | append_singleton settings s ih =>
      rw [List.foldl_append, ih]
      simp only [last?_append_singleton]
      cases s <;> rfl

theorem job_eq_ok_iff {settings : List Setting} {j : Job} :
    (settings.foldl Setting.apply .none).job = .ok j ↔ Described settings j := by
  rw [foldl_apply, Options.job]
  dsimp only
  constructor
  · intro h
    split at h
    · cases h
    · cases h
    · next input domains hinput hdomains =>
        cases h
        exact ⟨hinput, hdomains, rfl, rfl, rfl, rfl, rfl, rfl⟩
  · rintro ⟨hinput, hdomains, houtput, hformat, hlimit, hreject, hthreads, hverbosity⟩
    rw [hinput, hdomains, ← houtput, ← hformat, ← hlimit, ← hreject, ← hthreads, ← hverbosity]

/-- **A job is asked for by phrases alone**, and has the last value of each kind. -/
theorem request_eq_job_iff {args : List String} {j : Job} :
    request args = .ok (.job j) ↔ Asks args j := by
  constructor
  · intro h
    unfold request at h
    split at h
    · cases h
    · cases h
    · next o hread =>
        obtain ⟨phrases, settings, hphrases, ⟨hargs, ho⟩ | ⟨_, _, _, _, ⟨⟩⟩⟩ :=
          read_eq_ok_iff.1 hread
        cases ho
        obtain ⟨j', hj, hrequest⟩ := map_eq_ok.1 h
        cases hrequest
        exact ⟨phrases, settings, hargs, hphrases, job_eq_ok_iff.1 hj⟩
  · rintro ⟨phrases, settings, hargs, hphrases, hj⟩
    have hread : Options.none.read args = .ok (some (settings.foldl Setting.apply .none)) :=
      read_eq_ok_iff.2 ⟨phrases, settings, hphrases, .inl ⟨hargs, rfl⟩⟩
    rw [request, hread]
    dsimp only
    rw [job_eq_ok_iff.2 hj]
    rfl

/-- **Help is asked for behind phrases**, whatever follows. -/
theorem request_eq_help_iff {args : List String} :
    request args = .ok .help ↔ AsksHelp args := by
  constructor
  · intro h
    unfold request at h
    split at h
    · cases h
    · next hread =>
        obtain ⟨phrases, settings, hphrases, ⟨_, ⟨⟩⟩ | ⟨flag, rest, hargs, hflag, -⟩⟩ :=
          read_eq_ok_iff.1 hread
        exact ⟨phrases, settings, flag, rest, hargs, hphrases, hflag⟩
    · next o _ =>
        cases hj : o.job <;> rw [hj] at h <;> cases h
  · rintro ⟨phrases, settings, flag, rest, hargs, hphrases, hflag⟩
    have hread : Options.none.read args = .ok none :=
      read_eq_ok_iff.2 ⟨phrases, settings, hphrases, .inr ⟨flag, rest, hargs, hflag, rfl⟩⟩
    rw [request, hread]

end TernaryRules.CommandLine
