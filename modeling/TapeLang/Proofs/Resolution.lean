import TapeLang.Proofs.Numerals
import TapeLang.Proofs.Trimming
import TapeLang.Settings

/-! Where settings come from. A flag decides its setting alone; without one the variable
does, by the value that its trimmed text stands for. A variable that is not set or
blank leaves the default, and the first that stands for nothing is reported. -/
namespace TapeLang

/-- What the texts of a setting stand for, and what is said of one that stands for nothing. -/
structure Format (α : Type) where
  Means : String → α → Prop
  Objection : String → String → Prop

def modeFormat : Format OutputMode where
  Means text mode := Text.lowercase text = mode.name
  Objection text reason :=
    reason = "invalid output mode '" ++ Text.lowercase text ++ "', must be 'line' or 'raw'"

def numberFormat : Format Nat where
  Means text n := Text.Numeral.Spells text.toList n
  Objection text reason :=
    (Text.Numeral.Overflows text.toList ∧ reason = "number too large to fit in target type") ∨
    (¬ Text.Numeral.Overflows text.toList ∧ reason = "invalid digit found in string")

namespace Format

variable {α : Type} (f : Format α) (flag : Option α) (value : Option String)

inductive Found : Option String → Option α → Prop where
  | unset : Found none none
  | blank {text : String} (h : Text.trim text = "") : Found (some text) none
  | meant {text : String} {a : α} (hne : Text.trim text ≠ "") (h : f.Means (Text.trim text) a) :
      Found (some text) (some a)

def Settles (result : Option α) : Prop :=
  match flag with
  | some a => result = some a
  | none => f.Found value result

def Accepts : Prop :=
  flag = none → value = none ∨
    ∃ text, value = some text ∧ (Text.trim text = "" ∨ ∃ a, f.Means (Text.trim text) a)

theorem accepts_iff_exists_settles :
    f.Accepts flag value ↔ ∃ result, f.Settles flag value result := by
  cases flag with
  | some a => simp [Accepts, Settles]
  | none =>
    constructor
    · intro h
      obtain rfl | ⟨text, rfl, hblank | ⟨a, hmeans⟩⟩ := h rfl
      · exact ⟨none, .unset⟩
      · exact ⟨none, .blank hblank⟩
      · by_cases hblank : Text.trim text = ""
        · exact ⟨none, .blank hblank⟩
        · exact ⟨some a, .meant hblank hmeans⟩
    · rintro ⟨result, hfound⟩ _
      cases hfound with
      | unset => exact .inl rfl
      | blank h => exact .inr ⟨_, rfl, .inl h⟩
      | meant _ h => exact .inr ⟨_, rfl, .inr ⟨_, h⟩⟩

/-- There is no flag and the variable stands for nothing, which the error says of its
value as it was found. -/
def Rejects (name : String) (e : SettingError) : Prop :=
  flag = none ∧ ∃ text, value = some text ∧ Text.trim text ≠ "" ∧
    (¬ ∃ a, f.Means (Text.trim text) a) ∧
    e.variableName = name ∧ e.value = text ∧ f.Objection (Text.trim text) e.reason

/-- A reader finds what a text stands for, or objects as the format does. Only trimmed
texts that are not empty come to it. -/
structure ReadBy (read : String → Except String α) : Prop where
  ok : ∀ {text : String}, Text.trim text = text → ∀ {a}, read text = .ok a ↔ f.Means text a
  error : ∀ {text : String}, Text.trim text = text → text ≠ "" →
    ∀ {reason}, read text = .error reason → f.Objection text reason

end Format

section Readers

variable {α ε ε' : Type} {x : Except ε α} {g : ε → ε'}

theorem mapError_eq_ok_iff {a : α} : x.mapError g = .ok a ↔ x = .ok a := by
  cases x <;> simp [Except.mapError]

theorem mapError_eq_error_iff {e : ε'} :
    x.mapError g = .error e ↔ ∃ cause, x = .error cause ∧ g cause = e := by
  cases x <;> simp [Except.mapError]

end Readers

theorem OutputMode.parse_eq_ok_iff {text : String} {mode : OutputMode} :
    parse text = .ok mode ↔ Text.lowercase (Text.trim text) = mode.name := by
  unfold parse
  split
  next hline => cases mode <;> simp [hline, name]
  next hraw => cases mode <;> simp [hraw, name]
  next hline hraw =>
    refine iff_of_false (by simp) ?_
    cases mode with
    | line => exact hline
    | raw => exact hraw

theorem OutputMode.name_of_parse_error {text : String} {e : UnknownOutputMode}
    (h : parse text = .error e) : e.name = Text.lowercase (Text.trim text) := by
  unfold parse at h
  split at h
  · simp at h
  · simp at h
  · exact (congrArg UnknownOutputMode.name (Except.error.inj h)).symm

theorem modeFormat_readBy : modeFormat.ReadBy Settings.readMode where
  ok := by
    intro text htrim mode
    rw [Settings.readMode, mapError_eq_ok_iff, OutputMode.parse_eq_ok_iff, htrim]
    rfl
  error := by
    intro text htrim _ reason hreason
    obtain ⟨e, hparse, rfl⟩ := mapError_eq_error_iff.mp hreason
    have hname := OutputMode.name_of_parse_error hparse
    rw [htrim] at hname
    exact congrArg (fun name => "invalid output mode '" ++ name ++ "', must be 'line' or 'raw'")
      hname

theorem numberFormat_readBy : numberFormat.ReadBy Settings.readNumber where
  ok := by
    intro text _ n
    rw [Settings.readNumber, mapError_eq_ok_iff]
    exact Text.Numeral.parseChars_eq_ok_iff
  error := by
    intro text _ hne reason hreason
    have hchars : text.toList ≠ [] := by simpa using hne
    obtain ⟨e, hparse, rfl⟩ := mapError_eq_error_iff.mp hreason
    cases Text.Numeral.faults_of_parseChars hchars hparse with
    | tooLarge hlarge => exact .inl ⟨hlarge, rfl⟩
    | invalidDigit hsmall => exact .inr ⟨hsmall, rfl⟩

namespace Settings

section OneSetting

variable {α : Type} {f : Format α} {read : String → Except String α} {flag : Option α}
  {env : Environment} {name : String}

theorem lookup_of_found (hread : f.ReadBy read) {result : Option α}
    (h : f.Found (env name) result) : lookup env name read = .ok result := by
  unfold lookup
  generalize env name = value at h
  cases h with
  | unset => rfl
  | blank hblank => simp [hblank]
  | meant hne hmeans =>
    have hok := (hread.ok (Text.trim_trim _)).mpr hmeans
    simp [hne, hok]

theorem lookup_finds_or_rejects (hread : f.ReadBy read) :
    (∃ result, lookup env name read = .ok result ∧ f.Found (env name) result) ∨
    (∃ e, lookup env name read = .error e ∧ f.Rejects none (env name) name e) := by
  cases hvalue : env name with
  | none => exact .inl ⟨none, by simp [lookup, hvalue], .unset⟩
  | some text =>
    by_cases hblank : Text.trim text = ""
    · exact .inl ⟨none, by simp [lookup, hvalue, hblank], .blank hblank⟩
    · cases hresult : read (Text.trim text) with
      | ok a =>
        have hmeans := (hread.ok (Text.trim_trim text)).mp hresult
        exact .inl ⟨some a, by simp [lookup, hvalue, hblank, hresult], .meant hblank hmeans⟩
      | error reason =>
        have hnone : ¬ ∃ a, f.Means (Text.trim text) a := by
          rintro ⟨a, hmeans⟩
          have hok := (hread.ok (Text.trim_trim text)).mpr hmeans
          rw [hresult] at hok
          cases hok
        have hreason := hread.error (Text.trim_trim text) hblank hresult
        exact .inr ⟨⟨name, text, reason⟩, by simp [lookup, hvalue, hblank, hresult],
          rfl, text, rfl, hblank, hnone, rfl, rfl, hreason⟩

theorem choose_eq_ok_iff (hread : f.ReadBy read) {result : Option α} :
    choose flag (lookup env name read) = .ok result ↔ f.Settles flag (env name) result := by
  cases flag with
  | some a => simp [choose, Format.Settles, eq_comm]
  | none =>
    refine ⟨fun h => ?_, lookup_of_found hread⟩
    obtain ⟨found, hlookup, hfound⟩ | ⟨e, hlookup, -⟩ :=
      @lookup_finds_or_rejects _ _ _ env name hread
    · obtain rfl : found = result := Except.ok.inj (hlookup.symm.trans h)
      exact hfound
    · exact absurd (hlookup.symm.trans h) (by simp)

theorem rejects_of_choose (hread : f.ReadBy read) {e : SettingError}
    (h : choose flag (lookup env name read) = .error e) : f.Rejects flag (env name) name e := by
  cases flag with
  | some a => cases h
  | none =>
    obtain ⟨found, hlookup, -⟩ | ⟨e', hlookup, hrejects⟩ :=
      @lookup_finds_or_rejects _ _ _ env name hread
    · exact absurd (hlookup.symm.trans h) (by simp)
    · obtain rfl : e' = e := Except.error.inj (hlookup.symm.trans h)
      exact hrejects

theorem choose_congr {other : Environment} (h : flag = none → other name = env name) :
    choose flag (lookup other name read) = choose flag (lookup env name read) := by
  cases flag with
  | some a => rfl
  | none => simp only [choose, lookup, h rfl]

end OneSetting

theorem resolve_eq_ok_iff {flags : SettingFlags} {env : Environment} {s : Settings} :
    resolve flags env = .ok s ↔
      ∃ output, modeFormat.Settles flags.output (env outputVariable) output ∧
        s.output = output.getD .line ∧
        numberFormat.Settles flags.timeoutMs (env timeoutVariable) s.timeoutMs ∧
        numberFormat.Settles flags.maxSteps (env maxStepsVariable) s.maxSteps := by
  simp only [← choose_eq_ok_iff modeFormat_readBy, ← choose_eq_ok_iff numberFormat_readBy]
  unfold resolve
  cases choose flags.output (lookup env outputVariable readMode) with
  | error e => simp [bind, Except.bind]
  | ok output =>
    cases choose flags.timeoutMs (lookup env timeoutVariable readNumber) with
    | error e => simp [bind, Except.bind]
    | ok timeoutMs =>
      cases choose flags.maxSteps (lookup env maxStepsVariable readNumber) with
      | error e => simp [bind, Except.bind]
      | ok maxSteps =>
        cases s
        simp [bind, Except.bind, pure, Except.pure]
        tauto

theorem rejects_of_resolve {flags : SettingFlags} {env : Environment} {e : SettingError}
    (h : resolve flags env = .error e) :
    modeFormat.Rejects flags.output (env outputVariable) outputVariable e ∨
    (modeFormat.Accepts flags.output (env outputVariable) ∧
      numberFormat.Rejects flags.timeoutMs (env timeoutVariable) timeoutVariable e) ∨
    (modeFormat.Accepts flags.output (env outputVariable) ∧
      numberFormat.Accepts flags.timeoutMs (env timeoutVariable) ∧
      numberFormat.Rejects flags.maxSteps (env maxStepsVariable) maxStepsVariable e) := by
  unfold resolve at h
  cases houtput : choose flags.output (lookup env outputVariable readMode) with
  | error e' =>
    rw [houtput] at h
    cases h
    exact .inl (rejects_of_choose modeFormat_readBy houtput)
  | ok output =>
    have hmode := (Format.accepts_iff_exists_settles ..).mpr
      ⟨output, (choose_eq_ok_iff modeFormat_readBy).mp houtput⟩
    cases htimeout : choose flags.timeoutMs (lookup env timeoutVariable readNumber) with
    | error e' =>
      rw [houtput, htimeout] at h
      cases h
      exact .inr (.inl ⟨hmode, rejects_of_choose numberFormat_readBy htimeout⟩)
    | ok timeoutMs =>
      have hnumber := (Format.accepts_iff_exists_settles ..).mpr
        ⟨timeoutMs, (choose_eq_ok_iff numberFormat_readBy).mp htimeout⟩
      cases hsteps : choose flags.maxSteps (lookup env maxStepsVariable readNumber) with
      | error e' =>
        rw [houtput, htimeout, hsteps] at h
        cases h
        exact .inr (.inr ⟨hmode, hnumber, rejects_of_choose numberFormat_readBy hsteps⟩)
      | ok maxSteps =>
        rw [houtput, htimeout, hsteps] at h
        cases h

/-- The settings are found exactly when no variable that counts is bad, and then each is
its flag, what its variable stands for, or the default. Otherwise the first bad variable is
reported. The variable of a flag that is given does not count. -/
theorem resolve_prefers_flags (flags : SettingFlags) (env : Environment) :
    ((∃ s, resolve flags env = .ok s) ↔
      modeFormat.Accepts flags.output (env outputVariable) ∧
      numberFormat.Accepts flags.timeoutMs (env timeoutVariable) ∧
      numberFormat.Accepts flags.maxSteps (env maxStepsVariable)) ∧
    (∀ s, resolve flags env = .ok s ↔
      ∃ output, modeFormat.Settles flags.output (env outputVariable) output ∧
        s.output = output.getD .line ∧
        numberFormat.Settles flags.timeoutMs (env timeoutVariable) s.timeoutMs ∧
        numberFormat.Settles flags.maxSteps (env maxStepsVariable) s.maxSteps) ∧
    (∀ e, resolve flags env = .error e →
      modeFormat.Rejects flags.output (env outputVariable) outputVariable e ∨
      (modeFormat.Accepts flags.output (env outputVariable) ∧
        numberFormat.Rejects flags.timeoutMs (env timeoutVariable) timeoutVariable e) ∨
      (modeFormat.Accepts flags.output (env outputVariable) ∧
        numberFormat.Accepts flags.timeoutMs (env timeoutVariable) ∧
        numberFormat.Rejects flags.maxSteps (env maxStepsVariable) maxStepsVariable e)) ∧
    (∀ other : Environment,
      (flags.output = none → other outputVariable = env outputVariable) →
      (flags.timeoutMs = none → other timeoutVariable = env timeoutVariable) →
      (flags.maxSteps = none → other maxStepsVariable = env maxStepsVariable) →
      resolve flags other = resolve flags env) := by
  refine ⟨?_, fun s => resolve_eq_ok_iff, fun e => rejects_of_resolve, ?_⟩
  · simp only [Format.accepts_iff_exists_settles, resolve_eq_ok_iff]
    constructor
    · rintro ⟨s, output, houtput, -, htimeout, hsteps⟩
      exact ⟨⟨output, houtput⟩, ⟨_, htimeout⟩, ⟨_, hsteps⟩⟩
    · rintro ⟨⟨output, houtput⟩, ⟨timeoutMs, htimeout⟩, ⟨maxSteps, hsteps⟩⟩
      exact ⟨⟨output.getD .line, timeoutMs, maxSteps⟩, output, houtput, rfl, htimeout, hsteps⟩
  · intro other houtput htimeout hsteps
    simp only [resolve, choose_congr houtput, choose_congr htimeout, choose_congr hsteps]

def crowded : Environment
  | "BFOOP_OUTPUT" => some " RAW\t"
  | "BFOOP_TIMEOUT_MS" => some " +0018446744073709551616x "
  | "BFOOP_MAX_STEPS" => some "many"
  | _ => none

theorem resolve_prefers_flags_crowded :
    let flags : SettingFlags := ⟨none, none, some 5⟩
    let e : SettingError := ⟨timeoutVariable, " +0018446744073709551616x ",
      "number too large to fit in target type"⟩
    resolve flags crowded = .error e ∧
    resolve flags (fun name => if name = maxStepsVariable then none else crowded name) = .error e ∧
    modeFormat.Accepts none (crowded outputVariable) ∧
    numberFormat.Rejects none (crowded timeoutVariable) timeoutVariable e := by
  intro flags e
  have herror : resolve flags crowded = .error e := by decide
  obtain ⟨-, -, hreject, hblind⟩ := resolve_prefers_flags flags crowded
  refine ⟨herror, ?_, ?_⟩
  · rw [hblind _ (fun _ => by decide) (fun _ => by decide) (fun h => by simp [flags] at h), herror]
  · obtain ⟨-, _, -, -, -, hname, -⟩ | hfirst | ⟨-, -, -, _, -, -, -, hname, -⟩ := hreject e herror
    · exact absurd hname (by decide)
    · exact hfirst
    · exact absurd hname (by decide)

end Settings
end TapeLang
