import CompactStore.Config
import CompactStore.Proofs.Decimal.Canonical

/-!
# The parameters of a configuration

A parameter is a place in a configuration with a type of values, `content` and `put`; it
has a text for each value and a rule for the texts that it takes, `text` and `read?`.
Looking up and setting by name go through these four, so what holds of one parameter is
said once for all seven: the other parameters stay when one is put, `content_put_of_ne`,
a text is taken only for a value that the parameter admits, `admits_of_read?`, and the
text of such a value is read as this value, `read?_text`.

A configuration is determined by the values of its parameters, `ext_content`.
-/

namespace CompactStore

namespace Decimal

/-- A number of 64 bits is read from its text. -/
theorem unsigned?_render {n : Nat} (h : n < word64) : unsigned? (render n) = some n := by
  have hrender : render n = Nat.toDigits 10 n := rfl
  have hplus : ∀ rest, Nat.toDigits 10 n ≠ '+' :: rest := by
    intro rest hdigits
    have hmem : '+' ∈ Nat.toDigits 10 n := hdigits ▸ List.mem_cons_self
    exact absurd (isDigit_of_mem_toDigits hmem) (by decide)
  unfold unsigned?
  rw [hrender]
  split
  · rename_i rest hdigits
    exact absurd hdigits (hplus rest)
  · dsimp only
    rw [digits?_toDigits, Option.filter_some, if_pos (decide_eq_true h)]

/-- A number that is read fits a word. -/
theorem lt_of_unsigned? {text : List Char} {n : Nat} (h : unsigned? text = some n) :
    n < word64 := by
  simpa using (Option.filter_eq_some_iff.mp h).2

end Decimal

namespace Parameter

variable {p q : Parameter} {c d : Config}

/-- The type of a parameter's values. -/
def Content : Parameter → Type
  | bloomCapacity | cuckooCapacity | listNodeMax => Nat
  | bloomErrorRate | cuckooErrorRate => Float
  | logLevel | logFile => String

/-- The value of a parameter. -/
def content : (p : Parameter) → Config → p.Content
  | bloomCapacity, c => c.bloomCapacity
  | bloomErrorRate, c => c.bloomErrorRate
  | cuckooCapacity, c => c.cuckooCapacity
  | cuckooErrorRate, c => c.cuckooErrorRate
  | listNodeMax, c => c.listNodeMax
  | logLevel, c => c.logLevel
  | logFile, c => c.logFile

/-- The configuration with another value of a parameter. -/
def put : (p : Parameter) → Config → p.Content → Config
  | bloomCapacity, c, n => { c with bloomCapacity := n }
  | bloomErrorRate, c, x => { c with bloomErrorRate := x }
  | cuckooCapacity, c, n => { c with cuckooCapacity := n }
  | cuckooErrorRate, c, x => { c with cuckooErrorRate := x }
  | listNodeMax, c, n => { c with listNodeMax := n }
  | logLevel, c, level => { c with logLevel := level }
  | logFile, c, path => { c with logFile := path }

/-- The text of a size. -/
def sizeText (n : Nat) : String :=
  String.ofList (Decimal.render n)

/-- The text of a rate. -/
def rateText (x : Float) : String :=
  String.ofList (Decimal.floatText x)

/-- The text of a value. -/
def text : (p : Parameter) → p.Content → String
  | bloomCapacity | cuckooCapacity | listNodeMax => sizeText
  | bloomErrorRate | cuckooErrorRate => rateText
  | logLevel | logFile => id

/-- The value that a text is taken for. -/
def read? : (p : Parameter) → String → Except ParameterFault p.Content
  | bloomCapacity | cuckooCapacity | listNodeMax => positive?
  | bloomErrorRate | cuckooErrorRate => rate?
  | logLevel => level?
  | logFile => .ok

/-- The text that is looked up is that of the value. -/
theorem get_eq (p : Parameter) (c : Config) : p.get c = p.text (p.content c) := by
  cases p <;> rfl

/-- Setting is reading a text and putting its value. -/
theorem set_eq (p : Parameter) (c : Config) (t : String) :
    p.set c t = (p.read? t).map (p.put c) := by
  cases p <;> rfl

/-! ### Places -/

/-- A parameter has the value that was put. -/
@[simp] theorem content_put_self (p : Parameter) (c : Config) (v : p.Content) :
    p.content (p.put c v) = v := by
  cases p <;> rfl

/-- **Frame.**  Putting a parameter leaves the others alone. -/
theorem content_put_of_ne (h : q ≠ p) (c : Config) (v : p.Content) :
    q.content (p.put c v) = q.content c := by
  cases p <;> cases q <;> trivial

/-- **Putting back** the value of a parameter changes nothing. -/
theorem put_content (p : Parameter) (c : Config) : p.put c (p.content c) = c := by
  cases p <;> rfl

/-- A configuration is the values of its parameters. -/
theorem ext_content (h : ∀ p : Parameter, p.content c = p.content d) : c = d := by
  obtain ⟨bloomCap, bloomRate, cuckooCap, cuckooRate, nodeMax, level, file⟩ := c
  obtain ⟨bloomCap', bloomRate', cuckooCap', cuckooRate', nodeMax', level', file'⟩ := d
  obtain rfl : bloomCap = bloomCap' := h bloomCapacity
  obtain rfl : bloomRate = bloomRate' := h bloomErrorRate
  obtain rfl : cuckooCap = cuckooCap' := h cuckooCapacity
  obtain rfl : cuckooRate = cuckooRate' := h cuckooErrorRate
  obtain rfl : nodeMax = nodeMax' := h listNodeMax
  obtain rfl : level = level' := h logLevel
  obtain rfl : file = file' := h logFile
  rfl

/-! ### Texts -/

/-- A positive number that fits a word. -/
def IsSize (n : Nat) : Prop :=
  0 < n ∧ n < word64

instance (n : Nat) : Decidable (IsSize n) :=
  inferInstanceAs (Decidable (_ ∧ _))

/-- A float is read from its text. -/
def FloatReadsBack (x : Float) : Prop :=
  Decimal.float? (Decimal.floatText x) = some x

instance (x : Float) : Decidable (FloatReadsBack x) :=
  inferInstanceAs (Decidable (_ = _))

/-- The name of a level, as the levels themselves spell it. -/
def IsLevelName (t : String) : Prop :=
  ∃ level : LogLevel, t = level.name

/-- The values that a parameter may have. -/
def Admits : (p : Parameter) → p.Content → Prop
  | bloomCapacity | cuckooCapacity | listNodeMax => IsSize
  | bloomErrorRate | cuckooErrorRate => IsRate
  | logLevel => IsLevelName
  | logFile => fun _ => True

/-- The value is read from its text if it is a float. -/
def ReadsBack : (p : Parameter) → p.Content → Prop
  | bloomErrorRate | cuckooErrorRate => FloatReadsBack
  | _ => fun _ => True

/-- A text is taken only for a size. -/
theorem positive?_eq_ok {t : String} {n : Nat} (h : positive? t = .ok n) : IsSize n := by
  unfold positive? at h
  split at h
  · cases h
  · rename_i m hread
    split at h
    · cases h
    · rename_i hne
      obtain rfl := Except.ok.inj h
      exact ⟨Nat.pos_of_ne_zero hne, Decimal.lt_of_unsigned? hread⟩

/-- The text of a size is taken for this size. -/
theorem positive?_sizeText {n : Nat} (h : IsSize n) : positive? (sizeText n) = .ok n := by
  unfold positive? sizeText
  rw [String.toList_ofList, Decimal.unsigned?_render h.2]
  exact if_neg (Nat.ne_of_gt h.1)

/-- A text is taken only for a rate. -/
theorem rate?_eq_ok {t : String} {x : Float} (h : rate? t = .ok x) : IsRate x := by
  unfold rate? at h
  split at h
  · cases h
  · split at h
    · rename_i hrate
      exact Except.ok.inj h ▸ hrate
    · cases h

/-- The text of a rate is taken for this rate if the float is read from it. -/
theorem rate?_rateText {x : Float} (hrate : IsRate x) (hback : FloatReadsBack x) :
    rate? (rateText x) = .ok x := by
  unfold rate? rateText
  rw [String.toList_ofList, hback]
  exact if_pos hrate

/-- The name of a level is in lower case. -/
theorem lowerCase_name (level : LogLevel) : lowerCase level.name = level.name := by
  cases level <;> decide

/-- Both readers find the level whose name a text spells. -/
theorem readers_of_name {t : String} {level : LogLevel} (h : lowerCase t = level.name) :
    level? t = .ok level.name ∧ LogLevel.ofText t = level := by
  unfold level? LogLevel.ofText
  rw [h]
  cases level <;> exact ⟨rfl, rfl⟩

/-- A text that names no level has none of the five names. -/
theorem ne_names {t : String} (h : ∀ level : LogLevel, lowerCase t ≠ level.name) :
    lowerCase t ≠ "debug" ∧ lowerCase t ≠ "verbose" ∧ lowerCase t ≠ "notice" ∧
      lowerCase t ≠ "warning" ∧ lowerCase t ≠ "nothing" :=
  ⟨h .debug, h .verbose, h .notice, h .warning, h .nothing⟩

/-- Both readers find none in any other text: one refuses it, the other falls back. -/
theorem readers_of_ne {t : String} (h : ∀ level : LogLevel, lowerCase t ≠ level.name) :
    level? t = .error .notLevel ∧ LogLevel.ofText t = .notice := by
  -- the last case of either match is the one that these five leave
  obtain ⟨hdebug, hverbose, hnotice, hwarning, hnothing⟩ := ne_names h
  constructor
  · simp only [level?]
  · simp only [LogLevel.ofText]

/-- **The two readers of a level agree.**  A text that is taken for a level is kept as the
name of the one that the log reads in it.  Where a text is refused, no level has this name in
any case, and the log would fall back to `notice`. -/
theorem level?_cases (t : String) :
    (level? t = .ok (LogLevel.ofText t).name ∧ lowerCase t = (LogLevel.ofText t).name) ∨
    (level? t = .error .notLevel ∧ LogLevel.ofText t = .notice ∧
      ∀ level : LogLevel, lowerCase t ≠ level.name) := by
  by_cases hnamed : ∃ level : LogLevel, lowerCase t = level.name
  · obtain ⟨level, hname⟩ := hnamed
    obtain ⟨htaken, hread⟩ := readers_of_name hname
    rw [hread]
    exact .inl ⟨htaken, hname⟩
  · have hne : ∀ level : LogLevel, lowerCase t ≠ level.name := not_exists.mp hnamed
    obtain ⟨hrefused, hfallback⟩ := readers_of_ne hne
    exact .inr ⟨hrefused, hfallback, hne⟩

/-- What is kept of a text is the name of the level that the log reads in it. -/
theorem level?_eq_ok {t u : String} (h : level? t = .ok u) : u = (LogLevel.ofText t).name := by
  obtain ⟨htaken, -⟩ | ⟨hrefused, -⟩ := level?_cases t
  · rw [htaken] at h
    exact (Except.ok.inj h).symm
  · rw [hrefused] at h
    cases h

/-- **The name of a level** is taken as it is, and the log reads this level in it. -/
theorem readers_name (level : LogLevel) :
    level? level.name = .ok level.name ∧ LogLevel.ofText level.name = level :=
  readers_of_name (lowerCase_name level)

/-- **A text is taken only for a value that the parameter admits.** -/
theorem admits_of_read? {t : String} {v : p.Content} (h : p.read? t = .ok v) : p.Admits v := by
  cases p with
  | bloomCapacity => exact positive?_eq_ok h
  | bloomErrorRate => exact rate?_eq_ok h
  | cuckooCapacity => exact positive?_eq_ok h
  | cuckooErrorRate => exact rate?_eq_ok h
  | listNodeMax => exact positive?_eq_ok h
  | logLevel => exact ⟨LogLevel.ofText t, level?_eq_ok h⟩
  | logFile => trivial

/-- **A text is taken for the value that it was made of.** -/
theorem read?_text {v : p.Content} (hadmits : p.Admits v) (hback : p.ReadsBack v) :
    p.read? (p.text v) = .ok v := by
  cases p with
  | bloomCapacity => exact positive?_sizeText hadmits
  | bloomErrorRate => exact rate?_rateText hadmits hback
  | cuckooCapacity => exact positive?_sizeText hadmits
  | cuckooErrorRate => exact rate?_rateText hadmits hback
  | listNodeMax => exact positive?_sizeText hadmits
  | logLevel =>
      obtain ⟨level, rfl⟩ := hadmits
      exact (readers_name level).1
  | logFile => rfl

/-! ### Names -/

/-- Every parameter is listed. -/
theorem mem_all (p : Parameter) : p ∈ all := by
  cases p <;> decide

/-- No two parameters share a name. -/
theorem name_injective (h : p.name.toList = q.name.toList) : p = q := by
  revert h
  cases p <;> cases q <;> decide

/-- **A parameter is found under its name in any case**, and nothing else is. -/
theorem find?_eq_some_iff {t : String} :
    find? t = some p ↔ t.toList.map Char.toLower = p.name.toList := by
  unfold find?
  have hname : ∀ {q}, all.find? (fun q => q.name.toList == t.toList.map Char.toLower) = some q →
      q.name.toList = t.toList.map Char.toLower := by
    intro q hq
    simpa using List.find?_some hq
  constructor
  · exact fun h => (hname h).symm
  · intro h
    cases hfind : all.find? fun q => q.name.toList == t.toList.map Char.toLower with
    | none =>
        have hnone := List.find?_eq_none.mp hfind p (mem_all p)
        exact absurd (beq_iff_eq.mpr h.symm) hnone
    | some q => rw [name_injective ((hname hfind).trans h)]

end Parameter

end CompactStore
