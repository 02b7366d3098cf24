import CompactStore.Proofs.Config.Parameters

/-!
# Configurations that can be reached

A configuration is reached by reading a text and then setting parameters one after
another, whether or not a value is taken.  Setting works in place: what was written stays
written when an error follows, so an error could leave a part of a change behind.  It
does not, since each of the three rules for values, `assignSize`, `assignRate` and
`assignLevel`, looks at the whole text before it writes; `attempt_eq` says that setting in
place is setting a copy.

So every reached configuration has values that its parameters admit, and setting is all or
nothing: `Reached.valid_and_atomic`.
-/

namespace CompactStore

/-- Changing a configuration in place.  An error keeps what was written before it. -/
abbrev Assigning (ε : Type) : Type → Type := ExceptT ε (StateM Config)

namespace Parameter

/-- Writes the size that a text spells. -/
def assignSize (write : Config → Nat → Config) (t : String) : Assigning ParameterFault Unit := do
  match Decimal.unsigned? t.toList with
  | none => throw .notInteger
  | some n =>
    if n = 0 then throw .notPositive
    modify fun c => write c n

/-- Writes the rate that a text spells. -/
def assignRate (write : Config → Float → Config) (t : String) : Assigning ParameterFault Unit := do
  match Decimal.float? t.toList with
  | none => throw .notFloat
  | some x =>
    if ¬ IsRate x then throw .notRate
    modify fun c => write c x

/-- Writes the name of a level that a text spells in any case. -/
def assignLevel (t : String) : Assigning ParameterFault Unit := do
  let level := lowerCase t
  match level with
  | "debug" | "verbose" | "notice" | "warning" | "nothing" =>
    modify fun c => { c with logLevel := level }
  | _ => throw .notLevel

/-- Writes the value that a text spells. -/
def assign : Parameter → String → Assigning ParameterFault Unit
  | bloomCapacity => assignSize bloomCapacity.put
  | bloomErrorRate => assignRate bloomErrorRate.put
  | cuckooCapacity => assignSize cuckooCapacity.put
  | cuckooErrorRate => assignRate cuckooErrorRate.put
  | listNodeMax => assignSize listNodeMax.put
  | logLevel => assignLevel
  | logFile => fun t => modify fun c => { c with logFile := t }

end Parameter

namespace Config

/-- The result of changing a configuration, and what is left of the configuration. -/
def left {ε : Type} (c : Config) : Except ε Config → Except ε Unit × Config
  | .ok d => (.ok (), d)
  | .error e => (.error e, c)

/-- Sets the parameter with this name in place. -/
def assign (name value : String) : Assigning Error Unit :=
  match Parameter.find? name with
  | none => throw (.parameter name value .unknown)
  | some p => ExceptT.adapt (fun fault => .parameter p.name value fault) (p.assign value)

/-- Tries to set a parameter; what came of it, and the configuration afterwards. -/
def attempt (c : Config) (s : Setting) : Except Error Unit × Config :=
  Id.run ((assign s.name s.value).run.run c)

/-- A configuration that comes of reading a text and of setting parameters. -/
inductive Reached : Config → Prop
  | parsed {text : String} {c : Config} : parse text = .ok c → Reached c
  | attempted {c : Config} (s : Setting) : Reached c → Reached (c.attempt s).2

/-- Every parameter has a value that it admits. -/
def Valid (c : Config) : Prop :=
  ∀ p : Parameter, p.Admits (p.content c)

end Config

/-! ### Setting in place -/

namespace Parameter

variable (c : Config) (t : String)

/-- A size is written in place once its text was looked at. -/
theorem run_assignSize (write : Config → Nat → Config) :
    (assignSize write t).run.run c = c.left ((positive? t).map (write c)) := by
  unfold assignSize positive?
  cases Decimal.unsigned? t.toList with
  | none => rfl
  | some n =>
      by_cases hzero : n = 0
      · simp only [if_pos hzero]
        rfl
      · simp only [if_neg hzero]
        rfl

/-- A rate is written in place once its text was looked at. -/
theorem run_assignRate (write : Config → Float → Config) :
    (assignRate write t).run.run c = c.left ((rate? t).map (write c)) := by
  unfold assignRate rate?
  cases Decimal.float? t.toList with
  | none => rfl
  | some x =>
      by_cases hrate : IsRate x
      · simp only [if_pos hrate, if_neg (not_not_intro hrate)]
        rfl
      · simp only [if_neg hrate, if_pos hrate]
        rfl

/-- The name of a level is written in place once its text was looked at. -/
theorem run_assignLevel :
    (assignLevel t).run.run c =
      c.left ((level? t).map fun level => { c with logLevel := level }) := by
  by_cases hnamed : ∃ level : LogLevel, lowerCase t = level.name
  · obtain ⟨level, hname⟩ := hnamed
    unfold assignLevel level?
    rw [hname]
    cases level <;> rfl
  · obtain ⟨hdebug, hverbose, hnotice, hwarning, hnothing⟩ := ne_names (not_exists.mp hnamed)
    simp only [assignLevel, level?]
    rfl

/-- **Setting a parameter in place is setting it in a copy.** -/
theorem run_assign (p : Parameter) : (p.assign t).run.run c = c.left (p.set c t) := by
  rw [set_eq]
  cases p with
  | bloomCapacity => exact run_assignSize c t _
  | bloomErrorRate => exact run_assignRate c t _
  | cuckooCapacity => exact run_assignSize c t _
  | cuckooErrorRate => exact run_assignRate c t _
  | listNodeMax => exact run_assignSize c t _
  | logLevel => exact run_assignLevel c t
  | logFile => rfl

end Parameter

namespace Config

variable {c d : Config}

/-- **Setting in place is setting a copy**, which is kept if it was made. -/
theorem attempt_eq (c : Config) (s : Setting) : c.attempt s = c.left (c.set s.name s.value) := by
  unfold attempt assign set
  cases Parameter.find? s.name with
  | none => rfl
  | some p =>
      dsimp only
      rw [ExceptT.run_adapt, StateT.run_map, p.run_assign]
      cases p.set c s.value <;> rfl

/-- What setting a parameter makes of a configuration. -/
theorem exists_put_of_set {name value : String} (h : c.set name value = .ok d) :
    ∃ p v, Parameter.find? name = some p ∧ p.read? value = .ok v ∧ d = p.put c v := by
  unfold set at h
  cases hfind : Parameter.find? name with
  | none =>
      rw [hfind] at h
      cases h
  | some p =>
      rw [hfind] at h
      dsimp only at h
      rw [p.set_eq] at h
      cases hread : p.read? value with
      | error fault =>
          rw [hread] at h
          cases h
      | ok v =>
          rw [hread] at h
          exact ⟨p, v, rfl, hread, (Except.ok.inj h).symm⟩

/-- **What an attempt can do**: it is refused and leaves the configuration, or it puts the
value that the text spells in the place of the parameter with this name. -/
theorem attempt_cases (c : Config) (s : Setting) :
    (∃ e, c.attempt s = (.error e, c)) ∨ ∃ p v, Parameter.find? s.name = some p ∧
      p.read? s.value = .ok v ∧ c.attempt s = (.ok (), p.put c v) := by
  rw [attempt_eq]
  cases hset : c.set s.name s.value with
  | error e => exact .inl ⟨e, rfl⟩
  | ok d =>
      obtain ⟨p, v, hfind, hread, rfl⟩ := exists_put_of_set hset
      exact .inr ⟨p, v, hfind, hread, rfl⟩

/-! ### Every reached configuration is valid -/

/-- **The defaults are valid.** -/
theorem valid_default : Valid {} := by
  intro p
  cases p with
  | bloomCapacity => exact (by decide : Parameter.IsSize 100)
  | bloomErrorRate => exact (by decide +kernel : IsRate 0.01)
  | cuckooCapacity => exact (by decide : Parameter.IsSize 128)
  | cuckooErrorRate => exact (by decide +kernel : IsRate 0.01)
  | listNodeMax => exact (by decide : Parameter.IsSize Quicklist.defaultNodeMax)
  | logLevel => exact ⟨.notice, rfl⟩
  | logFile => trivial

/-- Putting a value that the parameter admits keeps a configuration valid. -/
theorem Valid.put (h : c.Valid) {p : Parameter} {v : p.Content} (hv : p.Admits v) :
    (p.put c v).Valid := by
  intro q
  by_cases hq : q = p
  · subst hq
    rwa [q.content_put_self]
  · rw [Parameter.content_put_of_ne hq]
    exact h q

/-- **One attempt** keeps a configuration valid. -/
theorem Valid.attempt (h : c.Valid) (s : Setting) : (c.attempt s).2.Valid := by
  obtain ⟨e, hrefused⟩ | ⟨p, v, -, hread, htaken⟩ := c.attempt_cases s
  · rwa [hrefused]
  · rw [htaken]
    exact h.put (Parameter.admits_of_read? hread)

/-- **One line** of a text keeps a configuration valid. -/
theorem Valid.applyLine {line : List Char} (h : c.Valid) (hline : c.applyLine line = .ok d) :
    d.Valid := by
  unfold Config.applyLine at hline
  split at hline
  · exact Except.ok.inj hline ▸ h
  · obtain ⟨p, v, -, hread, rfl⟩ := exists_put_of_set hline
    exact h.put (Parameter.admits_of_read? hread)

/-- **The lines of a text** keep a configuration valid, by induction on them. -/
theorem Valid.foldlM_applyLine {lines : List (List Char)} (h : c.Valid)
    (hlines : lines.foldlM Config.applyLine c = .ok d) : d.Valid := by
  induction lines generalizing c with
  | nil => exact Except.ok.inj hlines ▸ h
  | cons line rest ih =>
      rw [List.foldlM_cons] at hlines
      cases hline : c.applyLine line with
      | error e =>
          rw [hline] at hlines
          cases hlines
      | ok mid =>
          rw [hline] at hlines
          exact ih (h.applyLine hline) hlines

/-- **Every reached configuration is valid.** -/
theorem Reached.valid (h : Reached c) : c.Valid := by
  induction h with
  | parsed hparse => exact valid_default.foldlM_applyLine hparse
  | attempted s _ ih => exact ih.attempt s

/-! ### Setting what is there -/

/-- The text of a value that the parameter admits sets this value. -/
theorem set_text {name : String} {p : Parameter} {v : p.Content}
    (hname : Parameter.find? name = some p) (hadmits : p.Admits v) (hback : p.ReadsBack v) :
    c.set name (p.text v) = .ok (p.put c v) := by
  unfold set
  rw [hname]
  dsimp only
  rw [p.set_eq, Parameter.read?_text hadmits hback]
  rfl

/-- **Setting a parameter to its own text** succeeds and changes nothing. -/
theorem Valid.attempt_get (h : c.Valid) {s : Setting} (hget : c.get? s.name = some s.value)
    (hback : ∀ p : Parameter, p.ReadsBack (p.content c)) : c.attempt s = (.ok (), c) := by
  obtain ⟨p, hfind, hvalue⟩ := Option.map_eq_some_iff.mp hget
  rw [attempt_eq, ← hvalue, p.get_eq, set_text hfind (h p) (hback p), p.put_content]
  rfl

/-- **Reached configurations are valid, and setting is all or nothing.**  In a
configuration that comes of reading a text and of setting parameters, taken or refused,
sizes are positive, rates are strictly between zero and one, and the text of the log level
is the name of a level: setting would take it as it is, and the log reads this level in it.
An error leaves the configuration; a value that is taken becomes the value of the parameter
with this name and leaves all others; and setting a parameter to its own text succeeds and
changes nothing, provided that the rates are read from their texts. -/
theorem Reached.valid_and_atomic (h : Reached c) :
    c.Valid ∧
    (∃ level ∈ LogLevel.all, Parameter.logLevel.get c = level.name ∧
      Parameter.level? (Parameter.logLevel.get c) = .ok (Parameter.logLevel.get c) ∧
      LogLevel.ofText (Parameter.logLevel.get c) = level) ∧
    ∀ s : Setting,
      (∀ e, (c.attempt s).1 = .error e → (c.attempt s).2 = c) ∧
      ((c.attempt s).1 = .ok () → ∃ p, Parameter.find? s.name = some p ∧
        p.read? s.value = .ok (p.content (c.attempt s).2) ∧
        ∀ q, q ≠ p → q.content (c.attempt s).2 = q.content c) ∧
      (c.get? s.name = some s.value → (∀ p : Parameter, p.ReadsBack (p.content c)) →
        c.attempt s = (.ok (), c)) := by
  obtain ⟨level, hlevel⟩ : Parameter.IsLevelName (Parameter.logLevel.get c) := h.valid .logLevel
  have hall : level ∈ LogLevel.all := by
    cases level <;> decide
  refine ⟨h.valid, ⟨level, hall, hlevel, ?_, ?_⟩, ?_⟩
  · rw [hlevel, (Parameter.readers_name level).1]
  · rw [hlevel, (Parameter.readers_name level).2]
  intro s
  refine ⟨?_, ?_, h.valid.attempt_get⟩
  · intro e herror
    obtain ⟨e', hrefused⟩ | ⟨p, v, -, -, htaken⟩ := c.attempt_cases s
    · rw [hrefused]
    · rw [htaken] at herror
      cases herror
  · intro hok
    obtain ⟨e, hrefused⟩ | ⟨p, v, hfind, hread, htaken⟩ := c.attempt_cases s
    · rw [hrefused] at hok
      cases hok
    · rw [htaken]
      refine ⟨p, hfind, ?_, ?_⟩
      · rw [p.content_put_self, hread]
      · exact fun q hq => Parameter.content_put_of_ne hq c v

/-- A text is read, a level that there is not is refused, and a rate is set to what it is. -/
theorem valid_and_atomic_refused :
    let c : Config := { bloomCapacity := 5000, logLevel := "warning" }
    parse "bf-default-capacity 5000\nLOGLEVEL Warning" = .ok c ∧ Reached c ∧ c.Valid ∧
      (c.attempt ⟨"loglevel", "loud"⟩).1 = .error (.parameter "loglevel" "loud" .notLevel) ∧
      (c.attempt ⟨"loglevel", "loud"⟩).2 = c ∧
      c.attempt ⟨"BF-default-error-rate", "0.01"⟩ = (.ok (), c) := by
  intro c
  have hparse : parse "bf-default-capacity 5000\nLOGLEVEL Warning" = .ok c := rfl
  have hreached : Reached c := .parsed hparse
  have hrefused : (c.attempt ⟨"loglevel", "loud"⟩).1 =
      .error (.parameter "loglevel" "loud" .notLevel) := by decide +kernel
  have hget : c.get? "BF-default-error-rate" = some "0.01" := by decide +kernel
  have hback : ∀ p : Parameter, p.ReadsBack (p.content c) := by
    intro p
    cases p with
    | bloomErrorRate => exact (by decide +kernel : Parameter.FloatReadsBack 0.01)
    | cuckooErrorRate => exact (by decide +kernel : Parameter.FloatReadsBack 0.01)
    | _ => trivial
  obtain ⟨hvalid, -, hattempt⟩ := hreached.valid_and_atomic
  refine ⟨hparse, hreached, hvalid, hrefused, ?_, ?_⟩
  · exact (hattempt ⟨"loglevel", "loud"⟩).1 _ hrefused
  · exact (hattempt ⟨"BF-default-error-rate", "0.01"⟩).2.2 hget hback

end Config

end CompactStore
