import CompactStore.Proofs.Listpack.Entry

/-!
# Integers are the canonical texts and nothing else

A value is stored as an integer exactly when it is the decimal text of an integer of 64 bits.
So the bytes of a value are always recovered, and two values never share an entry:
`ofBytes_faithful`.

A reader that keeps its number in a word of 64 bits, digit by digit, reads the same texts.
It gives up as soon as the word is full, it cuts long texts off before it looks at them, and
it negates by wrapping around, which is how the least integer comes out right:
`canonicalInWord?_eq`.
-/

namespace CompactStore

namespace Decimal

/-- The text of an integer is the usual one. -/
theorem render_eq_toString (n : Int) : render n = (toString n).toList := by
  cases n with
  | ofNat n =>
      change _ = (Nat.repr n).toList
      rw [Nat.repr, String.toList_ofList, render]
  | negSucc n =>
      change _ = ("-" ++ Nat.repr (n + 1)).toList
      have hminus : "-".toList = ['-'] := by decide
      rw [String.toList_append, hminus, Nat.repr, String.toList_ofList]
      rfl

/-! ### Reading within a word -/

/-- A natural number that fits a word. -/
def word? (n : Nat) : Option Nat :=
  if n < word64 then some n else none

/-- A number with one more digit behind it, as long as both steps fit a word. -/
def appendDigit? (n : Nat) (c : Char) : Option Nat :=
  if c.isDigit then (word? (10 * n)).bind fun shifted => word? (shifted + (c.toNat - '0'.toNat))
  else none

/-- The number of some digits of which the first is not zero, read within a word. -/
def leadingWord? : List Char → Option Nat
  | [] => none
  | c :: digits => if '1' ≤ c ∧ c ≤ '9' then (c :: digits).foldlM appendDigit? 0 else none

/-- The integer that the bits of a number spell in a word. -/
def wrapped (n : Int) : Int :=
  n.bmod word64

/-- The integer of a negated word. -/
def negatedWord? (n : Nat) : Option Int :=
  if n ≤ signBit then some (wrapped (-wrapped n)) else none

/-- The integer of a word. -/
def signedWord? (n : Nat) : Option Int :=
  if n < signBit then some n else none

/-- The integer of digits of which the first is not zero, behind a minus sign or none. -/
def leadingInteger? : List Char → Option Int
  | '-' :: digits => (leadingWord? digits).bind negatedWord?
  | digits => (leadingWord? digits).bind signedWord?

/-- The integer of a canonical text, read within a word. -/
def canonicalInWord? (text : List Char) : Option Int :=
  if text = [] ∨ maxCanonicalLength < text.length then none
  else if text = ['0'] then some 0
  else leadingInteger? text

/-- A number that fits is read. -/
theorem word?_of_lt {n : Nat} (h : n < word64) : word? n = some n :=
  if_pos h

/-- A number that does not fit is not read. -/
theorem word?_of_le {n : Nat} (h : word64 ≤ n) : word? n = none :=
  if_neg (Nat.not_lt.mpr h)

/-- A digit is appended as long as the number fits a word. -/
theorem appendDigit?_of_isDigit (n : Nat) {c : Char} (h : c.isDigit) :
    appendDigit? n c = word? (10 * n + (c.toNat - '0'.toNat)) := by
  rw [appendDigit?, if_pos h]
  rcases Nat.lt_or_ge (10 * n) word64 with hfits | hfull
  · rw [word?_of_lt hfits, Option.bind_some]
  · rw [word?_of_le hfull, Option.bind_none, word?_of_le (by omega)]

/-- More digits make no number smaller, so a word that is full stays so. -/
theorem le_ofDigitChars (digits : List Char) (n : Nat) : n ≤ Nat.ofDigitChars 10 digits n := by
  induction digits generalizing n with
  | nil => simp
  | cons c digits ih =>
      have hrest := ih (10 * n + (c.toNat - '0'.toNat))
      rw [Nat.ofDigitChars_cons]
      omega

/-- **The accumulator fits where the number does.** -/
theorem foldlM_appendDigit? (digits : List Char) {n : Nat} (h : n < word64) :
    digits.foldlM appendDigit? n =
      if digits.all Char.isDigit then word? (Nat.ofDigitChars 10 digits n) else none := by
  induction digits generalizing n with
  | nil => exact (word?_of_lt h).symm
  | cons c digits ih =>
      rw [List.foldlM_cons, Nat.ofDigitChars_cons, List.all_cons]
      by_cases hdigit : c.isDigit
      · rw [appendDigit?_of_isDigit n hdigit, hdigit, Bool.true_and]
        generalize 10 * n + (c.toNat - '0'.toNat) = next
        rcases Nat.lt_or_ge next word64 with hfits | hfull
        · rw [word?_of_lt hfits]
          exact ih hfits
        · have hmore := le_ofDigitChars digits next
          rw [word?_of_le hfull, word?_of_le (Nat.le_trans hfull hmore), ite_self]
          rfl
      · simp [appendDigit?, hdigit]

/-- The first of some digits is one other than zero. -/
theorem leads_iff (c : Char) : '1' ≤ c ∧ c ≤ '9' ↔ c.isDigit ∧ c ≠ '0' := by
  have hone : '1' ≤ c ↔ 49 ≤ c.toNat := Iff.rfl
  have hnine : c ≤ '9' ↔ c.toNat ≤ 57 := Iff.rfl
  have hzero : c = '0' ↔ c.toNat = 48 := ⟨fun h => h ▸ rfl, fun h => Char.toNat_inj.mp h⟩
  have hlow : '0'.toNat = 48 := rfl
  have hhigh : '9'.toNat = 57 := rfl
  rw [hone, hnine, Char.isDigit_iff_toNat, Ne, hzero]
  omega

/-- Without a leading zero the digits are read as a number that fits a word. -/
theorem leadingWord?_eq {digits : List Char} (h : digits.head? ≠ some '0') :
    leadingWord? digits = (digits? digits).bind word? := by
  cases digits with
  | nil => rfl
  | cons c digits =>
      have hzero : c ≠ '0' := fun heq => h (congrArg some heq)
      rw [leadingWord?, foldlM_appendDigit? (c :: digits) (by decide), digits?,
        numeral_eq_ofDigitChars]
      simp only [leads_iff, isNumeral, List.isEmpty_cons, List.all_cons]
      by_cases hdigit : c.isDigit <;> by_cases hrest : digits.all Char.isDigit <;>
        simp [hzero, hdigit, hrest]

/-- A leading zero is refused. -/
theorem leadingWord?_zero (digits : List Char) : leadingWord? ('0' :: digits) = none := by
  simp [leadingWord?]

theorem head?_ne_zero {text : List Char} (h : ∀ digits, text ≠ '0' :: digits) :
    text.head? ≠ some '0' := by
  intro hhead
  obtain ⟨digits, htext⟩ := List.head?_eq_some_iff.mp hhead
  exact h digits htext

/-- Wrapping around negates every number that has a negative of 64 bits, the largest of them
too, which is its own negative. -/
theorem wrapped_neg {n : Nat} (h : n ≤ signBit) : wrapped (-wrapped n) = -n := by
  rcases Nat.eq_or_lt_of_le h with rfl | hlt
  · decide
  · have hword : word64 = 2 * signBit := by decide
    have hsame : wrapped n = n := Int.bmod_eq_of_le (by omega) (by omega)
    rw [hsame]
    exact Int.bmod_eq_of_le (by omega) (by omega)

/-- A word is negated to an integer of 64 bits if there is one. -/
theorem bind_negatedWord? (n : Nat) : (word? n).bind negatedWord? = int64? (-(n : Int)) := by
  have hsign : 0 < signBit ∧ signBit < word64 := by decide
  rcases Nat.lt_or_ge signBit n with hlarge | hsmall
  · have hint : int64? (-(n : Int)) = none := if_neg fun h => by unfold IsInt64 at h; omega
    rw [hint, Option.bind_eq_none_iff]
    intro m hm
    obtain rfl : n = m := by grind [word?]
    exact if_neg (Nat.not_le.mpr hlarge)
  · have hint : int64? (-(n : Int)) = some (-(n : Int)) :=
      if_pos ⟨by omega, by omega⟩
    rw [hint, word?_of_lt (by omega), Option.bind_some, negatedWord?, if_pos hsmall,
      wrapped_neg hsmall]

/-- A word is an integer of 64 bits if its sign is not set. -/
theorem bind_signedWord? (n : Nat) : (word? n).bind signedWord? = int64? n := by
  have hsign : 0 < signBit ∧ signBit < word64 := by decide
  rcases Nat.lt_or_ge n signBit with hsmall | hlarge
  · have hint : int64? (n : Int) = some (n : Int) := if_pos ⟨by omega, by omega⟩
    rw [hint, word?_of_lt (by omega), Option.bind_some]
    exact if_pos hsmall
  · have hint : int64? (n : Int) = none := if_neg fun h => by unfold IsInt64 at h; omega
    rw [hint, Option.bind_eq_none_iff]
    intro m hm
    obtain rfl : n = m := by grind [word?]
    exact if_neg (Nat.not_lt.mpr hlarge)

/-- **Reading within a word reads the same texts as the same integers.** -/
theorem canonicalInWord?_eq (text : List Char) : canonicalInWord? text = canonical? text := by
  unfold canonicalInWord? canonical?
  by_cases hempty : text = []
  · rw [hempty, if_pos (.inl rfl)]
    decide
  by_cases hlong : maxCanonicalLength < text.length
  · rw [if_pos (.inr hlong), if_pos hlong]
  by_cases hzero : text = ['0']
  · rw [hzero]
    rfl
  rw [if_neg (not_or.mpr ⟨hempty, hlong⟩), if_neg hlong, if_neg hzero]
  split
  · exact absurd rfl hzero
  · rw [leadingInteger?, leadingWord?_zero, Option.bind_none]
    simp
  · rw [leadingInteger?, leadingWord?_zero, Option.bind_none]
  · rename_i digits hlead
    rw [leadingInteger?, leadingWord?_eq (head?_ne_zero hlead), Option.bind_assoc]
    simp only [bind_negatedWord?]
  · rename_i hlead _ hminus
    rw [leadingInteger?, leadingWord?_eq (head?_ne_zero hlead), Option.bind_assoc]
    · simp only [bind_signedWord?]
    · exact hminus

end Decimal

namespace Entry

variable {value : Bytes} {n : Int}

/-- A text is canonical for an integer exactly when it is the text of it. -/
theorem canonical?_chars_iff :
    Decimal.canonical? (Bytes.chars value) = some n ↔
      Decimal.IsInt64 n ∧ value = Bytes.ofAscii (toString n).toList := by
  rw [← Decimal.render_eq_toString]
  constructor
  · intro h
    obtain ⟨htext, hbits⟩ := Decimal.render_of_canonical? h
    exact ⟨hbits, by rw [htext, Bytes.ofAscii_chars]⟩
  · rintro ⟨hbits, rfl⟩
    rw [Bytes.chars_ofAscii fun c hc => Decimal.toNat_lt_of_mem_render hc,
      Decimal.canonical?_render hbits]

/-- An entry is an integer exactly when its value is read as one. -/
theorem ofBytes_eq_int_iff :
    ofBytes value = .int n ↔ Decimal.canonical? (Bytes.chars value) = some n := by
  unfold ofBytes
  cases Decimal.canonical? (Bytes.chars value) <;> simp

/-- The entry tells the value, so no other value has it. -/
theorem ofBytes_injective : Function.Injective ofBytes := by
  intro value other h
  have htext := congrArg text h
  rwa [text_ofBytes, text_ofBytes] at htext

/-- **A value is stored as an integer exactly when it is the decimal text of one of 64 bits.**
It makes no difference whether the text is read as a whole or digit by digit within a word.
The text of every entry is the value itself, and no two values have the same entry. -/
theorem ofBytes_faithful :
    (∀ value n, Decimal.canonical? (Bytes.chars value) = some n ↔
      Decimal.IsInt64 n ∧ value = Bytes.ofAscii (toString n).toList) ∧
    (∀ text, Decimal.canonicalInWord? text = Decimal.canonical? text) ∧
    (∀ value n, ofBytes value = .int n ↔
      Decimal.IsInt64 n ∧ value = Bytes.ofAscii (toString n).toList) ∧
    (∀ value, (ofBytes value).text = value) ∧
    Function.Injective ofBytes := by
  refine ⟨fun value n => canonical?_chars_iff, Decimal.canonicalInWord?_eq, ?_, text_ofBytes,
    ofBytes_injective⟩
  intro value n
  rw [ofBytes_eq_int_iff, canonical?_chars_iff]

example : Decimal.canonicalInWord? "-9223372036854775808".toList = some (-2 ^ 63) ∧
    Decimal.canonicalInWord? "9223372036854775808".toList = none ∧
    Decimal.canonicalInWord? "18446744073709551616".toList = none ∧
    Decimal.canonicalInWord? "-0".toList = none := by decide

end Entry

end CompactStore
