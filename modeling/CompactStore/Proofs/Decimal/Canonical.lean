import CompactStore.Decimal.Integer
import Mathlib.Data.List.Induction

/-!
# Canonical texts are written back

A run of digits without a leading zero is the only such run for its number, so
`render` undoes `canonical?`: what is read as an integer is written back
character by character.  A byte string is recovered from its characters as well,
which makes the text of an integer as good as the bytes it was read from.

Conversely what `render` writes of an integer of 64 bits is read, so the
canonical texts are exactly the texts of these integers.
-/

namespace CompactStore

/-- Reading bytes as characters loses nothing. -/
@[simp] theorem Bytes.ofAscii_chars (bytes : Bytes) :
    Bytes.ofAscii (Bytes.chars bytes) = bytes := by
  have hbyte : ∀ b : UInt8, UInt8.ofNat (Char.ofNat b.toNat).toNat = b := by
    intro b
    have hvalid : b.toNat.isValidChar := Or.inl (by have := b.toNat_lt; omega)
    have hchar : (Char.ofNat b.toNat).toNat = b.toNat := by
      rw [Char.ofNat, dif_pos hvalid]
      rfl
    rw [hchar]
    exact UInt8.ofNat_toNat
  simp [Bytes.ofAscii, Bytes.chars, Function.comp_def, hbyte]

/-- Writing ASCII characters as bytes loses nothing. -/
theorem Bytes.chars_ofAscii {text : List Char} (h : ∀ c ∈ text, c.toNat < 128) :
    Bytes.chars (Bytes.ofAscii text) = text := by
  induction text with
  | nil => rfl
  | cons c text ih =>
      have hc : Char.ofNat (UInt8.ofNat c.toNat).toNat = c := by
        have hlt := h c (by simp)
        rw [UInt8.toNat_ofNat', Nat.mod_eq_of_lt (by omega), Char.ofNat_toNat]
      have hrest := ih fun d hd => h d (by simp [hd])
      simp only [Bytes.chars, Bytes.ofAscii, List.map_cons, hc] at hrest ⊢
      rw [hrest]

namespace Decimal

/-- A digit is the character that stands for its value. -/
theorem digitChar_of_isDigit {c : Char} (h : c.isDigit) :
    c.toNat - '0'.toNat < 10 ∧ (c.toNat - '0'.toNat).digitChar = c := by
  have hrange := Char.isDigit_iff_toNat.mp h
  have hzero : '0'.toNat = 48 := rfl
  have hnine : '9'.toNat = 57 := rfl
  have hlt : c.toNat - '0'.toNat < 10 := by omega
  refine ⟨hlt, ?_⟩
  have hsame : (c.toNat - '0'.toNat).digitChar.toNat = c.toNat := by
    rw [Nat.toNat_digitChar_of_lt_ten hlt]
    omega
  rw [← Char.ofNat_toNat (c.toNat - '0'.toNat).digitChar, hsame, Char.ofNat_toNat]

/-- **A run of digits without a leading zero is the text of its number**, which
is not zero. -/
theorem toDigits_ofDigitChars {digits : List Char} (hne : digits ≠ [])
    (hdigit : ∀ c ∈ digits, c.isDigit) (hlead : digits.head? ≠ some '0') :
    0 < Nat.ofDigitChars 10 digits 0 ∧
      Nat.toDigits 10 (Nat.ofDigitChars 10 digits 0) = digits := by
  induction digits using List.reverseRecOn with
  | nil => exact absurd rfl hne
  | append_singleton high c ih =>
      obtain ⟨hlt, hchar⟩ := digitChar_of_isDigit (hdigit c (by simp))
      rw [Nat.ofDigitChars_append, Nat.ofDigitChars_cons, Nat.ofDigitChars_nil]
      by_cases hhigh : high = []
      · subst hhigh
        have hpos : 0 < c.toNat - '0'.toNat := by
          rcases Nat.eq_zero_or_pos (c.toNat - '0'.toNat) with hzero | hpos
          · rw [hzero] at hchar
            exact absurd (by simp [← hchar, Nat.digitChar]) hlead
          · exact hpos
        simp only [Nat.ofDigitChars_nil, Nat.mul_zero, Nat.zero_add, List.nil_append]
        exact ⟨hpos, by rw [Nat.toDigits_of_lt_base hlt, hchar]⟩
      · have hfirst : high.head? ≠ some '0' := by
          obtain ⟨d, rest, rfl⟩ := List.exists_cons_of_ne_nil hhigh
          exact hlead
        obtain ⟨hpos, htext⟩ := ih hhigh (fun d hd => hdigit d (by simp [hd])) hfirst
        refine ⟨by omega, ?_⟩
        rw [← Nat.toDigits_append_toDigits (by decide) hpos hlt, htext,
          Nat.toDigits_of_lt_base hlt, hchar]

/-- A number is read from digits only, at least one, in base ten. -/
theorem digits?_eq_some {text : List Char} {n : Nat} (h : digits? text = some n) :
    text ≠ [] ∧ (∀ c ∈ text, c.isDigit) ∧ n = Nat.ofDigitChars 10 text 0 := by
  unfold digits? at h
  split at h
  · rename_i hnumeral
    simp only [isNumeral, Bool.and_eq_true, Bool.not_eq_true', List.all_eq_true,
      List.isEmpty_eq_false_iff] at hnumeral
    exact ⟨hnumeral.1, hnumeral.2, by rw [← numeral_eq_ofDigitChars, Option.some.inj h]⟩
  · cases h

/-- Only integers of 64 bits pass. -/
theorem int64?_eq_some {n m : Int} (h : int64? n = some m) : m = n ∧ IsInt64 m := by
  unfold int64? at h
  split at h
  · cases h
    exact ⟨rfl, by assumption⟩
  · cases h

/-- **What is read as a canonical text is written back**, and has 64 bits. -/
theorem render_of_canonical? {text : List Char} {n : Int} (h : canonical? text = some n) :
    render n = text ∧ IsInt64 n := by
  unfold canonical? at h
  split at h
  · cases h
  · split at h
    · cases h
      exact ⟨rfl, by decide⟩
    · cases h
    · cases h
    · -- behind a minus sign
      rename_i digits hzero _
      obtain ⟨m, hm, hn⟩ := Option.bind_eq_some_iff.mp h
      obtain ⟨hne, hdigit, rfl⟩ := digits?_eq_some hm
      obtain ⟨rfl, hbits⟩ := int64?_eq_some hn
      have hlead : digits.head? ≠ some '0' := by
        intro hhead
        obtain ⟨rest, rfl⟩ := List.head?_eq_some_iff.mp hhead
        exact hzero rest rfl
      obtain ⟨hpos, htext⟩ := toDigits_ofDigitChars hne hdigit hlead
      refine ⟨?_, hbits⟩
      obtain ⟨k, hk⟩ := Nat.exists_eq_succ_of_ne_zero (Nat.ne_of_gt hpos)
      have hneg : -((Nat.ofDigitChars 10 digits 0 : Nat) : Int) = Int.negSucc k := by omega
      rw [hneg, render, ← Nat.succ_eq_add_one, ← hk, htext]
    · -- without a sign
      rename_i hone hzero _ _
      obtain ⟨m, hm, hn⟩ := Option.bind_eq_some_iff.mp h
      obtain ⟨hne, hdigit, rfl⟩ := digits?_eq_some hm
      obtain ⟨rfl, hbits⟩ := int64?_eq_some hn
      have hlead : text.head? ≠ some '0' := by
        intro hhead
        obtain ⟨rest, rfl⟩ := List.head?_eq_some_iff.mp hhead
        exact hzero rest rfl
      exact ⟨(toDigits_ofDigitChars hne hdigit hlead).2, hbits⟩

/-- The text of a positive number starts with no zero. -/
theorem head?_toDigits_ne {n : Nat} (h : 0 < n) : (Nat.toDigits 10 n).head? ≠ some '0' := by
  induction n using Nat.strongRecOn with
  | ind n ih =>
      rw [Nat.toDigits_eq_if (by decide)]
      split
      · rw [List.head?_cons, Ne, Option.some.injEq, Nat.digitChar_eq_zero]
        omega
      · have hhigh := ih (n / 10) (by omega) (by omega)
        obtain ⟨c, rest, htext⟩ := List.exists_cons_of_ne_nil (@Nat.toDigits_ne_nil (n / 10) 10)
        rw [htext] at hhigh ⊢
        exact hhigh

theorem isDigit_of_mem_toDigits {n : Nat} {c : Char} (h : c ∈ Nat.toDigits 10 n) : c.isDigit :=
  Nat.isDigit_of_mem_toDigits (by decide) (by decide) h

/-- A number is read from its digits. -/
theorem digits?_toDigits (n : Nat) : digits? (Nat.toDigits 10 n) = some n := by
  have hnumeral : isNumeral (Nat.toDigits 10 n) := by
    simp only [isNumeral, Bool.and_eq_true, Bool.not_eq_true', List.all_eq_true,
      List.isEmpty_eq_false_iff]
    exact ⟨Nat.toDigits_ne_nil, fun c hc => isDigit_of_mem_toDigits hc⟩
  rw [digits?, if_pos hnumeral, numeral_eq_ofDigitChars, Nat.ofDigitChars_ten_toDigits]

/-- A minus sign is no digit. -/
theorem head?_toDigits_ne_minus (n : Nat) : (Nat.toDigits 10 n).head? ≠ some '-' := by
  intro hhead
  have hmem := List.mem_of_mem_head? (Option.mem_def.mpr hhead)
  exact absurd (isDigit_of_mem_toDigits hmem) (by decide)

/-- A number of 64 bits is read from its canonical text. -/
theorem canonical?_toDigits {n : Nat} (h : IsInt64 n) :
    canonical? (Nat.toDigits 10 n) = some (n : Int) := by
  rcases Nat.eq_zero_or_pos n with rfl | hpos
  · decide
  have hlead := head?_toDigits_ne hpos
  have hminus := head?_toDigits_ne_minus n
  have hlen : (Nat.toDigits 10 n).length ≤ maxCanonicalLength := by
    unfold maxCanonicalLength
    rw [Nat.length_toDigits_le_iff (by decide) (by decide)]
    unfold IsInt64 signBit at h
    omega
  unfold canonical?
  rw [if_neg (Nat.not_lt.mpr hlen)]
  split
  · rename_i htext
    simp [htext] at hlead
  · rename_i htext
    simp [htext] at hlead
  · rename_i htext
    simp [htext] at hminus
  · rename_i htext
    simp [htext] at hminus
  · rw [digits?_toDigits, Option.bind_some]
    exact if_pos h

/-- A negative number of 64 bits is read from its canonical text. -/
theorem canonical?_minus_toDigits {n : Nat} (h : IsInt64 (Int.negSucc n)) :
    canonical? ('-' :: Nat.toDigits 10 (n + 1)) = some (Int.negSucc n) := by
  have hlead := head?_toDigits_ne (Nat.succ_pos n)
  have hlen : ('-' :: Nat.toDigits 10 (n + 1)).length ≤ maxCanonicalLength := by
    unfold maxCanonicalLength
    rw [List.length_cons, Nat.succ_le_succ_iff,
      Nat.length_toDigits_le_iff (by decide) (by decide)]
    unfold IsInt64 signBit at h
    omega
  unfold canonical?
  rw [if_neg (Nat.not_lt.mpr hlen)]
  split
  · rename_i htext
    cases htext
  · rename_i htext
    cases htext
  · rename_i htext
    have htail := List.tail_eq_of_cons_eq htext
    simp [htail] at hlead
  · rename_i htext
    rw [← List.tail_eq_of_cons_eq htext, digits?_toDigits, Option.bind_some]
    exact if_pos h
  · rename_i hnone
    exact (hnone _ rfl).elim

/-- **What is written is read**: the text of an integer of 64 bits is canonical. -/
theorem canonical?_render {n : Int} (h : IsInt64 n) : canonical? (render n) = some n := by
  cases n with
  | ofNat n => exact canonical?_toDigits h
  | negSucc n => exact canonical?_minus_toDigits h

/-- A text is ASCII throughout. -/
theorem toNat_lt_of_mem_render {n : Int} {c : Char} (h : c ∈ render n) : c.toNat < 128 := by
  have hdigit : ∀ m, c ∈ Nat.toDigits 10 m → c.toNat < 128 := by
    intro m hm
    have hrange := Char.isDigit_iff_toNat.mp (isDigit_of_mem_toDigits hm)
    exact Nat.lt_of_le_of_lt hrange.2 (by decide)
  cases n with
  | ofNat m => exact hdigit m h
  | negSucc m =>
      rcases List.mem_cons.mp h with rfl | hm
      · decide
      · exact hdigit (m + 1) hm

end Decimal

end CompactStore
