import CompactStore.Listpack.Entry
import CompactStore.Proofs.Decimal.Canonical
import Mathlib.Algebra.Group.Int.Defs
import Mathlib.Algebra.Group.Nat.Defs

/-!
# Entries are read back

An entry that can be written at all is read back from its body, and its size is
known from the first bytes of the body, whatever follows.  The bytes of a value
are recovered from its entry.
-/

namespace CompactStore.Entry

/-- An entry that has a body: an integer of 64 bits, or a string whose length a
tag can describe. -/
def Encodable : Entry → Prop
  | .int n => Decimal.IsInt64 n
  | .str bytes => bytes.length ≤ maxStringLength

/-- The bytes of a value are recovered from its entry. -/
@[simp] theorem text_ofBytes (value : Bytes) : (ofBytes value).text = value := by
  unfold ofBytes
  split
  · rename_i n h
    rw [text, (Decimal.render_of_canonical? h).1, Bytes.ofAscii_chars]
  · rfl

/-- An integer that a value is stored as has 64 bits. -/
theorem isInt64_of_ofBytes {value : Bytes} {n : Int} (h : ofBytes value = .int n) :
    Decimal.IsInt64 n := by
  unfold ofBytes at h
  split at h
  · rename_i m hm
    cases h
    exact (Decimal.render_of_canonical? hm).2
  · cases h

/-- A value that is not the text of an integer is stored as a string. -/
theorem ofBytes_eq_str {value : Bytes}
    (h : ∀ n, Decimal.IsInt64 n → value ≠ Bytes.ofAscii (Decimal.render n)) :
    ofBytes value = .str value := by
  have htext := text_ofBytes value
  cases hentry : ofBytes value with
  | int n =>
      rw [hentry] at htext
      exact absurd htext.symm (h n (isInt64_of_ofBytes hentry))
  | str bytes =>
      rw [hentry] at htext
      exact congrArg str htext

/-! ### Sizes -/

/-- The head of a string is as long as is said of it. -/
@[simp] theorem length_stringTag (length : Nat) :
    (stringTag length).length = stringHead length := by
  unfold stringTag stringHead
  repeat' split
  all_goals simp

/-- The head of a string has a tag. -/
theorem stringHead_pos (length : Nat) : 1 ≤ stringHead length := by
  unfold stringHead
  repeat' split
  all_goals decide

/-- The head of a string has five bytes at most. -/
theorem stringHead_le (length : Nat) : stringHead length ≤ 5 := by
  unfold stringHead
  repeat' split
  all_goals decide

/-- The body of an integer is its tag, and the bytes of a number that does not fit the tag. -/
theorem length_intBody (n : Int) :
    (intBody n).length = if 0 ≤ n ∧ n < 128 then 1 else 1 + intWidth n := by
  unfold intBody
  split
  · rfl
  · simp [Nat.add_comm]

/-- The size of an entry is the length of its body, and an entry of a value has
one exactly when it is encodable. -/
theorem size?_ofBytes (value : Bytes) :
    (Encodable (ofBytes value) → (ofBytes value).size? = some (ofBytes value).body.length) ∧
      (¬ Encodable (ofBytes value) → (ofBytes value).size? = none) := by
  cases h : ofBytes value with
  | int n =>
      refine ⟨fun _ => ?_, fun hno => absurd (isInt64_of_ofBytes h) hno⟩
      rw [size?, body, length_intBody]
  | str bytes =>
      refine ⟨fun hlen : bytes.length ≤ maxStringLength => ?_,
        fun hlen : ¬ bytes.length ≤ maxStringLength => ?_⟩
      · rw [size?, if_pos hlen, body, List.length_append, length_stringTag]
      · rw [size?, if_neg hlen]

/-- An entry is its body and the length of the body. -/
@[simp] theorem length_encode (e : Entry) :
    e.encode.length = e.body.length + Backlen.width e.body.length := by
  simp [encode]

/-- A body has one byte at least. -/
theorem length_body_pos (e : Entry) : 0 < e.body.length := by
  cases e with
  | int n =>
      rw [body, length_intBody]
      split <;> omega
  | str bytes =>
      rw [body, List.length_append, length_stringTag, stringHead]
      split
      · omega
      · split <;> omega

/-- The size of a body can be read back from behind it. -/
theorem Encodable.length_body_lt {e : Entry} (h : e.Encodable) : e.body.length < 2 ^ 35 := by
  cases e with
  | int n =>
      rw [body, length_intBody, intWidth]
      repeat' split
      all_goals omega
  | str bytes =>
      have hlen : bytes.length ≤ 2 ^ 32 - 1 := h
      rw [body, List.length_append, length_stringTag, stringHead]
      repeat' split
      all_goals omega

/-! ### The size from the first bytes -/

/-- The first five bytes decide. -/
theorem bodySize?_take (bytes : Bytes) : bodySize? (bytes.take headSize) = bodySize? bytes := by
  cases bytes with
  | nil => rfl
  | cons tag rest =>
      have htake : (rest.take 4).take 4 = rest.take 4 := by rw [List.take_take, Nat.min_self]
      have hlen : 4 ≤ (rest.take 4).length ↔ 4 ≤ rest.length := by
        rw [List.length_take]
        omega
      have hhead : (tag :: rest).take headSize = tag :: rest.take 4 := rfl
      rw [hhead]
      unfold bodySize?
      simp only [htake, hlen]
      cases rest <;> rfl

/-- The largest size is that of a string under a length of four bytes. -/
theorem bodySize?_lt {bytes : Bytes} {size : Nat} (h : bodySize? bytes = some size) :
    size < 2 ^ 33 := by
  cases bytes with
  | nil => cases h
  | cons tag rest =>
      have htag := tag.toNat_lt
      unfold bodySize? at h
      dsimp only at h
      split at h
      · obtain rfl := Option.some.inj h
        omega
      split at h
      · obtain rfl := Option.some.inj h
        omega
      split at h
      · cases rest with
        | nil => cases h
        | cons low rest =>
            have hlow := low.toNat_lt
            obtain rfl := Option.some.inj h
            omega
      iterate 3
        split at h
        · obtain rfl := Option.some.inj h
          omega
      split at h
      · rename_i hlong
        have hlength : (rest.take 4).length = 4 := by
          rw [List.length_take]
          omega
        have hvalue := LittleEndian.value_lt (rest.take 4)
        rw [hlength] at hvalue
        obtain rfl := Option.some.inj h
        omega
      · cases h

/-- An integer takes two, four or eight bytes. -/
theorem intWidth_cases (n : Int) : intWidth n = 2 ∨ intWidth n = 4 ∨ intWidth n = 8 := by
  unfold intWidth
  repeat' split
  all_goals simp

/-- An integer of 64 bits fits its width in two's complement. -/
theorem intWidth_fits {n : Int} (h : Decimal.IsInt64 n) :
    -(256 ^ intWidth n / 2 : Int) ≤ n ∧ n < 256 ^ intWidth n / 2 := by
  unfold Decimal.IsInt64 signBit at h
  unfold intWidth
  repeat' split
  all_goals omega

/-- The only byte of a small integer. -/
theorem toNat_smallTag {n : Int} (h : 0 ≤ n ∧ n < 128) :
    (UInt8.ofNat n.toNat).toNat = n.toNat ∧ UInt8.ofNat n.toNat < 0x80 := by
  have htag : (UInt8.ofNat n.toNat).toNat = n.toNat := by
    rw [UInt8.toNat_ofNat']
    omega
  refine ⟨htag, ?_⟩
  rw [UInt8.lt_iff_toNat_lt, htag]
  exact show n.toNat < 128 by omega

/-- The lead byte of a short string. -/
theorem toNat_shortTag {length : Nat} (h : length < 64) :
    (UInt8.ofNat (0x80 + length)).toNat = 0x80 + length := by
  rw [UInt8.toNat_ofNat']
  omega

/-- The lead byte of a string of middle length. -/
theorem toNat_middleTag {length : Nat} (h : length < 4096) :
    (UInt8.ofNat (0xE0 + length / 256)).toNat = 0xE0 + length / 256 := by
  rw [UInt8.toNat_ofNat']
  omega

/-- **The size of a body is known from its first bytes**, whatever follows it. -/
theorem Encodable.bodySize?_append {e : Entry} (h : e.Encodable) (rest : Bytes) :
    bodySize? (e.body ++ rest) = some e.body.length := by
  cases e with
  | int n =>
      rw [body, length_intBody, intBody]
      split
      · rename_i hsmall
        obtain ⟨htag, hlow⟩ := toNat_smallTag hsmall
        unfold bodySize?
        exact if_pos hlow
      · rcases intWidth_cases n with hwidth | hwidth | hwidth <;>
          simp [hwidth, bodySize?, intTag]
  | str bytes =>
      have hlen : bytes.length ≤ 2 ^ 32 - 1 := h
      rw [body, List.length_append, length_stringTag, stringTag, stringHead]
      split
      · rename_i hshort
        have htag := toNat_shortTag hshort
        simp only [List.cons_append, bodySize?, UInt8.lt_iff_toNat_lt, htag]
        rw [if_neg (by simp), if_pos (by simp; omega)]
        simp
      · split
        · rename_i hmiddle
          have htag := toNat_middleTag hmiddle
          simp only [List.cons_append, bodySize?, UInt8.lt_iff_toNat_lt, UInt8.le_iff_toNat_le,
            htag]
          rw [if_neg (by simp; omega), if_neg (by simp; omega), if_pos (by simp; omega)]
          simp
          omega
        · simp [bodySize?, LittleEndian.value_bytes]
          omega

/-! ### Reading a body -/

/-- Two's complement gives an integer back that fits the width. -/
theorem signedValue_bytes {n : Int} (h : Decimal.IsInt64 n) :
    signedValue (LittleEndian.bytes (intWidth n) (n % 256 ^ intWidth n).toNat) = n := by
  obtain ⟨hlow, hhigh⟩ := intWidth_fits h
  have hpos : (0 : Int) < 256 ^ intWidth n := Int.pow_pos (by decide)
  have hmod : (((n % 256 ^ intWidth n).toNat % 256 ^ intWidth n : Nat) : Int) =
      n % 256 ^ intWidth n := by
    have hnonneg := Int.emod_nonneg n (Int.ne_of_gt hpos)
    have hlt := Int.emod_lt_of_pos n hpos
    rw [Int.natCast_emod, Int.toNat_of_nonneg hnonneg]
    exact Int.emod_eq_of_lt hnonneg hlt
  have hcast : ((256 ^ intWidth n : Nat) : Int) = 256 ^ intWidth n := by simp
  rw [signedValue, LittleEndian.value_bytes, LittleEndian.length_bytes, hmod, ← hcast,
    Int.emod_bmod]
  exact Int.bmod_eq_of_le (by rw [hcast]; omega) (by rw [hcast]; omega)

/-- **An entry is read back from its body.** -/
theorem Encodable.ofBody?_body {e : Entry} (h : e.Encodable) : ofBody? e.body = some e := by
  cases e with
  | int n =>
      rw [body, intBody]
      split
      · rename_i hsmall
        obtain ⟨htag, hlow⟩ := toNat_smallTag hsmall
        rw [ofBody?, if_pos hlow, htag, Int.toNat_of_nonneg hsmall.1]
      · have hvalue := signedValue_bytes h
        rcases intWidth_cases n with hwidth | hwidth | hwidth <;>
          simp [hwidth, ofBody?, intTag] at hvalue ⊢ <;> exact hvalue
  | str bytes =>
      rw [body, stringTag]
      split
      · rename_i hshort
        have htag := toNat_shortTag hshort
        simp only [List.cons_append, List.nil_append, ofBody?, UInt8.lt_iff_toNat_lt, htag]
        rw [if_neg (by simp), if_pos (by simp; omega)]
      · split
        · rename_i hmiddle
          have htag := toNat_middleTag hmiddle
          simp only [List.cons_append, List.nil_append, ofBody?, UInt8.lt_iff_toNat_lt,
            UInt8.le_iff_toNat_le, htag]
          rw [if_neg (by simp; omega), if_neg (by simp; omega), if_pos (by simp; omega)]
          rfl
        · simp [ofBody?]

/-! ### Bodies -/

/-- A byte string from which an entry is read and which is just as long as its
first bytes say. -/
def IsBodyOf (bytes : Bytes) (e : Entry) : Prop :=
  bodySize? bytes = some bytes.length ∧ ofBody? bytes = some e

/-- The body of an entry that can be written is the body of this entry. -/
theorem Encodable.isBodyOf {e : Entry} (h : e.Encodable) : IsBodyOf e.body e := by
  have hsize := h.bodySize?_append []
  rw [List.append_nil] at hsize
  exact ⟨hsize, h.ofBody?_body⟩

end CompactStore.Entry
