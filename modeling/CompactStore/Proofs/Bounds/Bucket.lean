import CompactStore.Proofs.Bounds.Checked
import CompactStore.Proofs.Cuckoo.Cells

/-!
# Bounds of the bytes of a bucket

A slot is read and written piece by piece, where a piece ends with its byte or with the slot.
The bytes are those of the bucket's number, so both are about the binary digits of a row of
bytes: `checkedRead_eq` and `checkedWrite_spec`.  The slots of a bucket never reach past its
last byte, and what is written are the bytes of the bucket with the slot overwritten.
-/

namespace CompactStore.Bucket

open Checked

/-- The binary digit of a row of bytes at a place. -/
def digit (data : Array UInt8) (place : Nat) : Bool :=
  (data.getD (place / 8) 0).toNat.testBit (place % 8)

/-- The digits from a place on that one byte holds, out of `left`. -/
def piece (place left : Nat) : Nat :=
  min (8 - place % 8) left

/-- The number that `left` digits from a place on spell. -/
def checkedRead (data : Array UInt8) (place left : Nat) : Checked Nat :=
  if left = 0 then .ok 0
  else do
    let byte ← Checked.get data (place / 8)
    let chunk := (byte.toNat >>> (place % 8)) % 2 ^ piece place left
    let rest ← checkedRead data (place + piece place left) (left - piece place left)
    return chunk + 2 ^ piece place left * rest
termination_by left
decreasing_by
  rw [piece]
  omega

/-- A byte with `take` digits from a place on overwritten with the lowest ones of a value. -/
def overwrite (byte : UInt8) (place take value : Nat) : UInt8 :=
  let mask := UInt8.ofNat ((2 ^ take - 1) <<< place)
  byte &&& ~~~mask ||| UInt8.ofNat (value <<< place) &&& mask

/-- Overwrites `left` digits from a place on with the lowest ones of a value. -/
def checkedWrite (data : Array UInt8) (place left value : Nat) : Checked (Array UInt8) :=
  if left = 0 then .ok data
  else do
    let data ← modify data (place / 8) (overwrite · (place % 8) (piece place left) value)
    checkedWrite data (place + piece place left) (left - piece place left)
      (value >>> piece place left)
termination_by left
decreasing_by
  rw [piece]
  omega

/-- The content of a slot. -/
def checkedGet (b : Bucket) (bits slot : Nat) : Checked UInt32 := do
  return UInt32.ofNat (← checkedRead (b.bytes bits).toArray (place bits slot) bits)

/-- Overwrites a slot; the bytes of the result are those that were written. -/
def checkedSet (b : Bucket) (bits slot : Nat) (value : UInt32) : Checked Bucket := do
  let data ← checkedWrite (b.bytes bits).toArray (place bits slot) bits value.toNat
  let after := b.set bits slot value
  require ((after.bytes bits).toArray = data) .slice
  return after

/-- The first slot with this content. -/
def checkedFind? (b : Bucket) (bits : Nat) (content : UInt32) : Checked (Option Nat) :=
  (List.range slots).findM? fun slot => do return (← b.checkedGet bits slot) == content

variable {data after : Array UInt8} {b : Bucket} {bits slot place left n v p : Nat}

/-! ### Digits of bytes -/

/-- A digit of a byte is a bit of it. -/
theorem testBit_toNat_byte (byte : UInt8) (j : Nat) :
    byte.toNat.testBit j = byte.toBitVec.getLsbD j := rfl

/-- The digits of the bytes of a number are its own. -/
theorem digit_bytes (n v : Nat) (hp : p < 8 * n) :
    digit (LittleEndian.bytes n v).toArray p = v.testBit p := by
  induction n generalizing v p with
  | zero => omega
  | succ n ih =>
      rcases Nat.lt_or_ge p 8 with hlow | hhigh
      · have hzero : p / 8 = 0 := by omega
        rw [digit, hzero, Nat.mod_eq_of_lt hlow, LittleEndian.bytes]
        change (UInt8.ofNat v).toNat.testBit p = _
        rw [UInt8.toNat_ofNat', Nat.testBit_mod_two_pow, decide_eq_true hlow, Bool.true_and]
      · obtain ⟨q, rfl⟩ := Nat.exists_eq_add_of_le' hhigh
        have hrest := ih (v / 256) (p := q) (by omega)
        have hdiv : (q + 8) / 8 = q / 8 + 1 := by omega
        have hshift : (v / 256).testBit q = v.testBit (q + 8) := by
          rw [show 256 = 2 ^ 8 from rfl, ← Nat.shiftRight_eq_div_pow, Nat.testBit_shiftRight,
            Nat.add_comm]
        rw [← hshift, ← hrest, digit, digit, hdiv, Nat.add_mod_right, LittleEndian.bytes]
        simp

/-- A row of bytes is told by its digits. -/
theorem eq_bytes_of_digit (hsize : data.size = n)
    (hdigit : ∀ p < 8 * n, digit data p = v.testBit p) :
    data = (LittleEndian.bytes n v).toArray := by
  apply Array.ext
  · rw [hsize, List.size_toArray, LittleEndian.length_bytes]
  · intro i hi hi'
    apply UInt8.toNat_inj.mp
    apply Nat.eq_of_testBit_eq
    intro k
    rcases Nat.lt_or_ge k 8 with hk | hk
    · have hp : 8 * i + k < 8 * n := by omega
      have hdiv : (8 * i + k) / 8 = i := by omega
      have hmod : (8 * i + k) % 8 = k := by omega
      have heq := (hdigit _ hp).trans (digit_bytes n v hp).symm
      rw [digit, digit, hdiv, hmod, Array.getD_eq_getD_getElem?, Array.getD_eq_getD_getElem?,
        Array.getElem?_eq_getElem hi, Array.getElem?_eq_getElem hi'] at heq
      exact heq
    · rw [testBit_toNat_byte, testBit_toNat_byte, BitVec.getLsbD_of_ge _ _ hk,
        BitVec.getLsbD_of_ge _ _ hk]

/-- A piece is not longer than what is left. -/
theorem piece_le (place left : Nat) : piece place left ≤ left :=
  Nat.min_le_right _ _

/-- As long as something is left, a piece has a digit. -/
theorem piece_pos (place : Nat) (h : left ≠ 0) : 0 < piece place left := by
  rw [piece]
  omega

/-- A piece ends in the byte that it begins in. -/
theorem piece_in_byte (place left : Nat) : place % 8 + piece place left ≤ 8 := by
  rw [piece]
  omega

/-! ### Reading -/

/-- The digits of a piece stand in one byte. -/
theorem chunk_eq (hdigit : ∀ p < 8 * data.size, digit data p = v.testBit p)
    (hin : place + left ≤ 8 * data.size) :
    ((data.getD (place / 8) 0).toNat >>> (place % 8)) % 2 ^ piece place left =
      (v >>> place) % 2 ^ piece place left := by
  have hpiece := piece_le place left
  have hbyte := piece_in_byte place left
  apply Nat.eq_of_testBit_eq
  intro j
  rw [Nat.testBit_mod_two_pow, Nat.testBit_mod_two_pow, Nat.testBit_shiftRight,
    Nat.testBit_shiftRight]
  by_cases hj : j < piece place left
  · have hdiv : (place + j) / 8 = place / 8 := by omega
    have hmod : (place + j) % 8 = place % 8 + j := by omega
    have heq := hdigit (place + j) (by omega)
    rw [digit, hdiv, hmod] at heq
    rw [heq]
  · rw [decide_eq_false hj, Bool.false_and, Bool.false_and]

/-- **Reading digits** that the bytes have gives the number that they spell. -/
theorem checkedRead_eq (hdigit : ∀ p < 8 * data.size, digit data p = v.testBit p)
    (hin : place + left ≤ 8 * data.size) :
    checkedRead data place left = .ok ((v >>> place) % 2 ^ left) := by
  induction place, left using checkedRead.induct with
  | case1 place =>
      rw [checkedRead, if_pos rfl, Nat.pow_zero, Nat.mod_one]
  | case2 place left hleft ih =>
      have hpos := piece_pos place hleft
      have hle := piece_le place left
      have hbyte : place / 8 < data.size := by omega
      have hsplit : 2 ^ left = 2 ^ piece place left * 2 ^ (left - piece place left) := by
        rw [← Nat.pow_add, Nat.add_sub_cancel' hle]
      rw [checkedRead, if_neg hleft, get_eq hbyte 0, ok_bind]
      dsimp only
      rw [ih (by omega), ok_bind, chunk_eq hdigit hin, hsplit, Nat.mod_mul, Nat.shiftRight_add,
        Nat.shiftRight_eq_div_pow (v >>> place)]
      rfl

/-! ### Writing -/

/-- The digits of a byte in which some were overwritten. -/
theorem testBit_overwrite (byte : UInt8) (shift take value : Nat) {k : Nat} (hk : k < 8) :
    (overwrite byte shift take value).toNat.testBit k =
      if shift ≤ k ∧ k < shift + take then value.testBit (k - shift)
      else byte.toNat.testBit k := by
  have hmask : (UInt8.ofNat ((2 ^ take - 1) <<< shift)).toBitVec.getLsbD k =
      decide (shift ≤ k ∧ k < shift + take) := by
    rw [← testBit_toNat_byte, UInt8.toNat_ofNat', Nat.testBit_mod_two_pow, Nat.testBit_shiftLeft,
      Nat.testBit_two_pow_sub_one, decide_eq_true hk, Bool.true_and, Bool.decide_and]
    by_cases hle : shift ≤ k
    · have hiff : k - shift < take ↔ k < shift + take := by omega
      simp only [hiff]
    · simp [hle]
  have hchunk : (UInt8.ofNat (value <<< shift)).toBitVec.getLsbD k =
      (decide (shift ≤ k) && value.testBit (k - shift)) := by
    rw [← testBit_toNat_byte, UInt8.toNat_ofNat', Nat.testBit_mod_two_pow, Nat.testBit_shiftLeft,
      decide_eq_true hk, Bool.true_and]
  rw [overwrite, testBit_toNat_byte, UInt8.toBitVec_or, UInt8.toBitVec_and, UInt8.toBitVec_and,
    UInt8.toBitVec_not, BitVec.getLsbD_or, BitVec.getLsbD_and, BitVec.getLsbD_and,
    BitVec.getLsbD_not, hmask, hchunk, testBit_toNat_byte, decide_eq_true hk, Bool.true_and]
  by_cases hin : shift ≤ k ∧ k < shift + take
  · rw [if_pos hin, decide_eq_true hin, decide_eq_true hin.1]
    simp
  · rw [if_neg hin, decide_eq_false hin]
    simp

/-- The digits of a row of bytes of which one was changed. -/
theorem digit_modify (hbyte : place / 8 < data.size) (f : UInt8 → UInt8) (p : Nat) :
    digit (data.modify (place / 8) f) p =
      if p / 8 = place / 8 then (f (data.getD (p / 8) 0)).toNat.testBit (p % 8)
      else digit data p := by
  rw [digit, digit, Array.getD_eq_getD_getElem?, Array.getElem?_modify,
    Array.getD_eq_getD_getElem?]
  by_cases heq : p / 8 = place / 8
  · rw [if_pos heq.symm, if_pos heq, heq, Array.getElem?_eq_getElem hbyte]
    rfl
  · rw [if_neg (Ne.symm heq), if_neg heq]

/-- **Writing digits** that the bytes have sets them, and leaves the others. -/
theorem checkedWrite_spec (value : Nat) (hin : place + left ≤ 8 * data.size) :
    ∃ after, checkedWrite data place left value = .ok after ∧ after.size = data.size ∧
      ∀ p, digit after p =
        if place ≤ p ∧ p < place + left then value.testBit (p - place) else digit data p := by
  induction data, place, left, value using checkedWrite.induct with
  | case1 data place value =>
      refine ⟨data, by rw [checkedWrite, if_pos rfl], rfl, fun p => ?_⟩
      rw [if_neg (by omega)]
  | case2 data place left value hleft ih =>
      have hpos := piece_pos place hleft
      have hle := piece_le place left
      have hpiece := piece_in_byte place left
      have hbyte : place / 8 < data.size := by omega
      obtain ⟨after, hafter, hsize, hdigit⟩ := ih
        (data.modify (place / 8) (overwrite · (place % 8) (piece place left) value))
        (by rw [Array.size_modify]; omega)
      refine ⟨after, ?_, hsize.trans (Array.size_modify ..), fun p => ?_⟩
      · rw [checkedWrite, if_neg hleft, modify_eq hbyte, ok_bind]
        exact hafter
      · rw [hdigit, digit_modify hbyte, testBit_overwrite _ _ _ _ (Nat.mod_lt p (by decide))]
        -- A digit is in the first piece, in what follows it, or in neither.
        by_cases hfirst : place ≤ p ∧ p < place + piece place left
        · have hdiv : p / 8 = place / 8 := by omega
          have hshift : p % 8 - place % 8 = p - place := by omega
          rw [if_neg (by omega), if_pos hdiv, if_pos (by omega), if_pos (by omega), hshift]
        · by_cases hrest : place + piece place left ≤ p ∧ p < place + left
          · have hshift : piece place left + (p - (place + piece place left)) = p - place := by
              omega
            rw [if_pos (by omega), if_pos (by omega), Nat.testBit_shiftRight, hshift]
          · rw [if_neg (by omega), if_neg (c := place ≤ p ∧ _) (by omega)]
            split
            · rw [if_neg (by omega), digit]
            · rfl

/-! ### Slots -/

/-- The slots end within the bytes of a bucket. -/
theorem place_add_le (hbits : bits ≤ 32) (hslot : slot < slots) :
    Bucket.place bits slot + bits ≤ 8 * bytesFor bits := by
  have hle := Nat.mul_le_mul_right bits (Nat.succ_le_of_lt hslot)
  rw [Nat.succ_mul] at hle
  rw [place_eq hbits hslot, bytesFor]
  omega

/-- A bucket has as many bytes as four slots need. -/
theorem size_bytes (b : Bucket) (bits : Nat) : (b.bytes bits).toArray.size = bytesFor bits := by
  rw [bytes, List.size_toArray, LittleEndian.length_bytes]

/-- **Reading a slot** stays among the bytes of the bucket. -/
theorem checkedRead_bytes (b : Bucket) (hbits : bits ≤ 32) (hslot : slot < slots) :
    checkedRead (b.bytes bits).toArray (Bucket.place bits slot) bits =
      .ok (b.content bits slot) := by
  apply checkedRead_eq
  · intro p hp
    rw [size_bytes] at hp
    exact digit_bytes _ _ hp
  · rw [size_bytes]
    exact place_add_le hbits hslot

/-- **A slot** is read within the bytes of its bucket. -/
theorem checkedGet_eq (b : Bucket) (hbits : bits ≤ 32) (hslot : slot < slots) :
    b.checkedGet bits slot = .ok (b.get bits slot) := by
  rw [checkedGet, checkedRead_bytes b hbits hslot]
  rfl

/-- **Writing a slot** stays among the bytes of the bucket, and what is written are the bytes
of the bucket with the slot overwritten. -/
theorem checkedWrite_bytes (b : Bucket) (value : UInt32) (hbits : bits ≤ 32)
    (hslot : slot < slots) :
    checkedWrite (b.bytes bits).toArray (Bucket.place bits slot) bits value.toNat =
      .ok ((b.set bits slot value).bytes bits).toArray := by
  have hin : Bucket.place bits slot + bits ≤ 8 * (b.bytes bits).toArray.size := by
    rw [size_bytes]
    exact place_add_le hbits hslot
  obtain ⟨after, hwrite, hsize, hdigit⟩ := checkedWrite_spec value.toNat hin
  rw [hwrite]
  apply congrArg
  apply eq_bytes_of_digit (hsize.trans (size_bytes b bits))
  intro p hp
  rw [hdigit, testBit_set, bytes, digit_bytes _ _ hp, Nat.testBit_mod_two_pow]
  split
  · rename_i hslotp
    rw [decide_eq_true (by omega), Bool.true_and]
  · rfl

/-- **A slot** is written within the bytes of its bucket. -/
theorem checkedSet_eq (b : Bucket) (value : UInt32) (hbits : bits ≤ 32) (hslot : slot < slots) :
    b.checkedSet bits slot value = .ok (b.set bits slot value) := by
  rw [checkedSet, checkedWrite_bytes b value hbits hslot, ok_bind]
  dsimp only
  rw [require_eq rfl]
  rfl

/-- A content is looked for within the bytes of the bucket. -/
theorem checkedFind?_eq (b : Bucket) (content : UInt32) (hbits : bits ≤ 32) :
    b.checkedFind? bits content = .ok (b.find? bits content) := by
  apply findM?_eq
  intro slot hslot
  rw [checkedGet_eq b hbits (List.mem_range.mp hslot)]
  rfl

end CompactStore.Bucket
