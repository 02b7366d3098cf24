import CompactStore.Proofs.Bounds.Bucket
import Mathlib.Data.List.Induction

/-!
# A bucket holds what was written to its slots

Whatever is written to the slots of a new bucket, each of them reads as the value written
last to it, cut to the width of a slot, and the digits behind the last slot stay zero.  So
the slots tell the bucket, and the bytes that the writes leave tell the slots:
`slots_of_writes`.  The writes are those of the bytes themselves, byte by byte, and none of
them is past the last one.
-/

namespace CompactStore.Bucket

open Checked

/-- A value that is written to a slot. -/
structure Write where
  slot : Fin 4
  value : UInt32
deriving DecidableEq, Repr

/-- A new bucket after writes one after another. -/
def written (bits : Nat) (writes : List Write) : Bucket :=
  writes.foldl (fun b w => b.set bits w.slot w.value) empty

/-- The same writes to the bytes of a new bucket. -/
def checkedWritten (bits : Nat) (writes : List Write) : Checked (Array UInt8) :=
  writes.foldlM (fun data w => checkedWrite data (place bits w.slot) bits w.value.toNat)
    (Array.replicate (bytesFor bits) 0)

/-- The value that was written last to a slot, and zero if there is none. -/
def lastWritten (writes : List Write) (slot : Fin 4) : UInt32 :=
  ((writes.filter fun w => w.slot = slot).getLast?.map Write.value).getD 0

variable {a b : Bucket} {bits : Nat} {writes : List Write} {w : Write} {slot : Fin 4}

/-- One more write goes to the bucket that the writes before it leave. -/
theorem written_concat (bits : Nat) (writes : List Write) (w : Write) :
    written bits (writes ++ [w]) = (written bits writes).set bits w.slot w.value := by
  simp [written]

/-- The last value of a slot is that of one more write to it, or else the one before. -/
theorem lastWritten_concat (writes : List Write) (w : Write) (slot : Fin 4) :
    lastWritten (writes ++ [w]) slot =
      if w.slot = slot then w.value else lastWritten writes slot := by
  by_cases hslot : w.slot = slot <;> simp [lastWritten, hslot]

/-! ### Slots -/

/-- **A slot** holds the low digits of the value written last to it. -/
theorem content_written (hbits : bits ≤ 32) (writes : List Write) (slot : Fin 4) :
    (written bits writes).content bits slot = (lastWritten writes slot).toNat % 2 ^ bits := by
  induction writes using List.reverseRecOn with
  | nil => simp [written, empty, content, lastWritten]
  | append_singleton writes w ih =>
      rw [written_concat, lastWritten_concat, content_set w.value hbits w.slot.2 slot.2]
      by_cases hslot : w.slot = slot
      · rw [if_pos hslot, if_pos (congrArg Fin.val hslot)]
      · rw [if_neg hslot, if_neg fun heq => hslot (Fin.ext heq), ih]

/-- A digit of a slot is one of the bucket. -/
theorem testBit_get (hbits : bits ≤ 32) {j : Nat} (hj : j < bits) (slot : Fin 4) :
    (b.get bits slot).toNat.testBit j = b.packed.testBit (slot * bits + j) := by
  rw [toNat_get hbits, testBit_content, place_eq hbits slot.2, decide_eq_true hj, Bool.true_and]

/-- No digit is set behind the last slot. -/
def Padded (bits : Nat) (b : Bucket) : Prop :=
  ∀ p, slots * bits ≤ p → b.packed.testBit p = false

/-- Writing a slot sets no digit behind the last one. -/
theorem padded_set (h : b.Padded bits) (hbits : bits ≤ 32) (slot : Fin 4) (value : UInt32) :
    (b.set bits slot value).Padded bits := by
  intro p hp
  have hend : (slot + 1) * bits ≤ slots * bits := Nat.mul_le_mul_right bits slot.2
  rw [Nat.succ_mul] at hend
  rw [testBit_set, place_eq hbits slot.2, if_neg (by omega)]
  exact h p hp

/-- No writes set a digit behind the last slot. -/
theorem padded_written (hbits : bits ≤ 32) (writes : List Write) :
    (written bits writes).Padded bits := by
  induction writes using List.reverseRecOn with
  | nil =>
      intro p _
      exact Nat.zero_testBit p
  | append_singleton writes w ih =>
      rw [written_concat]
      exact padded_set ih hbits w.slot w.value

/-- **The slots tell a bucket** that has nothing behind them. -/
theorem eq_of_get (hbits : bits ≤ 32) (ha : a.Padded bits) (hb : b.Padded bits)
    (hslots : ∀ slot : Fin 4, a.get bits slot = b.get bits slot) : a = b := by
  have hpacked : a.packed = b.packed := by
    apply Nat.eq_of_testBit_eq
    intro p
    rcases Nat.lt_or_ge p (slots * bits) with hlow | hhigh
    · -- the digit is one of the slot in which its place lies
      have hpos : 0 < bits := by
        rcases Nat.eq_zero_or_pos bits with rfl | hpos
        · exact absurd hlow (Nat.not_lt_zero p)
        · exact hpos
      have hslot : p / bits < slots := (Nat.div_lt_iff_lt_mul hpos).mpr hlow
      have hsplit : p / bits * bits + p % bits = p := Nat.div_add_mod' p bits
      have hdigit := congrArg (fun v => v.toNat.testBit (p % bits)) (hslots ⟨p / bits, hslot⟩)
      have hj : p % bits < bits := Nat.mod_lt p hpos
      rwa [testBit_get hbits hj, testBit_get hbits hj, hsplit] at hdigit
    · rw [ha p hhigh, hb p hhigh]
  cases a
  cases b
  exact congrArg Bucket.mk hpacked

/-! ### Bytes -/

/-- The bytes of zero are zeros. -/
theorem bytes_zero (n : Nat) : LittleEndian.bytes n 0 = List.replicate n 0 := by
  induction n with
  | zero => rfl
  | succ n ih =>
      rw [LittleEndian.bytes, Nat.zero_div, ih]
      rfl

/-- **The bytes that the writes leave** are those of the bucket. -/
theorem checkedWritten_eq (hbits : bits ≤ 32) (writes : List Write) :
    checkedWritten bits writes = .ok ((written bits writes).bytes bits).toArray := by
  have hfold : ∀ b : Bucket, writes.foldlM
      (fun data w => checkedWrite data (place bits w.slot) bits w.value.toNat)
        (b.bytes bits).toArray =
      .ok ((writes.foldl (fun b w => b.set bits w.slot w.value) b).bytes bits).toArray := by
    induction writes with
    | nil => exact fun b => rfl
    | cons w rest ih =>
        intro b
        rw [List.foldlM_cons, checkedWrite_bytes b w.value hbits w.slot.2, ok_bind, ih,
          List.foldl_cons]
  have hnew : (empty.bytes bits).toArray = Array.replicate (bytesFor bits) 0 := by
    rw [bytes, empty, bytes_zero, List.toArray_replicate]
  rw [checkedWritten, ← hnew, hfold, written]

/-- The slots reach into the last byte, and not past it. -/
theorem slots_le_bytesFor (bits : Nat) : slots * bits ≤ 8 * bytesFor bits := by
  rw [bytesFor]
  omega

/-- The digits of the bytes of a bucket are its own, and none is set behind them. -/
theorem digit_toArray_bytes (h : b.Padded bits) (p : Nat) :
    digit (b.bytes bits).toArray p = b.packed.testBit p := by
  rcases Nat.lt_or_ge p (8 * bytesFor bits) with hlow | hhigh
  · exact digit_bytes _ _ hlow
  · have houtside : bytesFor bits ≤ p / 8 := by omega
    rw [h p ((slots_le_bytesFor bits).trans hhigh), digit, Array.getD_eq_getD_getElem?,
      Array.getElem?_eq_none (by rwa [size_bytes])]
    exact Nat.zero_testBit _

/-- **The bytes tell a bucket** that has nothing behind its slots. -/
theorem eq_of_bytes (ha : a.Padded bits) (hb : b.Padded bits) (h : a.bytes bits = b.bytes bits) :
    a = b := by
  have hpacked : a.packed = b.packed := by
    apply Nat.eq_of_testBit_eq
    intro p
    rw [← digit_toArray_bytes ha, ← digit_toArray_bytes hb, h]
  cases a
  cases b
  exact congrArg Bucket.mk hpacked

/-- **Four independent cells.**  After any writes to the slots of a new bucket, each slot
reads as the value written last to it modulo its width, or as zero if there is none.  The
writes stay among the bytes of the bucket, the fewest that hold four slots, and so does
reading a slot.  Digit `j` of slot `s` is digit `s · bits + j` of the bytes, none is set
behind the last slot, and two buckets have the same bytes exactly if their slots are the
same. -/
theorem slots_of_writes {bits : Nat} (hbits : bits ≤ 32) (writes : List Write) :
    (∀ slot : Fin 4, ((written bits writes).get bits slot).toNat =
      (lastWritten writes slot).toNat % 2 ^ bits) ∧
    (∃ data, checkedWritten bits writes = .ok data ∧
      data.toList = (written bits writes).bytes bits ∧
      data.size = (4 * bits + 7) / 8 ∧
      (∀ slot : Fin 4, checkedRead data (place bits slot) bits =
        .ok ((written bits writes).get bits slot).toNat) ∧
      (∀ slot : Fin 4, ∀ j < bits, digit data (slot * bits + j) =
        ((written bits writes).get bits slot).toNat.testBit j) ∧
      ∀ p, 4 * bits ≤ p → digit data p = false) ∧
    ∀ others, (written bits writes).bytes bits = (written bits others).bytes bits ↔
      ∀ slot : Fin 4,
        (written bits writes).get bits slot = (written bits others).get bits slot := by
  have hpadded : ∀ writes, (written bits writes).Padded bits := padded_written hbits
  refine ⟨?_, ⟨_, checkedWritten_eq hbits writes, rfl, ?_, ?_, ?_, ?_⟩, ?_⟩
  · intro slot
    rw [toNat_get hbits, content_written hbits]
  · exact size_bytes _ bits
  · intro slot
    rw [checkedRead_bytes _ hbits slot.2, toNat_get hbits]
  · intro slot j hj
    rw [digit_toArray_bytes (hpadded writes), testBit_get hbits hj]
  · intro p hp
    rw [digit_toArray_bytes (hpadded writes)]
    exact hpadded writes p hp
  · intro others
    constructor
    · intro h slot
      rw [eq_of_bytes (hpadded writes) (hpadded others) h]
    · intro h
      rw [eq_of_get hbits (hpadded writes) (hpadded others) h]

/-- Slots of ten digits start inside of a byte and end inside of another one.  The second
slot is written twice, at last with more digits than it has. -/
theorem slots_of_writes_ten_digits :
    10 ≤ 32 ∧
    ((written 10 [⟨1, 0x3FF⟩, ⟨2, 0x155⟩, ⟨1, 0xABCDE⟩]).get 10 1).toNat = 0xDE ∧
    ((written 10 [⟨1, 0x3FF⟩, ⟨2, 0x155⟩, ⟨1, 0xABCDE⟩]).get 10 3).toNat = 0 := by
  have hbits : 10 ≤ 32 := by decide
  obtain ⟨hslots, -⟩ := slots_of_writes hbits [⟨1, 0x3FF⟩, ⟨2, 0x155⟩, ⟨1, 0xABCDE⟩]
  exact ⟨hbits, (hslots 1).trans (by decide), (hslots 3).trans (by decide)⟩

end CompactStore.Bucket
