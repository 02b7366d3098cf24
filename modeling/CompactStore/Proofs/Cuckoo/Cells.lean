import CompactStore.Cuckoo
import Mathlib.Data.Nat.Bitwise

/-!
# The four slots of a bucket are independent

The slots are runs of binary digits of one number.  `testBit_set` says for every
digit what it is after a slot was overwritten: the value's inside of the slot, and
the same as before outside of it.  As the slots do not overlap, overwriting one
leaves the others, and writing back what a slot held restores the bucket.
-/

namespace CompactStore.Bucket

variable {b : Bucket} {bits slot other : Nat}

/-- The content of a slot has no more digits than the slot. -/
theorem content_lt (b : Bucket) (bits slot : Nat) : b.content bits slot < 2 ^ bits :=
  Nat.mod_lt _ (Nat.two_pow_pos bits)

/-- The digits of a slot are those of the bucket from its place on. -/
theorem testBit_content (b : Bucket) (bits slot j : Nat) :
    (b.content bits slot).testBit j =
      (decide (j < bits) && b.packed.testBit (place bits slot + j)) := by
  rw [content, Nat.testBit_mod_two_pow, Nat.testBit_shiftRight]

/-- A bucket is what stands above a slot, the slot, and what stands below it. -/
theorem packed_split (b : Bucket) (bits slot : Nat) :
    ∃ high low, low < 2 ^ place bits slot ∧
      b.packed = 2 ^ place bits slot * (2 ^ bits * high + b.content bits slot) + low := by
  refine ⟨b.packed >>> place bits slot / 2 ^ bits, b.packed % 2 ^ place bits slot,
    Nat.mod_lt _ (Nat.two_pow_pos _), ?_⟩
  rw [content, Nat.div_add_mod, Nat.shiftRight_eq_div_pow, Nat.div_add_mod]

/-- Overwriting a slot leaves what stands above and below it. -/
theorem packed_set {high low : Nat} (value : UInt32)
    (h : b.packed = 2 ^ place bits slot * (2 ^ bits * high + b.content bits slot) + low) :
    (b.set bits slot value).packed =
      2 ^ place bits slot * (2 ^ bits * high + value.toNat % 2 ^ bits) + low := by
  rw [set, Nat.shiftLeft_eq, Nat.shiftLeft_eq, Nat.mul_comm (b.content bits slot),
    Nat.mul_comm (value.toNat % 2 ^ bits), Nat.mul_add]
  rw [Nat.mul_add] at h
  dsimp only
  omega

/-- **Every digit after a slot was overwritten.** -/
theorem testBit_set (b : Bucket) (bits slot : Nat) (value : UInt32) (j : Nat) :
    (b.set bits slot value).packed.testBit j =
      if place bits slot ≤ j ∧ j < place bits slot + bits then
        (value.toNat % 2 ^ bits).testBit (j - place bits slot)
      else b.packed.testBit j := by
  obtain ⟨high, low, hlow, hpacked⟩ := b.packed_split bits slot
  have hvalue : value.toNat % 2 ^ bits < 2 ^ bits := Nat.mod_lt _ (Nat.two_pow_pos bits)
  rw [packed_set value hpacked, Nat.testBit_two_pow_mul_add _ hlow]
  have hold : b.packed.testBit j = if j < place bits slot then low.testBit j else
      (2 ^ bits * high + b.content bits slot).testBit (j - place bits slot) := by
    rw [← Nat.testBit_two_pow_mul_add _ hlow, ← hpacked]
  rw [hold, Nat.testBit_two_pow_mul_add _ hvalue,
    Nat.testBit_two_pow_mul_add _ (b.content_lt bits slot)]
  by_cases hbelow : j < place bits slot
  · rw [if_pos hbelow, if_pos hbelow, if_neg (by omega)]
  · rw [if_neg hbelow, if_neg hbelow]
    by_cases hin : j - place bits slot < bits
    · rw [if_pos hin, if_pos (by omega)]
    · rw [if_neg hin, if_neg (by omega), if_neg hin]

/-- **Writing one slot** sets it, and leaves the others. -/
theorem content_set (value : UInt32) (hbits : bits ≤ 32) (hslot : slot < slots)
    (hother : other < slots) :
    (b.set bits slot value).content bits other =
      if slot = other then value.toNat % 2 ^ bits else b.content bits other := by
  apply Nat.eq_of_testBit_eq
  intro j
  rw [testBit_content, testBit_set]
  by_cases hj : j < bits
  · by_cases heq : slot = other
    · subst heq
      rw [if_pos ⟨Nat.le_add_right _ _, by omega⟩, if_pos rfl, Nat.add_sub_cancel_left]
      simp [hj]
    · -- the digits of another slot lie below or above those that were written
      have hapart : ¬(place bits slot ≤ place bits other + j ∧
          place bits other + j < place bits slot + bits) := by
        rw [place_eq hbits hslot, place_eq hbits hother]
        rcases Nat.lt_or_gt_of_ne heq with hlt | hgt
        · have hle := Nat.mul_le_mul_right bits hlt
          rw [Nat.succ_mul] at hle
          omega
        · have hle := Nat.mul_le_mul_right bits hgt
          rw [Nat.succ_mul] at hle
          omega
      rw [if_neg hapart, if_neg heq, testBit_content]
  · have hvalue : (value.toNat % 2 ^ bits).testBit j = false := by
      rw [Nat.testBit_mod_two_pow, decide_eq_false hj, Bool.false_and]
    have hcontent : (b.content bits other).testBit j = false := by
      rw [testBit_content, decide_eq_false hj, Bool.false_and]
    rw [decide_eq_false hj, Bool.false_and]
    split
    · exact hvalue.symm
    · exact hcontent.symm

/-- A slot of at most 32 digits is read as its content. -/
theorem toNat_get (hbits : bits ≤ 32) : (b.get bits slot).toNat = b.content bits slot := by
  have hlt : b.content bits slot < 2 ^ 32 :=
    Nat.lt_of_lt_of_le (b.content_lt bits slot) (Nat.pow_le_pow_right (by decide) hbits)
  exact UInt32.toNat_ofNat_of_lt' hlt

/-- What fits a slot is read from it after it was written, and the other slots read as before. -/
theorem get_set {value : UInt32} (hvalue : value.toNat < 2 ^ bits) (hbits : bits ≤ 32)
    (hslot : slot < slots) (hother : other < slots) :
    (b.set bits slot value).get bits other = if slot = other then value else b.get bits other := by
  rw [get, content_set value hbits hslot hother, Nat.mod_eq_of_lt hvalue]
  split
  · exact UInt32.ofNat_toNat
  · rfl

/-- **Writing back** what a slot held restores the bucket. -/
theorem set_set_get (value : UInt32) (hbits : bits ≤ 32) :
    (b.set bits slot value).set bits slot (b.get bits slot) = b := by
  have hpacked : ((b.set bits slot value).set bits slot (b.get bits slot)).packed = b.packed := by
    apply Nat.eq_of_testBit_eq
    intro j
    rw [testBit_set, testBit_set, toNat_get hbits, Nat.mod_eq_of_lt (b.content_lt bits slot),
      testBit_content]
    split
    · rename_i hin
      rw [decide_eq_true (by omega), Bool.true_and, Nat.add_sub_cancel' hin.1]
    · rfl
  cases b
  exact congrArg Bucket.mk hpacked

@[simp] theorem get_empty (bits slot : Nat) : empty.get bits slot = 0 := by
  simp [get, content, empty]

/-! ### Looking for a content -/

/-- A slot that is found is one of the four and has the content. -/
theorem find?_eq_some {content : UInt32} (h : b.find? bits content = some slot) :
    slot < slots ∧ b.get bits slot = content := by
  have hmem := List.mem_of_find?_eq_some h
  have hget := List.find?_some h
  exact ⟨List.mem_range.mp hmem, beq_iff_eq.mp hget⟩

/-- No slot is found exactly if none of the four has the content. -/
theorem find?_eq_none {content : UInt32} :
    b.find? bits content = none ↔ ∀ slot < slots, b.get bits slot ≠ content := by
  rw [find?, List.find?_eq_none]
  constructor
  · intro h slot hslot heq
    exact h slot (List.mem_range.mpr hslot) (beq_iff_eq.mpr heq)
  · intro h slot hslot heq
    exact h slot (List.mem_range.mp hslot) (beq_iff_eq.mp heq)

end CompactStore.Bucket
