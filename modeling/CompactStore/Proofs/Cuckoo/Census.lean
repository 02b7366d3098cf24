import CompactStore.Cuckoo
import CompactStore.Proofs.Cuckoo.Cells
import Mathlib.Algebra.BigOperators.Group.Finset.Piecewise

/-!
# Where a fingerprint may stand

A fingerprint moves between its two candidate buckets only, so the buckets fall
into classes for each fingerprint: an index and the other candidate of it.
`census f index fp` counts the slots of a class that hold the fingerprint.  Writing
one slot changes the census of a class by what was written and what was there:
`census_setSlot`.
-/

namespace CompactStore.CuckooFilter

/-- The content of a slot. -/
def cell (f : CuckooFilter) (index slot : Nat) : UInt32 :=
  (f.bucket index).get f.bits slot

/-- The number of slots of a bucket that hold a fingerprint. -/
def countIn (f : CuckooFilter) (fp : UInt32) (index : Nat) : Nat :=
  ((Finset.range Bucket.slots).filter fun slot => f.cell index slot = fp).card

/-- The buckets in which a fingerprint that may stand at `index` may stand. -/
def pair (f : CuckooFilter) (index : Nat) (fp : UInt32) : Finset Nat :=
  {index, f.other index fp}

/-- The number of slots that hold a fingerprint in its candidates. -/
def census (f : CuckooFilter) (index : Nat) (fp : UInt32) : Nat :=
  ∑ i ∈ f.pair index fp, f.countIn fp i

/-- What every filter is made with. -/
structure Shaped (f : CuckooFilter) : Prop where
  bits_pos : 1 ≤ f.bits
  bits_le : f.bits ≤ 32
  size : ∃ k, f.numBuckets = 2 ^ k

/-- A filter with fingerprints and buckets as in another. -/
def SameShape (f g : CuckooFilter) : Prop :=
  g.bits = f.bits ∧ g.numBuckets = f.numBuckets

variable {f g : CuckooFilter} {index slot i j : Nat} {fp value : UInt32}

/-- What every filter is made with is kept by a filter of the same shape. -/
theorem SameShape.shaped (h : SameShape f g) (hf : f.Shaped) : g.Shaped := by
  obtain ⟨hbits, hsize⟩ := h
  exact ⟨hbits ▸ hf.bits_pos, hbits ▸ hf.bits_le, hsize ▸ hf.size⟩

/-- Filters that share a shape with one filter share it with each other. -/
theorem SameShape.trans {r : CuckooFilter} (h : SameShape f g) (h' : SameShape g r) :
    SameShape f r :=
  ⟨h'.1.trans h.1, h'.2.trans h.2⟩

/-- Filters of one shape pair up their buckets alike. -/
theorem SameShape.other (h : SameShape f g) (index : Nat) (fp : UInt32) :
    g.other index fp = f.other index fp := by
  rw [CuckooFilter.other, CuckooFilter.other, h.2]

/-- Filters of one shape have the same pairs of buckets. -/
theorem SameShape.pair (h : SameShape f g) (index : Nat) (fp : UInt32) :
    g.pair index fp = f.pair index fp := by
  rw [CuckooFilter.pair, CuckooFilter.pair, h.other]

/-! ### Candidates -/

/-- A filter has a bucket. -/
theorem numBuckets_pos (h : f.Shaped) : 0 < f.numBuckets := by
  obtain ⟨k, hk⟩ := h.size
  rw [hk]
  exact Nat.two_pow_pos k

/-- The other candidate is a bucket of the filter. -/
theorem other_lt (h : f.Shaped) (index : Nat) (fp : UInt32) : f.other index fp < f.numBuckets :=
  Nat.mod_lt _ (numBuckets_pos h)

/-- **The other candidate of the other candidate** is the first one. -/
theorem other_other (h : f.Shaped) (hindex : index < f.numBuckets) (fp : UInt32) :
    f.other (f.other index fp) fp = index := by
  obtain ⟨k, hk⟩ := h.size
  rw [hk] at hindex
  unfold other
  rw [hk]
  generalize (Hash.hash32 (LittleEndian.bytes 4 fp.toNat) Hash.defaultSeed).toNat = offset
  rw [Nat.xor_mod_two_pow, Nat.mod_mod, ← Nat.xor_mod_two_pow, Nat.xor_assoc, Nat.xor_self,
    Nat.xor_zero, Nat.mod_eq_of_lt hindex]

/-- An index is in the class of another exactly if the other is in its class. -/
theorem mem_pair_comm (h : f.Shaped) (hi : i < f.numBuckets) (hj : j < f.numBuckets) :
    i ∈ f.pair j fp ↔ j ∈ f.pair i fp := by
  simp only [pair, Finset.mem_insert, Finset.mem_singleton]
  constructor
  · rintro (rfl | rfl)
    · exact .inl rfl
    · exact .inr (other_other h hj fp).symm
  · rintro (rfl | rfl)
    · exact .inl rfl
    · exact .inr (other_other h hi fp).symm

/-- Both candidates have the same class. -/
theorem pair_other (h : f.Shaped) (hindex : index < f.numBuckets) (fp : UInt32) :
    f.pair (f.other index fp) fp = f.pair index fp := by
  rw [pair, pair, other_other h hindex, Finset.pair_comm]

/-- A class has both candidates or neither. -/
theorem mem_pair_other (h : f.Shaped) (hi : i < f.numBuckets) (hj : j < f.numBuckets) :
    f.other i fp ∈ f.pair j fp ↔ i ∈ f.pair j fp := by
  rw [mem_pair_comm h (other_lt h i fp) hj, pair_other h hi, mem_pair_comm h hj hi]

/-! ### Writing a slot -/

/-- Writing a slot keeps the shape. -/
theorem sameShape_setSlot (f : CuckooFilter) (index slot : Nat) (value : UInt32) :
    SameShape f (f.setSlot index slot value) := by
  simp [SameShape, setSlot, numBuckets]

/-- Writing a slot writes to its bucket and to no other. -/
theorem bucket_setSlot (hindex : index < f.numBuckets) (slot : Nat) (value : UInt32) (j : Nat) :
    (f.setSlot index slot value).bucket j =
      if index = j then (f.bucket j).set f.bits slot value else f.bucket j := by
  simp only [bucket, setSlot, Array.getD_eq_getD_getElem?, Array.getElem?_modify]
  split
  · rename_i heq
    subst heq
    rw [Array.getElem?_eq_getElem hindex]
    rfl
  · rfl

/-- Writing a slot sets it and leaves all others. -/
theorem cell_setSlot (h : f.Shaped) (hindex : index < f.numBuckets) (hslot : slot < Bucket.slots)
    (hvalue : value.toNat < 2 ^ f.bits) {s : Nat} (hs : s < Bucket.slots) :
    (f.setSlot index slot value).cell j s =
      if index = j ∧ slot = s then value else f.cell j s := by
  unfold cell
  rw [(sameShape_setSlot f index slot value).1, bucket_setSlot hindex]
  by_cases hj : index = j
  · rw [if_pos hj, Bucket.get_set hvalue h.bits_le hslot hs]
    by_cases hslots : slot = s
    · rw [if_pos hslots, if_pos ⟨hj, hslots⟩]
    · rw [if_neg hslots, if_neg (fun hboth => hslots hboth.2)]
  · rw [if_neg hj, if_neg (fun hboth => hj hboth.1)]

/-- **Writing back** what a slot held restores the filter. -/
theorem setSlot_setSlot_cell (h : f.Shaped) (index slot : Nat) (value : UInt32) :
    (f.setSlot index slot value).setSlot index slot (f.cell index slot) = f := by
  have hbuckets : (f.buckets.modify index fun b => b.set f.bits slot value).modify index
      (fun b => b.set f.bits slot (f.cell index slot)) = f.buckets := by
    apply Array.ext
    · rw [Array.size_modify, Array.size_modify]
    · intro j _ hj
      rw [Array.getElem_modify, Array.getElem_modify]
      split
      · rename_i heq
        subst heq
        have hcell : f.cell index slot = f.buckets[index].get f.bits slot := by
          rw [cell, bucket, Array.getD_eq_getD_getElem?, Array.getElem?_eq_getElem hj]
          rfl
        have hrestore : (f.buckets[index].set f.bits slot value).set f.bits slot
            (f.buckets[index].get f.bits slot) = f.buckets[index] :=
          Bucket.set_set_get value h.bits_le
        rwa [← hcell] at hrestore
      · rfl
  cases f
  simp only [setSlot, mk.injEq, and_true]
  exact hbuckets

/-! ### Counting -/

/-- A sum of which one term changes. -/
theorem sum_change {ι : Type} [DecidableEq ι] (S : Finset ι) (before after : ι → Nat) (a : ι)
    (h : ∀ x, x ≠ a → after x = before x) :
    ∑ x ∈ S, after x + (if a ∈ S then before a else 0) =
      ∑ x ∈ S, before x + (if a ∈ S then after a else 0) := by
  by_cases ha : a ∈ S
  · have hrest : ∑ x ∈ S.erase a, after x = ∑ x ∈ S.erase a, before x :=
      Finset.sum_congr rfl fun x hx => h x (Finset.ne_of_mem_erase hx)
    rw [if_pos ha, if_pos ha, ← Finset.add_sum_erase S after ha, ← Finset.add_sum_erase S before ha,
      hrest]
    omega
  · rw [if_neg ha, if_neg ha]
    exact congrArg (· + 0) (Finset.sum_congr rfl fun x hx => h x fun heq => ha (heq ▸ hx))

/-- The count of a bucket is a sum over its slots. -/
theorem countIn_eq_sum (f : CuckooFilter) (fp : UInt32) (index : Nat) :
    f.countIn fp index = ∑ s ∈ Finset.range Bucket.slots, if f.cell index s = fp then 1 else 0 :=
  Finset.card_filter _ _

/-- In another bucket there is as much as before. -/
theorem countIn_setSlot_of_ne (h : f.Shaped) (hindex : index < f.numBuckets)
    (hslot : slot < Bucket.slots) (hvalue : value.toNat < 2 ^ f.bits) (hj : j ≠ index) :
    (f.setSlot index slot value).countIn fp j = f.countIn fp j := by
  rw [countIn_eq_sum, countIn_eq_sum]
  apply Finset.sum_congr rfl
  intro s hs
  have hsame : (f.setSlot index slot value).cell j s = f.cell j s := by
    rw [cell_setSlot h hindex hslot hvalue (Finset.mem_range.mp hs),
      if_neg (fun hboth => hj hboth.1.symm)]
  rw [hsame]

/-- In the bucket itself a fingerprint gains what was written and loses what was there. -/
theorem countIn_setSlot (h : f.Shaped) (hindex : index < f.numBuckets)
    (hslot : slot < Bucket.slots) (hvalue : value.toNat < 2 ^ f.bits) (fp : UInt32) :
    (f.setSlot index slot value).countIn fp index + (if f.cell index slot = fp then 1 else 0) =
      f.countIn fp index + (if value = fp then 1 else 0) := by
  have hmem : slot ∈ Finset.range Bucket.slots := Finset.mem_range.mpr hslot
  have hcells : ∀ s < Bucket.slots, (f.setSlot index slot value).cell index s =
      if slot = s then value else f.cell index s := by
    intro s hs
    rw [cell_setSlot h hindex hslot hvalue hs]
    simp
  rw [countIn_eq_sum, countIn_eq_sum]
  have hchange := sum_change (Finset.range Bucket.slots)
    (fun s => if f.cell index s = fp then 1 else 0)
    (fun s => if (if slot = s then value else f.cell index s) = fp then 1 else 0) slot
    (fun s hs => by simp [Ne.symm hs])
  rw [if_pos hmem, if_pos hmem, if_pos rfl] at hchange
  rw [← hchange]
  congr 1
  apply Finset.sum_congr rfl
  intro s hs
  rw [hcells s (Finset.mem_range.mp hs)]

/-- **One slot of a class** takes a fingerprint in and lets one go. -/
theorem census_setSlot (h : f.Shaped) (hindex : index < f.numBuckets)
    (hslot : slot < Bucket.slots) (hvalue : value.toNat < 2 ^ f.bits) (i : Nat) (fp : UInt32) :
    (f.setSlot index slot value).census i fp +
        (if index ∈ f.pair i fp ∧ f.cell index slot = fp then 1 else 0) =
      f.census i fp + (if index ∈ f.pair i fp ∧ value = fp then 1 else 0) := by
  have hchange := sum_change (f.pair i fp) (f.countIn fp)
    ((f.setSlot index slot value).countIn fp) index
    fun j hj => countIn_setSlot_of_ne h hindex hslot hvalue hj
  have hone := countIn_setSlot h hindex hslot hvalue fp
  rw [census, census, (sameShape_setSlot f index slot value).pair]
  by_cases hmem : index ∈ f.pair i fp
  · rw [if_pos hmem, if_pos hmem] at hchange
    simp only [hmem, true_and]
    omega
  · rw [if_neg hmem, if_neg hmem] at hchange
    simp only [hmem, false_and, if_false]
    exact hchange

end CompactStore.CuckooFilter
