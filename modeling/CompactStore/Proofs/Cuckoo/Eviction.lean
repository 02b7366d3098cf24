import CompactStore.Proofs.Cuckoo.Census

/-!
# Chains of evictions

A chain carries one fingerprint that is out of its slot.  A step writes it into a
slot and carries on what stood there, to its own other candidate, which is in the
same class.  So at every step the census of a class and what is carried make up
the census at the start with the fingerprint that was added: `census_kick`.

A chain that finds no empty slot is undone from its last step on, and each step of
the way back restores what the chain had found: `kick_of_full`.
-/

namespace CompactStore.CuckooFilter

variable {f : CuckooFilter} {index slot i : Nat} {fp fq : UInt32} {path : List Eviction}

/-- The filter with another number of random choices behind it. -/
def advance (f : CuckooFilter) (used : Nat) : CuckooFilter :=
  { f with draws := { f.draws with used } }

/-- Using up random choices keeps the shape. -/
theorem sameShape_advance (f : CuckooFilter) (used : Nat) : SameShape f (f.advance used) :=
  ⟨rfl, rfl⟩

/-- What stands in a slot fits it. -/
theorem cell_lt (h : f.Shaped) (index slot : Nat) : (f.cell index slot).toNat < 2 ^ f.bits := by
  rw [cell, Bucket.toNat_get h.bits_le]
  exact Bucket.content_lt _ _ _

/-- Filling a slot keeps the shape. -/
theorem sameShape_fill (f : CuckooFilter) (index slot : Nat) (fp : UInt32) :
    SameShape f (f.fill index slot fp) := by
  obtain ⟨hbits, hsize⟩ := sameShape_setSlot f index slot fp
  exact ⟨hbits, hsize⟩

/-! ### Looking for a slot -/

/-- A slot that is found is one of the bucket and has the content. -/
theorem slot?_eq_some {content : UInt32} (h : f.slot? index content = some slot) :
    slot < Bucket.slots ∧ f.cell index slot = content :=
  Bucket.find?_eq_some h

/-- No slot is found exactly if none of the bucket has the content. -/
theorem slot?_eq_none {content : UInt32} :
    f.slot? index content = none ↔ ∀ slot < Bucket.slots, f.cell index slot ≠ content :=
  Bucket.find?_eq_none

/-! ### One step -/

/-- A step of a chain writes to some slot of the bucket, and either fills an empty
slot of the next bucket with what stood there or goes on with it. -/
theorem kick_succ (fuel : Nat) (f : CuckooFilter) (index : Nat) (fp : UInt32)
    (path : List Eviction) :
    ∃ slot < Bucket.slots, ∃ used, ∀ g, g = (f.advance used).setSlot index slot fp →
      kick (fuel + 1) f index fp path =
        match g.slot? (g.other index (f.cell index slot)) 0 with
        | some s =>
          (g.fill (g.other index (f.cell index slot)) s (f.cell index slot), true)
        | none =>
          kick fuel g (g.other index (f.cell index slot)) (f.cell index slot)
            ({ index, slot, evicted := f.cell index slot } :: path) := by
  refine ⟨(f.pick Bucket.slots).1, f.draws.pick_lt (by decide),
    (f.draws.pick Bucket.slots).2.used, ?_⟩
  rintro g rfl
  rw [kick]
  rfl

/-- After a step, what it carries on is missing from the class of what it wrote. -/
theorem census_step (h : f.Shaped) (hindex : index < f.numBuckets) (hslot : slot < Bucket.slots)
    (hfp : fp.toNat < 2 ^ f.bits) (used : Nat) (hi : i < f.numBuckets) (fq : UInt32) :
    ((f.advance used).setSlot index slot fp).census i fq +
        (if f.other index (f.cell index slot) ∈ f.pair i fq ∧ f.cell index slot = fq
          then 1 else 0) =
      f.census i fq + (if index ∈ f.pair i fq ∧ fp = fq then 1 else 0) := by
  have hstep := census_setSlot ((sameShape_advance f used).shaped h) hindex hslot hfp i fq
  have hmoved : f.other index (f.cell index slot) ∈ f.pair i fq ∧ f.cell index slot = fq ↔
      index ∈ f.pair i fq ∧ f.cell index slot = fq := by
    constructor
    · rintro ⟨hmem, rfl⟩
      exact ⟨(mem_pair_other h hindex hi).mp hmem, rfl⟩
    · rintro ⟨hmem, rfl⟩
      exact ⟨(mem_pair_other h hindex hi).mpr hmem, rfl⟩
  simp only [hmoved]
  exact hstep

/-- Filling an empty slot adds one fingerprint to its class. -/
theorem census_fill (h : f.Shaped) (hindex : index < f.numBuckets) (hslot : slot < Bucket.slots)
    (hfp : fp.toNat < 2 ^ f.bits) (hempty : f.cell index slot = 0) (hfq : fq ≠ 0) (i : Nat) :
    (f.fill index slot fp).census i fq =
      f.census i fq + (if index ∈ f.pair i fq ∧ fp = fq then 1 else 0) := by
  have hstep := census_setSlot h hindex hslot hfp i fq
  rw [if_neg (fun hboth => hfq (hboth.2.symm.trans hempty))] at hstep
  exact hstep

/-! ### Whole chains -/

/-- Undoing a chain keeps the shape. -/
theorem sameShape_undo (path : List Eviction) (f : CuckooFilter) : SameShape f (f.undo path) := by
  induction path generalizing f with
  | nil => exact ⟨rfl, rfl⟩
  | cons step rest ih => exact (sameShape_setSlot f _ _ _).trans (ih _)

/-- A chain keeps the shape, wherever it ends. -/
theorem sameShape_kick (fuel : Nat) (f : CuckooFilter) (index : Nat) (fp : UInt32)
    (path : List Eviction) : SameShape f (kick fuel f index fp path).1 := by
  induction fuel generalizing f index fp path with
  | zero => exact sameShape_undo path f
  | succ fuel ih =>
      obtain ⟨slot, -, used, hkick⟩ := kick_succ fuel f index fp path
      rw [hkick _ rfl]
      have hstep : SameShape f ((f.advance used).setSlot index slot fp) :=
        (sameShape_advance f used).trans (sameShape_setSlot _ index slot fp)
      split
      · exact hstep.trans (sameShape_fill _ _ _ _)
      · exact hstep.trans (ih _ _ _ _)

/-- **A chain that ends in an empty slot** adds its first fingerprint to its class
and leaves every other class as it was. -/
theorem census_kick (fuel : Nat) (h : f.Shaped) (hindex : index < f.numBuckets)
    (hfp : fp.toNat < 2 ^ f.bits) (hfull : ∀ s < Bucket.slots, f.cell index s ≠ 0)
    (hstored : (kick fuel f index fp path).2 = true) (hi : i < f.numBuckets) (hfq : fq ≠ 0) :
    (kick fuel f index fp path).1.census i fq =
      f.census i fq + (if index ∈ f.pair i fq ∧ fp = fq then 1 else 0) := by
  induction fuel generalizing f index fp path with
  | zero => cases hstored
  | succ fuel ih =>
      obtain ⟨slot, hslot, used, hkick⟩ := kick_succ fuel f index fp path
      have hstep := census_step h hindex hslot hfp used hi fq
      have hshape : SameShape f ((f.advance used).setSlot index slot fp) :=
        (sameShape_advance f used).trans (sameShape_setSlot _ index slot fp)
      generalize (f.advance used).setSlot index slot fp = g at hkick hstep hshape
      have hkick := hkick g rfl
      have hg := hshape.shaped h
      have hnext : g.other index (f.cell index slot) < g.numBuckets := other_lt hg _ _
      have hevicted : (f.cell index slot).toNat < 2 ^ g.bits := hshape.1 ▸ cell_lt h index slot
      rw [hshape.other] at hkick hnext
      -- what the step carries on is what the chain from there stores
      rw [← hstep]
      rw [hkick] at hstored ⊢
      cases hfree : g.slot? (f.other index (f.cell index slot)) 0 with
      | some s =>
          obtain ⟨hs, hzero⟩ := slot?_eq_some hfree
          dsimp only
          rw [census_fill hg hnext hs hevicted hzero hfq, hshape.pair]
      | none =>
          rw [hfree] at hstored
          dsimp only at hstored ⊢
          rw [ih hg hnext hevicted (slot?_eq_none.mp hfree) hstored (hshape.2 ▸ hi), hshape.pair]

/-- Undoing a chain does not look at random choices. -/
theorem undo_advance (path : List Eviction) (f : CuckooFilter) (used : Nat) :
    (f.advance used).undo path = (f.undo path).advance used := by
  induction path generalizing f with
  | nil => rfl
  | cons step rest ih => exact ih (f.setSlot step.index step.slot step.evicted)

/-- **A chain that finds no empty slot** leaves what undoing its first steps leaves,
but for the random choices that it used. -/
theorem kick_of_full (fuel : Nat) (h : f.Shaped)
    (hfull : (kick fuel f index fp path).2 = false) :
    ∃ used, (kick fuel f index fp path).1 = (f.undo path).advance used := by
  induction fuel generalizing f index fp path with
  | zero => exact ⟨(f.undo path).draws.used, rfl⟩
  | succ fuel ih =>
      obtain ⟨slot, hslot, used, hkick⟩ := kick_succ fuel f index fp path
      -- the step back writes what the step had found
      have hback : ((f.advance used).setSlot index slot fp).setSlot index slot
          (f.cell index slot) = f.advance used :=
        setSlot_setSlot_cell ((sameShape_advance f used).shaped h) index slot fp
      have hshape : SameShape f ((f.advance used).setSlot index slot fp) :=
        (sameShape_advance f used).trans (sameShape_setSlot _ index slot fp)
      generalize (f.advance used).setSlot index slot fp = g at hkick hback hshape
      have hkick := hkick g rfl
      rw [hkick] at hfull ⊢
      cases hfree : g.slot? (g.other index (f.cell index slot)) 0 with
      | some s =>
          rw [hfree] at hfull
          cases hfull
      | none =>
          rw [hfree] at hfull
          dsimp only at hfull ⊢
          obtain ⟨left, hleft⟩ := ih (hshape.shaped h) hfull
          refine ⟨left, hleft.trans ?_⟩
          have hundo : g.undo ({ index, slot, evicted := f.cell index slot } :: path) =
              (f.advance used).undo path :=
            congrArg (fun r => undo r path) hback
          rw [hundo, undo_advance]
          rfl

end CompactStore.CuckooFilter
