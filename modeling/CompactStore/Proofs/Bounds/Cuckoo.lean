import CompactStore.Proofs.Bounds.Bucket
import CompactStore.Proofs.Cuckoo.Conservation

/-!
# Bounds of cuckoo filters

Every access to the buckets of a cuckoo filter, in a checked form, with the accesses to the
bytes of a bucket under it.  An index that is met is a candidate, which is below the number of
buckets, and a slot that is met was found in a bucket or chosen among its slots.
-/

namespace CompactStore.CuckooFilter

open Checked

/-- The other candidate of a fingerprint that may stand at `index`. -/
def checkedOther (f : CuckooFilter) (index : Nat) (fp : UInt32) : Checked Nat :=
  let offset := Hash.hash32 (LittleEndian.bytes 4 fp.toNat) Hash.defaultSeed
  mod (index ^^^ offset.toNat) f.numBuckets

/-- Where the fingerprint of an item may stand. -/
def checkedCandidates (f : CuckooFilter) (item : Bytes) : Checked Candidates := do
  let h := Hash.hash128 item Hash.defaultSeed
  let fp := f.fingerprint h
  let first ← mod h.x.toNat f.numBuckets
  return { fp, first, second := ← f.checkedOther first fp }

/-- Overwrites one slot. -/
def checkedSetSlot (f : CuckooFilter) (index slot : Nat) (fp : UInt32) : Checked CuckooFilter := do
  let buckets ← modifyM f.buckets index fun b => b.checkedSet f.bits slot fp
  return { f with buckets }

/-- The first slot of a bucket with this content. -/
def checkedSlot? (f : CuckooFilter) (index : Nat) (content : UInt32) : Checked (Option Nat) := do
  (← get f.buckets index).checkedFind? f.bits content

/-- The first slot with this content among both candidates, with its bucket. -/
def checkedLocate? (f : CuckooFilter) (c : Candidates) (content : UInt32) :
    Checked (Option (Nat × Nat)) := do
  match ← f.checkedSlot? c.first content with
  | some slot => return some (c.first, slot)
  | none => return (← f.checkedSlot? c.second content).map fun slot => (c.second, slot)

/-- Puts a fingerprint into an empty slot. -/
def checkedFill (f : CuckooFilter) (index slot : Nat) (fp : UInt32) : Checked CuckooFilter := do
  let f ← f.checkedSetSlot index slot fp
  return { f with count := f.count + 1 }

/-- Empties a slot that holds a fingerprint. -/
def checkedClear (f : CuckooFilter) (index slot : Nat) : Checked CuckooFilter := do
  let f ← f.checkedSetSlot index slot 0
  return { f with count := f.count - 1 }

/-- Undoes a chain of evictions, the last step first. -/
def checkedUndo (f : CuckooFilter) (path : List Eviction) : Checked CuckooFilter :=
  path.foldlM (fun f step => f.checkedSetSlot step.index step.slot step.evicted) f

/-- Goes on with a chain of evictions for at most `fuel` steps. -/
def checkedKick :
    Nat → CuckooFilter → Nat → UInt32 → List Eviction → Checked (CuckooFilter × Bool)
  | 0, f, _, _, path => do return (← f.checkedUndo path, false)
  | fuel + 1, f, index, fp, path => do
    let (slot, f) := f.pick Bucket.slots
    let evicted ← (← get f.buckets index).checkedGet f.bits slot
    let f ← f.checkedSetSlot index slot fp
    let next ← f.checkedOther index evicted
    match ← f.checkedSlot? next 0 with
    | some slot => return (← f.checkedFill next slot evicted, true)
    | none => checkedKick fuel f next evicted ({ index, slot, evicted } :: path)

/-- Stores a fingerprint in one of its candidates. -/
def checkedStore (f : CuckooFilter) (c : Candidates) : Checked (CuckooFilter × Bool) := do
  match ← f.checkedLocate? c 0 with
  | some (index, slot) => return (← f.checkedFill index slot c.fp, true)
  | none =>
    let (side, f) := f.pick 2
    checkedKick maxKicks f (← get #[c.first, c.second] side) c.fp []

/-- Adds an item. -/
def checkedAdd (f : CuckooFilter) (item : Bytes) : Checked (CuckooFilter × Bool) := do
  f.checkedStore (← f.checkedCandidates item)

/-- Whether an item may be stored. -/
def checkedContains (f : CuckooFilter) (item : Bytes) : Checked Bool := do
  let c ← f.checkedCandidates item
  return (← f.checkedLocate? c c.fp).isSome

/-- Adds an item, and tells what became of it. -/
def checkedAddOnce (f : CuckooFilter) (item : Bytes) : Checked (CuckooFilter × Addition) := do
  return additionOf (← f.checkedAdd item)

/-- Adds an item unless it is reported present. -/
def checkedAddNew (f : CuckooFilter) (item : Bytes) : Checked (CuckooFilter × Addition) := do
  if ← f.checkedContains item then return (f, .present) else f.checkedAddOnce item

/-- Takes out one fingerprint of an item. -/
def checkedRemove (f : CuckooFilter) (item : Bytes) : Checked (CuckooFilter × Bool) := do
  let c ← f.checkedCandidates item
  match ← f.checkedLocate? c c.fp with
  | some (index, slot) => return (← f.checkedClear index slot, true)
  | none => return (f, false)

variable {f g : CuckooFilter} {c : Candidates} {index slot : Nat} {content fp : UInt32}
  {path : List Eviction}

/-! ### Buckets and slots -/

/-- The other candidate is computed within the bounds, since there is a bucket. -/
theorem Shaped.checkedOther_eq (h : f.Shaped) (index : Nat) (fp : UInt32) :
    f.checkedOther index fp = .ok (f.other index fp) :=
  mod_eq (numBuckets_pos h) _

/-- **The candidates of an item** are computed within the bounds. -/
theorem Shaped.checkedCandidates_eq (h : f.Shaped) (item : Bytes) :
    f.checkedCandidates item = .ok (f.candidates item) := by
  rw [checkedCandidates, mod_eq (numBuckets_pos h), ok_bind, h.checkedOther_eq]
  rfl

/-- A slot is written within the bounds. -/
theorem Shaped.checkedSetSlot_eq (h : f.Shaped) (hindex : index < f.numBuckets)
    (hslot : slot < Bucket.slots) (fp : UInt32) :
    f.checkedSetSlot index slot fp = .ok (f.setSlot index slot fp) := by
  rw [checkedSetSlot, modifyM_eq hindex fun b => b.checkedSet_eq fp h.bits_le hslot]
  rfl

/-- A slot of a bucket is looked for within the bounds. -/
theorem Shaped.checkedSlot?_eq (h : f.Shaped) (hindex : index < f.numBuckets) (content : UInt32) :
    f.checkedSlot? index content = .ok (f.slot? index content) := by
  rw [checkedSlot?, get_eq hindex default, ok_bind, Bucket.checkedFind?_eq _ _ h.bits_le]
  rfl

/-- The second candidate is a bucket of the filter. -/
theorem CandidatesIn.second_lt (h : f.Shaped) (hc : f.CandidatesIn c) :
    c.second < f.numBuckets :=
  hc.second_eq ▸ other_lt h c.first c.fp

/-- Both candidates are looked through within the bounds. -/
theorem Shaped.checkedLocate?_eq (h : f.Shaped) (hc : f.CandidatesIn c) (content : UInt32) :
    f.checkedLocate? c content = .ok (f.locate? c content) := by
  rw [checkedLocate?, h.checkedSlot?_eq hc.first_lt, ok_bind, locate?]
  cases f.slot? c.first content with
  | some slot => rfl
  | none =>
      dsimp only
      rw [h.checkedSlot?_eq (hc.second_lt h)]
      rfl

/-- What was located is a slot of a bucket. -/
theorem Shaped.locate?_bounds (h : f.Shaped) (hc : f.CandidatesIn c)
    (hfound : f.locate? c content = some (index, slot)) :
    index < f.numBuckets ∧ slot < Bucket.slots := by
  obtain ⟨hindex, hslot, -⟩ := locate?_eq_some hc hfound
  refine ⟨?_, hslot⟩
  rcases hindex with rfl | rfl
  · exact hc.first_lt
  · exact other_lt h _ _

/-- A slot is filled within the bounds. -/
theorem Shaped.checkedFill_eq (h : f.Shaped) (hindex : index < f.numBuckets)
    (hslot : slot < Bucket.slots) (fp : UInt32) :
    f.checkedFill index slot fp = .ok (f.fill index slot fp) := by
  rw [checkedFill, h.checkedSetSlot_eq hindex hslot]
  rfl

/-- A slot is emptied within the bounds. -/
theorem Shaped.checkedClear_eq (h : f.Shaped) (hindex : index < f.numBuckets)
    (hslot : slot < Bucket.slots) : f.checkedClear index slot = .ok (f.clear index slot) := by
  rw [checkedClear, h.checkedSetSlot_eq hindex hslot]
  rfl

/-! ### Chains of evictions -/

/-- A chain that wrote to slots of buckets. -/
def PathIn (f : CuckooFilter) (path : List Eviction) : Prop :=
  ∀ step ∈ path, step.index < f.numBuckets ∧ step.slot < Bucket.slots

/-- **Undoing a chain** writes where the chain had written. -/
theorem Shaped.checkedUndo_eq (h : f.Shaped) (hpath : f.PathIn path) :
    f.checkedUndo path = .ok (f.undo path) := by
  apply foldlM_eq (P := SameShape f) _ ⟨rfl, rfl⟩
  intro g step hstep hg
  obtain ⟨hindex, hslot⟩ := hpath step hstep
  exact ⟨(hg.shaped h).checkedSetSlot_eq (hg.2 ▸ hindex) hslot _,
    hg.trans (sameShape_setSlot g _ _ _)⟩

/-- **A chain of evictions** goes from candidate to candidate. -/
theorem Shaped.checkedKick_eq (fuel : Nat) (h : f.Shaped) (hindex : index < f.numBuckets)
    (fp : UInt32) (hpath : f.PathIn path) :
    checkedKick fuel f index fp path = .ok (kick fuel f index fp path) := by
  induction fuel generalizing f index fp path with
  | zero =>
      rw [checkedKick, h.checkedUndo_eq hpath]
      rfl
  | succ fuel ih =>
      rw [checkedKick, kick]
      have hslot : (f.pick Bucket.slots).1 < Bucket.slots := f.draws.pick_lt (by decide)
      have hpicked : SameShape f (f.pick Bucket.slots).2 := ⟨rfl, rfl⟩
      generalize f.pick Bucket.slots = picked at hslot hpicked ⊢
      obtain ⟨slot, f'⟩ := picked
      dsimp only at hslot hpicked ⊢
      have h' := hpicked.shaped h
      have hindex' : index < f'.numBuckets := hpicked.2 ▸ hindex
      rw [get_eq hindex' default, ok_bind, Bucket.checkedGet_eq _ h'.bits_le hslot, ok_bind,
        h'.checkedSetSlot_eq hindex' hslot, ok_bind]
      have hshape := hpicked.trans (sameShape_setSlot f' index slot fp)
      have hevicted : (f'.buckets.getD index default).get f'.bits slot =
        (f'.bucket index).get f'.bits slot := rfl
      rw [hevicted]
      generalize (f'.bucket index).get f'.bits slot = evicted
      generalize f'.setSlot index slot fp = g at hshape ⊢
      have hg := hshape.shaped h
      have hnext : g.other index evicted < g.numBuckets := other_lt hg index evicted
      rw [hg.checkedOther_eq, ok_bind, hg.checkedSlot?_eq hnext, ok_bind]
      cases hfree : g.slot? (g.other index evicted) 0 with
      | some s =>
          dsimp only
          rw [hg.checkedFill_eq hnext (slot?_eq_some hfree).1]
          rfl
      | none =>
          -- the steps so far and the one just made are slots of the filter, so undoing them is, too
          apply ih hg hnext
          rintro step (_ | ⟨_, hstep⟩)
          · exact ⟨hshape.2 ▸ hindex, hslot⟩
          · exact hshape.2 ▸ hpath step hstep

/-! ### Items -/

/-- **Storing a fingerprint** stays within the bounds. -/
theorem Shaped.checkedStore_eq (h : f.Shaped) (hc : f.CandidatesIn c) :
    f.checkedStore c = .ok (f.store c) := by
  rw [checkedStore, h.checkedLocate?_eq hc, ok_bind, store]
  cases hfree : f.locate? c 0 with
  | some found =>
      obtain ⟨index, slot⟩ := found
      obtain ⟨hindex, hslot⟩ := h.locate?_bounds hc hfree
      dsimp only
      rw [h.checkedFill_eq hindex hslot]
      rfl
  | none =>
      have hside : (f.pick 2).1 < 2 := f.draws.pick_lt (by decide)
      have hpicked : SameShape f (f.pick 2).2 := ⟨rfl, rfl⟩
      generalize f.pick 2 = picked at hside hpicked ⊢
      obtain ⟨side, f'⟩ := picked
      dsimp only at hside hpicked ⊢
      have hget : get #[c.first, c.second] side =
          .ok (if side = 0 then c.first else c.second) := by
        obtain rfl | rfl : side = 0 ∨ side = 1 := by omega
        · rfl
        · rfl
      have hindex : (if side = 0 then c.first else c.second) < f'.numBuckets := by
        rw [hpicked.2]
        split
        · exact hc.first_lt
        · exact hc.second_lt h
      rw [hget, ok_bind]
      exact (hpicked.shaped h).checkedKick_eq maxKicks hindex c.fp fun step hstep => nomatch hstep

/-- **Adding an item** stays among the buckets and their bytes. -/
theorem Shaped.checkedAdd_eq (h : f.Shaped) (item : Bytes) :
    f.checkedAdd item = .ok (f.add item) := by
  rw [checkedAdd, h.checkedCandidates_eq, ok_bind, h.checkedStore_eq (candidates_spec h item)]
  rfl

/-- **Asking for an item** stays among the buckets and their bytes. -/
theorem Shaped.checkedContains_eq (h : f.Shaped) (item : Bytes) :
    f.checkedContains item = .ok (f.contains item) := by
  rw [checkedContains, h.checkedCandidates_eq, ok_bind,
    h.checkedLocate?_eq (candidates_spec h item)]
  rfl

/-- **Adding an item** stays within the bounds. -/
theorem Shaped.checkedAddOnce_eq (h : f.Shaped) (item : Bytes) :
    f.checkedAddOnce item = .ok (f.addOnce item) := by
  rw [checkedAddOnce, h.checkedAdd_eq]
  rfl

/-- **Adding an item unless it is there** stays within the bounds. -/
theorem Shaped.checkedAddNew_eq (h : f.Shaped) (item : Bytes) :
    f.checkedAddNew item = .ok (f.addNew item) := by
  rw [checkedAddNew, h.checkedContains_eq, ok_bind, h.checkedAddOnce_eq, addNew]
  split <;> rfl

/-- **Taking an item out** stays among the buckets and their bytes. -/
theorem Shaped.checkedRemove_eq (h : f.Shaped) (item : Bytes) :
    f.checkedRemove item = .ok (f.remove item) := by
  have hc := candidates_spec h item
  rw [checkedRemove, h.checkedCandidates_eq, ok_bind, h.checkedLocate?_eq hc, ok_bind, remove,
    takeOut]
  cases hfound : f.locate? (f.candidates item) (f.candidates item).fp with
  | none => rfl
  | some found =>
      obtain ⟨index, slot⟩ := found
      obtain ⟨hindex, hslot⟩ := h.locate?_bounds hc hfound
      dsimp only
      rw [h.checkedClear_eq hindex hslot]
      rfl

end CompactStore.CuckooFilter
