import CompactStore.Proofs.Cuckoo.Membership

/-!
# The count of a filter is the number of its occupied slots

A slot is occupied when it holds a fingerprint, which is never zero.  A chain of evictions
starts at a full bucket and goes on from full buckets only, so each of its steps writes a
fingerprint over a fingerprint and leaves as many slots occupied as there were; only where
it ends is an empty slot filled.  So storing an item occupies one slot more and taking one
out one fewer, as the count says: `count_run`.  A filter has four slots in each bucket, so
one whose slots are all occupied is full for every item.
-/

namespace CompactStore.CuckooFilter

/-- The slots of a filter, each with the index of its bucket. -/
def places (f : CuckooFilter) : Finset (Nat × Nat) :=
  Finset.range f.numBuckets ×ˢ Finset.range Bucket.slots

/-- The number of slots that hold a fingerprint. -/
def occupied (f : CuckooFilter) : Nat :=
  (f.places.filter fun p => f.cell p.1 p.2 ≠ 0).card

/-- One more slot is occupied than before, and it is counted. -/
def OneMore (f g : CuckooFilter) : Prop :=
  g.count = f.count + 1 ∧ g.occupied = f.occupied + 1

variable {f g : CuckooFilter} {c : Candidates} {index slot : Nat} {fp value : UInt32}
  {path : List Eviction} {item : Bytes}

/-- There are four slots for each bucket. -/
theorem card_places (f : CuckooFilter) : f.places.card = Bucket.slots * f.numBuckets := by
  simp [places, Nat.mul_comm]

/-- No more slots are occupied than there are. -/
theorem occupied_le (f : CuckooFilter) : f.occupied ≤ Bucket.slots * f.numBuckets :=
  f.card_places ▸ Finset.card_filter_le _ _

/-- All slots are counted as occupied exactly if none of them is empty. -/
theorem occupied_eq_iff (f : CuckooFilter) :
    f.occupied = Bucket.slots * f.numBuckets ↔
      ∀ i < f.numBuckets, ∀ s < Bucket.slots, f.cell i s ≠ 0 := by
  rw [← card_places, occupied, Finset.card_filter_eq_iff]
  simp only [places, Finset.mem_product, Finset.mem_range]
  constructor
  · intro h i hi s hs
    exact h (i, s) ⟨hi, hs⟩
  · intro h p hp
    exact h p.1 hp.1 p.2 hp.2

theorem occupied_advance (f : CuckooFilter) (used : Nat) :
    (f.advance used).occupied = f.occupied := rfl

/-- In an empty filter no slot is occupied. -/
theorem occupied_of_empty (hempty : ∀ index slot, f.cell index slot = 0) : f.occupied = 0 := by
  simp [occupied, hempty]

/-! ### Writing a slot -/

/-- **A written slot** is occupied by what was written, in place of what was there. -/
theorem occupied_setSlot (h : f.Shaped) (hindex : index < f.numBuckets)
    (hslot : slot < Bucket.slots) (hvalue : value.toNat < 2 ^ f.bits) :
    (f.setSlot index slot value).occupied + (if f.cell index slot ≠ 0 then 1 else 0) =
      f.occupied + (if value ≠ 0 then 1 else 0) := by
  have hplaces : (f.setSlot index slot value).places = f.places := by
    rw [places, places, (sameShape_setSlot f index slot value).2]
  have hmem : (index, slot) ∈ f.places := by simp [places, hindex, hslot]
  have hchange := sum_change f.places
    (fun p => if f.cell p.1 p.2 ≠ 0 then 1 else 0)
    (fun p => if (if (index, slot) = p then value else f.cell p.1 p.2) ≠ 0 then 1 else 0)
    (index, slot) (fun p hp => by simp [Ne.symm hp])
  have hcells : ∀ p ∈ f.places, (f.setSlot index slot value).cell p.1 p.2 =
      if (index, slot) = p then value else f.cell p.1 p.2 := by
    rintro ⟨i, s⟩ hp
    have hs : s < Bucket.slots := Finset.mem_range.mp (Finset.mem_product.mp hp).2
    simp only [cell_setSlot h hindex hslot hvalue hs, Prod.mk.injEq]
  have hafter : (f.setSlot index slot value).occupied = ∑ p ∈ f.places,
      if (if (index, slot) = p then value else f.cell p.1 p.2) ≠ 0 then 1 else 0 := by
    rw [occupied, hplaces, Finset.card_filter]
    exact Finset.sum_congr rfl fun p hp => by rw [hcells p hp]
  rw [if_pos hmem, if_pos hmem, if_pos rfl] at hchange
  rw [hafter, occupied, Finset.card_filter]
  exact hchange

/-- **Filling an empty slot** occupies it, and counts it. -/
theorem oneMore_fill (h : f.Shaped) (hindex : index < f.numBuckets) (hslot : slot < Bucket.slots)
    (hfp : fp.toNat < 2 ^ f.bits) (hne : fp ≠ 0) (hempty : f.cell index slot = 0) :
    OneMore f (f.fill index slot fp) := by
  have hwritten := occupied_setSlot h hindex hslot hfp
  rw [if_neg (not_not_intro hempty), if_pos hne, Nat.add_zero] at hwritten
  exact ⟨rfl, hwritten⟩

/-- A step of a chain leaves a fingerprint where it found one. -/
theorem occupied_step (h : f.Shaped) (hindex : index < f.numBuckets) (hslot : slot < Bucket.slots)
    (hfp : fp.toNat < 2 ^ f.bits) (hne : fp ≠ 0) (hevicted : f.cell index slot ≠ 0) (used : Nat) :
    ((f.advance used).setSlot index slot fp).occupied = f.occupied := by
  have hwritten := occupied_setSlot ((sameShape_advance f used).shaped h) hindex hslot hfp
  have hcell : (f.advance used).cell index slot ≠ 0 := hevicted
  rw [if_pos hcell, if_pos hne, occupied_advance] at hwritten
  exact Nat.add_right_cancel hwritten

/-! ### Storing and taking out -/

/-- **A chain that ends in an empty slot** occupies one slot more. -/
theorem oneMore_kick (fuel : Nat) (h : f.Shaped) (hindex : index < f.numBuckets)
    (hfp : fp.toNat < 2 ^ f.bits) (hne : fp ≠ 0) (hfull : ∀ s < Bucket.slots, f.cell index s ≠ 0)
    (hstored : (kick fuel f index fp path).2 = true) :
    OneMore f (kick fuel f index fp path).1 := by
  -- along the chain, the bucket that it has come to is full and what it carries is not zero
  induction fuel generalizing f index fp path with
  | zero => cases hstored
  | succ fuel ih =>
      obtain ⟨slot, hslot, used, hkick⟩ := kick_succ fuel f index fp path
      have hevicted : f.cell index slot ≠ 0 := hfull slot hslot
      have hsame := occupied_step h hindex hslot hfp hne hevicted used
      have hcount : ((f.advance used).setSlot index slot fp).count = f.count := rfl
      have hshape : SameShape f ((f.advance used).setSlot index slot fp) :=
        (sameShape_advance f used).trans (sameShape_setSlot _ index slot fp)
      generalize (f.advance used).setSlot index slot fp = g at hkick hsame hcount hshape
      have hkick := hkick g rfl
      have hg := hshape.shaped h
      have hlt : (f.cell index slot).toNat < 2 ^ g.bits := hshape.1 ▸ cell_lt h index slot
      have hnext : g.other index (f.cell index slot) < g.numBuckets := other_lt hg _ _
      rw [hkick] at hstored ⊢
      unfold OneMore
      rw [← hsame, ← hcount]
      cases hfree : g.slot? (g.other index (f.cell index slot)) 0 with
      | some s =>
          obtain ⟨hs, hzero⟩ := slot?_eq_some hfree
          exact oneMore_fill hg hnext hs hlt hevicted hzero
      | none =>
          rw [hfree] at hstored
          exact ih hg hnext hlt hevicted (slot?_eq_none.mp hfree) hstored

/-- **Storing a fingerprint** occupies one slot more. -/
theorem oneMore_store (h : f.Shaped) (hc : f.CandidatesIn c) (hstored : (f.store c).2 = true) :
    OneMore f (f.store c).1 := by
  cases hfree : f.locate? c 0 with
  | some found =>
      obtain ⟨index, slot⟩ := found
      obtain ⟨hindex, hslot, hempty⟩ := locate?_eq_some hc hfree
      obtain ⟨hlt, -⟩ := mem_pair_of_locate h hc hc.first_lt hindex c.fp
      unfold store
      rw [hfree]
      exact oneMore_fill h hlt hslot hc.fp_lt hc.fp_ne hempty
  | none =>
      obtain ⟨used, index, hindex, hstore⟩ := store_of_none hfree
      rw [hc.second_eq] at hindex
      obtain ⟨hlt, -⟩ := mem_pair_of_locate h hc hc.first_lt hindex c.fp
      have hmem : index ∈ f.pair c.first c.fp := by
        simpa only [pair, Finset.mem_insert, Finset.mem_singleton] using hindex
      rw [hstore] at hstored ⊢
      obtain ⟨hcount, hoccupied⟩ := oneMore_kick maxKicks ((sameShape_advance f used).shaped h) hlt
        hc.fp_lt hc.fp_ne ((locate?_eq_none hc).mp hfree index hmem) hstored
      exact ⟨hcount, hoccupied⟩

/-- A fingerprint that found room would occupy a slot more than there are. -/
theorem store_of_occupied (h : f.Shaped) (hc : f.CandidatesIn c)
    (hall : f.occupied = Bucket.slots * f.numBuckets) : (f.store c).2 = false := by
  by_contra hroom
  obtain ⟨-, hmore⟩ := oneMore_store h hc (Bool.eq_true_of_not_eq_false hroom)
  have hle := (f.store c).1.occupied_le
  have hsize : (f.store c).1.numBuckets = f.numBuckets := (sameShape_store f c).2
  rw [hmore, hsize, hall] at hle
  exact Nat.not_succ_le_self _ hle

/-- What is not stored is reported as full. -/
theorem additionOf_of_not_stored {result : CuckooFilter × Bool} (h : result.2 = false) :
    (additionOf result).2 = .full := by
  obtain ⟨g, stored⟩ := result
  obtain rfl : stored = false := h
  rfl

/-- **Taking a fingerprint out** leaves one slot fewer occupied. -/
theorem oneMore_takeOut (h : f.Shaped) (hc : f.CandidatesIn c) (hcounted : f.count = f.occupied)
    (htaken : (f.takeOut c).2 = true) : OneMore (f.takeOut c).1 f := by
  obtain ⟨index, slot, hindex, hslot, hcell, hclear⟩ := takeOut_eq_clear hc htaken
  obtain ⟨hlt, -⟩ := mem_pair_of_locate h hc hc.first_lt hindex c.fp
  have hzero : (0 : UInt32).toNat < 2 ^ f.bits := Nat.two_pow_pos _
  have hcleared := occupied_setSlot h hlt hslot hzero
  rw [hcell, if_pos hc.fp_ne, if_neg (not_not_intro rfl)] at hcleared
  have hoccupied : (f.clear index slot).occupied + 1 = f.occupied := hcleared
  have hcount : (f.clear index slot).count = f.count - 1 := rfl
  rw [hclear]
  exact ⟨by omega, hoccupied.symm⟩

/-! ### Operations one after another -/

/-- What an operation did is what became of the count, and of the occupied slots. -/
def Counts (f : CuckooFilter) (result : CuckooFilter × Option Change) : Prop :=
  result.1.count + (takenItems result.2.toList).length =
      f.count + (storedItems result.2.toList).length ∧
    result.1.occupied + (takenItems result.2.toList).length =
      f.occupied + (storedItems result.2.toList).length

/-- Adding an item counts for one if it is stored, and for nothing if it is not. -/
theorem counts_add (h : f.Shaped) (item : Bytes) : f.Counts (storing item (f.add item)) := by
  have hstored := oneMore_store h (candidates_spec h item)
  have hfull := store_of_full (c := f.candidates item) h
  unfold add
  generalize f.store (f.candidates item) = result at hstored hfull
  obtain ⟨g, stored⟩ := result
  cases stored with
  | true => exact hstored rfl
  | false =>
      obtain ⟨used, hleft⟩ := hfull rfl
      obtain rfl : g = f.advance used := hleft
      exact ⟨rfl, f.occupied_advance used⟩

/-- Removing an item counts for one if it is taken out, and for nothing if it is not. -/
theorem counts_remove (h : f.Shaped) (hcounted : f.count = f.occupied) (item : Bytes) :
    f.Counts (taking item (f.remove item)) := by
  have htaken := oneMore_takeOut h (candidates_spec h item) hcounted
  have hnone := takeOut_of_none (f := f) (c := f.candidates item)
  unfold remove
  generalize f.takeOut (f.candidates item) = result at htaken hnone
  obtain ⟨g, taken⟩ := result
  cases taken with
  | true =>
      obtain ⟨hcount, hoccupied⟩ := htaken rfl
      exact ⟨hcount.symm, hoccupied.symm⟩
  | false =>
      obtain rfl : g = f := hnone rfl
      exact ⟨rfl, rfl⟩

/-- **One operation** changes the count, and the number of occupied slots, by what it did. -/
theorem counts_step (h : f.Shaped) (hcounted : f.count = f.occupied) (op : Operation) :
    f.Counts (f.step op) := by
  cases op with
  | add item => exact counts_add h item
  | addNew item =>
      rw [step, addNew]
      split
      · exact ⟨rfl, rfl⟩
      · rw [addOnce, adding_additionOf]
        exact counts_add h item
  | remove item => exact counts_remove h hcounted item

/-- The count of a filter with what was done to it since it was empty. -/
structure Tallied (f : CuckooFilter) (state : CuckooFilter × List Change) : Prop where
  shape : SameShape f state.1
  count_eq : state.1.count = state.1.occupied
  count_add : state.1.count + (takenItems state.2).length = (storedItems state.2).length

/-- **One more change** that counts right keeps the count of the run. -/
theorem tallied_note {changes : List Change} {result : CuckooFilter × Option Change}
    (h : Tallied f (g, changes)) (hshape : SameShape g result.1) (hcounts : g.Counts result) :
    Tallied f (note changes result) := by
  obtain ⟨hkept, hcount, hadd⟩ := h
  obtain ⟨r, change⟩ := result
  obtain ⟨hafter, hoccupied⟩ := hcounts
  have htaken : (takenItems (change.toList ++ changes)).length =
      (takenItems change.toList).length + (takenItems changes).length := by
    simp [takenItems]
  have hstored : (storedItems (change.toList ++ changes)).length =
      (storedItems change.toList).length + (storedItems changes).length := by
    simp [storedItems]
  dsimp only at hcount hadd hafter hoccupied
  refine ⟨hkept.trans hshape, ?_, ?_⟩
  · simp only [note]
    omega
  · simp only [note]
    omega

/-- **A run** keeps the count, by induction on its operations. -/
theorem tallied_foldl (h : f.Shaped) {state : CuckooFilter × List Change}
    (htallied : Tallied f state) (ops : List Operation) :
    Tallied f (ops.foldl perform state) := by
  induction ops generalizing state with
  | nil => exact htallied
  | cons op rest ih =>
      obtain ⟨g, changes⟩ := state
      have hg : g.Shaped := htallied.shape.shaped h
      apply ih
      exact tallied_note htallied (accounts_step hg op).1 (counts_step hg htallied.count_eq op)

/-- A new filter counts no items. -/
theorem count_of_create {log2 : Float → Float} {capacity : Nat} {rate : Float}
    {stream : Nat → Nat} (h : create log2 capacity rate stream = .ok f) : f.count = 0 := by
  obtain ⟨-, -, n, -, rfl⟩ := create_eq_ok_iff.mp h
  rfl

/-- **The count is the number of occupied slots.**  After any operations on a new filter,
whatever its random choices were, it is also the number of items stored less those taken
out.  So there is at most one for each slot, taking an item out never lowers a count of
zero, and a filter whose slots are all occupied is full for every item. -/
theorem count_run {log2 : Float → Float} {capacity : Nat} {rate : Float} {stream : Nat → Nat}
    {f g : CuckooFilter} (hcreate : create log2 capacity rate stream = .ok f)
    {ops : List Operation} {changes : List Change} (hrun : f.run ops = (g, changes)) :
    g.count = g.occupied ∧
    g.count + (takenItems changes).length = (storedItems changes).length ∧
    g.count ≤ 4 * g.numBuckets ∧
    (∀ item, (g.remove item).2 = true → (g.remove item).1.count + 1 = g.count) ∧
    ((∀ index < g.numBuckets, ∀ slot < 4, g.cell index slot ≠ 0) →
      ∀ item, (g.addOnce item).2 = .full) := by
  obtain ⟨hshaped, hempty⟩ := create_spec hcreate
  have hnew : Tallied f (f, []) := by
    have hzero : f.count = 0 := count_of_create hcreate
    exact ⟨⟨rfl, rfl⟩, hzero.trans (occupied_of_empty hempty).symm, hzero⟩
  have htallied : Tallied f (f.run ops) := tallied_foldl hshaped hnew ops
  rw [hrun] at htallied
  have hg : g.Shaped := htallied.shape.shaped hshaped
  have hcount : g.count = g.occupied := htallied.count_eq
  refine ⟨hcount, htallied.count_add, hcount ▸ g.occupied_le, ?_, ?_⟩
  · intro item htaken
    exact (oneMore_takeOut hg (candidates_spec hg item) hcount htaken).1.symm
  · intro hoccupied item
    have hall : g.occupied = Bucket.slots * g.numBuckets := g.occupied_eq_iff.mpr hoccupied
    have hnone := store_of_occupied hg (candidates_spec hg item) hall
    rw [addOnce, add]
    exact additionOf_of_not_stored hnone

/-- Two items are added, one of them is taken out again, and one is not added because it is
there; three more fill the only bucket, which then has room for nothing. -/
theorem count_run_one_bucket :
    ∃ f, create (fun _ => 4.0) 1 0.5 (fun n => n) = .ok f ∧
      ∃ g changes, f.run [.add [0x61], .add [0x62], .remove [0x61], .addNew [0x62], .add [0x63],
          .add [0x64], .addNew [0x65]] = (g, changes) ∧
        g.count = g.occupied ∧ g.count + (takenItems changes).length = 5 ∧
        (g.remove [0x64]).1.count + 1 = g.count ∧ (g.addOnce [0x66]).2 = .full := by
  have hrate : IsRate 0.5 := by decide +kernel
  have hbits : fingerprintBits (fun _ => 4.0) 0.5 = 4 := by decide +kernel
  have hcount : bucketCount? 1 = some 1 := by decide
  have hcreate : create (fun _ => 4.0) 1 0.5 (fun n => n) = .ok {
      buckets := Array.replicate 1 Bucket.empty, bits := 4, count := 0, capacity := 1
      errorRate := 0.5, draws := .start (fun n => n) } := by
    rw [create, if_neg (not_not_intro hrate), if_neg (by decide), hcount, hbits]
  refine ⟨_, hcreate, _, _, Prod.mk.eta.symm, ?_⟩
  obtain ⟨hoccupied, htallied, -, htaken, hfull⟩ := count_run hcreate Prod.mk.eta.symm
  exact ⟨hoccupied, htallied.trans (by decide +kernel), htaken _ (by decide +kernel),
    hfull (by decide +kernel) _⟩

end CompactStore.CuckooFilter
