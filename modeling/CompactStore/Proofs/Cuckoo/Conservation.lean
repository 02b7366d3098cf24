import CompactStore.Proofs.Cuckoo.Eviction

/-!
# Nothing is lost and nothing appears

An item owns the class of its fingerprint and its candidates.  Storing an item adds
one to the census of its class, taking one out takes one away, and no other class
changes, however many fingerprints were evicted on the way.  So after any
operations the census of a class is what was stored for it less what was taken out:
`census_run`.
-/

namespace CompactStore.CuckooFilter

variable {f g : CuckooFilter} {c : Candidates} {index slot i : Nat} {fp fq : UInt32} {item : Bytes}

/-! ### Candidates of an item -/

/-- What holds of the candidates of every item. -/
structure CandidatesIn (f : CuckooFilter) (c : Candidates) : Prop where
  first_lt : c.first < f.numBuckets
  second_eq : c.second = f.other c.first c.fp
  fp_ne : c.fp ≠ 0
  fp_lt : c.fp.toNat < 2 ^ f.bits

/-- A fingerprint is not the content of an empty slot, and fits a slot. -/
theorem fingerprint_spec (h : f.Shaped) (lanes : Hash.Lanes) :
    f.fingerprint lanes ≠ 0 ∧ (f.fingerprint lanes).toNat < 2 ^ f.bits := by
  have hone : 1 < 2 ^ f.bits := Nat.one_lt_two_pow (Nat.ne_of_gt h.bits_pos)
  unfold fingerprint
  generalize lanes.y.toNat = y
  have hlow : y % 2 ^ f.bits < 2 ^ f.bits := Nat.mod_lt _ (Nat.two_pow_pos _)
  have hpow : 2 ^ f.bits ≤ 2 ^ 32 := Nat.pow_le_pow_right (by decide) h.bits_le
  dsimp only
  split
  · exact ⟨by decide, hone⟩
  · rename_i hne
    exact ⟨hne, by rw [UInt32.toNat_ofNat_of_lt' (Nat.lt_of_lt_of_le hlow hpow)]; exact hlow⟩

/-- The candidates of every item are a pair of buckets with a fingerprint. -/
theorem candidates_spec (h : f.Shaped) (item : Bytes) : f.CandidatesIn (f.candidates item) := by
  obtain ⟨hne, hlt⟩ := fingerprint_spec h (Hash.hash128 item Hash.defaultSeed)
  exact ⟨Nat.mod_lt _ (numBuckets_pos h), rfl, hne, hlt⟩

/-- Filters of one shape give an item the same candidates. -/
theorem SameShape.candidates (h : SameShape f g) (item : Bytes) :
    g.candidates item = f.candidates item := by
  unfold CuckooFilter.candidates fingerprint
  rw [h.1, h.2]
  simp only [h.other]

/-- An item owns a class when its fingerprint is the one that is counted, and its
candidates are the buckets in which it is counted. -/
def Owns (f : CuckooFilter) (index : Nat) (fp : UInt32) (item : Bytes) : Prop :=
  (f.candidates item).fp = fp ∧
    ({(f.candidates item).first, (f.candidates item).second} : Finset Nat) = f.pair index fp

instance (f : CuckooFilter) (index : Nat) (fp : UInt32) : DecidablePred (f.Owns index fp) :=
  fun _ => inferInstanceAs (Decidable (_ ∧ _))

/-- Filters of one shape have the same classes. -/
theorem SameShape.owns (h : SameShape f g) (index : Nat) (fp : UInt32) (item : Bytes) :
    g.Owns index fp item ↔ f.Owns index fp item := by
  unfold Owns
  rw [h.candidates, h.pair]

/-- Two pairs for one fingerprint are equal as soon as they share a bucket. -/
theorem pair_eq_iff (h : f.Shaped) (hc : f.CandidatesIn c) (hi : i < f.numBuckets) :
    c.fp = fp ∧ ({c.first, c.second} : Finset Nat) = f.pair i fp ↔
      c.first ∈ f.pair i fp ∧ c.fp = fp := by
  constructor
  · rintro ⟨rfl, hpair⟩
    exact ⟨hpair ▸ Finset.mem_insert_self _ _, rfl⟩
  · rintro ⟨hmem, rfl⟩
    refine ⟨rfl, ?_⟩
    rw [hc.second_eq]
    change f.pair c.first c.fp = f.pair i c.fp
    simp only [pair, Finset.mem_insert, Finset.mem_singleton] at hmem
    rcases hmem with heq | heq
    · rw [heq]
    · rw [heq, pair_other h hi]

/-- An item owns a class exactly if its first candidate is one of the two buckets. -/
theorem owns_iff (h : f.Shaped) (hi : i < f.numBuckets) (item : Bytes) :
    f.Owns i fp item ↔ (f.candidates item).first ∈ f.pair i fp ∧ (f.candidates item).fp = fp :=
  pair_eq_iff h (candidates_spec h item) hi

/-! ### Looking in both candidates -/

/-- What is found stands in a slot of one of the two candidates. -/
theorem locate?_eq_some {content : UInt32} (hc : f.CandidatesIn c)
    (hfound : f.locate? c content = some (index, slot)) :
    (index = c.first ∨ index = f.other c.first c.fp) ∧ slot < Bucket.slots ∧
      f.cell index slot = content := by
  unfold locate? at hfound
  split at hfound
  · rename_i s hslot
    obtain ⟨rfl, rfl⟩ := Prod.mk.inj (Option.some.inj hfound)
    exact ⟨.inl rfl, slot?_eq_some hslot⟩
  · obtain ⟨s, hslot, heq⟩ := Option.map_eq_some_iff.mp hfound
    obtain ⟨rfl, rfl⟩ := Prod.mk.inj heq
    exact ⟨.inr hc.second_eq, slot?_eq_some hslot⟩

/-- Nothing is found exactly if no slot of either candidate holds the content. -/
theorem locate?_eq_none {content : UInt32} (hc : f.CandidatesIn c) :
    f.locate? c content = none ↔
      ∀ i ∈ f.pair c.first c.fp, ∀ s < Bucket.slots, f.cell i s ≠ content := by
  have hboth : f.locate? c content = none ↔
      f.slot? c.first content = none ∧ f.slot? c.second content = none := by
    unfold locate?
    cases f.slot? c.first content <;> simp
  rw [hboth, slot?_eq_none, slot?_eq_none, hc.second_eq]
  simp [pair]

/-- A candidate that was found is in the class of the item. -/
theorem mem_pair_of_locate (h : f.Shaped) (hc : f.CandidatesIn c) (hi : i < f.numBuckets)
    (hindex : index = c.first ∨ index = f.other c.first c.fp) (fq : UInt32) :
    index < f.numBuckets ∧
      (index ∈ f.pair i fq ∧ c.fp = fq ↔ c.first ∈ f.pair i fq ∧ c.fp = fq) := by
  rcases hindex with rfl | rfl
  · exact ⟨hc.first_lt, Iff.rfl⟩
  · refine ⟨other_lt h _ _, ?_⟩
    constructor
    · rintro ⟨hmem, rfl⟩
      exact ⟨(mem_pair_other h hc.first_lt hi).mp hmem, rfl⟩
    · rintro ⟨hmem, rfl⟩
      exact ⟨(mem_pair_other h hc.first_lt hi).mpr hmem, rfl⟩

/-- A class holds a fingerprint exactly if looking for it finds one. -/
theorem census_pos_iff (hc : f.CandidatesIn c) :
    0 < f.census c.first c.fp ↔ (f.locate? c c.fp).isSome := by
  rw [← Option.ne_none_iff_isSome, ne_eq, locate?_eq_none hc, census, Nat.pos_iff_ne_zero, ne_eq,
    Finset.sum_eq_zero_iff]
  constructor
  · intro h hnone
    apply h
    intro i hi
    rw [countIn, Finset.card_eq_zero, Finset.filter_eq_empty_iff]
    exact fun s hs => hnone i hi s (Finset.mem_range.mp hs)
  · intro h hzero
    apply h
    intro i hi s hs
    have hempty := hzero i hi
    rw [countIn, Finset.card_eq_zero, Finset.filter_eq_empty_iff] at hempty
    exact hempty (Finset.mem_range.mpr hs)

/-! ### Storing and taking out -/

/-- Without an empty slot in the candidates, a chain of evictions starts at one of the two. -/
theorem store_of_none (hfull : f.locate? c 0 = none) :
    ∃ used, ∃ index, (index = c.first ∨ index = c.second) ∧
      f.store c = kick maxKicks (f.advance used) index c.fp [] := by
  unfold store
  rw [hfull]
  refine ⟨(f.draws.pick 2).2.used, if (f.pick 2).1 = 0 then c.first else c.second, ?_, rfl⟩
  split
  · exact .inl rfl
  · exact .inr rfl

/-- Storing keeps the shape, whether or not there was room. -/
theorem sameShape_store (f : CuckooFilter) (c : Candidates) : SameShape f (f.store c).1 := by
  cases hfree : f.locate? c 0 with
  | some found =>
      unfold store
      rw [hfree]
      exact sameShape_fill f _ _ _
  | none =>
      obtain ⟨used, index, -, hstore⟩ := store_of_none hfree
      rw [hstore]
      exact (sameShape_advance f used).trans (sameShape_kick _ _ _ _ _)

/-- **Storing** adds one to the class of the fingerprint and leaves the other classes. -/
theorem census_store (h : f.Shaped) (hc : f.CandidatesIn c) (hstored : (f.store c).2 = true)
    (hi : i < f.numBuckets) (hfq : fq ≠ 0) :
    (f.store c).1.census i fq =
      f.census i fq + (if c.first ∈ f.pair i fq ∧ c.fp = fq then 1 else 0) := by
  cases hfree : f.locate? c 0 with
  | some found =>
      obtain ⟨index, slot⟩ := found
      obtain ⟨hindex, hslot, hzero⟩ := locate?_eq_some hc hfree
      obtain ⟨hlt, hclass⟩ := mem_pair_of_locate h hc hi hindex fq
      unfold store
      rw [hfree]
      dsimp only
      rw [census_fill h hlt hslot hc.fp_lt hzero hfq, if_congr hclass rfl rfl]
  | none =>
      obtain ⟨used, index, hindex, hstore⟩ := store_of_none hfree
      rw [hc.second_eq] at hindex
      obtain ⟨hlt, hclass⟩ := mem_pair_of_locate h hc hi hindex fq
      have hfull : ∀ s < Bucket.slots, f.cell index s ≠ 0 := by
        apply (locate?_eq_none hc).mp hfree
        simpa [pair] using hindex
      rw [hstore] at hstored ⊢
      rw [census_kick maxKicks ((sameShape_advance f used).shaped h) hlt hc.fp_lt hfull hstored hi
        hfq, ← if_congr hclass rfl rfl]
      rfl

/-- **A filter that is full for an item** is left as it was, but for the random
choices that it used. -/
theorem store_of_full (h : f.Shaped) (hfull : (f.store c).2 = false) :
    ∃ used, (f.store c).1 = f.advance used := by
  cases hfree : f.locate? c 0 with
  | some found =>
      unfold store at hfull
      rw [hfree] at hfull
      cases hfull
  | none =>
      obtain ⟨used, index, -, hstore⟩ := store_of_none hfree
      rw [hstore] at hfull ⊢
      obtain ⟨left, hleft⟩ := kick_of_full maxKicks ((sameShape_advance f used).shaped h) hfull
      exact ⟨left, hleft⟩

/-- Random choices that are used up do not change what is counted. -/
theorem census_advance (f : CuckooFilter) (used : Nat) (i : Nat) (fq : UInt32) :
    (f.advance used).census i fq = f.census i fq := rfl

/-- Taking out keeps the shape. -/
theorem sameShape_takeOut (f : CuckooFilter) (c : Candidates) : SameShape f (f.takeOut c).1 := by
  unfold takeOut
  split
  · obtain ⟨hbits, hsize⟩ := sameShape_setSlot f _ _ 0
    exact ⟨hbits, hsize⟩
  · exact ⟨rfl, rfl⟩

/-- A fingerprint that is taken out stood in a slot of a candidate, which is emptied. -/
theorem takeOut_eq_clear (hc : f.CandidatesIn c) (htaken : (f.takeOut c).2 = true) :
    ∃ index slot, (index = c.first ∨ index = f.other c.first c.fp) ∧ slot < Bucket.slots ∧
      f.cell index slot = c.fp ∧ (f.takeOut c).1 = f.clear index slot := by
  unfold takeOut at htaken ⊢
  cases hfound : f.locate? c c.fp with
  | none =>
      rw [hfound] at htaken
      cases htaken
  | some found =>
      obtain ⟨hindex, hslot, hcell⟩ := locate?_eq_some hc hfound
      exact ⟨found.1, found.2, hindex, hslot, hcell, rfl⟩

/-- **Taking out** takes one away from the class of the fingerprint and leaves the others. -/
theorem census_takeOut (h : f.Shaped) (hc : f.CandidatesIn c) (htaken : (f.takeOut c).2 = true)
    (hi : i < f.numBuckets) (hfq : fq ≠ 0) :
    (f.takeOut c).1.census i fq + (if c.first ∈ f.pair i fq ∧ c.fp = fq then 1 else 0) =
      f.census i fq := by
  obtain ⟨index, slot, hindex, hslot, hcell, hclear⟩ := takeOut_eq_clear hc htaken
  obtain ⟨hlt, hclass⟩ := mem_pair_of_locate h hc hi hindex fq
  have hzero : (0 : UInt32).toNat < 2 ^ f.bits := Nat.two_pow_pos _
  have hstep := census_setSlot h hlt hslot hzero i fq
  rw [hcell, if_congr hclass rfl rfl] at hstep
  have hempty : ¬(index ∈ f.pair i fq ∧ 0 = fq) := fun hboth => hfq hboth.2.symm
  rw [if_neg hempty] at hstep
  rw [hclear]
  exact hstep

/-! ### Operations one after another -/

/-- What is asked of a filter. -/
inductive Operation where
  | add (item : Bytes)
  | addNew (item : Bytes)
  | remove (item : Bytes)
deriving DecidableEq, Repr

/-- What an operation did. -/
inductive Change where
  | stored (item : Bytes)
  | taken (item : Bytes)
deriving DecidableEq, Repr

/-- What storing an item did. -/
def storing (item : Bytes) : CuckooFilter × Bool → CuckooFilter × Option Change
  | (f, stored) => (f, if stored then some (.stored item) else none)

/-- What adding an item did. -/
def adding (item : Bytes) : CuckooFilter × Addition → CuckooFilter × Option Change
  | (f, result) => (f, if result = .added then some (.stored item) else none)

/-- What taking an item out did. -/
def taking (item : Bytes) : CuckooFilter × Bool → CuckooFilter × Option Change
  | (f, taken) => (f, if taken then some (.taken item) else none)

/-- Runs an operation, and tells what it did if it succeeded. -/
def step (f : CuckooFilter) : Operation → CuckooFilter × Option Change
  | .add item => storing item (f.add item)
  | .addNew item => adding item (f.addNew item)
  | .remove item => taking item (f.remove item)

/-- A filter with what was done to it, the last change first. -/
def note (changes : List Change) : CuckooFilter × Option Change → CuckooFilter × List Change
  | (f, change) => (f, change.toList ++ changes)

/-- Runs one more operation. -/
def perform : CuckooFilter × List Change → Operation → CuckooFilter × List Change
  | (f, changes), op => note changes (f.step op)

/-- Runs operations one after another, and tells what they did, the last first. -/
def run (f : CuckooFilter) (ops : List Operation) : CuckooFilter × List Change :=
  ops.foldl perform (f, [])

/-- How often an item of a class was stored. -/
def storedIn (f : CuckooFilter) (index : Nat) (fp : UInt32) (changes : List Change) : Nat :=
  changes.countP fun
    | .stored item => f.Owns index fp item
    | .taken _ => false

/-- How often an item of a class was taken out. -/
def takenIn (f : CuckooFilter) (index : Nat) (fp : UInt32) (changes : List Change) : Nat :=
  changes.countP fun
    | .stored _ => false
    | .taken item => f.Owns index fp item

/-- What was done is what became of the census of every class. -/
def Accounts (f : CuckooFilter) (result : CuckooFilter × Option Change) : Prop :=
  SameShape f result.1 ∧ ∀ i < f.numBuckets, ∀ fq, fq ≠ 0 →
    result.1.census i fq + takenIn f i fq result.2.toList =
      f.census i fq + storedIn f i fq result.2.toList

@[simp] theorem takenIn_nil (f : CuckooFilter) (index : Nat) (fp : UInt32) :
    f.takenIn index fp [] = 0 := List.countP_nil

@[simp] theorem storedIn_nil (f : CuckooFilter) (index : Nat) (fp : UInt32) :
    f.storedIn index fp [] = 0 := List.countP_nil

/-- One item that was stored counts once for its class, and for no other. -/
theorem storedIn_stored (h : f.Shaped) (hi : i < f.numBuckets) (fq : UInt32) (item : Bytes) :
    f.storedIn i fq [.stored item] =
      if (f.candidates item).first ∈ f.pair i fq ∧ (f.candidates item).fp = fq then 1 else 0 := by
  simp [storedIn, List.countP_singleton, owns_iff h hi]

/-- One item that was taken out counts once for its class, and for no other. -/
theorem takenIn_taken (h : f.Shaped) (hi : i < f.numBuckets) (fq : UInt32) (item : Bytes) :
    f.takenIn i fq [.taken item] =
      if (f.candidates item).first ∈ f.pair i fq ∧ (f.candidates item).fp = fq then 1 else 0 := by
  simp [takenIn, List.countP_singleton, owns_iff h hi]

/-- What did nothing has nothing to account for. -/
theorem accounts_none (f : CuckooFilter) : Accounts f (f, none) := by
  refine ⟨⟨rfl, rfl⟩, ?_⟩
  intro i _ fq _
  rw [Option.toList_none, takenIn_nil, storedIn_nil]

/-- Storing accounts for itself if it adds to one class, or finds no room and changes nothing. -/
theorem accounts_storing (h : f.Shaped) {result : CuckooFilter × Bool}
    (hshape : SameShape f result.1)
    (hstored : result.2 = true → ∀ i < f.numBuckets, ∀ fq, fq ≠ 0 → result.1.census i fq =
      f.census i fq + (if (f.candidates item).first ∈ f.pair i fq ∧ (f.candidates item).fp = fq
        then 1 else 0))
    (hfull : result.2 = false → ∃ used, result.1 = f.advance used) :
    Accounts f (storing item result) := by
  obtain ⟨g, stored⟩ := result
  refine ⟨hshape, ?_⟩
  intro i hi fq hfq
  cases stored with
  | true =>
      have htaken : f.takenIn i fq [.stored item] = 0 := rfl
      have hcensus := hstored rfl i hi fq hfq
      rw [← storedIn_stored h hi, ← Nat.add_zero (g.census i fq), ← htaken] at hcensus
      exact hcensus
  | false =>
      obtain ⟨used, rfl⟩ : ∃ used, g = f.advance used := hfull rfl
      change (f.advance used).census i fq + f.takenIn i fq [] = f.census i fq + f.storedIn i fq []
      rw [census_advance, takenIn_nil, storedIn_nil]

/-- Taking out accounts for itself if it takes from one class, or finds nothing and changes
nothing. -/
theorem accounts_taking (h : f.Shaped) {result : CuckooFilter × Bool}
    (hshape : SameShape f result.1)
    (htaken : result.2 = true → ∀ i < f.numBuckets, ∀ fq, fq ≠ 0 → result.1.census i fq +
      (if (f.candidates item).first ∈ f.pair i fq ∧ (f.candidates item).fp = fq then 1 else 0) =
        f.census i fq)
    (hnone : result.2 = false → result.1 = f) :
    Accounts f (taking item result) := by
  obtain ⟨g, taken⟩ := result
  refine ⟨hshape, ?_⟩
  intro i hi fq hfq
  cases taken with
  | true =>
      have hcensus := htaken rfl i hi fq hfq
      rw [← takenIn_taken h hi] at hcensus
      exact hcensus
  | false =>
      obtain rfl : g = f := hnone rfl
      change g.census i fq + g.takenIn i fq [] = g.census i fq + g.storedIn i fq []
      rw [takenIn_nil, storedIn_nil]

/-- Where there is nothing to take out, the filter stays as it is. -/
theorem takeOut_of_none (hnone : (f.takeOut c).2 = false) : (f.takeOut c).1 = f := by
  unfold takeOut at hnone ⊢
  cases hfound : f.locate? c c.fp with
  | some found =>
      rw [hfound] at hnone
      cases hnone
  | none => rfl

/-- Adding an item accounts for itself. -/
theorem accounts_add (h : f.Shaped) (item : Bytes) : Accounts f (storing item (f.add item)) := by
  have hc := candidates_spec h item
  rw [add]
  apply accounts_storing h
  · exact sameShape_store f _
  · exact fun hstored i hi fq hfq => census_store h hc hstored hi hfq
  · exact fun hfull => store_of_full h hfull

/-- Adding an item that was not there is told like adding one. -/
theorem adding_additionOf (item : Bytes) (result : CuckooFilter × Bool) :
    adding item (additionOf result) = storing item result := by
  obtain ⟨g, stored⟩ := result
  cases stored <;> rfl

/-- **One operation.**  What it did is what became of the census of every class. -/
theorem accounts_step (h : f.Shaped) (op : Operation) : Accounts f (f.step op) := by
  cases op with
  | add item =>
      rw [step]
      exact accounts_add h item
  | addNew item =>
      rw [step, addNew]
      split
      · exact accounts_none f
      · rw [addOnce, adding_additionOf]
        exact accounts_add h item
  | remove item =>
      have hc := candidates_spec h item
      rw [step, remove]
      apply accounts_taking h
      · exact sameShape_takeOut f _
      · exact fun htaken i hi fq hfq => census_takeOut h hc htaken hi hfq
      · exact takeOut_of_none

/-- The accounts of a filter with what was done to it since it was empty. -/
structure Balanced (f : CuckooFilter) (state : CuckooFilter × List Change) : Prop where
  shape : SameShape f state.1
  census_eq : ∀ i < f.numBuckets, ∀ fq, fq ≠ 0 →
    state.1.census i fq + f.takenIn i fq state.2 = f.storedIn i fq state.2

/-- Filters of one shape count alike how often an item of a class was stored. -/
theorem SameShape.storedIn (h : SameShape f g) (i : Nat) (fq : UInt32) (changes : List Change) :
    g.storedIn i fq changes = f.storedIn i fq changes := by
  unfold CuckooFilter.storedIn
  apply List.countP_congr
  intro change _
  cases change with
  | stored item => simp [h.owns]
  | taken item => rfl

/-- Filters of one shape count alike how often an item of a class was taken out. -/
theorem SameShape.takenIn (h : SameShape f g) (i : Nat) (fq : UInt32) (changes : List Change) :
    g.takenIn i fq changes = f.takenIn i fq changes := by
  unfold CuckooFilter.takenIn
  apply List.countP_congr
  intro change _
  cases change with
  | stored item => rfl
  | taken item => simp [h.owns]

/-- **One more change** that accounts for itself keeps the accounts balanced. -/
theorem balanced_note {changes : List Change} {result : CuckooFilter × Option Change}
    (hbalanced : Balanced f (g, changes)) (haccounts : Accounts g result) :
    Balanced f (note changes result) := by
  obtain ⟨hshape, hcensus⟩ := hbalanced
  obtain ⟨hkept, haccount⟩ := haccounts
  obtain ⟨r, change⟩ := result
  refine ⟨hshape.trans hkept, ?_⟩
  intro i hi fq hfq
  have hbefore := hcensus i hi fq hfq
  have hstep := haccount i (hshape.2 ▸ hi) fq hfq
  rw [hshape.storedIn, hshape.takenIn] at hstep
  have htaken : f.takenIn i fq (change.toList ++ changes) =
      f.takenIn i fq change.toList + f.takenIn i fq changes := List.countP_append
  have hstored : f.storedIn i fq (change.toList ++ changes) =
      f.storedIn i fq change.toList + f.storedIn i fq changes := List.countP_append
  unfold note
  dsimp only at hbefore hstep ⊢
  rw [htaken, hstored]
  omega

/-- **A run** keeps the accounts balanced, by induction on its operations. -/
theorem balanced_foldl (h : f.Shaped) {state : CuckooFilter × List Change}
    (hbalanced : Balanced f state) (ops : List Operation) :
    Balanced f (ops.foldl perform state) := by
  induction ops generalizing state with
  | nil => exact hbalanced
  | cons op rest ih =>
      rw [List.foldl_cons]
      apply ih
      obtain ⟨g, changes⟩ := state
      rw [perform]
      exact balanced_note hbalanced (accounts_step (hbalanced.shape.shaped h) op)

/-! ### Filters as they are made -/

/-- A float that is rounded up within a limit is not above it. -/
theorem ceilWithin_le (limit : Nat) (x : Float) : ceilWithin limit x ≤ limit := by
  unfold ceilWithin
  split
  · exact Nat.zero_le _
  · split
    · exact Nat.le_refl _
    · exact Nat.min_le_left _ _

/-- **When a filter is made**, and what it is made of. -/
theorem create_eq_ok_iff {log2 : Float → Float} {capacity : Nat} {rate : Float}
    {stream : Nat → Nat} :
    create log2 capacity rate stream = .ok f ↔
      IsRate rate ∧ 0 < capacity ∧ ∃ n, bucketCount? capacity = some n ∧
        f = {
          buckets := Array.replicate n Bucket.empty
          bits := fingerprintBits log2 rate
          count := 0
          capacity
          errorRate := rate
          draws := .start stream } := by
  unfold create
  split
  · rename_i hrate
    simp [hrate]
  · rename_i hrate
    rw [not_not] at hrate
    split
    · rename_i hzero
      simp [hzero]
    · rename_i hcapacity
      cases bucketCount? capacity with
      | none => simp
      | some n => simp [hrate, Nat.pos_of_ne_zero hcapacity, eq_comm]

/-- A new filter has slots of a width that a bucket can hold, a power of two of
buckets, and nothing in them. -/
theorem create_spec {log2 : Float → Float} {capacity : Nat} {rate : Float} {stream : Nat → Nat}
    (h : create log2 capacity rate stream = .ok f) :
    f.Shaped ∧ ∀ index slot, f.cell index slot = 0 := by
  obtain ⟨-, -, n, hcount, rfl⟩ := create_eq_ok_iff.mp h
  obtain ⟨k, -, hk⟩ := List.mem_map.mp (List.mem_of_find?_eq_some hcount)
  refine ⟨⟨?_, ?_, k, ?_⟩, ?_⟩
  · exact Nat.le_max_left _ _
  · exact Nat.max_le.mpr ⟨by decide, ceilWithin_le _ _⟩
  · exact Array.size_replicate.trans hk.symm
  · intro index slot
    have hbucket : (Array.replicate n Bucket.empty).getD index default = Bucket.empty := by
      rw [Array.getD_eq_getD_getElem?, Array.getElem?_replicate]
      split <;> rfl
    rw [cell, bucket, hbucket, Bucket.get_empty]

/-- Nothing is counted in an empty filter. -/
theorem census_eq_zero (hempty : ∀ index slot, f.cell index slot = 0) (i : Nat) (hfq : fq ≠ 0) :
    f.census i fq = 0 := by
  apply Finset.sum_eq_zero
  intro j _
  rw [countIn, Finset.card_eq_zero, Finset.filter_eq_empty_iff]
  intro s _ hcell
  exact hfq (hcell.symm.trans (hempty j s))

/-- **The accounts of a run** from an empty filter are balanced. -/
theorem balanced_run (h : f.Shaped) (hempty : ∀ index slot, f.cell index slot = 0)
    (ops : List Operation) : Balanced f (f.run ops) := by
  rw [run]
  apply balanced_foldl h
  refine ⟨⟨rfl, rfl⟩, ?_⟩
  intro i _ fq hfq
  rw [takenIn_nil, storedIn_nil, census_eq_zero hempty i hfq]

/-- Something is taken out exactly if the fingerprint is found. -/
theorem takeOut_iff (f : CuckooFilter) (c : Candidates) :
    (f.takeOut c).2 = true ↔ (f.locate? c c.fp).isSome = true := by
  unfold takeOut
  cases f.locate? c c.fp <;> simp

/-- **Conservation.**  After any operations on a new filter, whatever its random
choices were, a fingerprint stands in its candidates as often as an item of this
class was stored and not taken out again.  So an item is reported, and can be taken
out, exactly if more of its class were stored than taken out. -/
theorem census_run {log2 : Float → Float} {capacity : Nat} {rate : Float} {stream : Nat → Nat}
    (h : create log2 capacity rate stream = .ok f) (ops : List Operation) :
    (∀ i < f.numBuckets, ∀ fp, fp ≠ 0 →
      (f.run ops).1.census i fp + f.takenIn i fp (f.run ops).2 =
        f.storedIn i fp (f.run ops).2) ∧
    ∀ item,
      ((f.run ops).1.contains item = true ↔
        f.takenIn (f.candidates item).first (f.candidates item).fp (f.run ops).2 <
          f.storedIn (f.candidates item).first (f.candidates item).fp (f.run ops).2) ∧
      (((f.run ops).1.remove item).2 = true ↔
        f.takenIn (f.candidates item).first (f.candidates item).fp (f.run ops).2 <
          f.storedIn (f.candidates item).first (f.candidates item).fp (f.run ops).2) := by
  obtain ⟨hshaped, hempty⟩ := create_spec h
  obtain ⟨hshape, hcensus⟩ := balanced_run hshaped hempty ops
  refine ⟨hcensus, ?_⟩
  intro item
  have hc := candidates_spec hshaped item
  have hlast := candidates_spec (hshape.shaped hshaped) item
  have heq := hcensus (f.candidates item).first hc.first_lt (f.candidates item).fp hc.fp_ne
  have hpos := census_pos_iff hlast
  rw [hshape.candidates] at hpos
  have hfound : ((f.run ops).1.locate? (f.candidates item) (f.candidates item).fp).isSome = true ↔
      f.takenIn (f.candidates item).first (f.candidates item).fp (f.run ops).2 <
        f.storedIn (f.candidates item).first (f.candidates item).fp (f.run ops).2 := by
    rw [← hpos, ← heq]
    omega
  refine ⟨?_, ?_⟩
  · rw [contains, hshape.candidates]
    exact hfound
  · rw [remove, takeOut_iff, hshape.candidates]
    exact hfound

/-- An item that was added twice and taken out once is still there. -/
theorem contains_after_two_adds : ∃ f, create (fun _ => 4.0) 4 0.5 (fun n => n) = .ok f ∧
    (f.run [.add [0x61], .add [0x61], .remove [0x61]]).1.contains [0x61] = true := by
  have hrate : IsRate 0.5 := by decide +kernel
  have hbits : fingerprintBits (fun _ => 4.0) 0.5 = 4 := by decide +kernel
  have hcount : bucketCount? 4 = some 4 := by decide
  have hcreate : create (fun _ => 4.0) 4 0.5 (fun n => n) = .ok {
      buckets := Array.replicate 4 Bucket.empty, bits := 4, count := 0, capacity := 4
      errorRate := 0.5, draws := .start (fun n => n) } := by
    rw [create, if_neg (not_not_intro hrate), if_neg (by decide), hcount, hbits]
  refine ⟨_, hcreate, ((census_run hcreate _).2 [0x61]).1.mpr ?_⟩
  decide +kernel

end CompactStore.CuckooFilter
