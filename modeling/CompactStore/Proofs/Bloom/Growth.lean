import CompactStore.BloomFilter
import Mathlib.Data.Nat.Bitwise

/-!
# A bloom filter only grows

Adding an item sets the bits at its probes and clears none.  `foldl_setBit` says
exactly what becomes of the bits and when something was new; `Grows` is what is left
of it after many additions: every item that is reported stays reported, and the number
of new items does not go down.
-/

namespace CompactStore.BloomFilter

variable {f g h : BloomFilter} {words : Array UInt64} {item : Bytes}

/-! ### One bit -/

/-- The word of a position has this bit and no other. -/
theorem toNat_mask (bit : Nat) : (mask bit).toNat = 2 ^ (bit % 64) := by
  have hbit : (UInt64.ofNat (bit % 64)).toNat = bit % 64 := by
    rw [UInt64.toNat_ofNat']
    omega
  have hlt : 2 ^ (bit % 64) < 2 ^ 64 := Nat.pow_lt_pow_right (by decide) (by omega)
  rw [mask, UInt64.toNat_shiftLeft, hbit, Nat.mod_mod, Nat.shiftLeft_eq]
  simpa using Nat.mod_eq_of_lt hlt

/-- A bit is a digit of its word. -/
theorem testBit_eq (words : Array UInt64) (bit : Nat) :
    testBit words bit = (words.getD (bit / 64) 0).toNat.testBit (bit % 64) := by
  have hzero : ∀ w : UInt64, (w != 0) = (w.toNat != 0) := by
    intro w
    rw [Bool.eq_iff_iff]
    simp [UInt64.toNat_inj.symm]
  rw [testBit, hzero, UInt64.toNat_and, toNat_mask, Nat.and_two_pow]
  cases (words.getD (bit / 64) 0).toNat.testBit (bit % 64) <;> simp

/-- Setting a bit of a word sets this bit. -/
theorem testBit_modify {bit : Nat} (hbit : bit / 64 < words.size) (i : Nat) :
    testBit (words.modify (bit / 64) (· ||| mask bit)) i = (testBit words i || i == bit) := by
  rw [testBit_eq, testBit_eq, Array.getD_eq_getD_getElem?, Array.getElem?_modify,
    Array.getD_eq_getD_getElem?]
  by_cases hword : bit / 64 = i / 64
  · have hsame : (i == bit) = decide (bit % 64 = i % 64) := by
      rw [Bool.eq_iff_iff, beq_iff_eq, decide_eq_true_iff]
      omega
    rw [if_pos hword, Array.getElem?_eq_getElem (hword ▸ hbit), Option.map_some, Option.getD_some,
      Option.getD_some, UInt64.toNat_or, toNat_mask, Nat.testBit_or, Nat.testBit_two_pow, hsame]
  · have hother : (i == bit) = false := by
      rw [beq_eq_false_iff_ne]
      rintro rfl
      exact hword rfl
    rw [if_neg hword, hother, Bool.or_false]

/-- **Setting a bit** sets it, keeps every other bit, and tells whether it was new. -/
theorem setBit_spec {bit : Nat} (hbit : bit / 64 < words.size) (fresh : Bool) :
    (setBit (words, fresh) bit).1.size = words.size ∧
      (∀ i, testBit (setBit (words, fresh) bit).1 i = (testBit words i || i == bit)) ∧
      (setBit (words, fresh) bit).2 = (fresh || !testBit words bit) := by
  unfold setBit
  dsimp only
  by_cases hset : testBit words bit = true
  · rw [if_pos hset]
    refine ⟨rfl, ?_, by simp [hset]⟩
    intro i
    by_cases hi : i = bit
    · simp [hi, hset]
    · simp [hi]
  · rw [if_neg hset]
    refine ⟨Array.size_modify, testBit_modify hbit, ?_⟩
    simp [Bool.eq_false_iff.mpr hset]

/-- **Setting bits one after another.**  What is reported as new is that one of them was
not set at the start. -/
theorem foldl_setBit {bits : List Nat} (hbits : ∀ bit ∈ bits, bit / 64 < words.size)
    (fresh : Bool) :
    (bits.foldl setBit (words, fresh)).1.size = words.size ∧
      (∀ i, testBit (bits.foldl setBit (words, fresh)).1 i =
        (testBit words i || bits.contains i)) ∧
      (bits.foldl setBit (words, fresh)).2 = (fresh || !bits.all (testBit words)) := by
  induction bits generalizing words fresh with
  | nil => simp
  | cons bit rest ih =>
      obtain ⟨hsize, htest, hfresh⟩ := setBit_spec (hbits bit List.mem_cons_self) fresh
      rw [List.foldl_cons]
      generalize hnext : setBit (words, fresh) bit = next at hsize htest hfresh ⊢
      obtain ⟨after, freshAfter⟩ := next
      dsimp only at hsize htest hfresh
      have hrest : ∀ b ∈ rest, b / 64 < after.size := by
        intro b hb
        rw [hsize]
        exact hbits b (List.mem_cons_of_mem _ hb)
      obtain ⟨hsize', htest', hfresh'⟩ := ih hrest freshAfter
      refine ⟨hsize'.trans hsize, ?_, ?_⟩
      · intro i
        rw [htest', htest, List.contains_cons, Bool.or_assoc]
      · rw [hfresh', hfresh, List.all_cons]
        by_cases hset : testBit words bit = true
        · -- nothing was set, so the other bits are looked up in the same words
          have hsame : ∀ b, testBit after b = testBit words b := by
            intro b
            rw [htest]
            by_cases hb : b = bit
            · simp [hb, hset]
            · simp [hb]
          simp [hset, funext hsame]
        · simp [hset]

/-! ### The shape of a filter -/

/-- What `create` sees to: there are bits, not too many, and hash functions. -/
structure Shaped (f : BloomFilter) : Prop where
  words_pos : 0 < f.words.size
  numBits_le : f.numBits ≤ maxBits
  numHashes_pos : 0 < f.numHashes

/-- **What `create` makes** is a filter in which nothing is set. -/
theorem exists_of_create {ln : Float → Float} {capacity : Nat} {rate : Float}
    (hcreate : create ln capacity rate = .ok f) :
    ∃ size numHashes, 0 < size ∧ 64 * size ≤ maxBits ∧ 0 < numHashes ∧
      f = {
        words := Array.replicate size 0, numHashes, card := 0, capacity, errorRate := rate } := by
  unfold create at hcreate
  dsimp only at hcreate
  split at hcreate
  · cases hcreate
  split at hcreate
  · cases hcreate
  split at hcreate
  · cases hcreate
  rename_i hbits
  rw [not_or] at hbits
  have hle := hbits.2
  rw [maxBits] at hle
  cases hcreate
  refine ⟨_, _, ?_, ?_, ?_, rfl⟩
  · omega
  · rw [maxBits]
    omega
  · omega

/-- A new filter has a shape. -/
theorem shaped_of_create {ln : Float → Float} {capacity : Nat} {rate : Float}
    (hcreate : create ln capacity rate = .ok f) : f.Shaped := by
  obtain ⟨size, numHashes, hsize, hbits, hhashes, rfl⟩ := exists_of_create hcreate
  constructor
  case words_pos => rwa [Array.size_replicate]
  case numBits_le => rwa [numBits, Array.size_replicate]
  case numHashes_pos => exact hhashes

/-- No bit of a new filter is set. -/
theorem testBit_of_create {ln : Float → Float} {capacity : Nat} {rate : Float}
    (hcreate : create ln capacity rate = .ok f) (bit : Nat) : testBit f.words bit = false := by
  obtain ⟨size, numHashes, -, -, -, rfl⟩ := exists_of_create hcreate
  rw [testBit_eq, Array.getD_eq_getD_getElem?, Array.getElem?_replicate]
  split <;> exact Nat.zero_testBit _

/-- The number of bits is a word. -/
theorem Shaped.toNat_numBits (hf : f.Shaped) : (UInt64.ofNat f.numBits).toNat = f.numBits := by
  have hle := hf.numBits_le
  rw [maxBits] at hle
  rw [UInt64.toNat_ofNat']
  omega

/-- Every probe of an item is a position of the filter. -/
theorem probe_lt (hf : f.Shaped) {bit : Nat} (hbit : bit ∈ f.probes item) :
    bit / 64 < f.words.size := by
  obtain ⟨i, -, rfl⟩ := List.mem_map.mp hbit
  have hpos := hf.words_pos
  rw [UInt64.toNat_mod, hf.toNat_numBits, numBits]
  have hlt := Nat.mod_lt ((Hash.hash128 item Hash.defaultSeed).x +
    (Hash.hash128 item Hash.defaultSeed).y * UInt64.ofNat i).toNat
    (show 0 < 64 * f.words.size by omega)
  omega

/-- **The bits after adding an item** are those before and the item's own. -/
theorem testBit_add (hf : f.Shaped) (item : Bytes) (bit : Nat) :
    testBit (f.add item).1.words bit = (testBit f.words bit || (f.probes item).contains bit) :=
  (foldl_setBit (fun _ hbit => probe_lt hf hbit) false).2.1 bit

/-! ### Growing -/

/-- Items may have been added to `f` to get `g`. -/
structure Grows (f g : BloomFilter) : Prop where
  numHashes_eq : g.numHashes = f.numHashes
  size_eq : g.words.size = f.words.size
  keeps : ∀ bit, testBit f.words bit = true → testBit g.words bit = true
  card_le : f.card ≤ g.card

/-- A filter has grown from itself. -/
theorem Grows.refl (f : BloomFilter) : Grows f f :=
  ⟨rfl, rfl, fun _ hbit => hbit, Nat.le_refl _⟩

/-- Growing and growing again is growing. -/
theorem Grows.trans (hfg : Grows f g) (hgh : Grows g h) : Grows f h where
  numHashes_eq := hgh.numHashes_eq.trans hfg.numHashes_eq
  size_eq := hgh.size_eq.trans hfg.size_eq
  keeps bit hbit := hgh.keeps bit (hfg.keeps bit hbit)
  card_le := Nat.le_trans hfg.card_le hgh.card_le

/-- A filter keeps its shape while it grows. -/
theorem Grows.shaped (hfg : Grows f g) (hf : f.Shaped) : g.Shaped where
  words_pos := hfg.size_eq ▸ hf.words_pos
  numBits_le := by
    rw [numBits, hfg.size_eq]
    exact hf.numBits_le
  numHashes_pos := hfg.numHashes_eq ▸ hf.numHashes_pos

/-- The probes of an item do not depend on what was added. -/
theorem Grows.probes_eq (hfg : Grows f g) (item : Bytes) : g.probes item = f.probes item := by
  rw [probes, probes, numBits, numBits, hfg.numHashes_eq, hfg.size_eq]

/-- **An item that is reported stays reported.** -/
theorem Grows.contains (hfg : Grows f g) (hitem : f.contains item = true) :
    g.contains item = true := by
  rw [BloomFilter.contains, List.all_eq_true] at hitem ⊢
  rw [hfg.probes_eq]
  intro bit hbit
  exact hfg.keeps bit (hitem bit hbit)

/-- **Adding an item** makes the filter grow, reports the item from then on, and is told
as new exactly if the item was not reported before. -/
theorem add_spec (hf : f.Shaped) (item : Bytes) :
    Grows f (f.add item).1 ∧ (f.add item).1.contains item = true ∧
      (f.add item).2 = !f.contains item := by
  have hprobes : ∀ bit ∈ f.probes item, bit / 64 < f.words.size := fun _ hbit => probe_lt hf hbit
  obtain ⟨hsize, -, hfresh⟩ := foldl_setBit hprobes false
  have hgrows : Grows f (f.add item).1 := by
    refine ⟨rfl, hsize, ?_, ?_⟩
    · intro bit hbit
      rw [testBit_add hf, hbit, Bool.true_or]
    · rw [add]
      dsimp only
      split <;> omega
  refine ⟨hgrows, ?_, hfresh⟩
  rw [contains, hgrows.probes_eq, List.all_eq_true]
  intro bit hbit
  rw [testBit_add hf, List.contains_iff_mem.mpr hbit, Bool.or_true]

/-- An added item comes first, then the others. -/
theorem addEach_eq (f : BloomFilter) (answers : List Bool) (items : List Bytes) :
    f.addEach answers items = ((f.addAll items).1, answers.reverse ++ (f.addAll items).2) := by
  induction items generalizing f answers with
  | nil => simp [addAll, addEach]
  | cons item rest ih =>
      rw [addAll, addEach, addEach]
      dsimp only
      rw [ih, ih (f.add item).1 [(f.add item).2]]
      simp

/-- Adding several items is adding them one after another. -/
theorem addAll_cons (f : BloomFilter) (item : Bytes) (rest : List Bytes) :
    f.addAll (item :: rest) =
      (((f.add item).1.addAll rest).1, (f.add item).2 :: ((f.add item).1.addAll rest).2) := by
  rw [addAll, addEach]
  dsimp only
  rw [addEach_eq]
  rfl

/-- **Adding items** makes the filter grow, and reports all of them. -/
theorem addAll_spec (hf : f.Shaped) (items : List Bytes) :
    Grows f (f.addAll items).1 ∧ ∀ item ∈ items, (f.addAll items).1.contains item = true := by
  induction items generalizing f with
  | nil => exact ⟨Grows.refl f, by simp⟩
  | cons first rest ih =>
      obtain ⟨hadd, hfirst, -⟩ := add_spec hf first
      obtain ⟨hrest, hitems⟩ := ih (hadd.shaped hf)
      rw [addAll_cons]
      refine ⟨hadd.trans hrest, ?_⟩
      intro item hitem
      rcases List.mem_cons.mp hitem with rfl | hitem
      · exact hrest.contains hfirst
      · exact hitems item hitem

end CompactStore.BloomFilter
