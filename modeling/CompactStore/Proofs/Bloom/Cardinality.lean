import CompactStore.Proofs.Bloom.Growth
import Mathlib.Data.List.Perm.Subperm

/-!
# How many items a bloom filter has counted

An item is counted when it sets a bit, so there are no more counted items than set bits:
`Counted`.  A counted item sets no more bits than it owns, and an item that is not counted
sets none: `setBits_add`.  So the number of set bits lies between the number of counted items
and that number times the number of hash functions, and no run, however long, counts more
items than a filter has bits: `card_of_added`.
-/

namespace CompactStore.BloomFilter

variable {f : BloomFilter} {words after : Array UInt64} {bit : Nat}

/-! ### Set bits -/

/-- The number of bits that are set. -/
def setBits (words : Array UInt64) : Nat :=
  (List.range (64 * words.size)).countP (testBit words)

/-- No more bits are set than the words have. -/
theorem setBits_le (words : Array UInt64) : setBits words ≤ 64 * words.size :=
  List.countP_le_length.trans_eq List.length_range

/-- Bits that are kept are counted again. -/
theorem setBits_le_setBits (hsize : after.size = words.size)
    (hkeeps : ∀ i, testBit words i = true → testBit after i = true) :
    setBits words ≤ setBits after := by
  rw [setBits, setBits, hsize]
  exact List.countP_mono_left fun i _ => hkeeps i

/-- A bit that is new is counted besides. -/
theorem setBits_lt_setBits (hsize : after.size = words.size)
    (hkeeps : ∀ i, testBit words i = true → testBit after i = true)
    (hbit : bit < 64 * words.size) (hbefore : testBit words bit = false)
    (hafter : testBit after bit = true) : setBits words < setBits after := by
  obtain ⟨front, rest, hsplit⟩ := List.append_of_mem (List.mem_range.mpr hbit)
  have hfront : front.countP (testBit words) ≤ front.countP (testBit after) :=
    List.countP_mono_left fun i _ => hkeeps i
  have hrest : rest.countP (testBit words) ≤ rest.countP (testBit after) :=
    List.countP_mono_left fun i _ => hkeeps i
  rw [setBits, setBits, hsize, hsplit, List.countP_append, List.countP_append,
    List.countP_cons_of_neg (by simp [hbefore]), List.countP_cons_of_pos hafter]
  omega

/-- A number that has one of two properties is counted for the one or for the other. -/
theorem countP_or_le (p q : Nat → Bool) (numbers : List Nat) :
    (numbers.countP fun i => p i || q i) ≤ numbers.countP p + numbers.countP q := by
  induction numbers with
  | nil => exact Nat.le_refl 0
  | cons i rest ih =>
      rw [List.countP_cons, List.countP_cons, List.countP_cons]
      cases p i <;> cases q i <;> simp only [Bool.or_true, Bool.or_false, if_true,
        Bool.false_eq_true, if_false] <;> omega

/-- Of the numbers below a bound, no more are in a list than the list is long. -/
theorem countP_contains_le (bits : List Nat) (n : Nat) :
    (List.range n).countP bits.contains ≤ bits.length := by
  rw [List.countP_eq_length_filter]
  apply List.Subperm.length_le
  apply List.subperm_of_subset (List.nodup_range.filter _)
  intro bit hbit
  exact List.contains_iff_mem.mp (List.mem_filter.mp hbit).2

/-- **Adding an item** sets no more bits than the item owns, and none if the item was not
new. -/
theorem setBits_add (hf : f.Shaped) (item : Bytes) :
    setBits (f.add item).1.words ≤
      setBits f.words + if (f.add item).2 then f.numHashes else 0 := by
  obtain ⟨hgrows, -, hfresh⟩ := add_spec hf item
  have htest : testBit (f.add item).1.words =
      fun bit => testBit f.words bit || (f.probes item).contains bit :=
    funext (testBit_add hf item)
  rw [setBits, setBits, hgrows.size_eq, htest, hfresh]
  cases hold : f.contains item with
  | true =>
      -- the item owns no bit that was not set before
      have hsame : ∀ bit, (testBit f.words bit || (f.probes item).contains bit) =
          testBit f.words bit := by
        intro bit
        by_cases hbit : bit ∈ f.probes item
        · rw [contains, List.all_eq_true] at hold
          rw [hold bit hbit, Bool.true_or]
        · simp [hbit]
      simp only [hsame, Bool.not_true, Bool.false_eq_true, if_false, Nat.add_zero, Nat.le_refl]
  | false =>
      have hlength : (f.probes item).length = f.numHashes := by
        rw [probes, List.length_map, List.length_range]
      have hunion := countP_or_le (testBit f.words) (f.probes item).contains
        (List.range (64 * f.words.size))
      have hown := countP_contains_le (f.probes item) (64 * f.words.size)
      simp only [Bool.not_false, if_true]
      omega

/-! ### Counted items -/

/-- The shape of a filter, and no more items than bits that are set. -/
structure Counted (f : BloomFilter) : Prop extends Shaped f where
  card_le : f.card ≤ setBits f.words

theorem counted_of_create {ln : Float → Float} {capacity : Nat} {rate : Float}
    (hcreate : create ln capacity rate = .ok f) : f.Counted := by
  refine ⟨shaped_of_create hcreate, ?_⟩
  obtain ⟨size, numHashes, -, -, -, rfl⟩ := exists_of_create hcreate
  exact Nat.zero_le _

/-- Adding an item counts it exactly if it was not found before. -/
theorem card_add (f : BloomFilter) (item : Bytes) :
    (f.add item).1.card = f.card + if (f.add item).2 then 1 else 0 := by
  have hcard : (f.add item).1.card = if (f.add item).2 then f.card + 1 else f.card := rfl
  rw [hcard]
  split <;> rfl

/-- **An item is counted** only if it sets a bit. -/
theorem Counted.add (hf : f.Counted) (item : Bytes) : (f.add item).1.Counted := by
  obtain ⟨hgrows, hcontains, hfresh⟩ := add_spec hf.toShaped item
  refine ⟨hgrows.shaped hf.toShaped, ?_⟩
  rw [card_add, hfresh]
  cases hold : f.contains item with
  | true => exact hf.card_le.trans (setBits_le_setBits hgrows.size_eq hgrows.keeps)
  | false =>
      obtain ⟨bit, hbit, hunset⟩ : ∃ bit ∈ f.probes item, testBit f.words bit = false := by
        simpa [contains] using hold
      have hset : testBit (f.add item).1.words bit = true := by
        rw [contains, hgrows.probes_eq, List.all_eq_true] at hcontains
        exact hcontains bit hbit
      have hinside := probe_lt hf.toShaped hbit
      have hlt := setBits_lt_setBits hgrows.size_eq hgrows.keeps (by omega) hunset hset
      exact (Nat.succ_le_succ hf.card_le).trans hlt

/-- There are not more items than bits, and these are not many. -/
theorem Counted.card_le_maxBits (hf : f.Counted) : f.card ≤ maxBits := by
  have hbits := hf.numBits_le
  have hset := hf.card_le.trans (setBits_le f.words)
  rw [numBits] at hbits
  omega

/-! ### Many items -/

/-- Adding items keeps them counted by the bits. -/
theorem Counted.addAll (hf : f.Counted) (items : List Bytes) : (f.addAll items).1.Counted := by
  induction items generalizing f with
  | nil => exact hf
  | cons item rest ih =>
      rw [addAll_cons]
      exact ih (hf.add item)

/-- The items that are counted are those for which the answer is true. -/
theorem card_addAll (f : BloomFilter) (items : List Bytes) :
    (f.addAll items).1.card = f.card + (f.addAll items).2.count true := by
  induction items generalizing f with
  | nil => rfl
  | cons item rest ih =>
      rw [addAll_cons, ih, card_add, List.count_cons]
      simp only [beq_true]
      omega

/-- The bits that are set anew belong to the items that are counted. -/
theorem setBits_addAll (hf : f.Shaped) (items : List Bytes) :
    setBits (f.addAll items).1.words ≤
      setBits f.words + (f.addAll items).2.count true * f.numHashes := by
  induction items generalizing f with
  | nil => exact Nat.le_add_right _ _
  | cons item rest ih =>
      have hgrows := (add_spec hf item).1
      have hfirst := setBits_add hf item
      have hrest := ih (hgrows.shaped hf)
      rw [hgrows.numHashes_eq] at hrest
      rw [addAll_cons, List.count_cons, Nat.add_mul]
      cases hnew : (f.add item).2 with
      | true =>
          simp only [hnew, if_true, beq_self_eq_true, Nat.one_mul] at hfirst ⊢
          omega
      | false =>
          simp only [hnew, Bool.false_eq_true, if_false, beq_iff_eq, Nat.zero_mul] at hfirst ⊢
          omega

theorem setBits_of_create {ln : Float → Float} {capacity : Nat} {rate : Float}
    (hcreate : create ln capacity rate = .ok f) : setBits f.words = 0 := by
  rw [setBits, List.countP_eq_zero]
  intro bit _
  rw [testBit_of_create hcreate]
  exact Bool.false_ne_true

/-- **Adding, reporting and counting agree.**  After any additions to a new filter, adding an
item tells that it is new if and only if it was not reported.  The number of items is that of
the additions which told so.  There are at least as many set bits, at most as many as these
items own, and not more than there are bits, so the number of items always fits a word.  How a
filter was sized enters only in this: it has bits, in whole words and not too many, and a hash
function. -/
theorem card_of_added {ln : Float → Float} {capacity : Nat} {rate : Float}
    (hcreate : create ln capacity rate = .ok f) (items : List Bytes) :
    let g := (f.addAll items).1
    (∀ item, (g.add item).2 = true ↔ g.contains item = false) ∧
      g.card = (f.addAll items).2.count true ∧
      g.card ≤ setBits g.words ∧ setBits g.words ≤ g.card * g.numHashes ∧
      setBits g.words ≤ g.numBits ∧ g.numBits ≤ 2 ^ 32 ∧
      (0 < g.numBits ∧ 64 ∣ g.numBits ∧ 0 < g.numHashes) ∧
      ∀ item, (g.add item).1.card < word64 := by
  intro g
  have hf := shaped_of_create hcreate
  have hg : g.Counted := (counted_of_create hcreate).addAll items
  have hnone : f.card = 0 := by
    obtain ⟨size, numHashes, -, -, -, rfl⟩ := exists_of_create hcreate
    rfl
  have hcard : g.card = (f.addAll items).2.count true := by
    rw [card_addAll, hnone, Nat.zero_add]
  have hset := setBits_addAll hf items
  rw [setBits_of_create hcreate, Nat.zero_add, ← hcard,
    ← (addAll_spec hf items).1.numHashes_eq] at hset
  have hpos : 0 < g.numBits := Nat.mul_pos (by decide) hg.words_pos
  refine ⟨?_, hcard, hg.card_le, hset, setBits_le g.words, hg.numBits_le,
    ⟨hpos, Nat.dvd_mul_right 64 g.words.size, hg.numHashes_pos⟩, ?_⟩
  · intro item
    rw [(add_spec hg.toShaped item).2.2, Bool.not_eq_true']
  · intro item
    exact Nat.lt_of_le_of_lt (hg.add item).card_le_maxBits (by decide)

/-- Three additions of two items that share some of their positions. -/
theorem card_of_added_twice :
    let f : BloomFilter := ⟨#[0], 7, 0, 4, 0.01⟩
    let items : List Bytes := [[0x61], [0x62], [0x61]]
    create (fun _ => -4.605170185988091) 4 0.01 = .ok f ∧
      (f.addAll items).2 = [true, true, false] ∧ (f.addAll items).1.card = 2 ∧
      setBits (f.addAll items).1.words ≤ 2 * 7 := by
  intro f items
  have hcreate : create (fun _ => -4.605170185988091) 4 0.01 = .ok f := rfl
  have hanswers : (f.addAll items).2 = [true, true, false] := by decide +kernel
  obtain ⟨-, hcard, -, hset, -⟩ := card_of_added hcreate items
  rw [hanswers] at hcard
  rw [hcard] at hset
  exact ⟨hcreate, hanswers, hcard, hset⟩

end CompactStore.BloomFilter
