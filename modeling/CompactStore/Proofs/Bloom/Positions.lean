import CompactStore.Proofs.Bloom.Growth

/-!
# Which bits of a bloom filter are set

The bits that are set are those which the added items own, and no others: `testBit_addAll`.
Words are told apart by their bits, so filters with the same bits have the same words:
`eq_of_testBit`.  Hence the bits tell which items were added at most as a set.  In what order
they came and how often each of them came leaves no trace there: `bits_of_added`.

An item owns the positions that `position` computes from the two lanes of its hash.  The
probes of a filter are these, found with words of 64 bits.
-/

namespace CompactStore.BloomFilter

variable {f g : BloomFilter} {item : Bytes} {bit : Nat}

/-- The `i`-th position that an item owns among this many bits.  The sum wraps around where
words of 64 bits end. -/
def position (numBits : Nat) (item : Bytes) (i : Nat) : Nat :=
  let h := Hash.hash128 item Hash.defaultSeed
  (h.x.toNat + h.y.toNat * i) % word64 % numBits

/-- One of the items owns a bit. -/
def Owned (f : BloomFilter) (items : List Bytes) (bit : Nat) : Prop :=
  ∃ item ∈ items, ∃ i < f.numHashes, bit = position f.numBits item i

/-! ### Positions -/

/-- A probe in words of 64 bits is the position in numbers. -/
theorem toNat_probe (hf : f.Shaped) (item : Bytes) (i : Nat) :
    (((Hash.hash128 item Hash.defaultSeed).x + (Hash.hash128 item Hash.defaultSeed).y *
      UInt64.ofNat i) % UInt64.ofNat f.numBits).toNat = position f.numBits item i := by
  rw [UInt64.toNat_mod, UInt64.toNat_add, UInt64.toNat_mul, UInt64.toNat_ofNat',
    hf.toNat_numBits, Nat.mul_mod_mod, Nat.add_mod_mod]
  rfl

/-- **The probes** of an item are the positions that it owns. -/
theorem probes_eq (hf : f.Shaped) (item : Bytes) :
    f.probes item = (List.range f.numHashes).map (position f.numBits item) := by
  apply List.map_congr_left
  intro i _
  exact toNat_probe hf item i

theorem mem_probes_iff (hf : f.Shaped) :
    bit ∈ f.probes item ↔ ∃ i < f.numHashes, bit = position f.numBits item i := by
  rw [probes_eq hf, List.mem_map]
  constructor
  · rintro ⟨i, hi, rfl⟩
    exact ⟨i, List.mem_range.mp hi, rfl⟩
  · rintro ⟨i, hi, rfl⟩
    exact ⟨i, List.mem_range.mpr hi, rfl⟩

theorem owned_cons (hf : f.Shaped) (first : Bytes) (rest : List Bytes) (bit : Nat) :
    f.Owned (first :: rest) bit ↔ bit ∈ f.probes first ∨ f.Owned rest bit := by
  rw [mem_probes_iff hf]
  simp [Owned]

/-- What is owned does not depend on what was added. -/
theorem Grows.owned_iff (hfg : Grows f g) (items : List Bytes) (bit : Nat) :
    g.Owned items bit ↔ f.Owned items bit := by
  rw [Owned, Owned, numBits, numBits, hfg.numHashes_eq, hfg.size_eq]

/-- An item is reported if all positions that it owns are set. -/
theorem contains_iff (hf : f.Shaped) (item : Bytes) :
    f.contains item = true ↔
      ∀ i < f.numHashes, testBit f.words (position f.numBits item i) = true := by
  rw [contains, List.all_eq_true, probes_eq hf, List.forall_mem_map]
  constructor
  · intro h i hi
    exact h i (List.mem_range.mpr hi)
  · intro h i hi
    exact h i (List.mem_range.mp hi)

/-! ### Bits -/

/-- **Words with the same bits** are the same words. -/
theorem eq_of_testBit {words others : Array UInt64} (hsize : words.size = others.size)
    (hbits : ∀ bit, testBit words bit = testBit others bit) : words = others := by
  apply Array.ext hsize
  intro k hk hk'
  apply UInt64.toNat_inj.mp
  apply Nat.eq_of_testBit_eq
  intro i
  by_cases hi : i < 64
  · -- this is the `i`-th bit of the `k`-th word
    have hdiv : (64 * k + i) / 64 = k := by omega
    have hmod : (64 * k + i) % 64 = i := by omega
    have hbit := hbits (64 * k + i)
    rw [testBit_eq, testBit_eq, hdiv, hmod] at hbit
    simpa [Array.getD_eq_getD_getElem?, hk, hk'] using hbit
  · have hout : ∀ w : UInt64, w.toNat.testBit i = false := by
      intro w
      apply Nat.testBit_lt_two_pow
      exact Nat.lt_of_lt_of_le w.toNat_lt (Nat.pow_le_pow_right (by decide) (by omega))
    rw [hout, hout]

/-- **The bits after many additions** are those before and those that the items own. -/
theorem testBit_addAll (hf : f.Shaped) (items : List Bytes) (bit : Nat) :
    testBit (f.addAll items).1.words bit = true ↔
      testBit f.words bit = true ∨ f.Owned items bit := by
  induction items generalizing f with
  | nil => simp [addAll, addEach, Owned]
  | cons first rest ih =>
      have hgrows := (add_spec hf first).1
      rw [addAll_cons, ih (hgrows.shaped hf), hgrows.owned_iff, testBit_add hf, Bool.or_eq_true,
        List.contains_iff_mem, owned_cons hf, or_assoc]

/-- **The bits tell a set of items.**  After any additions to a new filter, a bit is set if
and only if one of the added items owns it, and an item is reported if and only if added items
own all of its positions.  The same items in any other order, each any number of times, leave
the same words and the same reports. -/
theorem bits_of_added {ln : Float → Float} {capacity : Nat} {rate : Float}
    (hcreate : create ln capacity rate = .ok f) (items : List Bytes) :
    let g := (f.addAll items).1
    (∀ bit, testBit g.words bit = true ↔
      ∃ item ∈ items, ∃ i < g.numHashes, bit = position g.numBits item i) ∧
    (∀ item, g.contains item = true ↔
      ∀ i < g.numHashes, g.Owned items (position g.numBits item i)) ∧
    ∀ others, (∀ item, item ∈ others ↔ item ∈ items) →
      (f.addAll others).1.words = g.words ∧
        ∀ item, (f.addAll others).1.contains item = g.contains item := by
  intro g
  have hf := shaped_of_create hcreate
  have hset : ∀ items bit, testBit (f.addAll items).1.words bit = true ↔ f.Owned items bit := by
    intro items bit
    rw [testBit_addAll hf, testBit_of_create hcreate]
    simp
  have hgrows := (addAll_spec hf items).1
  have hbits : ∀ bit, testBit g.words bit = true ↔ g.Owned items bit := by
    intro bit
    rw [hset, hgrows.owned_iff]
  refine ⟨hbits, ?_, ?_⟩
  · intro item
    rw [contains_iff (hgrows.shaped hf)]
    constructor
    · intro h i hi
      exact (hbits _).mp (h i hi)
    · intro h i hi
      exact (hbits _).mpr (h i hi)
  · intro others hsame
    have hother := (addAll_spec hf others).1
    -- the same members have the same probes, so no bit tells the two filters apart
    have hwords : (f.addAll others).1.words = g.words := by
      apply eq_of_testBit (hother.size_eq.trans hgrows.size_eq.symm)
      intro bit
      rw [Bool.eq_iff_iff, hset, hset]
      unfold Owned
      simp only [hsame]
    refine ⟨hwords, ?_⟩
    intro item
    rw [contains, contains, hwords, hother.probes_eq, hgrows.probes_eq]

/-- Two items that share some of their positions, in both orders and one of them twice. -/
theorem bits_of_added_twice :
    let f : BloomFilter := ⟨#[0], 7, 0, 4, 0.01⟩
    let items : List Bytes := [[0x61], [0x62], [0x61]]
    let others : List Bytes := [[0x62], [0x61]]
    create (fun _ => -4.605170185988091) 4 0.01 = .ok f ∧
      (∀ item, item ∈ others ↔ item ∈ items) ∧
      (f.addAll others).1.words = (f.addAll items).1.words ∧
      (f.addAll others).1.contains [0x63] = (f.addAll items).1.contains [0x63] := by
  intro f items others
  have hcreate : create (fun _ => -4.605170185988091) 4 0.01 = .ok f := rfl
  have hsame : ∀ item, item ∈ others ↔ item ∈ items := by
    intro item
    simp only [items, others, List.mem_cons, List.not_mem_nil, or_false]
    tauto
  obtain ⟨-, -, hbits⟩ := bits_of_added hcreate items
  obtain ⟨hwords, hcontains⟩ := hbits others hsame
  exact ⟨hcreate, hsame, hwords, hcontains [0x63]⟩

end CompactStore.BloomFilter
