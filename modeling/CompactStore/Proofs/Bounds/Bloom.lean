import CompactStore.Proofs.Bloom.Cardinality
import CompactStore.Proofs.Bounds.Checked

/-!
# Bounds of bloom filters

Every access to the words of a bloom filter, in a checked form.  The number of items is
counted in 64 bits; it never gets there, as there are not that many bits: `Counted`.
-/

namespace CompactStore.BloomFilter

open Checked

/-- The positions that an item owns. -/
def checkedProbes (f : BloomFilter) (item : Bytes) : Checked (List Nat) :=
  let h := Hash.hash128 item Hash.defaultSeed
  (List.range f.numHashes).mapM fun i => do
    require (UInt64.ofNat f.numBits ≠ 0) .modulus
    return ((h.x + h.y * UInt64.ofNat i) % UInt64.ofNat f.numBits).toNat

/-- Whether the bit at a position is set. -/
def checkedTestBit (words : Array UInt64) (bit : Nat) : Checked Bool := do
  return (← get words (bit / 64)) &&& mask bit != 0

/-- Sets the bit at a position, and notes whether it was not set before. -/
def checkedSetBit (state : Array UInt64 × Bool) (bit : Nat) : Checked (Array UInt64 × Bool) := do
  let (words, fresh) := state
  if ← checkedTestBit words bit then return (words, fresh)
  return (← modify words (bit / 64) (· ||| mask bit), true)

/-- Adds an item. -/
def checkedAdd (f : BloomFilter) (item : Bytes) : Checked (BloomFilter × Bool) := do
  let probes ← f.checkedProbes item
  let (words, fresh) ← probes.foldlM checkedSetBit (f.words, false)
  let card ← if fresh then succ64 f.card else .ok f.card
  return ({ f with words, card }, fresh)

/-- Whether an item may have been added. -/
def checkedContains (f : BloomFilter) (item : Bytes) : Checked Bool := do
  (← f.checkedProbes item).allM (checkedTestBit f.words)

/-- Adds items one after another, with the answer for each in front of `answers`. -/
def checkedAddEach (f : BloomFilter) (answers : List Bool) :
    List Bytes → Checked (BloomFilter × List Bool)
  | [] => .ok (f, answers.reverse)
  | item :: rest => do
    let (f, fresh) ← f.checkedAdd item
    checkedAddEach f (fresh :: answers) rest

variable {f : BloomFilter} {words after : Array UInt64} {bit : Nat}

/-! ### Within the bounds -/

/-- The probes of an item are computed within the bounds, since there is a bit. -/
theorem checkedProbes_eq (hf : f.Shaped) (item : Bytes) :
    f.checkedProbes item = .ok (f.probes item) := by
  have hbits : UInt64.ofNat f.numBits ≠ 0 := by
    intro hzero
    have hpos := hf.words_pos
    have hnat := hf.toNat_numBits
    rw [hzero, numBits] at hnat
    change 0 = _ at hnat
    omega
  apply mapM_eq
  intro i _
  rw [require_eq hbits]
  rfl

theorem checkedTestBit_eq (h : bit / 64 < words.size) :
    checkedTestBit words bit = .ok (testBit words bit) := by
  rw [checkedTestBit, get_eq h 0]
  rfl

theorem checkedSetBit_eq (h : bit / 64 < words.size) (fresh : Bool) :
    checkedSetBit (words, fresh) bit = .ok (setBit (words, fresh) bit) := by
  rw [checkedSetBit, checkedTestBit_eq h, ok_bind, modify_eq h, setBit]
  split <;> rfl

/-- **Adding an item** stays among the bits, and the number of items in 64 bits. -/
theorem Counted.checkedAdd_eq (hf : f.Counted) (item : Bytes) :
    f.checkedAdd item = .ok (f.add item) := by
  have hset : (f.probes item).foldlM checkedSetBit (f.words, false) =
      .ok ((f.probes item).foldl setBit (f.words, false)) := by
    apply foldlM_eq (P := fun state => state.1.size = f.words.size) _ rfl
    rintro ⟨words, fresh⟩ bit hbit hsize
    have hinside : bit / 64 < words.size := hsize ▸ probe_lt hf.toShaped hbit
    exact ⟨checkedSetBit_eq hinside fresh, (setBit_spec hinside fresh).1.trans hsize⟩
  have hcard : f.card + 1 < word64 := by
    have hcounted := hf.card_le_maxBits
    rw [maxBits] at hcounted
    unfold word64
    omega
  rw [checkedAdd, checkedProbes_eq hf.toShaped, ok_bind, hset, ok_bind]
  dsimp only
  rw [succ64_eq hcard, BloomFilter.add]
  dsimp only
  split <;> rfl

/-- **Asking for an item** stays among the bits. -/
theorem Shaped.checkedContains_eq (hf : f.Shaped) (item : Bytes) :
    f.checkedContains item = .ok (f.contains item) := by
  rw [checkedContains, checkedProbes_eq hf, ok_bind]
  exact allM_eq fun bit hbit => checkedTestBit_eq (probe_lt hf hbit)

/-- **Items one after another** are added within the bounds, by induction on them. -/
theorem Counted.checkedAddEach_eq (hf : f.Counted) (answers : List Bool) (items : List Bytes) :
    f.checkedAddEach answers items = .ok (f.addEach answers items) := by
  induction items generalizing f answers with
  | nil => rfl
  | cons item rest ih =>
      rw [checkedAddEach, addEach, hf.checkedAdd_eq, ok_bind]
      exact ih (hf.add item) _

end CompactStore.BloomFilter
