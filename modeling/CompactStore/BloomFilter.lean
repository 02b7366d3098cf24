import CompactStore.Error
import CompactStore.Hash

/-!
# Bloom filters

A bloom filter is a row of bits in which an item owns a few positions, its
probes.  Adding an item sets them, and an item is reported present when all of
its probes are set, so an item that was added is always reported.  The probes
come from one 128-bit hash: probe `i` is `x + y · i` modulo the number of bits,
in 64-bit arithmetic that wraps around.

The bits stand in words of 64, so their number is always a multiple of 64.  The
filter counts the adds that set at least one bit anew.
-/

namespace CompactStore

/-- A row of bits of fixed size with the number of items added to it. -/
structure BloomFilter where
  words : Array UInt64
  numHashes : Nat
  card : Nat
  capacity : Nat
  errorRate : Float
deriving Repr

namespace BloomFilter

/-- The largest number of bits of a filter. -/
def maxBits : Nat := 2 ^ (32 : Nat)

/-- The number of bits to spend on an item for a rate of false reports. -/
def bitsPerEntry (ln : Float → Float) (rate : Float) : Float :=
  (ln rate).abs / (ln2 * ln2)

/-- An empty filter for this many items at this rate of false reports. -/
def create (ln : Float → Float) (capacity : Nat) (rate : Float) :
    Except SizeError BloomFilter :=
  if ¬ IsRate rate then .error .rate
  else if capacity = 0 then .error .noCapacity
  else
    let perEntry := bitsPerEntry ln rate
    let required := Float.ofNat capacity * perEntry
    let bits := ceilWithin (word64 - 1) required
    if required.isNaN ∨ maxBits < bits then .error .capacityTooLarge
    else .ok {
      words := Array.replicate (max 1 ((bits + 63) / 64)) 0
      numHashes := max 1 (ceilWithin (word32 - 1) (ln2 * perEntry))
      card := 0
      capacity
      errorRate := rate }

/-- The number of bits. -/
def numBits (f : BloomFilter) : Nat :=
  64 * f.words.size

/-- The number of bytes that the bits take. -/
def sizeBytes (f : BloomFilter) : Nat :=
  8 * f.words.size

/-- The positions that an item owns. -/
def probes (f : BloomFilter) (item : Bytes) : List Nat :=
  let h := Hash.hash128 item Hash.defaultSeed
  (List.range f.numHashes).map fun i =>
    ((h.x + h.y * UInt64.ofNat i) % UInt64.ofNat f.numBits).toNat

/-- The word in which only the bit of a position is set. -/
def mask (bit : Nat) : UInt64 :=
  1 <<< UInt64.ofNat (bit % 64)

/-- Whether the bit at a position is set. -/
def testBit (words : Array UInt64) (bit : Nat) : Bool :=
  words.getD (bit / 64) 0 &&& mask bit != 0

/-- Sets the bit at a position, and notes whether it was not set before. -/
def setBit (state : Array UInt64 × Bool) (bit : Nat) : Array UInt64 × Bool :=
  let (words, fresh) := state
  if testBit words bit then (words, fresh)
  else (words.modify (bit / 64) (· ||| mask bit), true)

/-- Adds an item; the answer is true when a bit was set anew. -/
def add (f : BloomFilter) (item : Bytes) : BloomFilter × Bool :=
  let probes := f.probes item
  let { words, numHashes, card, capacity, errorRate } := f
  let (words, fresh) := probes.foldl setBit (words, false)
  let card := if fresh then card + 1 else card
  ({ words, numHashes, card, capacity, errorRate }, fresh)

/-- Whether an item may have been added. -/
def contains (f : BloomFilter) (item : Bytes) : Bool :=
  (f.probes item).all (testBit f.words)

/-- Adds items one after another, with the answer for each in front of `answers`. -/
def addEach (f : BloomFilter) (answers : List Bool) : List Bytes → BloomFilter × List Bool
  | [] => (f, answers.reverse)
  | item :: rest =>
    let (f, fresh) := f.add item
    addEach f (fresh :: answers) rest

/-- Adds items one after another, with the answer for each. -/
def addAll (f : BloomFilter) (items : List Bytes) : BloomFilter × List Bool :=
  f.addEach [] items

end BloomFilter

end CompactStore
