import CompactStore.Bytes
import CompactStore.Error
import CompactStore.Hash

/-!
# Cuckoo filters

A cuckoo filter stores a short fingerprint for each item, in one of two
candidate buckets.  The first candidate comes from the item's hash, and each
candidate is the other one with the hash of the fingerprint mixed in, so a
fingerprint that is found in a bucket can be moved to its other candidate
without knowing the item.  The number of buckets is a power of two, which makes
this step undo itself.

When both candidates are full, a chain of evictions starts: the new fingerprint
takes a slot of one candidate, and what stood there goes on to its own other
candidate, for at most `maxKicks` steps.  A chain that finds no empty slot is
undone, step by step from the last one, and the filter is full for this item.

Fingerprint zero marks an empty slot; an item whose fingerprint would be zero
has one instead.
-/

namespace CompactStore

/-!
### Buckets

A bucket of a cuckoo filter is four slots of equal width, packed back to back
into one number: slot `s` of width `bits` is the `bits` binary digits from place
`s · bits` on, where places are counted in 64 bits.  Written out, a bucket is this
number in the fewest bytes that hold the four slots, least significant first.
Zero is the content of an empty slot.
-/

/-- Four packed slots. -/
structure Bucket where
  packed : Nat
deriving DecidableEq, Repr, Inhabited

namespace Bucket

/-- The number of slots. -/
def slots : Nat := 4

/-- The number of bytes that slots of this width take. -/
def bytesFor (bits : Nat) : Nat :=
  (slots * bits + 7) / 8

/-- A bucket of empty slots. -/
def empty : Bucket where
  packed := 0

/-- The bytes of a bucket. -/
def bytes (b : Bucket) (bits : Nat) : Bytes :=
  LittleEndian.bytes (bytesFor bits) b.packed

/-- The place of the lowest binary digit of a slot. -/
def place (bits slot : Nat) : Nat :=
  slot * bits % word64

/-- The content of a slot as a number below `2 ^ bits`. -/
def content (b : Bucket) (bits slot : Nat) : Nat :=
  (b.packed >>> place bits slot) % 2 ^ bits

/-- The content of a slot. -/
def get (b : Bucket) (bits slot : Nat) : UInt32 :=
  UInt32.ofNat (b.content bits slot)

/-- Overwrites a slot with the low bits of a value. -/
def set (b : Bucket) (bits slot : Nat) (value : UInt32) : Bucket where
  packed :=
    b.packed - (b.content bits slot) <<< place bits slot
      + (value.toNat % 2 ^ bits) <<< place bits slot

/-- The first slot with this content. -/
def find? (b : Bucket) (bits : Nat) (content : UInt32) : Option Nat :=
  (List.range slots).find? fun slot => b.get bits slot == content

/-- The four slots of any width up to 32 lie back to back. -/
theorem place_eq {bits slot : Nat} (hbits : bits ≤ 32) (hslot : slot < slots) :
    place bits slot = slot * bits := by
  have hle : slot * bits ≤ slots * 32 := Nat.mul_le_mul (Nat.le_of_lt hslot) hbits
  exact Nat.mod_eq_of_lt (Nat.lt_of_le_of_lt hle (by decide))

end Bucket

/-!
### Draws

Random choices are read from a stream of numbers.  What the numbers are is left
to whoever makes the stream; a choice among `upper` possibilities is the next
number modulo `upper`, so it is always below `upper`, and every sequence of
choices is one that some stream makes.
-/

/-- A stream of numbers and how many of them were used. -/
structure Draws where
  stream : Nat → Nat
  used : Nat

namespace Draws

/-- A stream of which nothing was used. -/
def start (stream : Nat → Nat) : Draws where
  stream := stream
  used := 0

/-- The next choice among `upper` possibilities. -/
def pick (d : Draws) (upper : Nat) : Nat × Draws :=
  (d.stream d.used % upper, { d with used := d.used + 1 })

/-- A choice is one of the possibilities. -/
theorem pick_lt (d : Draws) {upper : Nat} (h : 0 < upper) : (d.pick upper).1 < upper :=
  Nat.mod_lt _ h

end Draws

/-! ### Filters -/

/-- A row of buckets with the number of fingerprints in them. -/
structure CuckooFilter where
  buckets : Array Bucket
  bits : Nat
  count : Nat
  capacity : Nat
  errorRate : Float
  draws : Draws

namespace CuckooFilter

/-- The largest number of evictions of one add. -/
def maxKicks : Nat := 500

/-- The largest number of buckets is `2` to this power. -/
def maxBucketsLog : Nat := 24

/-- The width of the fingerprints for a rate of false reports. -/
def fingerprintBits (log2 : Float → Float) (rate : Float) : Nat :=
  max 1 (ceilWithin 32 (log2 (8.0 / rate)))

/-- The least allowed number of buckets that is not below the capacity. -/
def bucketCount? (capacity : Nat) : Option Nat :=
  ((List.range (maxBucketsLog + 1)).map fun k => 2 ^ k).find? fun n => capacity ≤ n

/-- An empty filter of at least `capacity` buckets at this rate of false
reports, with the draws that its evictions use. -/
def create (log2 : Float → Float) (capacity : Nat) (rate : Float) (stream : Nat → Nat) :
    Except SizeError CuckooFilter :=
  if ¬ IsRate rate then .error .rate
  else if capacity = 0 then .error .noCapacity
  else
    match bucketCount? capacity with
    | none => .error .capacityTooLarge
    | some n =>
      let bits := fingerprintBits log2 rate
      .ok {
        buckets := Array.replicate n Bucket.empty
        bits
        count := 0
        capacity
        errorRate := rate
        draws := .start stream }

/-- The number of buckets. -/
def numBuckets (f : CuckooFilter) : Nat :=
  f.buckets.size

/-- The number of bytes of one bucket. -/
def bucketBytes (f : CuckooFilter) : Nat :=
  Bucket.bytesFor f.bits

/-- The number of bytes of all buckets. -/
def sizeBytes (f : CuckooFilter) : Nat :=
  f.numBuckets * f.bucketBytes

/-- The fingerprint of an item with this hash. -/
def fingerprint (f : CuckooFilter) (h : Hash.Lanes) : UInt32 :=
  let low := UInt32.ofNat (h.y.toNat % 2 ^ f.bits)
  if low = 0 then 1 else low

/-- The other candidate of a fingerprint that may stand at `index`. -/
def other (f : CuckooFilter) (index : Nat) (fp : UInt32) : Nat :=
  let offset := Hash.hash32 (LittleEndian.bytes 4 fp.toNat) Hash.defaultSeed
  (index ^^^ offset.toNat) % f.numBuckets

/-- A fingerprint with its two candidate buckets. -/
structure Candidates where
  fp : UInt32
  first : Nat
  second : Nat
deriving DecidableEq, Repr

/-- Where the fingerprint of an item may stand. -/
def candidates (f : CuckooFilter) (item : Bytes) : Candidates :=
  let h := Hash.hash128 item Hash.defaultSeed
  let fp := f.fingerprint h
  let first := h.x.toNat % f.numBuckets
  { fp, first, second := f.other first fp }

/-- The bucket at an index. -/
def bucket (f : CuckooFilter) (index : Nat) : Bucket :=
  f.buckets.getD index default

/-- Overwrites one slot. -/
def setSlot (f : CuckooFilter) (index slot : Nat) (fp : UInt32) : CuckooFilter :=
  let bits := f.bits
  { f with buckets := f.buckets.modify index fun b => b.set bits slot fp }

/-- The first slot of a bucket with this content. -/
def slot? (f : CuckooFilter) (index : Nat) (content : UInt32) : Option Nat :=
  (f.bucket index).find? f.bits content

/-- The first slot with this content among both candidates, with its bucket. -/
def locate? (f : CuckooFilter) (c : Candidates) (content : UInt32) : Option (Nat × Nat) :=
  match f.slot? c.first content with
  | some slot => some (c.first, slot)
  | none => (f.slot? c.second content).map fun slot => (c.second, slot)

/-- Puts a fingerprint into an empty slot. -/
def fill (f : CuckooFilter) (index slot : Nat) (fp : UInt32) : CuckooFilter :=
  let f := f.setSlot index slot fp
  { f with count := f.count + 1 }

/-- Empties a slot that holds a fingerprint. -/
def clear (f : CuckooFilter) (index slot : Nat) : CuckooFilter :=
  let f := f.setSlot index slot 0
  { f with count := f.count - 1 }

/-- The next choice among `upper` possibilities. -/
def pick (f : CuckooFilter) (upper : Nat) : Nat × CuckooFilter :=
  let (choice, draws) := f.draws.pick upper
  (choice, { f with draws })

/-- One step of a chain of evictions: the slot that was written to, and what
stood there before. -/
structure Eviction where
  index : Nat
  slot : Nat
  evicted : UInt32
deriving DecidableEq, Repr

/-- Undoes a chain of evictions, the last step first. -/
def undo (f : CuckooFilter) (path : List Eviction) : CuckooFilter :=
  path.foldl (fun f step => f.setSlot step.index step.slot step.evicted) f

/-- Goes on with a chain of evictions for at most `fuel` steps; `path` holds the
steps made so far, the last one first.  The answer is false when the chain found
no empty slot and was undone. -/
def kick : Nat → CuckooFilter → Nat → UInt32 → List Eviction → CuckooFilter × Bool
  | 0, f, _, _, path => (f.undo path, false)
  | fuel + 1, f, index, fp, path =>
    let (slot, f) := f.pick Bucket.slots
    let evicted := (f.bucket index).get f.bits slot
    let f := f.setSlot index slot fp
    let next := f.other index evicted
    match f.slot? next 0 with
    | some slot => (f.fill next slot evicted, true)
    | none => kick fuel f next evicted ({ index, slot, evicted } :: path)

/-- Stores a fingerprint in one of its candidates; the answer is false when there
is no room for it. -/
def store (f : CuckooFilter) (c : Candidates) : CuckooFilter × Bool :=
  match f.locate? c 0 with
  | some (index, slot) => (f.fill index slot c.fp, true)
  | none =>
    let (side, f) := f.pick 2
    kick maxKicks f (if side = 0 then c.first else c.second) c.fp []

/-- Adds an item; the answer is false when the filter is full for it. -/
def add (f : CuckooFilter) (item : Bytes) : CuckooFilter × Bool :=
  f.store (f.candidates item)

/-- Whether an item may be stored. -/
def contains (f : CuckooFilter) (item : Bytes) : Bool :=
  let c := f.candidates item
  (f.locate? c c.fp).isSome

/-- What became of an item that was to be added. -/
inductive Addition where
  | added
  | present
  | full
deriving DecidableEq, Repr

/-- What became of an item that was stored, or was not. -/
def additionOf : CuckooFilter × Bool → CuckooFilter × Addition
  | (f, stored) => (f, if stored then .added else .full)

/-- Adds an item, and tells what became of it. -/
def addOnce (f : CuckooFilter) (item : Bytes) : CuckooFilter × Addition :=
  additionOf (f.add item)

/-- Adds an item unless it is reported present. -/
def addNew (f : CuckooFilter) (item : Bytes) : CuckooFilter × Addition :=
  if f.contains item then (f, .present) else f.addOnce item

/-- Takes a fingerprint out of one of its candidates; the answer is false when
there is none. -/
def takeOut (f : CuckooFilter) (c : Candidates) : CuckooFilter × Bool :=
  match f.locate? c c.fp with
  | some (index, slot) => (f.clear index slot, true)
  | none => (f, false)

/-- Takes out one fingerprint of an item; the answer is false when there is
none. -/
def remove (f : CuckooFilter) (item : Bytes) : CuckooFilter × Bool :=
  f.takeOut (f.candidates item)

end CuckooFilter

end CompactStore
