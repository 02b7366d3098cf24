import CompactStore.Bytes

/-!
# Seeded hashes

The two MurmurHash3 functions that the filters and the sketch use: `hash128`
makes two independent lanes of 64 bits, `hash32` one word of 32 bits.  Both
read the item in full blocks of little-endian words, mix each block into the
state, then mix the bytes left over, which count as one last block padded with
zeros, and finish with the length.

Arithmetic is that of the machine words and wraps around.  A block that is
padded with nothing mixes to zero and leaves the state alone, so no case is
needed for an item that ends at a block boundary.
-/

namespace CompactStore.Hash

/-- Feeds the first `count` blocks of `size` bytes to a mixing step, in order. -/
def foldBlocks {σ : Type} (size : Nat) (mix : σ → Bytes → σ) : Nat → σ → Bytes → σ
  | 0, state, _ => state
  | count + 1, state, bytes =>
    foldBlocks size mix count (mix state (bytes.take size)) (bytes.drop size)

/-- The little-endian word of at most four bytes. -/
def word32 (bytes : Bytes) : UInt32 :=
  UInt32.ofNat (LittleEndian.value bytes)

/-- The little-endian word of at most eight bytes. -/
def word64 (bytes : Bytes) : UInt64 :=
  UInt64.ofNat (LittleEndian.value bytes)

/-- Rotates a 32-bit word to the left, by an amount strictly between 0 and 32. -/
def rotate32 (w : UInt32) (r : UInt32) : UInt32 :=
  (w <<< r) ||| (w >>> (32 - r))

/-- Rotates a 64-bit word to the left, by an amount strictly between 0 and 64. -/
def rotate64 (w : UInt64) (r : UInt64) : UInt64 :=
  (w <<< r) ||| (w >>> (64 - r))

/-- Spreads a word of the item before it enters the 32-bit state. -/
def spread32 (k : UInt32) : UInt32 :=
  rotate32 (k * 0xcc9e2d51) 15 * 0x1b873593

/-- Mixes one full block of four bytes into the 32-bit state. -/
def mix32 (h : UInt32) (block : Bytes) : UInt32 :=
  rotate32 (h ^^^ spread32 (word32 block)) 13 * 5 + 0xe6546b64

/-- The closing avalanche of the 32-bit state. -/
def avalanche32 (h : UInt32) : UInt32 :=
  let h := (h ^^^ (h >>> 16)) * 0x85ebca6b
  let h := (h ^^^ (h >>> 13)) * 0xc2b2ae35
  h ^^^ (h >>> 16)

/-- The 32-bit hash of an item under a seed. -/
def hash32 (item : Bytes) (seed : UInt32) : UInt32 :=
  let count := item.length / 4
  let body := foldBlocks 4 mix32 count seed item
  let rest := word32 (item.drop (4 * count))
  avalanche32 ((body ^^^ spread32 rest) ^^^ UInt32.ofNat item.length)

/-- Two independent lanes of 64 bits, made from one item. -/
structure Lanes where
  x : UInt64
  y : UInt64
deriving DecidableEq, Repr

/-- Spreads a word of the item before it enters the first lane. -/
def spreadX (k : UInt64) : UInt64 :=
  rotate64 (k * 0x87c37b91114253d5) 31 * 0x4cf5ad432745937f

/-- Spreads a word of the item before it enters the second lane. -/
def spreadY (k : UInt64) : UInt64 :=
  rotate64 (k * 0x4cf5ad432745937f) 33 * 0x87c37b91114253d5

/-- Mixes one full block of sixteen bytes into the lanes: the first eight bytes
go to one lane, the last eight to the other, and each lane takes in its
neighbour. -/
def mix128 (h : Lanes) (block : Bytes) : Lanes :=
  let x := h.x ^^^ spreadX (word64 (block.take 8))
  let x := (rotate64 x 27 + h.y) * 5 + 0x52dce729
  let y := h.y ^^^ spreadY (word64 (block.drop 8))
  let y := (rotate64 y 31 + x) * 5 + 0x38495ab5
  { x, y }

/-- The closing avalanche of one lane. -/
def avalanche64 (h : UInt64) : UInt64 :=
  let h := (h ^^^ (h >>> 33)) * 0xff51afd7ed558ccd
  let h := (h ^^^ (h >>> 33)) * 0xc4ceb9fe1a85ec53
  h ^^^ (h >>> 33)

/-- Adds each lane to the other, the first one first. -/
def cross (h : Lanes) : Lanes :=
  let x := h.x + h.y
  { x, y := h.y + x }

/-- The 128-bit hash of an item under a seed. -/
def hash128 (item : Bytes) (seed : UInt32) : Lanes :=
  let count := item.length / 16
  let start : Lanes := { x := seed.toUInt64, y := seed.toUInt64 }
  let body := foldBlocks 16 mix128 count start item
  let rest := item.drop (16 * count)
  let length := UInt64.ofNat item.length
  let mixed := cross {
    x := body.x ^^^ spreadX (word64 (rest.take 8)) ^^^ length
    y := body.y ^^^ spreadY (word64 (rest.drop 8)) ^^^ length }
  cross { x := avalanche64 mixed.x, y := avalanche64 mixed.y }

/-- The seed under which the filters hash their items. -/
def defaultSeed : UInt32 := 0x9747b28c

end CompactStore.Hash
