import CompactStore.Listpack.Entry

/-!
# Listpacks

A listpack is one contiguous buffer that holds a sequence of values:

    total length, 4 bytes | entry count, 2 bytes | entries | FF

The total length counts the whole buffer.  The entry count stays at 65535 once
there are that many entries, so the exact number is kept beside the buffer.  The
terminator `FF` is no tag of an entry.

The buffer is only looked at through windows, which are byte strings, and only
changed by `splice`, which puts one byte string in place of another.

A position is an offset into the buffer.  Forward, an entry is stepped over by
the size that its tag tells; backward, by the size that stands at its end.
Every position may be asked for, also one where no entry starts: whatever bytes
stand there are read as a tag or as a size, and the answer is `none` as soon as
a step would leave the buffer.  A step forward goes to a larger position before
the terminator, and a step backward to a smaller one after the header, so both
ways end.

Every sequence here is worked on from its two ends, and most operations are the
same at both.  They take the `End` as an argument.
-/

namespace CompactStore

/-- An end of a sequence. -/
inductive End where
  | front
  | back
deriving DecidableEq, Repr

namespace End

/-- The other end. -/
def opposite : End → End
  | front => back
  | back => front

@[simp] theorem opposite_opposite (e : End) : e.opposite.opposite = e := by
  cases e <;> rfl

end End

/-! ### The buffer -/

-- Buffers are compared as the core library compares them.
attribute [local instance (high)] ByteArray.instDecidableEq

/-- A sequence of values in one buffer, with the exact number of its entries. -/
structure Listpack where
  data : ByteArray
  len : Nat
deriving DecidableEq

namespace Listpack

/-- The size of the header: the offset of the first entry. -/
def headerSize : Nat := 6

/-- The byte after the last entry. -/
def terminator : UInt8 := 0xFF

/-- The entry count of a header that has no exact one. -/
def manyEntries : Nat := 65535

/-- The largest buffer whose length a header can state. -/
def maxBytes : Nat := word32 - 1

/-- A byte string as a buffer. -/
def buffer (bytes : Bytes) : ByteArray :=
  { data := bytes.toArray }

/-- The whole buffer as a byte string. -/
def bytes (lp : Listpack) : Bytes :=
  lp.data.data.toList

/-- The bytes from one offset to before another, as far as there are any. -/
def window (lp : Listpack) (start stop : Nat) : Bytes :=
  (lp.data.extract start stop).data.toList

/-- The header of a buffer of `total` bytes with `count` entries. -/
def header (total count : Nat) : Bytes :=
  LittleEndian.bytes 4 total ++ LittleEndian.bytes 2 (min count manyEntries)

/-- The listpack without entries. -/
def empty : Listpack where
  data := buffer (header (headerSize + 1) 0 ++ [terminator])
  len := 0

instance : Inhabited Listpack := ⟨empty⟩

/-- Whether there are no entries. -/
def isEmpty (lp : Listpack) : Bool :=
  lp.len = 0

/-- The length of the whole buffer. -/
def sizeBytes (lp : Listpack) : Nat :=
  lp.data.size

/-- The offset of the terminator. -/
def endOffset (lp : Listpack) : Nat :=
  lp.sizeBytes - 1

/-- The total length that the header states. -/
def headerTotal (lp : Listpack) : Nat :=
  LittleEndian.value (lp.window 0 4)

/-- The entry count that the header states. -/
def headerCount (lp : Listpack) : Nat :=
  LittleEndian.value (lp.window 4 headerSize)

/-- Puts a block in place of the bytes from `start` to before `stop`. -/
def splice (data : ByteArray) (start stop : Nat) (block : ByteArray) : ByteArray :=
  let front := data.extract 0 start ++ block
  data.copySlice stop front front.size (data.size - stop)

/-- Counts of entries are kept in 64 bits, where one less than zero is the
largest count. -/
def countRange : Nat := word64

/-- A buffer under a header that fits it and `count` entries. -/
def sealed (data : ByteArray) (count : Nat) : Listpack :=
  let len := count % countRange
  { data := (buffer (header data.size len)).copySlice 0 data 0 headerSize, len }

/-- A window is a part of the whole byte string. -/
theorem window_eq (lp : Listpack) (start stop : Nat) :
    lp.window start stop = (lp.bytes.take stop).drop start := by
  simp [window, bytes, List.drop_take]

/-- Copying to a place in a buffer leaves what stands before it and after it. -/
private theorem toList_copySlice (src dest : ByteArray) (start place len : Nat) :
    (src.copySlice start dest place len).data.toList =
      dest.data.toList.take place ++ (src.data.toList.drop start).take len
        ++ dest.data.toList.drop (place + min len (src.data.size - start)) := by
  have hrest : ∀ n, (dest.data.toList.drop n).take (dest.data.size - n) = dest.data.toList.drop n :=
    fun n => List.take_of_length_le (by simp)
  simp [ByteArray.copySlice_eq_append, -ByteArray.size_data, hrest]

/-- What a splice leaves of the bytes outside of it, and what it puts between. -/
theorem toList_splice (data : ByteArray) (start stop : Nat) (block : ByteArray) :
    (splice data start stop block).data.toList =
      data.data.toList.take start ++ block.data.toList ++ data.data.toList.drop stop := by
  have hrest : (data.data.toList.drop stop).take (data.size - stop) = data.data.toList.drop stop :=
    List.take_of_length_le (by simp [← ByteArray.size_data])
  have hfront : (data.extract 0 start ++ block).data.toList =
      data.data.toList.take start ++ block.data.toList := by simp
  have hsize : (data.extract 0 start ++ block).size =
      (data.data.toList.take start ++ block.data.toList).length := by
    rw [← ByteArray.size_data, ← Array.length_toList, hfront]
  rw [splice, toList_copySlice, hfront, hsize, hrest, List.take_length,
    List.drop_of_length_le (Nat.le_add_right _ _), List.append_nil]

/-- A header fills the first bytes of a buffer. -/
@[simp] theorem length_header (total count : Nat) : (header total count).length = headerSize := by
  simp [header, headerSize]

/-- Writing the header leaves the bytes after it alone. -/
theorem bytes_sealed (data : ByteArray) (count : Nat) :
    (sealed data count).bytes =
      header data.size (count % countRange) ++ data.data.toList.drop headerSize := by
  generalize hlen : count % countRange = len
  have hbuffer : (buffer (header data.size len)).data.toList = header data.size len := by
    simp [buffer]
  have hsize : (buffer (header data.size len)).data.size = headerSize := by
    rw [← Array.length_toList, hbuffer, length_header]
  rw [bytes, sealed, hlen, toList_copySlice, hbuffer, hsize, List.take_zero, List.nil_append,
    List.drop_zero, List.take_of_length_le (by simp)]
  simp

/-- Taking one entry away from a positive count of 64 bits lowers it by one. -/
theorem len_sealed_pred (data : ByteArray) {count : Nat} (h : count < countRange) :
    (sealed data (count + 1 + (countRange - 1))).len = count := by
  have hsum : count + 1 + (countRange - 1) = count + countRange := by omega
  rw [hsum]
  exact (Nat.add_mod_right count countRange).trans (Nat.mod_eq_of_lt h)

/-! ### Positions -/

/-- The size of the body of the entry at a position, if it ends before the
terminator does. -/
def bodySizeAt? (lp : Listpack) (pos : Nat) : Option Nat :=
  (Entry.bodySize? (lp.window pos (pos + Entry.headSize))).filter
    fun size => pos + size ≤ lp.endOffset

/-- The entry at a position. -/
def get? (lp : Listpack) (pos : Nat) : Option Entry :=
  (lp.bodySizeAt? pos).bind fun size => Entry.ofBody? (lp.window pos (pos + size))

/-- The position after an entry whose body has this size. -/
def after (pos size : Nat) : Nat :=
  pos + size + Backlen.width size

/-- The size that ends before a position, read from the bytes after `start`. -/
def sizeBefore? (lp : Listpack) (start pos : Nat) : Option Nat :=
  Backlen.decode (lp.window (max start (pos - Backlen.maxWidth)) pos)

/-- The position of the first entry. -/
def first? (lp : Listpack) : Option Nat :=
  if lp.window headerSize (headerSize + 1) = [terminator] then none else some headerSize

/-- The position of the entry after the one at `pos`; `none` at the last entry,
at the terminator and outside of the entries. -/
def next? (lp : Listpack) (pos : Nat) : Option Nat :=
  if pos < headerSize ∨ lp.endOffset ≤ pos then none
  else ((lp.bodySizeAt? pos).map (after pos)).filter (· < lp.endOffset)

/-- The position of the entry that ends before `pos`, which may be the offset of
the terminator; `none` at the first entry and outside of the entries. -/
def prev? (lp : Listpack) (pos : Nat) : Option Nat :=
  if pos ≤ headerSize ∨ lp.endOffset < pos then none
  else
    match lp.sizeBefore? headerSize pos with
    | none => none
    | some size =>
      let step := size + Backlen.width size
      if headerSize + step ≤ pos then some (pos - step) else none

/-- The position of the last entry. -/
def last? (lp : Listpack) : Option Nat :=
  lp.prev? lp.endOffset

/-- The entries met from a position on by a way of stepping, newest first in
front of `seen`; the walk ends where no entry can be read. -/
def walk (lp : Listpack) (step : Nat → Option Nat) : Nat → Option Nat → List Entry → List Entry
  | 0, _, seen => seen
  | _, none, seen => seen
  | fuel + 1, some pos, seen =>
    match lp.get? pos with
    | none => seen
    | some e => walk lp step fuel (step pos) (e :: seen)

/-- The entries from front to back. -/
def entries (lp : Listpack) : List Entry :=
  (lp.walk lp.next? lp.sizeBytes lp.first? []).reverse

/-- The entries from back to front. -/
def entriesReversed (lp : Listpack) : List Entry :=
  (lp.walk lp.prev? lp.sizeBytes lp.last? []).reverse

/-- The values from front to back. -/
def values (lp : Listpack) : List Bytes :=
  lp.entries.map Entry.text

end Listpack

end CompactStore
