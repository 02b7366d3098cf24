import CompactStore.Listpack.Basic

/-!
# Loading, pushing and popping

A byte string is a listpack when its header states its length, a terminator ends
it, and the entries between tile it exactly, each followed by its own size.  The
entry count of the header is the number of entries, or 65535.

Values are pushed in call order: a block appended at the back, or a block set in
front of the first entry, so that its first value becomes the front.  A value
that has no entry, or whose entry would take the buffer past the length that a
header can state, is skipped, and later values are still considered.  Both
pushes tell how many values they stored.

A pop reads the value at one end and cuts its entry out.  After every change the
header is written anew.

Walking back reads whatever stands at the end of an entry as a size, so in a
buffer that was not built by pushes a pop may cut more than one entry, or the
terminator, too.  A push at the back therefore looks whether the last byte is a
terminator: it replaces that one, and puts a new one behind what it appends.
-/

namespace CompactStore.Listpack

/-- Counts the entries from a position on, on top of `count`; `none` as soon as
one is malformed. -/
def countFrom? (lp : Listpack) : Nat → Nat → Nat → Option Nat
  | 0, pos, count => if pos < lp.endOffset then none else some count
  | fuel + 1, pos, count =>
    if pos < lp.endOffset then
      match lp.bodySizeAt? pos with
      | none => none
      | some size =>
        let stop := after pos size
        if lp.endOffset < stop ∨ lp.sizeBefore? 0 stop ≠ some size then none
        else lp.countFrom? fuel stop (count + 1)
    else some count

/-- The listpack that a byte string is. -/
def ofBytes? (bytes : Bytes) : Option Listpack :=
  let lp : Listpack := { data := buffer bytes, len := 0 }
  if lp.sizeBytes < headerSize + 1 ∨ lp.window lp.endOffset lp.sizeBytes ≠ [terminator]
      ∨ lp.headerTotal ≠ lp.sizeBytes then none
  else
    match lp.countFrom? lp.sizeBytes headerSize 0 with
    | none => none
    | some count =>
      if lp.headerCount ≠ manyEntries ∧ lp.headerCount ≠ count then none
      else some { lp with len := count }

/-! ### Pushing and popping -/

/-- Appends the entry of a value to a block that goes into a buffer of `taken`
bytes, if there is one and it fits; counts the values that were stored. -/
def appendEntry (taken : Nat) (state : ByteArray × Nat) (value : Bytes) : ByteArray × Nat :=
  let (block, stored) := state
  let e := Entry.ofBytes value
  match e.size? with
  | none => (block, stored)
  | some size =>
    if taken + block.size + (size + Backlen.width size) ≤ maxBytes then
      (block ++ buffer e.encode, stored + 1)
    else (block, stored)

/-- The entries of values, in call order, as a block that goes into a buffer of
`taken` bytes, and how many values it stores. -/
def block (taken : Nat) (values : List Bytes) : ByteArray × Nat :=
  values.foldl (appendEntry taken) (.empty, 0)

/-- Where entries are appended: at the terminator, or behind the last byte of a
buffer without one. -/
def appendOffset (lp : Listpack) : Nat :=
  if lp.window lp.endOffset lp.sizeBytes = [terminator] then lp.endOffset else lp.sizeBytes

/-- Appends values at the back, in call order, and counts the stored ones. -/
def pushRight (lp : Listpack) (values : List Bytes) : Listpack × Nat :=
  let start := lp.appendOffset
  let (block, stored) := block (start + 1) values
  (sealed (splice lp.data start lp.sizeBytes (block.push terminator)) (lp.len + stored), stored)

/-- Sets values in front of the first entry, in call order, and counts the
stored ones. -/
def pushLeft (lp : Listpack) (values : List Bytes) : Listpack × Nat :=
  let (block, stored) := block lp.sizeBytes values
  if stored = 0 then (lp, 0)
  else (sealed (splice lp.data headerSize headerSize block) (lp.len + stored), stored)

/-- Cuts out one entry, which spans the bytes from `start` to before `stop`. -/
def cut (lp : Listpack) (start stop : Nat) : Listpack :=
  sealed (splice lp.data start stop .empty) (lp.len + (countRange - 1))

/-- Pushes values at an end, in call order, and counts the stored ones. -/
def push (lp : Listpack) : End → List Bytes → Listpack × Nat
  | .front, values => lp.pushLeft values
  | .back, values => lp.pushRight values

/-- The span of the entry at an end: its offset, and the offset after it. -/
def span? (lp : Listpack) : End → Option (Nat × Nat)
  | .front => lp.first?.bind fun pos => (lp.bodySizeAt? pos).map fun size => (pos, after pos size)
  | .back => lp.last?.map fun pos => (pos, lp.endOffset)

/-- The value at an end, and the listpack without it. -/
def pop? (lp : Listpack) (e : End) : Option (Bytes × Listpack) :=
  match lp.span? e with
  | none => none
  | some (start, stop) => (lp.get? start).map fun entry => (entry.text, lp.cut start stop)

end CompactStore.Listpack
