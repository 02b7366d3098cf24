import CompactStore.Proofs.Bounds.Checked
import CompactStore.Proofs.Listpack.Edit

/-!
# Bounds of listpacks

Every access to the buffer of a listpack, in a checked form: the bytes at a position, the
parts of an entry, the header that is written anew, and the bytes that a pop cuts out.
Reading is within its bounds at any position of any buffer that has a byte behind its
header.  Cutting asks for more, namely that an entry ends where the next one starts, so
`checkedPop_ofEntries` is about listpacks that pushes and pops make.
-/

namespace CompactStore

open Checked

namespace Entry

/-- The bytes of a body from one offset to before another. -/
def checkedSlice (body : Bytes) (start stop : Nat) : Checked Bytes := do
  require (start ≤ stop ∧ stop ≤ body.length) .slice
  return (body.take stop).drop start

/-- The string that is read from an offset on. -/
def checkedString (body : Bytes) (start : Nat) : Checked (Option Entry) := do
  return some (.str (← checkedSlice body start body.length))

/-- The integer that is read from behind the tag to before an offset. -/
def checkedInteger (body : Bytes) (stop : Nat) : Checked (Option Entry) := do
  return some (.int (signedValue (← checkedSlice body 1 stop)))

/-- The entry of a whole body. -/
def checkedOfBody : Bytes → Checked (Option Entry)
  | [] => .error .index
  | tag :: rest =>
    let body := tag :: rest
    if tag < 0x80 then .ok (some (.int tag.toNat))
    else if tag < 0xC0 then checkedString body 1
    else if 0xE0 ≤ tag ∧ tag < 0xF0 then checkedString body 2
    else if tag = 0xF1 then checkedInteger body 3
    else if tag = 0xF3 then checkedInteger body 5
    else if tag = 0xF4 then checkedInteger body 9
    else if tag = 0xF0 then checkedString body 5
    else .ok none

/-- The string of a body is behind its tag and its length. -/
theorem checkedString_eq {body : Bytes} {start : Nat} (h : start ≤ body.length) :
    checkedString body start = .ok (some (.str (body.drop start))) := by
  rw [checkedString, checkedSlice, require_eq ⟨h, Nat.le_refl _⟩, List.take_length]
  rfl

/-- The integer of a body is behind its tag. -/
theorem checkedInteger_eq {tag : UInt8} {payload : Bytes} {stop : Nat}
    (h : stop = payload.length + 1) :
    checkedInteger (tag :: payload) stop = .ok (some (.int (signedValue payload))) := by
  subst h
  rw [checkedInteger, checkedSlice, require_eq ⟨Nat.le_add_left _ _, Nat.le_refl _⟩,
    List.take_succ_cons, List.take_length]
  rfl

/-- **Reading a block** finds each part that its tag asks for. -/
theorem IsBlock.checkedOfBody_eq {body : Bytes} (h : IsBlock body) :
    checkedOfBody body = .ok (ofBody? body) := by
  cases h with
  | small htag => rw [checkedOfBody, ofBody?, if_pos htag, if_pos htag]
  | @short tag string hlow hhigh hlength =>
      have hlarge : ¬tag < 0x80 := UInt8.not_lt.mpr hlow
      rw [checkedOfBody, ofBody?, if_neg hlarge, if_neg hlarge, if_pos hhigh, if_pos hhigh,
        checkedString_eq (by simp)]
      rfl
  | @middle tag low string hlow hhigh hlength =>
      have hlarge : ¬tag < 0x80 := UInt8.not_lt.mpr (UInt8.le_trans (by decide) hlow)
      have hlong : ¬tag < 0xC0 := UInt8.not_lt.mpr (UInt8.le_trans (by decide) hlow)
      rw [checkedOfBody, ofBody?, if_neg hlarge, if_neg hlarge, if_neg hlong, if_neg hlong,
        if_pos ⟨hlow, hhigh⟩, if_pos ⟨hlow, hhigh⟩, checkedString_eq (by simp)]
      rfl
  | int16 hlength => exact checkedInteger_eq (by omega)
  | int32 hlength => exact checkedInteger_eq (by omega)
  | int64 hlength => exact checkedInteger_eq (by omega)
  | @long string hlength =>
      have hread : checkedOfBody (0xF0 :: (LittleEndian.bytes 4 string.length ++ string)) =
          checkedString (0xF0 :: (LittleEndian.bytes 4 string.length ++ string)) 5 := rfl
      rw [hread, checkedString_eq]
      · rfl
      · rw [List.length_cons, List.length_append, LittleEndian.length_bytes]
        omega

end Entry

namespace Listpack

/-! ### Reading -/

/-- The bytes from one offset to before another. -/
def checkedSlice (lp : Listpack) (start stop : Nat) : Checked Bytes := do
  require (start ≤ stop ∧ stop ≤ lp.sizeBytes) .slice
  return lp.window start stop

/-- The byte at an offset. -/
def checkedByte (lp : Listpack) (pos : Nat) : Checked Bytes := do
  require (pos < lp.sizeBytes) .index
  return lp.window pos (pos + 1)

/-- The offset of the terminator. -/
def checkedEndOffset (lp : Listpack) : Checked Nat :=
  sub lp.sizeBytes 1

/-- The size of the body of the entry at a position. -/
def checkedBodySizeAt (lp : Listpack) (pos : Nat) : Checked (Option Nat) := do
  let stop ← lp.checkedEndOffset
  return (Entry.bodySize? (lp.window pos (pos + Entry.headSize))).filter
    fun size => pos + size ≤ stop

/-- The entry at a position. -/
def checkedGet (lp : Listpack) (pos : Nat) : Checked (Option Entry) := do
  match ← lp.checkedBodySizeAt pos with
  | none => return none
  | some size =>
    let _ ← lp.checkedByte pos
    Entry.checkedOfBody (← lp.checkedSlice pos (pos + size))

/-- The position of the first entry. -/
def checkedFirst (lp : Listpack) : Checked (Option Nat) := do
  let byte ← lp.checkedByte headerSize
  return if byte = [terminator] then none else some headerSize

/-- The position of the entry after the one at `pos`. -/
def checkedNext (lp : Listpack) (pos : Nat) : Checked (Option Nat) := do
  let stop ← lp.checkedEndOffset
  if pos < headerSize ∨ stop ≤ pos then return none
  let size? ← lp.checkedBodySizeAt pos
  return (size?.map (after pos)).filter (· < stop)

/-- The position of the entry that ends before `pos`. -/
def checkedPrev (lp : Listpack) (pos : Nat) : Checked (Option Nat) := do
  let stop ← lp.checkedEndOffset
  if pos ≤ headerSize ∨ stop < pos then return none
  match Backlen.decode (← lp.checkedSlice (max headerSize (pos - Backlen.maxWidth)) pos) with
  | none => return none
  | some size =>
    let step := size + Backlen.width size
    return if headerSize + step ≤ pos then some (pos - step) else none

/-- The position of the last entry. -/
def checkedLast (lp : Listpack) : Checked (Option Nat) := do
  lp.checkedPrev (← lp.checkedEndOffset)

/-- The entries met from a position on, newest first in front of `seen`. -/
def checkedWalk (lp : Listpack) : Nat → Option Nat → List Entry → Checked (List Entry)
  | 0, _, seen => .ok seen
  | _, none, seen => .ok seen
  | fuel + 1, some pos, seen => do
    let next ← lp.checkedNext pos
    match ← lp.checkedGet pos with
    | none => return seen
    | some e => checkedWalk lp fuel next (e :: seen)

/-- The entries from front to back. -/
def checkedEntries (lp : Listpack) : Checked (List Entry) := do
  let first ← lp.checkedFirst
  return (← lp.checkedWalk lp.sizeBytes first []).reverse

variable {lp : Listpack} {pos start stop size : Nat}

/-- A slice inside of the buffer is the window. -/
theorem checkedSlice_eq (hstart : start ≤ stop) (hstop : stop ≤ lp.sizeBytes) :
    lp.checkedSlice start stop = .ok (lp.window start stop) := by
  rw [checkedSlice, require_eq ⟨hstart, hstop⟩]
  rfl

/-- A byte inside of the buffer is a window of one. -/
theorem checkedByte_eq (h : pos < lp.sizeBytes) :
    lp.checkedByte pos = .ok (lp.window pos (pos + 1)) := by
  rw [checkedByte, require_eq h]
  rfl

/-- A size that is told at a position is that of a block before the terminator. -/
theorem isBlock_of_bodySizeAt? (h : lp.bodySizeAt? pos = some size) :
    Entry.IsBlock (lp.window pos (pos + size)) ∧ pos + size ≤ lp.endOffset := by
  have hend : pos + size ≤ lp.endOffset :=
    of_decide_eq_true (Option.filter_eq_some_iff.mp h).2
  have hbytes : lp.bytes.length = lp.sizeBytes := length_bytes lp
  have hfront : (lp.bytes.take pos).length = pos := by
    rw [List.length_take, hbytes]
    rw [endOffset] at hend
    omega
  have hsplit : lp.bytes = lp.bytes.take pos ++ lp.bytes.drop pos :=
    (List.take_append_drop pos lp.bytes).symm
  have htold : lp.bodySizeAt? (lp.bytes.take pos).length = some size := by
    rw [hfront]
    exact h
  have hsize := (bodySizeAt?_eq_some_iff hsplit).mp htold
  have hwindow := window_of_bytes hsplit size
  rw [hfront] at hwindow
  rw [hwindow]
  refine ⟨Entry.isBlock_take hsize.1 ?_, hend⟩
  rw [List.length_drop, hbytes]
  rw [endOffset] at hend
  omega

section Reading

variable (h : headerSize < lp.sizeBytes)

include h

/-- The terminator is in the buffer. -/
theorem checkedEndOffset_eq : lp.checkedEndOffset = .ok lp.endOffset :=
  sub_eq (by omega)

/-- **The size of an entry** is read within the bounds, at any position. -/
theorem checkedBodySizeAt_eq (pos : Nat) :
    lp.checkedBodySizeAt pos = .ok (lp.bodySizeAt? pos) := by
  rw [checkedBodySizeAt, checkedEndOffset_eq h]
  rfl

/-- **An entry** is read within the bounds, at any position. -/
theorem checkedGet_eq (pos : Nat) : lp.checkedGet pos = .ok (lp.get? pos) := by
  rw [checkedGet, get?, checkedBodySizeAt_eq h, ok_bind]
  cases hsize : lp.bodySizeAt? pos with
  | none => rfl
  | some size =>
      obtain ⟨hblock, hend⟩ := isBlock_of_bodySizeAt? hsize
      have hinside : pos + size < lp.sizeBytes := by
        rw [endOffset] at hend
        omega
      dsimp only
      rw [checkedByte_eq (by omega), ok_bind, checkedSlice_eq (by omega) (by omega), ok_bind,
        hblock.checkedOfBody_eq]
      rfl

/-- The first position is found within the bounds. -/
theorem checkedFirst_eq : lp.checkedFirst = .ok lp.first? := by
  rw [checkedFirst, checkedByte_eq h]
  rfl

/-- **A step forward** stays within the bounds, from any position. -/
theorem checkedNext_eq (pos : Nat) : lp.checkedNext pos = .ok (lp.next? pos) := by
  rw [checkedNext, checkedEndOffset_eq h, ok_bind, next?, checkedBodySizeAt_eq h]
  split <;> rfl

/-- **A step backward** stays within the bounds, from any position. -/
theorem checkedPrev_eq (pos : Nat) : lp.checkedPrev pos = .ok (lp.prev? pos) := by
  rw [checkedPrev, checkedEndOffset_eq h, ok_bind, prev?]
  split
  · rfl
  · rename_i hout
    rw [endOffset] at hout
    rw [checkedSlice_eq (by omega) (by omega), ok_bind, sizeBefore?]
    cases Backlen.decode (lp.window (max headerSize (pos - Backlen.maxWidth)) pos) <;> rfl

/-- The last position is found within the bounds. -/
theorem checkedLast_eq : lp.checkedLast = .ok lp.last? := by
  rw [checkedLast, checkedEndOffset_eq h, ok_bind, checkedPrev_eq h, last?]

/-- **A walk forward** stays within the bounds, by induction on its steps. -/
theorem checkedWalk_eq (fuel : Nat) (pos? : Option Nat) (seen : List Entry) :
    lp.checkedWalk fuel pos? seen = .ok (lp.walk lp.next? fuel pos? seen) := by
  induction fuel generalizing pos? seen with
  | zero => rfl
  | succ fuel ih =>
      cases pos? with
      | none => rfl
      | some pos =>
          rw [checkedWalk, walk, checkedNext_eq h, ok_bind, checkedGet_eq h, ok_bind]
          cases lp.get? pos with
          | none => rfl
          | some e => exact ih _ _

/-- **Reading all entries** stays in the buffer. -/
theorem checkedEntries_eq : lp.checkedEntries = .ok lp.entries := by
  rw [checkedEntries, checkedFirst_eq h, ok_bind, checkedWalk_eq h]
  rfl

end Reading

/-! ### Writing -/

/-- A buffer under a header that fits it. -/
def checkedSeal (data : ByteArray) (count : Nat) : Checked Listpack := do
  require (headerSize ≤ data.size) .slice
  return sealed data count

/-- Appends the entry of a value to a block; the size at its end is written into five bytes. -/
def checkedAppendEntry (taken : Nat) (state : ByteArray × Nat) (value : Bytes) :
    Checked (ByteArray × Nat) :=
  let (block, stored) := state
  let e := Entry.ofBytes value
  match e.size? with
  | none => .ok (block, stored)
  | some size =>
    if taken + block.size + (size + Backlen.width size) ≤ maxBytes then do
      require (Backlen.width size ≤ Backlen.maxWidth) .slice
      return (block ++ buffer e.encode, stored + 1)
    else .ok (block, stored)

/-- The entries of values as a block. -/
def checkedBlock (taken : Nat) (values : List Bytes) : Checked (ByteArray × Nat) :=
  values.foldlM (checkedAppendEntry taken) (.empty, 0)

/-- Pushes values at an end. -/
def checkedPush (lp : Listpack) : End → List Bytes → Checked (Listpack × Nat)
  | .front, values => do
    let (block, stored) ← checkedBlock lp.sizeBytes values
    if stored = 0 then return (lp, 0)
    require (headerSize ≤ lp.sizeBytes) .slice
    return (← checkedSeal (splice lp.data headerSize headerSize block) (lp.len + stored), stored)
  | .back, values => do
    let start := lp.appendOffset
    let (block, stored) ← checkedBlock (start + 1) values
    let data := splice lp.data start lp.sizeBytes (block.push terminator)
    return (← checkedSeal data (lp.len + stored), stored)

/-- Cuts out the entry that spans the bytes from `start` to before `stop`. -/
def checkedCut (lp : Listpack) (start stop : Nat) : Checked Listpack := do
  require (start ≤ stop ∧ stop ≤ lp.sizeBytes) .slice
  let len ← sub lp.len 1
  checkedSeal (splice lp.data start stop .empty) len

/-- The span of the entry at an end. -/
def checkedSpan (lp : Listpack) : End → Checked (Option (Nat × Nat))
  | .front => do
    match ← lp.checkedFirst with
    | none => return none
    | some pos => return (← lp.checkedBodySizeAt pos).map fun size => (pos, after pos size)
  | .back => do
    match ← lp.checkedLast with
    | none => return none
    | some pos => return some (pos, ← lp.checkedEndOffset)

/-- The value at an end, and the listpack without it. -/
def checkedPop (lp : Listpack) (e : End) : Checked (Option (Bytes × Listpack)) := do
  match ← lp.checkedSpan e with
  | none => return none
  | some (start, stop) =>
    match ← lp.checkedGet start with
    | none => return none
    | some entry => return some (entry.text, ← lp.checkedCut start stop)

/-- A header is written where there is room for one. -/
theorem checkedSeal_eq {data : ByteArray} (h : headerSize ≤ data.size) (count : Nat) :
    checkedSeal data count = .ok (sealed data count) := by
  rw [checkedSeal, require_eq h]
  rfl

/-- Replacing a part of a buffer by a block changes its size by theirs. -/
theorem size_splice (data : ByteArray) (start stop : Nat) (block : ByteArray) :
    (splice data start stop block).size =
      min start data.size + block.size + (data.size - stop) := by
  have hlength := congrArg List.length (toList_splice data start stop block)
  simp only [List.length_append, List.length_take, List.length_drop, Array.length_toList] at hlength
  exact hlength

/-- The values of a push are put together within the bounds. -/
theorem checkedBlock_eq (taken : Nat) (values : List Bytes) :
    checkedBlock taken values = .ok (block taken values) := by
  apply foldlM_eq (P := fun _ => True) _ trivial
  intro state value _ _
  refine ⟨?_, trivial⟩
  rw [checkedAppendEntry, appendEntry]
  cases (Entry.ofBytes value).size? with
  | none => rfl
  | some size =>
      dsimp only
      rw [require_eq (Backlen.width_le size)]
      split <;> rfl

/-- **A push** finds the header and the place behind it. -/
theorem checkedPush_eq (h : headerSize < lp.sizeBytes) (e : End) (values : List Bytes) :
    lp.checkedPush e values = .ok (lp.push e values) := by
  have hsize : lp.data.size = lp.sizeBytes := rfl
  cases e with
  | front =>
      rw [checkedPush, push, pushLeft, checkedBlock_eq, ok_bind]
      dsimp only
      split
      · rfl
      · rw [require_eq (Nat.le_of_lt h), ok_bind, checkedSeal_eq]
        · rfl
        · rw [size_splice]
          omega
  | back =>
      rw [checkedPush, push, pushRight, checkedBlock_eq, ok_bind]
      dsimp only
      rw [checkedSeal_eq]
      · rfl
      · have hstart : headerSize ≤ lp.appendOffset := by
          rw [appendOffset, endOffset]
          split <;> omega
        rw [size_splice]
        omega

/-- Cutting out bytes behind the header leaves the header; one entry is there to be cut. -/
theorem checkedCut_eq (hheader : headerSize ≤ start) (hstart : start ≤ stop)
    (hstop : stop ≤ lp.sizeBytes) (hlen : 0 < lp.len) :
    lp.checkedCut start stop = .ok (lp.cut start stop) := by
  have hsize : lp.data.size = lp.sizeBytes := rfl
  have hcount : (lp.len + (countRange - 1)) % countRange = (lp.len - 1) % countRange := by
    have hsum : lp.len + (countRange - 1) = lp.len - 1 + countRange := by
      rw [countRange, word64]
      omega
    rw [hsum, Nat.add_mod_right]
  rw [checkedCut, require_eq ⟨hstart, hstop⟩, ok_bind, sub_eq hlen, ok_bind, checkedSeal_eq, cut,
    sealed, sealed, hcount]
  rw [size_splice]
  omega

/-- The entry at an end is found within the bounds. -/
theorem checkedSpan_eq (h : headerSize < lp.sizeBytes) (e : End) :
    lp.checkedSpan e = .ok (lp.span? e) := by
  cases e with
  | front =>
      rw [checkedSpan, span?, checkedFirst_eq h, ok_bind]
      cases lp.first? with
      | none => rfl
      | some pos =>
          dsimp only
          rw [checkedBodySizeAt_eq h]
          rfl
  | back =>
      rw [checkedSpan, span?, checkedLast_eq h, ok_bind]
      cases lp.last? with
      | none => rfl
      | some pos =>
          dsimp only
          rw [checkedEndOffset_eq h]
          rfl

/-! ### Listpacks of entries -/

variable {es : List Entry} {e : End}

/-- A canonical listpack has a terminator behind its header. -/
theorem headerSize_lt_ofEntries (es : List Entry) : headerSize < (ofEntries es).sizeBytes := by
  rw [sizeBytes_ofEntries, offset]
  omega

/-- The span of an entry lies between the header and the terminator. -/
theorem span?_bounds (h : Fits es) (hspan : (ofEntries es).span? e = some (start, stop)) :
    headerSize ≤ start ∧ start ≤ stop ∧ stop ≤ (ofEntries es).sizeBytes ∧
      0 < (ofEntries es).len := by
  obtain ⟨seen, rfl⟩ : ∃ seen, es = e.orient seen := ⟨e.orient es, by simp⟩
  cases seen with
  | nil =>
      rw [End.orient_nil, span?_ofEntries_nil] at hspan
      cases hspan
  | cons x rest =>
      obtain ⟨before, after, hall, -, hfound⟩ := span?_ofEntries e fun entry hentry =>
        h.encodable entry ((End.mem_orient e _ entry).mpr hentry)
      rw [hfound] at hspan
      cases hspan
      rw [hall, sizeBytes_ofEntries, len_ofEntries, offset, offset, offset]
      simp only [packed_append, packed_cons, packed_nil, List.length_append, List.length_cons,
        List.length_nil]
      omega

/-- **A pop** cuts out bytes that are there. -/
theorem checkedPop_ofEntries (h : Fits es) (e : End) :
    (ofEntries es).checkedPop e = .ok ((ofEntries es).pop? e) := by
  have hheader := headerSize_lt_ofEntries es
  rw [checkedPop, pop?, checkedSpan_eq hheader, ok_bind]
  cases hspan : (ofEntries es).span? e with
  | none => rfl
  | some span =>
      obtain ⟨start, stop⟩ := span
      obtain ⟨hbehind, hstart, hstop, hlen⟩ := span?_bounds h hspan
      dsimp only
      rw [checkedGet_eq hheader, ok_bind]
      cases (ofEntries es).get? start with
      | none => rfl
      | some entry =>
          dsimp only
          rw [checkedCut_eq hbehind hstart hstop hlen]
          rfl

end Listpack

end CompactStore
