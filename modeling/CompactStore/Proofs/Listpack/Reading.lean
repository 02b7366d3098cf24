import CompactStore.Listpack.Edit
import CompactStore.Proofs.Listpack.Backlen
import CompactStore.Proofs.Listpack.Blocks

/-!
# Reading where a buffer is cut in two

A position is the length of what stands in front of it.  Going forward, what is read
there depends on the bytes behind it only, and going back on the bytes before it
only.  So each way to read is said of a buffer that is written as `front` and the
rest, with no word about how it came to be.
-/

namespace CompactStore.Listpack

open Entry (IsBlock)

variable {lp : Listpack} {front body tail rest : Bytes}

@[simp] theorem bytes_buffer (bytes : Bytes) : (buffer bytes).data.toList = bytes := by
  simp [buffer]

theorem length_bytes (lp : Listpack) : lp.bytes.length = lp.sizeBytes := rfl

/-- A window begins with the bytes that stand there. -/
theorem window_of_bytes (h : lp.bytes = front ++ rest) (size : Nat) :
    lp.window front.length (front.length + size) = rest.take size := by
  rw [window_eq, h, List.take_length_add_append, List.drop_left]

/-- The terminator is the last byte. -/
theorem endOffset_of_bytes (h : lp.bytes = front ++ rest) (hrest : rest ≠ []) :
    lp.endOffset + 1 = front.length + rest.length := by
  have hpos := List.length_pos_iff.mpr hrest
  rw [endOffset, ← length_bytes, h, List.length_append]
  omega

/-! ### Forward -/

/-- A size is read from the bytes behind a position, if it ends before the terminator. -/
theorem bodySizeAt?_eq_some_iff (h : lp.bytes = front ++ rest) {size : Nat} :
    lp.bodySizeAt? front.length = some size ↔
      Entry.bodySize? rest = some size ∧ front.length + size ≤ lp.endOffset := by
  rw [bodySizeAt?, window_of_bytes h, Entry.bodySize?_take, Option.filter_eq_some_iff,
    decide_eq_true_eq]

/-- A block has its size read where it starts. -/
theorem bodySizeAt?_of_bytes (h : lp.bytes = front ++ (body ++ rest)) (hbody : IsBlock body)
    (hrest : rest ≠ []) : lp.bodySizeAt? front.length = some body.length := by
  have hpos := List.length_pos_iff.mpr hrest
  have hend := endOffset_of_bytes h (by simp [hrest])
  rw [List.length_append] at hend
  exact (bodySizeAt?_eq_some_iff h).mpr ⟨hbody.bodySize?_append rest, by omega⟩

/-- **An entry is read where its body starts.** -/
theorem get?_of_bytes (h : lp.bytes = front ++ (body ++ rest)) {e : Entry}
    (hbody : Entry.IsBodyOf body e) (hrest : rest ≠ []) :
    lp.get? front.length = some e := by
  rw [get?, bodySizeAt?_of_bytes h (Entry.isBlock_iff.mpr hbody.1) hrest, Option.bind_some,
    window_of_bytes h, List.take_left, hbody.2]

/-- The first entry starts behind the header, unless the terminator stands there. -/
theorem first?_of_bytes (h : lp.bytes = front ++ rest) (hfront : front.length = headerSize) :
    lp.first? = if rest.take 1 = [terminator] then none else some headerSize := by
  rw [first?, ← hfront, window_of_bytes h]

/-- A step forward goes over the body and over the bytes that tell its size, unless
only the terminator stands behind them. -/
theorem next?_of_bytes (h : lp.bytes = front ++ (body ++ (tail ++ rest))) (hbody : IsBlock body)
    (htail : tail.length = Backlen.width body.length) (hrest : rest ≠ [])
    (hfront : headerSize ≤ front.length) :
    lp.next? front.length =
      if rest.length = 1 then none else some (front.length + body.length + tail.length) := by
  have hbehind := List.length_pos_iff.mpr hrest
  have hpos := hbody.length_bounds.1
  have hend := endOffset_of_bytes h (by simp [hrest])
  simp only [List.length_append] at hend
  have hinside : ¬(front.length < headerSize ∨ lp.endOffset ≤ front.length) := by omega
  rw [next?, if_neg hinside, bodySizeAt?_of_bytes h hbody (by simp [hrest]),
    Option.map_some, Option.filter_some, after, htail]
  by_cases hlast : rest.length = 1
  · rw [if_pos hlast, if_neg (by simp; omega)]
  · rw [if_neg hlast, if_pos (decide_eq_true (by omega))]

/-! ### Backward -/

/-- The size that stands before a position is the one that the front ends with. -/
theorem sizeBefore?_of_bytes (h : lp.bytes = front ++ rest) (start : Nat) :
    lp.sizeBefore? start front.length = Backlen.decode (front.drop start) := by
  have hdrop : max start (front.length - Backlen.maxWidth) =
      start + ((front.drop start).length - Backlen.maxWidth) := by
    rw [List.length_drop]
    omega
  rw [sizeBefore?, window_eq, h, List.take_left, hdrop, ← List.drop_drop, Backlen.decode_drop]

/-- A step backward goes over as many bytes as the size that is read and its width. -/
theorem prev?_of_bytes (h : lp.bytes = front ++ (body ++ tail) ++ rest)
    (htail : tail.length = Backlen.width body.length) (hrest : rest ≠ [])
    (hfront : headerSize ≤ front.length)
    (hread : Backlen.decode ((front ++ (body ++ tail)).drop headerSize) = some body.length) :
    lp.prev? (front ++ (body ++ tail)).length = some front.length := by
  have hbehind := List.length_pos_iff.mpr hrest
  have hwidth := Backlen.width_pos body.length
  have hend := endOffset_of_bytes h hrest
  have hlength : (front ++ (body ++ tail)).length =
      front.length + (body.length + Backlen.width body.length) := by
    rw [List.length_append, List.length_append, htail]
  have hinside : ¬((front ++ (body ++ tail)).length ≤ headerSize ∨
      lp.endOffset < (front ++ (body ++ tail)).length) := by omega
  rw [prev?, if_neg hinside, sizeBefore?_of_bytes h, hread]
  dsimp only
  rw [hlength, if_pos (by omega), Nat.add_sub_cancel]

/-- No step backward is made where no size can be read. -/
theorem prev?_eq_none (h : lp.bytes = front ++ rest)
    (hread : Backlen.decode (front.drop headerSize) = none) : lp.prev? front.length = none := by
  rw [prev?, sizeBefore?_of_bytes h, hread]
  split <;> rfl

end CompactStore.Listpack
