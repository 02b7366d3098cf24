import CompactStore.Proofs.Listpack.Edit

/-!
# An entry in any context

Four functions cut a value into the same cases: one tells the size of its entry, one writes
the entry, one learns the size of the body from its first bytes, and one reads the body.  The
size of the body stands behind it, to be read from the end.

Here an entry stands in a buffer between any other bytes, which need not be entries at all:
there may be tags, terminators and flagged groups in front of it and behind it.  All functions
agree about this entry nevertheless: `codec_agrees`.
-/

namespace CompactStore.Listpack

/-- Everything that tells a size or a value agrees about the entry of a value that starts at
a position. -/
structure Agrees (lp : Listpack) (value : Bytes) (start bodySize : Nat) : Prop where
  /-- The size of the body is told in advance, and with the bytes that tell it, that of the
  entry, which is as long as that. -/
  size?_eq : (Entry.ofBytes value).size? = some bodySize
  encodedSize?_eq : Entry.encodedSize? value = some (bodySize + Backlen.width bodySize)
  length_encode : (Entry.ofBytes value).encode.length = bodySize + Backlen.width bodySize
  /-- The bytes of the entry stand from its start to its end. -/
  window_eq : lp.window start (after start bodySize) = (Entry.ofBytes value).encode
  /-- From the start on, the size and the value are read. -/
  bodySizeAt?_eq : lp.bodySizeAt? start = some bodySize
  get?_eq : lp.get? start = some (Entry.ofBytes value)
  text_eq : (lp.get? start).map Entry.text = some value
  /-- From the end back, the size is read, however far back one may look. -/
  sizeBefore?_eq : ∀ low ≤ start + bodySize,
    lp.sizeBefore? low (after start bodySize) = some bodySize
  /-- It is told by the bytes behind the body, of which there are five at most: whatever
  stands in front of them instead, they are read in the same way. -/
  width_le : Backlen.width bodySize ≤ 5
  length_tail : (lp.window (start + bodySize) (after start bodySize)).length =
    Backlen.width bodySize
  decode_eq : ∀ front,
    Backlen.decode (front ++ lp.window (start + bodySize) (after start bodySize)) = some bodySize

variable {lp : Listpack} {head before rest value : Bytes} {size : Nat}

/-- An entry agrees wherever it stands in a buffer, as long as something stands behind it. -/
theorem agrees_of_bytes {front : Bytes} (h : (Entry.ofBytes value).Encodable)
    (hbytes : lp.bytes = front ++ ((Entry.ofBytes value).encode ++ rest)) (hrest : rest ≠ []) :
    lp.Agrees value front.length (Entry.ofBytes value).body.length := by
  generalize hentry : Entry.ofBytes value = e at h hbytes
  have hlength : e.encode.length = e.body.length + Backlen.width e.body.length :=
    Entry.length_encode e
  have hsplit : lp.bytes = front ++ (e.body ++ (Backlen.encode e.body.length ++ rest)) := by
    rw [hbytes, Entry.encode, List.append_assoc]
  have hbehind : lp.bytes = (front ++ e.body) ++ (Backlen.encode e.body.length ++ rest) := by
    rw [hsplit, List.append_assoc]
  have hend : lp.bytes = (front ++ e.encode) ++ rest := by rw [hbytes, List.append_assoc]
  have hstop : after front.length e.body.length = (front ++ e.encode).length := by
    rw [List.length_append, hlength, after, Nat.add_assoc]
  have htail : lp.window (front.length + e.body.length) (after front.length e.body.length) =
      Backlen.encode e.body.length := by
    have hwindow := window_of_bytes hbehind (Backlen.width e.body.length)
    rw [List.length_append, ← Backlen.length_encode, List.take_left] at hwindow
    rwa [after, ← Backlen.length_encode]
  have hget : lp.get? front.length = some e :=
    get?_of_bytes hsplit h.isBodyOf (by simp [hrest])
  have hsize : (Entry.ofBytes value).size? = some e.body.length := by
    rw [(Entry.size?_ofBytes value).1 (hentry ▸ h), hentry]
  subst hentry
  constructor
  case size?_eq => exact hsize
  case encodedSize?_eq => rw [Entry.encodedSize?, hsize, Option.map_some]
  case length_encode => exact hlength
  case window_eq =>
    rw [hstop, List.length_append, window_of_bytes hbytes, List.take_left]
  case bodySizeAt?_eq => exact bodySizeAt?_of_bytes hsplit h.isBlock (by simp [hrest])
  case get?_eq => exact hget
  case text_eq => rw [hget, Option.map_some, Entry.text_ofBytes]
  case sizeBefore?_eq =>
    intro low hlow
    rw [hstop, sizeBefore?_of_bytes hend, Entry.encode, ← List.append_assoc,
      List.drop_append_of_le_length (by rw [List.length_append]; exact hlow)]
    exact Backlen.decode_append_encode h.length_body_lt _
  case width_le => exact Backlen.width_le _
  case length_tail => rw [htail, Backlen.length_encode]
  case decode_eq =>
    intro other
    rw [htail]
    exact Backlen.decode_append_encode h.length_body_lt other

/-- **The codec of entries agrees with itself in every context.**  The entry of a value stands
in a buffer behind a header and any bytes, and in front of any bytes and the terminator.  Then
the size that is told in advance is that of the bytes that are written, and all that is read
at its start and from its end is this size and this value. -/
theorem codec_agrees {behind : Bytes} (hsize : Entry.encodedSize? value = some size)
    (hhead : head.length = headerSize)
    (hbytes : lp.bytes = head ++ before ++ (Entry.ofBytes value).encode ++ behind ++ [terminator]) :
    ∃ bodySize, size = bodySize + Backlen.width bodySize ∧
      lp.Agrees value (headerSize + before.length) bodySize := by
  obtain ⟨hencodable, rfl⟩ := Entry.encodedSize?_eq_some_iff.mp hsize
  have hfront : lp.bytes =
      (head ++ before) ++ ((Entry.ofBytes value).encode ++ (behind ++ [terminator])) := by
    rw [hbytes]
    simp only [List.append_assoc]
  have hagrees := agrees_of_bytes hencodable hfront (by simp)
  rw [List.length_append, hhead] at hagrees
  exact ⟨_, Entry.length_encode _, hagrees⟩

/-- The text of minus one, between bytes that look like flags, a tag and terminators. -/
theorem codec_agrees_minus_one :
    Entry.encodedSize? [0x2D, 0x31] = some 4 ∧ ∃ bodySize, 4 = bodySize + Backlen.width bodySize ∧
      Agrees ⟨buffer [7, 0, 0, 0, 1, 0, 0xFF, 0x81, 0xF1, 0xFF, 0xFF, 0x03, 0x80, 0xF4, 0xFF], 1⟩
        [0x2D, 0x31] 8 bodySize := by
  have hsize : Entry.encodedSize? [0x2D, 0x31] = some 4 := by decide
  have hbytes : bytes
      ⟨buffer [7, 0, 0, 0, 1, 0, 0xFF, 0x81, 0xF1, 0xFF, 0xFF, 0x03, 0x80, 0xF4, 0xFF], 1⟩ =
      [7, 0, 0, 0, 1, 0] ++ [0xFF, 0x81] ++ (Entry.ofBytes [0x2D, 0x31]).encode ++ [0x80, 0xF4]
        ++ [terminator] := by decide
  exact ⟨hsize, codec_agrees hsize rfl hbytes⟩

end CompactStore.Listpack
