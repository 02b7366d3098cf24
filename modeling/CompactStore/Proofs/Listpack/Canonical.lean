import CompactStore.Proofs.Listpack.Tiling
import Mathlib.Data.List.Flatten

/-!
# The canonical listpack of entries

`ofEntries es` is the buffer that holds the entries `es` and nothing else, under
a header that fits.  In it every position that starts an entry is `offset before`
for the entries before it, and from there the entry is read and stepped back over
exactly.  What the payloads look like never matters: a size is read from the tag
where an entry starts, and a step backward reads the size that this entry ends
with.  The buffer is tiled by what its entries take up, so they are all read.
-/

namespace CompactStore.Listpack

/-- The bytes of entries, one after the other. -/
def packed (es : List Entry) : Bytes :=
  es.flatMap Entry.encode

/-- The position behind entries that start at the first position. -/
def offset (before : List Entry) : Nat :=
  headerSize + (packed before).length

/-- The listpack that holds these entries and nothing else. -/
def ofEntries (es : List Entry) : Listpack where
  data := buffer (header (offset es + 1) es.length ++ packed es ++ [terminator])
  len := es.length

/-- Entries that can all be written, in a buffer whose length a header can
state. -/
structure Fits (es : List Entry) : Prop where
  encodable : ∀ e ∈ es, e.Encodable
  size_le : offset es + 1 ≤ maxBytes

/-- No entries take up no bytes. -/
@[simp] theorem packed_nil : packed [] = [] := by
  rw [packed, List.flatMap_nil]

/-- The first entry stands in front of the others. -/
@[simp] theorem packed_cons (e : Entry) (es : List Entry) :
    packed (e :: es) = e.encode ++ packed es := rfl

@[simp] theorem packed_append (es fs : List Entry) :
    packed (es ++ fs) = packed es ++ packed fs := by
  simp [packed]

/-- One more entry takes up its own bytes. -/
theorem offset_append_singleton (before : List Entry) (e : Entry) :
    offset (before ++ [e]) = offset before + e.encode.length := by
  simp [offset, Nat.add_assoc]

/-- An entry takes two bytes at least. -/
theorem two_le_length_encode (e : Entry) : 2 ≤ e.encode.length := by
  have hbody := Entry.length_body_pos e
  have hwidth := Backlen.width_pos e.body.length
  rw [Entry.length_encode]
  omega

/-- Every entry takes up two bytes at least. -/
theorem length_le_length_packed (es : List Entry) : 2 * es.length ≤ (packed es).length := by
  induction es with
  | nil => simp
  | cons e es ih =>
      have he := two_le_length_encode e
      rw [packed_cons, List.length_append, List.length_cons]
      omega

/-- A listpack whose length a header can state has far fewer entries than a
count can state. -/
theorem Fits.length_lt {es : List Entry} (h : Fits es) : es.length < countRange := by
  have hpacked := length_le_length_packed es
  have hsize := h.size_le
  unfold offset maxBytes word32 at hsize
  unfold countRange word64
  omega

/-- Fewer entries fit where more did. -/
theorem Fits.sublist {es fs : List Entry} (h : Fits es) (hsub : fs.Sublist es) : Fits fs := by
  constructor
  · intro e he
    exact h.encodable e (hsub.subset he)
  · have hlength : (packed fs).length ≤ (packed es).length := (hsub.flatMap Entry.encode).length_le
    have hsize := h.size_le
    unfold offset at hsize ⊢
    omega

/-! ### The buffer -/

/-- Two listpacks with the same bytes and the same count are the same. -/
theorem ext_bytes {lp other : Listpack} (hbytes : lp.bytes = other.bytes)
    (hlen : lp.len = other.len) : lp = other := by
  obtain ⟨data, len⟩ := lp
  obtain ⟨data', len'⟩ := other
  have hdata : data = data' := ByteArray.ext (Array.toList_inj.mp hbytes)
  obtain rfl : len = len' := hlen
  rw [hdata]

/-- The bytes of a canonical listpack are its header, its entries and the terminator. -/
theorem bytes_ofEntries (es : List Entry) :
    (ofEntries es).bytes = header (offset es + 1) es.length ++ packed es ++ [terminator] :=
  bytes_buffer _

@[simp] theorem len_ofEntries (es : List Entry) : (ofEntries es).len = es.length := rfl

/-- A canonical listpack ends one byte behind its entries. -/
@[simp] theorem sizeBytes_ofEntries (es : List Entry) :
    (ofEntries es).sizeBytes = offset es + 1 := by
  rw [← length_bytes, bytes_ofEntries]
  simp [offset, Nat.add_assoc]

/-- Its terminator is right behind its entries. -/
@[simp] theorem endOffset_ofEntries (es : List Entry) : (ofEntries es).endOffset = offset es := by
  simp [endOffset]

/-- A listpack without entries is the one that is made empty. -/
theorem ofEntries_nil : ofEntries [] = empty := rfl

/-- A buffer of entries is cut in two where an entry starts. -/
theorem exists_front (before after : List Entry) :
    ∃ front, (ofEntries (before ++ after)).bytes = front ++ (packed after ++ [terminator]) ∧
      front.length = offset before := by
  refine ⟨header (offset (before ++ after) + 1) (before ++ after).length ++ packed before, ?_, ?_⟩
  · rw [bytes_ofEntries, packed_append]
    simp only [List.append_assoc]
  · rw [List.length_append, length_header, offset]

/-- From a position that starts an entry the buffer holds the entries from there
on and the terminator. -/
theorem bytes_drop_offset (before after : List Entry) :
    (ofEntries (before ++ after)).bytes.drop (offset before) = packed after ++ [terminator] := by
  obtain ⟨front, hbytes, hfront⟩ := exists_front before after
  rw [hbytes, ← hfront, List.drop_left]

/-- A window from a position that starts an entry. -/
theorem window_offset (before after : List Entry) (size : Nat) :
    (ofEntries (before ++ after)).window (offset before) (offset before + size) =
      (packed after ++ [terminator]).take size := by
  obtain ⟨front, hbytes, hfront⟩ := exists_front before after
  rw [← hfront, window_of_bytes hbytes]

/-! ### Reading at a position -/

variable {before after : List Entry} {e : Entry}

/-- Where an entry starts, the buffer holds its body, the length of the body and
the entries behind it. -/
theorem exists_front_cons (before after : List Entry) (e : Entry) :
    ∃ front, (ofEntries (before ++ e :: after)).bytes =
        front ++ (e.body ++ (Backlen.encode e.body.length ++ (packed after ++ [terminator]))) ∧
      front.length = offset before := by
  obtain ⟨front, hbytes, hfront⟩ := exists_front before (e :: after)
  refine ⟨front, ?_, hfront⟩
  rw [hbytes, packed_cons, Entry.encode]
  simp only [List.append_assoc]

/-- The size of an entry is read where it starts. -/
theorem bodySizeAt?_offset (before after : List Entry) (h : e.Encodable) :
    (ofEntries (before ++ e :: after)).bodySizeAt? (offset before) = some e.body.length := by
  obtain ⟨front, hbytes, hfront⟩ := exists_front_cons before after e
  rw [← hfront, bodySizeAt?_of_bytes hbytes h.isBlock (by simp)]

/-- **An entry is read where it starts.** -/
theorem get?_offset (h : e.Encodable) :
    (ofEntries (before ++ e :: after)).get? (offset before) = some e := by
  obtain ⟨front, hbytes, hfront⟩ := exists_front_cons before after e
  rw [← hfront, get?_of_bytes hbytes h.isBodyOf (by simp)]

/-- Behind an entry the next one starts. -/
theorem after_offset (before : List Entry) (e : Entry) :
    Listpack.after (offset before) e.body.length = offset (before ++ [e]) := by
  rw [offset_append_singleton, Entry.length_encode, Listpack.after, Nat.add_assoc]

/-- **A step forward** goes from the start of an entry to behind it, where the next one
starts if there is one. -/
theorem next?_offset (h : e.Encodable) :
    (ofEntries (before ++ e :: after)).next? (offset before) =
      if after = [] then none else some (offset (before ++ [e])) := by
  obtain ⟨front, hbytes, hfront⟩ := exists_front_cons before after e
  have hheader : headerSize ≤ front.length := by
    rw [hfront, offset]
    omega
  have hlast : (packed after ++ [terminator]).length = 1 ↔ after = [] := by
    have hpacked := length_le_length_packed after
    rw [List.length_append, List.length_singleton]
    constructor
    · intro hone
      exact List.eq_nil_of_length_eq_zero (by omega)
    · rintro rfl
      rfl
  have hbehind : front.length + e.body.length + (Backlen.encode e.body.length).length =
      offset (before ++ [e]) := by
    rw [offset_append_singleton, hfront, Entry.encode, List.length_append, Nat.add_assoc]
  have hstep := next?_of_bytes hbytes h.isBlock (Backlen.length_encode _) (by simp) hheader
  simp only [hlast, hbehind] at hstep
  rw [← hfront]
  exact hstep

/-- The first entry is found behind the header. -/
theorem first?_ofEntries (h : e.Encodable) (after : List Entry) :
    (ofEntries (e :: after)).first? = some (offset []) := by
  obtain ⟨front, hbytes, hfront⟩ := exists_front_cons [] after e
  exact (first?_of_bytes hbytes hfront).trans (if_neg (h.isBlock.take_one_ne _))

/-- **A step backward** goes from behind an entry to its start. -/
theorem prev?_offset (h : e.Encodable) :
    (ofEntries (before ++ e :: after)).prev? (offset (before ++ [e])) = some (offset before) := by
  obtain ⟨front, hbytes, hfront⟩ := exists_front_cons before after e
  have hheader : headerSize ≤ front.length := by
    rw [hfront, offset]
    omega
  have hbehind : (front ++ (e.body ++ Backlen.encode e.body.length)).length =
      offset (before ++ [e]) := by
    rw [offset_append_singleton, List.length_append, hfront, Entry.encode]
  have hread : Backlen.decode
      ((front ++ (e.body ++ Backlen.encode e.body.length)).drop headerSize) =
        some e.body.length := by
    rw [List.drop_append_of_le_length hheader, ← List.append_assoc,
      Backlen.decode_append_encode h.length_body_lt]
  have hcut : (ofEntries (before ++ e :: after)).bytes =
      front ++ (e.body ++ Backlen.encode e.body.length) ++ (packed after ++ [terminator]) := by
    rw [hbytes]
    simp only [List.append_assoc]
  rw [← hbehind, ← hfront]
  exact prev?_of_bytes hcut (Backlen.length_encode _) (by simp) hheader hread

/-- The last entry is found from the end. -/
theorem last?_ofEntries (h : e.Encodable) :
    (ofEntries (before ++ [e])).last? = some (offset before) := by
  rw [last?, endOffset_ofEntries]
  exact prev?_offset h

/-- Without entries there is no last position. -/
theorem last?_ofEntries_nil : (ofEntries []).last? = none := by
  rw [last?, endOffset_ofEntries]
  rfl

/-! ### Reading all entries -/

/-- What an entry takes up. -/
def Chunk.write (e : Entry) (h : e.Encodable) : Chunk where
  body := e.body
  tail := Backlen.encode e.body.length
  isBlock := h.isBlock
  length_tail := Backlen.length_encode _

/-- What is written for an entry is read as this entry. -/
theorem Chunk.entry_write (h : e.Encodable) : (Chunk.write e h).entry = e := by
  rw [Chunk.entry, Chunk.write, h.ofBody?_body, Option.getD_some]

/-- The chunks of the entries take up the bytes of the entries. -/
theorem Chunk.join_write {es : List Entry} (h : ∀ e ∈ es, e.Encodable) :
    Chunk.join (es.pmap Chunk.write h) = packed es := by
  induction es with
  | nil => rfl
  | cons e es ih => rw [List.pmap_cons, Chunk.join_cons, ih, packed_cons, Entry.encode]; rfl

/-- A listpack of entries is tiled by what they take up. -/
theorem tiled_ofEntries {es : List Entry} (h : ∀ e ∈ es, e.Encodable) :
    Tiled (ofEntries es) (header (offset es + 1) es.length) (es.pmap Chunk.write h) := by
  refine ⟨?_, length_header _ _⟩
  rw [Chunk.join_write, bytes_ofEntries, List.append_assoc]

/-- The chunks of the entries are read as the entries. -/
theorem Chunk.map_entry_write {es : List Entry} (h : ∀ e ∈ es, e.Encodable) :
    (es.pmap Chunk.write h).map Chunk.entry = es := by
  rw [List.map_pmap]
  simp only [Chunk.entry_write, List.pmap_eq_map, List.map_id']

/-- **The entries of a listpack that was made of entries are these entries.** -/
@[simp] theorem entries_ofEntries {es : List Entry} (h : ∀ e ∈ es, e.Encodable) :
    (ofEntries es).entries = es := by
  rw [(tiled_ofEntries h).entries_eq, Chunk.map_entry_write]

end CompactStore.Listpack
