import CompactStore.Proofs.Listpack.Format
import CompactStore.Proofs.Listpack.History

/-!
# What pushes and pops make can be loaded

After any operations, whatever was pushed, a listpack is that of the values which were kept.
Its bytes are written in the format that loading accepts, and the entries that loading counts
are those that the pushes counted.  So loading gives the listpack back: `ofBytes?_run`.

The buffer never grows past the length that four bytes can state, so the header states it
exactly.  A push looks at its values in call order.  It stores a value if and only if this
value has an entry which still fits, beside everything that is stored by then and the
terminator; a value that is skipped stops no later one.

One end takes its block up against a buffer whose terminator is stripped, the other against
the whole buffer.  `admitted` asks the same of both, in terms of what a push of the values in
front leaves: `run_limit`.
-/

namespace CompactStore.Listpack

open Deque

variable {es : List Entry}

/-- The listpack of entries is framed by what they take up. -/
theorem framed_ofEntries (h : Fits es) :
    Framed (ofEntries es).bytes (es.pmap Chunk.write h.encodable) := by
  have hlength : (ofEntries es).bytes.length = offset es + 1 := by
    rw [length_bytes, sizeBytes_ofEntries]
  have hsize := h.size_le
  refine ⟨min es.length manyEntries, ?_, ?_, ?_, ?_⟩
  · rw [hlength]
    unfold maxBytes at hsize
    omega
  · exact Nat.lt_of_le_of_lt (Nat.min_le_right _ _) (by decide)
  · rw [List.length_pmap]
    unfold manyEntries
    omega
  · rw [hlength, bytes_ofEntries, Chunk.join_write, header, List.append_assoc]

/-- The chunks of entries are written as the format has them. -/
theorem Chunk.isWritten_write (h : ∀ e ∈ es, e.Encodable) :
    ∀ c ∈ es.pmap Chunk.write h, c.IsWritten := by
  intro c hc
  obtain ⟨e, he, rfl⟩ := List.mem_pmap.mp hc
  rfl

/-- **A canonical listpack is loaded from its bytes.** -/
theorem ofBytes?_ofEntries (h : Fits es) : ofBytes? (ofEntries es).bytes = some (ofEntries es) := by
  have hread : ReadBack ((ofEntries es).bytes.take headerSize) (es.pmap Chunk.write h.encodable) :=
    readBack_of_isWritten (Chunk.isWritten_write h.encodable)
  refine ofBytes?_eq_some_iff.mpr ⟨_, framed_ofEntries h, hread, ?_⟩
  apply ext_bytes
  · exact (bytes_buffer _).symm
  · exact (List.length_pmap).symm

/-- The count that a canonical header states. -/
theorem headerCount_ofEntries (es : List Entry) :
    (ofEntries es).headerCount = min es.length manyEntries := by
  have hheader : (ofEntries es).bytes.take headerSize = header (offset es + 1) es.length := by
    rw [bytes_ofEntries, List.append_assoc]
    exact List.take_left' (length_header _ _)
  have hsmall : min es.length manyEntries < 256 ^ 2 :=
    Nat.lt_of_le_of_lt (Nat.min_le_right _ _) (by decide)
  rw [headerCount, window_eq, hheader, header, List.drop_left' (LittleEndian.length_bytes _ _),
    LittleEndian.value_bytes, Nat.mod_eq_of_lt hsmall]

/-- **Loading undoes writing out.**  Whatever was pushed and popped, the bytes of the listpack
load as this listpack.  Its count is exact, although the header states 65535 from there on. -/
theorem ofBytes?_run (ops : List Operation) :
    ofBytes? (run apply empty ops).1.bytes = some (run apply empty ops).1 ∧
      (run apply empty ops).1.len = (kept ops).length ∧
      (run apply empty ops).1.headerCount = min (kept ops).length 65535 := by
  obtain ⟨hrun, hfits⟩ := run_empty ops
  rw [hrun]
  refine ⟨ofBytes?_ofEntries hfits, ?_, ?_⟩
  · rw [len_ofEntries, List.length_map]
  · rw [headerCount_ofEntries, List.length_map]
    rfl

/-! ### What is stored -/

/-- The values of a block that find room: each has an entry which fits the listpack that the
values in front of it leave when they are pushed. -/
def admitted (lp : Listpack) (e : End) (block : List Bytes) : List Bytes :=
  (block.zipIdx.filter fun p => admits (lp.push e (block.take p.2)).1.sizeBytes p.1).map Prod.fst

/-! ### One more value at the end of a block -/

/-- One more value is admitted if it fits what a push of the others leaves. -/
theorem admitted_concat (lp : Listpack) (e : End) (block : List Bytes) (value : Bytes) :
    lp.admitted e (block ++ [value]) =
      lp.admitted e block ++
        if admits (lp.push e block).1.sizeBytes value then [value] else [] := by
  have hfront : ∀ p ∈ block.zipIdx, (block ++ [value]).take p.2 = block.take p.2 := by
    intro p hp
    have hlt := List.snd_lt_of_mem_zipIdx hp
    exact List.take_append_of_le_length (by omega)
  have hsame : (block.zipIdx.filter fun p =>
        admits (lp.push e ((block ++ [value]).take p.2)).1.sizeBytes p.1) =
      block.zipIdx.filter fun p => admits (lp.push e (block.take p.2)).1.sizeBytes p.1 :=
    List.filter_congr fun p hp => by rw [hfront p hp]
  have hlast : (block ++ [value]).take (0 + block.length) = block := by
    rw [Nat.zero_add, List.take_left]
  rw [admitted, List.zipIdx_append, List.filter_append, List.map_append, hsame, admitted,
    List.zipIdx_singleton, List.filter_cons, List.filter_nil, hlast]
  split <;> rfl

/-- One more value is stored if it fits beside the others. -/
theorem stored_concat (taken : Nat) (block : List Bytes) (value : Bytes) :
    stored taken (block ++ [value]) =
      stored taken block ++
        if admits (taken + (packed ((stored taken block).map Entry.ofBytes)).length) value
          then [value] else [] := by
  induction block generalizing taken with
  | nil => simp [stored]
  | cons first rest ih =>
      rw [List.cons_append, stored, stored]
      split
      · rw [ih, List.map_cons, packed_cons, List.length_append, Nat.add_assoc, List.cons_append]
      · exact ih taken

/-- What a push takes up of the buffer is what its stored values take up. -/
theorem sizeBytes_push_ofEntries (h : Fits es) (e : End) (block : List Bytes) :
    ((ofEntries es).push e block).1.sizeBytes =
      offset es + 1 + (packed ((stored (offset es + 1) block).map Entry.ofBytes)).length := by
  rw [push_ofEntries h, sizeBytes_ofEntries]
  cases e <;> simp only [End.attach, offset, packed_append, List.length_append] <;> omega

/-- **Both ends store what finds room.** -/
theorem stored_eq_admitted (h : Fits es) (e : End) (block : List Bytes) :
    stored (offset es + 1) block = (ofEntries es).admitted e block := by
  induction block using List.reverseRecOn with
  | nil => rfl
  | append_singleton block value ih =>
      rw [stored_concat, admitted_concat, sizeBytes_push_ofEntries h, ih]

/-! ### The whole buffer -/

/-- The length that a canonical header states. -/
theorem headerTotal_ofEntries (h : Fits es) :
    (ofEntries es).headerTotal = (ofEntries es).sizeBytes := by
  have hheader : (ofEntries es).bytes.take 4 = LittleEndian.bytes 4 (offset es + 1) := by
    rw [bytes_ofEntries, header]
    simp only [List.append_assoc]
    exact List.take_left' (LittleEndian.length_bytes _ _)
  have hsmall : offset es + 1 < 256 ^ 4 := Nat.lt_of_le_of_lt h.size_le (by decide)
  rw [headerTotal, window_eq, List.drop_zero, hheader, LittleEndian.value_bytes,
    Nat.mod_eq_of_lt hsmall, sizeBytes_ofEntries]

/-- The values of a canonical listpack are those that it was made of. -/
theorem values_ofEntries_map {values : List Bytes} (h : Fits (values.map Entry.ofBytes)) :
    (ofEntries (values.map Entry.ofBytes)).values = values := by
  rw [Listpack.values, entries_ofEntries h.encodable, List.map_map]
  simp only [Function.comp_def, Entry.text_ofBytes, List.map_id']

/-- **The total never wraps and skipping is precise.**  After any pushes and pops the buffer
has a length that a header can state, and the header states it.  A push sets those values at
its end that find room, in call order, grows the buffer by their bytes, and counts them. -/
theorem run_limit (ops : List Operation) :
    let lp := (run apply empty ops).1
    lp.sizeBytes ≤ word32 - 1 ∧ lp.headerTotal = lp.sizeBytes ∧
      ∀ e block,
        (lp.push e block).1.values = e.attach (lp.admitted e block) lp.values ∧
        (lp.push e block).1.sizeBytes =
          lp.sizeBytes + ((lp.admitted e block).flatMap valueBytes).length ∧
        (lp.push e block).2 = (lp.admitted e block).length ∧
        (lp.push e block).1.len = lp.len + (lp.push e block).2 := by
  obtain ⟨hrun, hfits⟩ := run_empty ops
  rw [hrun]
  generalize kept ops = values at hfits
  dsimp only
  refine ⟨?_, headerTotal_ofEntries hfits, ?_⟩
  · rw [sizeBytes_ofEntries]
    exact hfits.size_le
  intro e block
  have hpush := push_ofEntries hfits e block
  have hnext := hfits.attach_stored e block
  have hsize := sizeBytes_push_ofEntries hfits e block
  rw [stored_eq_admitted hfits e block] at hpush hnext hsize
  rw [← End.map_attach] at hpush hnext
  rw [packed_map_ofBytes] at hsize
  refine ⟨?_, ?_, ?_, ?_⟩
  · rw [hpush, values_ofEntries_map hnext, values_ofEntries_map hfits]
  · rw [hsize, sizeBytes_ofEntries]
  · rw [hpush]
  · rw [hpush, len_ofEntries, len_ofEntries, List.length_map, End.length_attach, List.length_map,
      Nat.add_comm]

end CompactStore.Listpack
