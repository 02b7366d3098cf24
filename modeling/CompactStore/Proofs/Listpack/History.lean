import CompactStore.Proofs.Listpack.Edit
import CompactStore.Proofs.Listpack.Shortest

/-!
# A listpack forgets its history

`layout values` is the byte string of a listpack that holds these values.  A push
skips the values that have no entry or do not fit any more: `keep` is what an
operation makes of the values that are held, with no word about bytes, and after
any operations the listpack is that of the values which were kept, `run_empty`.

As long as the layouts of all contents on the way have lengths that a header can
state, nothing is skipped.  Then the buffer is the layout of its contents after
any operations, and every operation answers as it does on a plain sequence:
`run_eq_layout`.  So two histories with the same contents leave the same bytes.
-/

namespace CompactStore.Listpack

open Deque

/-- The bytes of a value in a listpack: the body of its entry and the size of
this body. -/
def valueBytes (value : Bytes) : Bytes :=
  (Entry.ofBytes value).body ++ Backlen.encode (Entry.ofBytes value).body.length

/-- The bytes of a listpack that holds these values. -/
def layout (values : List Bytes) : Bytes :=
  LittleEndian.bytes 4 (7 + (values.flatMap valueBytes).length)
    ++ LittleEndian.bytes 2 (min values.length 65535)
    ++ values.flatMap valueBytes
    ++ [0xFF]

/-- Operations on a sequence of values after each of which the layout of the
contents has a length that a header can state. -/
def StaysWithin (values : List Bytes) (ops : List Operation) : Prop :=
  ∀ n ≤ ops.length, (layout (run step values (ops.take n)).1).length ≤ maxBytes

instance (values : List Bytes) (ops : List Operation) : Decidable (StaysWithin values ops) :=
  inferInstanceAs (Decidable (∀ n ≤ ops.length, _))

/-- An operation on a listpack. -/
def apply (lp : Listpack) : Operation → Listpack × Answer
  | .push e values =>
    let (lp, count) := lp.push e values
    (lp, .stored count)
  | .pop e =>
    match lp.pop? e with
    | none => (lp, .taken none)
    | some (value, lp) => (lp, .taken (some value))

/-- The entries of values take up the bytes of the values. -/
theorem packed_map_ofBytes (values : List Bytes) :
    packed (values.map Entry.ofBytes) = values.flatMap valueBytes := by
  rw [packed, List.flatMap_map]
  rfl

/-- **The bytes of a canonical listpack** are the layout of its values. -/
theorem bytes_ofEntries_map (values : List Bytes) :
    (ofEntries (values.map Entry.ofBytes)).bytes = layout values := by
  have htotal : offset (values.map Entry.ofBytes) + 1 = 7 + (values.flatMap valueBytes).length := by
    rw [offset, packed_map_ofBytes, headerSize]
    omega
  rw [bytes_ofEntries, htotal, packed_map_ofBytes, List.length_map, header]
  rfl

/-- A value without an entry is longer than any buffer. -/
theorem encodable_of_length_le {value : Bytes} (h : (valueBytes value).length ≤ maxBytes) :
    (Entry.ofBytes value).Encodable := by
  cases hentry : Entry.ofBytes value with
  | int n => exact Entry.isInt64_of_ofBytes hentry
  | str bytes =>
      rw [valueBytes, hentry, Entry.body, List.length_append, List.length_append] at h
      exact show bytes.length ≤ word32 - 1 by
        unfold maxBytes at h
        omega

/-- A layout ends one byte behind the entries of its values. -/
theorem length_layout (values : List Bytes) :
    (layout values).length = offset (values.map Entry.ofBytes) + 1 := by
  rw [← bytes_ofEntries_map, length_bytes, sizeBytes_ofEntries]

/-- Values fit if a header can state the length of their layout. -/
theorem fits_of_length_layout_le {values : List Bytes} (h : (layout values).length ≤ maxBytes) :
    Fits (values.map Entry.ofBytes) := by
  refine ⟨?_, length_layout values ▸ h⟩
  intro entry hentry
  obtain ⟨value, hvalue, rfl⟩ := List.mem_map.mp hentry
  apply encodable_of_length_le
  have hle := (List.sublist_flatten_of_mem (List.mem_map_of_mem (f := valueBytes) hvalue)).length_le
  rw [← List.flatMap_def] at hle
  rw [length_layout, offset, packed_map_ofBytes] at h
  omega

/-! ### Values that are kept -/

/-- An operation on the values of a listpack.  Of a block those values are stored, in call
order, that have an entry which fits beside all that is stored already. -/
def keep (values : List Bytes) : Operation → List Bytes × Answer
  | .push e block => step values (.push e (stored (layout values).length block))
  | .pop e => step values (.pop e)

/-- The values that operations on an empty listpack leave in it. -/
def kept (ops : List Operation) : List Bytes :=
  (run keep [] ops).1

/-- Contents that fit still do after an operation that keeps only what fits. -/
theorem Fits.keep {values : List Bytes} (h : Fits (values.map Entry.ofBytes)) (op : Operation) :
    Fits ((keep values op).1.map Entry.ofBytes) := by
  cases op with
  | push e block =>
      rw [Listpack.keep, step, length_layout, End.map_attach]
      exact h.attach_stored e block
  | pop e =>
      have hsub : (step values (.pop e)).1.Sublist values := by
        cases e with
        | front => exact List.tail_sublist values
        | back => exact List.dropLast_sublist values
      exact h.sublist (hsub.map Entry.ofBytes)

/-- **One step.**  An operation on the listpack of some values answers as on the values
alone, and leaves the listpack of those that are kept. -/
theorem apply_keep {values : List Bytes} (h : Fits (values.map Entry.ofBytes))
    (op : Operation) :
    apply (ofEntries (values.map Entry.ofBytes)) op =
      (ofEntries ((keep values op).1.map Entry.ofBytes), (keep values op).2) := by
  cases op with
  | push e block => rw [apply, push_ofEntries h, keep, step, length_layout, End.map_attach]
  | pop e =>
      rw [keep, step_pop, apply]
      obtain ⟨seen, rfl⟩ : ∃ seen, values = e.orient seen := ⟨e.orient values, by simp⟩
      dsimp only
      rw [End.map_orient] at h
      rw [End.orient_orient, End.map_orient, End.map_orient]
      cases seen with
      | nil => simp [pop?, span?_ofEntries_nil]
      | cons value rest =>
          rw [List.map_cons] at h ⊢
          rw [pop?_ofEntries e h, Entry.text_ofBytes]
          rfl

/-- **A whole run** makes the listpack of the values that are kept. -/
theorem run_keep {values : List Bytes} (h : Fits (values.map Entry.ofBytes))
    (ops : List Operation) :
    run apply (ofEntries (values.map Entry.ofBytes)) ops =
        (ofEntries ((run keep values ops).1.map Entry.ofBytes), (run keep values ops).2) ∧
      Fits ((run keep values ops).1.map Entry.ofBytes) := by
  induction ops generalizing values with
  | nil => exact ⟨rfl, h⟩
  | cons op ops ih =>
      obtain ⟨hrun, hfits⟩ := ih (h.keep op)
      refine ⟨?_, hfits⟩
      rw [run, apply_keep h op]
      dsimp only
      rw [hrun, run]

/-- The empty sequence fits. -/
theorem fits_nil : Fits (([] : List Bytes).map Entry.ofBytes) :=
  ⟨by simp, by decide⟩

/-- From an empty listpack. -/
theorem run_empty (ops : List Operation) :
    run apply empty ops = (ofEntries ((kept ops).map Entry.ofBytes), (run keep [] ops).2) ∧
      Fits ((kept ops).map Entry.ofBytes) := by
  have hrun := run_keep fits_nil ops
  rw [List.map_nil, ofEntries_nil] at hrun
  exact hrun

/-! ### Contents that fit -/

/-- If the new contents fit, everything is kept. -/
theorem keep_eq_step {values : List Bytes} {op : Operation}
    (hnext : Fits ((step values op).1.map Entry.ofBytes)) : keep values op = step values op := by
  cases op with
  | push e block =>
      rw [step, End.map_attach] at hnext
      have hblock : ∀ value ∈ block, (Entry.ofBytes value).Encodable := fun value hvalue =>
        hnext.encodable _ ((End.mem_attach e _ _ _).mpr (.inl (List.mem_map_of_mem hvalue)))
      have hsize : offset (values.map Entry.ofBytes) + 1 + (packed (block.map Entry.ofBytes)).length
          ≤ maxBytes := by
        have hle := hnext.size_le
        cases e <;>
          simp only [End.attach, offset, packed_append, List.length_append] at hle ⊢ <;> omega
      rw [keep, length_layout, stored_eq_self hblock hsize]
  | pop e => rfl

/-- Over a whole run. -/
theorem run_keep_eq {values : List Bytes} {ops : List Operation} (h : StaysWithin values ops) :
    run keep values ops = run step values ops := by
  induction ops generalizing values with
  | nil => rfl
  | cons op ops ih =>
      have hnext : Fits ((step values op).1.map Entry.ofBytes) :=
        fits_of_length_layout_le (h 1 (by simp))
      have hrest : StaysWithin (step values op).1 ops := fun n hn =>
        h (n + 1) (by simpa using hn)
      rw [run, keep_eq_step hnext, run]
      dsimp only
      rw [ih hrest]

/-- **A run** on a canonical listpack is the run on its values, by induction on the operations.
-/
theorem run_ofEntries {values : List Bytes} {ops : List Operation} (h : StaysWithin values ops) :
    run apply (ofEntries (values.map Entry.ofBytes)) ops =
      (ofEntries ((run step values ops).1.map Entry.ofBytes), (run step values ops).2) := by
  have hnow : Fits (values.map Entry.ofBytes) := fits_of_length_layout_le (h 0 (Nat.zero_le _))
  rw [(run_keep hnow ops).1, run_keep_eq h]

/-- **The bytes depend on the contents only.**  After any pushes and pops on an
empty listpack, as long as the contents fit: the buffer is the layout of the
contents, the count is exact, and every push and every pop answers as on a plain
sequence.  The layout spells each value by the shortest body that can spell it,
and every other history with the same contents leaves the same listpack. -/
theorem run_eq_layout {ops : List Operation} (h : StaysWithin [] ops) :
    (run apply empty ops).1.bytes = layout (contents ops) ∧
    (run apply empty ops).1.bytes.length = 7 + ((contents ops).flatMap valueBytes).length ∧
    (run apply empty ops).1.len = (contents ops).length ∧
    (run apply empty ops).2 = (run step [] ops).2 ∧
    (∀ value ∈ contents ops,
      Entry.IsBodyOf (Entry.ofBytes value).body (Entry.ofBytes value) ∧
      (Entry.ofBytes value).text = value ∧
      ∀ body e, Entry.IsBodyOf body e → e.text = value →
        (Entry.ofBytes value).body.length ≤ body.length) ∧
    ∀ other, StaysWithin [] other → contents other = contents ops →
      (run apply empty other).1 = (run apply empty ops).1 := by
  have hempty : empty = ofEntries (([] : List Bytes).map Entry.ofBytes) := ofEntries_nil.symm
  have hfits : Fits ((contents ops).map Entry.ofBytes) := by
    have hlast := h ops.length (Nat.le_refl _)
    rw [List.take_length] at hlast
    exact fits_of_length_layout_le hlast
  rw [hempty, run_ofEntries h]
  refine ⟨bytes_ofEntries_map _, ?_, ?_, rfl, ?_, ?_⟩
  · change (ofEntries ((contents ops).map Entry.ofBytes)).bytes.length = _
    rw [length_bytes, sizeBytes_ofEntries, offset, packed_map_ofBytes, headerSize]
    omega
  · exact List.length_map _
  · intro value hvalue
    have hvalid := hfits.encodable _ (List.mem_map_of_mem hvalue)
    have hsize := hvalid.bodySize?_append []
    rw [List.append_nil] at hsize
    exact ⟨⟨hsize, hvalid.ofBody?_body⟩, Entry.text_ofBytes value,
      fun body e hbody htext => hbody.length_body_ofBytes_le htext⟩
  · intro other hother hsame
    have hcontents : (run step [] other).1 = (run step [] ops).1 := hsame
    rw [run_ofEntries hother, hcontents]

/-- Values that look like a terminator, an integer and a size with its flag. -/
theorem run_eq_layout_mixed :
    StaysWithin []
      [.push .back [[0xFF], [0x31, 0x35], [0x2D, 0x30]], .push .front [[0x81, 0x00], []],
        .pop .back, .pop .front] ∧
      (run apply empty [.push .back [[0xFF], [0x31, 0x35], [0x2D, 0x30]],
        .push .front [[0x81, 0x00], []], .pop .back, .pop .front]).1.bytes =
      layout [[], [0xFF], [0x31, 0x35]] := by
  have hwithin : StaysWithin [] [.push .back [[0xFF], [0x31, 0x35], [0x2D, 0x30]],
      .push .front [[0x81, 0x00], []], .pop .back, .pop .front] := by
    decide +kernel
  exact ⟨hwithin, (run_eq_layout hwithin).1⟩

end CompactStore.Listpack
