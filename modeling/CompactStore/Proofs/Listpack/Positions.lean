import CompactStore.Proofs.Listpack.Reloading
import CompactStore.Proofs.Listpack.Traversal

/-!
# Where the values of a listpack are found

After any pushes and pops the values that are stored stand one after the other, so each of
them starts behind what the values before it take up: `entryStart`.  A step forward goes by
the size at the start of an entry and a step backward by the size at its end, and both go
from one start to the next.  So both directions visit the stored values and nothing else,
whatever bytes these are made of: `run_visits`.
-/

namespace CompactStore.Listpack

open Deque

/-- Where a value starts among values that are stored one after the other.  At the number of
values, this is where the terminator stands. -/
def entryStart (values : List Bytes) (j : Nat) : Nat :=
  headerSize + ((values.take j).flatMap valueBytes).length

/-- A listpack in which both directions visit the entries of these values. -/
structure Visits (lp : Listpack) (values : List Bytes) : Prop where
  /-- From one start to the next stand the bytes of a value, and the terminator comes last. -/
  start_lt : ∀ j < values.length, entryStart values j < entryStart values (j + 1)
  window_eq : ∀ j (hj : j < values.length),
    lp.window (entryStart values j) (entryStart values (j + 1)) = valueBytes values[j]
  endOffset_eq : lp.endOffset = entryStart values values.length
  /-- The first and the last value are found if there is any. -/
  first?_eq : lp.first? = if values.length = 0 then none else some (entryStart values 0)
  last?_eq : lp.last? =
    if values.length = 0 then none else some (entryStart values (values.length - 1))
  /-- A step forward ends at the last value. -/
  next?_eq : ∀ j < values.length, lp.next? (entryStart values j) =
    if j + 1 < values.length then some (entryStart values (j + 1)) else none
  /-- A step backward may start at the terminator, and ends at the first value. -/
  prev?_first : lp.prev? (entryStart values 0) = none
  prev?_eq : ∀ j < values.length,
    lp.prev? (entryStart values (j + 1)) = some (entryStart values j)
  /-- The text of an integer is read as the integer, and everything else as it is. -/
  get?_int : ∀ j (hj : j < values.length) n, Decimal.IsInt64 n →
    values[j] = Bytes.ofAscii (Decimal.render n) → lp.get? (entryStart values j) = some (.int n)
  get?_str : ∀ j (hj : j < values.length),
    (∀ n, Decimal.IsInt64 n → values[j] ≠ Bytes.ofAscii (Decimal.render n)) →
      lp.get? (entryStart values j) = some (.str values[j])
  /-- Both walks meet what is read at the starts, and nothing else. -/
  entries_get? : ∀ j < values.length, lp.entries[j]? = lp.get? (entryStart values j)
  texts_eq : lp.entries.map Entry.text = values
  entriesReversed_eq : lp.entriesReversed = lp.entries.reverse

variable {es : List Entry} {values : List Bytes} {j : Nat}

/-! ### Starts -/

/-- A value starts behind the entries of those before it. -/
theorem entryStart_eq_offset (values : List Bytes) (j : Nat) :
    entryStart values j = offset ((values.take j).map Entry.ofBytes) := by
  rw [entryStart, offset, packed_map_ofBytes]

/-- A value ends where the next one starts. -/
theorem entryStart_succ (hj : j < values.length) :
    entryStart values (j + 1) = entryStart values j + (valueBytes values[j]).length := by
  rw [entryStart, List.take_succ_eq_append_getElem hj, List.flatMap_append, List.flatMap_singleton,
    List.length_append, entryStart, Nat.add_assoc]

/-- The entries in front of a value, its entry, and the entries behind it. -/
theorem exists_split (hj : j < values.length) :
    ∃ before after, values.map Entry.ofBytes = before ++ Entry.ofBytes values[j] :: after ∧
      entryStart values j = offset before ∧
      entryStart values (j + 1) = offset (before ++ [Entry.ofBytes values[j]]) ∧
      (after = [] ↔ ¬j + 1 < values.length) := by
  refine ⟨(values.take j).map Entry.ofBytes, (values.drop (j + 1)).map Entry.ofBytes, ?_,
    entryStart_eq_offset values j, ?_, ?_⟩
  · conv_lhs => rw [← List.take_append_drop j values, List.drop_eq_getElem_cons hj]
    rw [List.map_append, List.map_cons]
  · rw [entryStart_eq_offset, List.take_succ_eq_append_getElem hj, List.map_append,
      List.map_singleton]
  · rw [List.map_eq_nil_iff, List.drop_eq_nil_iff]
    omega

/-! ### Both directions -/

/-- Each of the values that fit can be written. -/
theorem Fits.encodable_getElem (h : Fits (values.map Entry.ofBytes)) (hj : j < values.length) :
    (Entry.ofBytes values[j]).Encodable :=
  h.encodable _ (List.mem_map_of_mem (List.getElem_mem hj))

/-- The terminator stands where one more value would start. -/
theorem endOffset_eq_entryStart (values : List Bytes) :
    (ofEntries (values.map Entry.ofBytes)).endOffset = entryStart values values.length := by
  rw [endOffset_ofEntries, entryStart_eq_offset, List.take_length]

/-- From one start to the next stand the bytes of the value. -/
theorem window_entryStart (hj : j < values.length) :
    (ofEntries (values.map Entry.ofBytes)).window (entryStart values j)
      (entryStart values (j + 1)) = valueBytes values[j] := by
  obtain ⟨before, after, hall, hstart, -, -⟩ := exists_split hj
  rw [hall, entryStart_succ hj, hstart, window_offset, packed_cons, List.append_assoc]
  exact List.take_left

/-- The value is read where it starts. -/
theorem get?_entryStart (h : Fits (values.map Entry.ofBytes)) (hj : j < values.length) :
    (ofEntries (values.map Entry.ofBytes)).get? (entryStart values j) =
      some (Entry.ofBytes values[j]) := by
  obtain ⟨before, after, hall, hstart, -, -⟩ := exists_split hj
  rw [hall, hstart, get?_offset (h.encodable_getElem hj)]

/-- A step forward goes from one start to the next, and from the last one nowhere. -/
theorem next?_entryStart (h : Fits (values.map Entry.ofBytes)) (hj : j < values.length) :
    (ofEntries (values.map Entry.ofBytes)).next? (entryStart values j) =
      if j + 1 < values.length then some (entryStart values (j + 1)) else none := by
  obtain ⟨before, after, hall, hstart, hbehind, hlast⟩ := exists_split hj
  rw [hall, hstart, next?_offset (h.encodable_getElem hj), hbehind]
  by_cases hnext : j + 1 < values.length
  · have hsome : after ≠ [] := fun hnil => hlast.mp hnil hnext
    rw [if_pos hnext, if_neg hsome]
  · rw [if_neg hnext, if_pos (hlast.mpr hnext)]

/-- A step backward goes from one start to the one before. -/
theorem prev?_entryStart (h : Fits (values.map Entry.ofBytes)) (hj : j < values.length) :
    (ofEntries (values.map Entry.ofBytes)).prev? (entryStart values (j + 1)) =
      some (entryStart values j) := by
  obtain ⟨before, after, hall, hstart, hbehind, -⟩ := exists_split hj
  rw [hall, hbehind, hstart, prev?_offset (h.encodable_getElem hj)]

/-- The last value is the one in front of the terminator. -/
theorem last?_entryStart (h : Fits (values.map Entry.ofBytes)) :
    (ofEntries (values.map Entry.ofBytes)).last? =
      if values.length = 0 then none else some (entryStart values (values.length - 1)) := by
  rw [last?, endOffset_eq_entryStart]
  by_cases hnone : values.length = 0
  · rw [if_pos hnone, hnone]
    exact prev?_place_nil _
  · have hlast : values.length - 1 < values.length := by omega
    have hback := prev?_entryStart h hlast
    rw [Nat.sub_add_cancel (by omega)] at hback
    rw [if_neg hnone, hback]

/-- From the back on, the entries are met backward. -/
theorem entriesReversed_ofEntries (h : ∀ e ∈ es, e.Encodable) :
    (ofEntries es).entriesReversed = es.reverse := by
  have htiled : Tiled (ofEntries es) (header (offset es + 1) es.length)
      ([] ++ es.pmap Chunk.write h) := tiled_ofEntries h
  have hread : ReadBack (Chunk.join []) (es.pmap Chunk.write h) :=
    readBack_of_isWritten (Chunk.isWritten_write h)
  rw [htiled.entriesReversed_eq hread (prev?_place_nil _), Chunk.map_entry_write]

/-- **The listpack of values is visited both ways.** -/
theorem visits_ofEntries (h : Fits (values.map Entry.ofBytes)) :
    (ofEntries (values.map Entry.ofBytes)).Visits values where
  start_lt := by
    intro j hj
    have hsize : 2 ≤ (valueBytes values[j]).length := two_le_length_encode _
    rw [entryStart_succ hj]
    omega
  window_eq _ := window_entryStart
  endOffset_eq := endOffset_eq_entryStart values
  first?_eq := by
    cases values with
    | nil => rfl
    | cons value rest => exact first?_ofEntries (h.encodable_getElem (Nat.zero_lt_succ _)) _
  last?_eq := last?_entryStart h
  next?_eq _ := next?_entryStart h
  prev?_first := prev?_place_nil _
  prev?_eq _ := prev?_entryStart h
  get?_int := by
    intro j hj n hn htext
    rw [get?_entryStart h hj, htext, Entry.ofBytes_text_int hn]
  get?_str := by
    intro j hj hother
    rw [get?_entryStart h hj, Entry.ofBytes_eq_str hother]
  entries_get? := by
    intro j hj
    rw [get?_entryStart h hj, entries_ofEntries h.encodable, List.getElem?_map,
      List.getElem?_eq_getElem hj, Option.map_some]
  texts_eq := by
    rw [entries_ofEntries h.encodable, List.map_map]
    simp only [Function.comp_def, Entry.text_ofBytes, List.map_id']
  entriesReversed_eq := by
    rw [entriesReversed_ofEntries h.encodable, entries_ofEntries h.encodable]

/-- **Both directions visit what is stored.**  After any pushes and pops the answers are those
that `keep` gives, and from the first value on and from the last one back the values that were
kept are visited, each of them where it starts. -/
theorem run_visits (ops : List Operation) :
    (run apply empty ops).2 = (run keep [] ops).2 ∧
      (run apply empty ops).1.Visits (kept ops) := by
  obtain ⟨hrun, hfits⟩ := run_empty ops
  rw [hrun]
  exact ⟨rfl, visits_ofEntries hfits⟩

end CompactStore.Listpack
