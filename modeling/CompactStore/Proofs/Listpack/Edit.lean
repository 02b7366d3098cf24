import CompactStore.Proofs.Deque
import CompactStore.Proofs.Listpack.Canonical

/-!
# Edits keep a listpack canonical

A push at either end turns the canonical listpack of some entries into the
canonical listpack of more, although one end strips the terminator and the other
splices behind the header; a pop turns it into that of one entry less.  Which of
the pushed values are stored is `stored`: each that has an entry and still fits,
looked at in call order.
-/

namespace CompactStore

namespace Entry

/-- A value has an entry exactly when it is encodable, and `encodedSize?` tells
its length. -/
theorem encodedSize?_eq_some_iff {value : Bytes} {n : Nat} :
    encodedSize? value = some n ↔
      (ofBytes value).Encodable ∧ n = (ofBytes value).encode.length := by
  obtain ⟨hyes, hno⟩ := size?_ofBytes value
  by_cases h : (ofBytes value).Encodable
  · rw [encodedSize?, hyes h, Option.map_some, length_encode]
    exact ⟨fun heq => ⟨h, (Option.some.inj heq).symm⟩, fun heq => by rw [heq.2]⟩
  · rw [encodedSize?, hno h]
    exact ⟨fun heq => (nomatch heq), fun heq => absurd heq.1 h⟩

end Entry

namespace Listpack

/-- Whether a value has an entry that fits a buffer of which `taken` bytes are
taken already. -/
def admits (taken : Nat) (value : Bytes) : Bool :=
  (Entry.encodedSize? value).any fun size => taken + size ≤ maxBytes

/-- The values that are stored of those that are pushed into a buffer of which
`taken` bytes are taken. -/
def stored : Nat → List Bytes → List Bytes
  | _, [] => []
  | taken, value :: rest =>
    if admits taken value then
      value :: stored (taken + (Entry.ofBytes value).encode.length) rest
    else stored taken rest

/-- What is admitted has an entry that can be written and fits beside what is taken. -/
theorem admits_iff {taken : Nat} {value : Bytes} :
    admits taken value ↔ (Entry.ofBytes value).Encodable ∧
      taken + (Entry.ofBytes value).encode.length ≤ maxBytes := by
  unfold admits
  rw [Option.any_eq_true]
  constructor
  · rintro ⟨size, hsize, hfits⟩
    obtain ⟨h, rfl⟩ := Entry.encodedSize?_eq_some_iff.mp hsize
    exact ⟨h, of_decide_eq_true hfits⟩
  · rintro ⟨h, hfits⟩
    exact ⟨_, Entry.encodedSize?_eq_some_iff.mpr ⟨h, rfl⟩, decide_eq_true hfits⟩

/-- What is stored can be written, and fits. -/
theorem stored_fits {taken : Nat} (values : List Bytes) (h : taken ≤ maxBytes) :
    (∀ value ∈ stored taken values, (Entry.ofBytes value).Encodable) ∧
      taken + (packed ((stored taken values).map Entry.ofBytes)).length ≤ maxBytes := by
  induction values generalizing taken with
  | nil => exact ⟨by simp [stored], by simpa [stored] using h⟩
  | cons value rest ih =>
      rw [stored]
      split
      · rename_i hadmits
        obtain ⟨hvalue, hfits⟩ := admits_iff.mp hadmits
        obtain ⟨hrest, hsize⟩ := ih hfits
        refine ⟨?_, ?_⟩
        · intro v hv
          rcases List.mem_cons.mp hv with rfl | hv
          · exact hvalue
          · exact hrest v hv
        · rw [List.map_cons, packed_cons, List.length_append]
          omega
      · exact ih h

/-- Values that fit together are all stored. -/
theorem stored_eq_self {taken : Nat} {values : List Bytes}
    (hencodable : ∀ value ∈ values, (Entry.ofBytes value).Encodable)
    (hfits : taken + (packed (values.map Entry.ofBytes)).length ≤ maxBytes) :
    stored taken values = values := by
  induction values generalizing taken with
  | nil => rfl
  | cons value rest ih =>
      rw [List.map_cons, packed_cons, List.length_append] at hfits
      have hadmits : admits taken value :=
        admits_iff.mpr ⟨hencodable value (by simp), by omega⟩
      rw [stored, if_pos hadmits, ih (fun v hv => hencodable v (by simp [hv])) (by omega)]

/-! ### The block of pushed values -/

/-- Buffers are put together as their bytes are. -/
theorem buffer_append (front rest : Bytes) :
    buffer front ++ buffer rest = buffer (front ++ rest) := by
  apply ByteArray.ext
  simp [buffer]

/-- A value is put behind a block if it is admitted, and skipped if it is not. -/
theorem appendEntry_buffer (taken count : Nat) (bytes value : Bytes) :
    appendEntry taken (buffer bytes, count) value =
      if admits (taken + bytes.length) value then
        (buffer (bytes ++ (Entry.ofBytes value).encode), count + 1)
      else (buffer bytes, count) := by
  obtain ⟨hyes, hno⟩ := Entry.size?_ofBytes value
  by_cases h : (Entry.ofBytes value).Encodable
  · have hadmits : admits (taken + bytes.length) value ↔
        taken + bytes.length + ((Entry.ofBytes value).body.length
          + Backlen.width (Entry.ofBytes value).body.length) ≤ maxBytes := by
      rw [admits_iff, Entry.length_encode]
      exact and_iff_right h
    simp only [appendEntry, hyes h, hadmits, buffer_append]
    rfl
  · have hadmits : ¬ admits (taken + bytes.length) value := fun hadmits =>
      h (admits_iff.mp hadmits).1
    simp only [appendEntry, hno h, hadmits, if_false, Bool.false_eq_true]

/-- **A block** has the entries of the values that are stored, by induction on the values. -/
theorem foldl_appendEntry (taken count : Nat) (bytes : Bytes) (values : List Bytes) :
    values.foldl (appendEntry taken) (buffer bytes, count) =
      (buffer (bytes ++ packed ((stored (taken + bytes.length) values).map Entry.ofBytes)),
        count + (stored (taken + bytes.length) values).length) := by
  induction values generalizing count bytes with
  | nil => simp [stored]
  | cons value rest ih =>
      rw [List.foldl_cons, appendEntry_buffer, stored]
      split
      · rw [ih, List.length_append, ← Nat.add_assoc, List.map_cons, packed_cons, List.append_assoc,
          List.length_cons, Nat.add_assoc count, Nat.add_comm 1]
      · exact ih count bytes

/-- The block holds the entries of the stored values, in call order. -/
theorem block_eq (taken : Nat) (values : List Bytes) :
    block taken values =
      (buffer (packed ((stored taken values).map Entry.ofBytes)),
        (stored taken values).length) := by
  have hempty : ByteArray.empty = buffer [] := rfl
  rw [block, hempty, foldl_appendEntry]
  simp

/-! ### Sealing what was spliced -/

/-- Writing the header makes a listpack of any six bytes in front of entries and
a terminator. -/
theorem sealed_eq_ofEntries {data : ByteArray} {front : Bytes} {es : List Entry} {count : Nat}
    (hdata : data.data.toList = front ++ (packed es ++ [terminator]))
    (hfront : front.length = headerSize) (hcount : count % countRange = es.length) :
    sealed data count = ofEntries es := by
  have hsize : data.size = offset es + 1 := by
    have hlen := congrArg List.length hdata
    rw [Array.length_toList, List.length_append, List.length_append, hfront] at hlen
    exact hlen
  apply ext_bytes
  · rw [bytes_sealed, bytes_ofEntries, hdata, hsize, hcount, ← hfront, List.drop_left,
      List.append_assoc]
  · exact hcount

/-- What stands in front of an entry is the header and the entries before it. -/
theorem bytes_take_offset (before after : List Entry) :
    ((ofEntries (before ++ after)).bytes.take (offset before)) =
      header (offset (before ++ after) + 1) (before ++ after).length ++ packed before := by
  have hfront : offset before =
      (header (offset (before ++ after) + 1) (before ++ after).length ++ packed before).length := by
    simp [offset]
  rw [bytes_ofEntries, packed_append, ← List.append_assoc, List.append_assoc _ (packed after),
    hfront, List.take_left]

/-- **Entries in place of entries.**  Splicing at positions where entries start
and sealing the result gives the canonical listpack again. -/
theorem sealed_splice (before middle after new : List Entry) {count : Nat}
    (hcount : count % countRange = (before ++ new ++ after).length) :
    sealed (splice (ofEntries (before ++ middle ++ after)).data (offset before)
      (offset (before ++ middle)) (buffer (packed new))) count =
        ofEntries (before ++ new ++ after) := by
  have htake := bytes_take_offset before (middle ++ after)
  rw [← List.append_assoc] at htake
  refine sealed_eq_ofEntries ?_ (length_header (offset (before ++ middle ++ after) + 1)
    (before ++ middle ++ after).length) hcount
  rw [toList_splice, bytes_buffer]
  change (ofEntries _).bytes.take _ ++ _ ++ (ofEntries _).bytes.drop _ = _
  rw [htake, bytes_drop_offset, packed_append, packed_append]
  simp only [List.append_assoc]

/-! ### Pushes and pops -/

/-- New entries are put where the terminator stands. -/
theorem appendOffset_ofEntries (es : List Entry) : (ofEntries es).appendOffset = offset es := by
  have hwindow := window_offset es [] 1
  rw [List.append_nil] at hwindow
  rw [appendOffset, endOffset_ofEntries, sizeBytes_ofEntries, if_pos (by rw [hwindow]; rfl)]

/-- The entries after a push of which the block is stored. -/
theorem Fits.attach_stored {es : List Entry} (h : Fits es) (e : End) (values : List Bytes) :
    Fits (e.attach ((stored (offset es + 1) values).map Entry.ofBytes) es) := by
  obtain ⟨hvalues, hsize⟩ := stored_fits values h.size_le
  refine ⟨?_, ?_⟩
  · intro entry hentry
    rcases (End.mem_attach e _ es entry).mp hentry with hnew | hold
    · obtain ⟨value, hvalue, rfl⟩ := List.mem_map.mp hnew
      exact hvalues value hvalue
    · exact h.encodable entry hold
  · cases e <;> simp only [End.attach, offset, packed_append, List.length_append] at hsize ⊢ <;>
      omega

/-- **A push keeps a listpack canonical**, and counts the stored values. -/
theorem push_ofEntries {es : List Entry} (h : Fits es) (e : End) (values : List Bytes) :
    (ofEntries es).push e values =
      (ofEntries (e.attach ((stored (offset es + 1) values).map Entry.ofBytes) es),
        (stored (offset es + 1) values).length) := by
  have hcount := (h.attach_stored e values).length_lt
  cases e with
  | front =>
      rw [push, pushLeft, sizeBytes_ofEntries, block_eq]
      dsimp only
      split
      · rename_i hnone
        rw [List.eq_nil_of_length_eq_zero hnone]
        rfl
      · -- the count is kept in a word, and the entries that fit are too few to leave it
        have hmod : (es.length + (stored (offset es + 1) values).length) % countRange =
            ([] ++ (stored (offset es + 1) values).map Entry.ofBytes ++ es).length := by
          simp only [End.attach, List.length_append, List.length_map, List.nil_append] at hcount ⊢
          rw [Nat.add_comm]
          exact Nat.mod_eq_of_lt hcount
        exact congrArg (·, _) (sealed_splice [] [] es _ hmod)
  | back =>
      rw [push, pushRight, appendOffset_ofEntries, sizeBytes_ofEntries, block_eq, len_ofEntries]
      dsimp only
      refine Prod.ext (sealed_eq_ofEntries ?_ (length_header (offset es + 1) es.length) ?_) rfl
      · have htake := bytes_take_offset es []
        rw [List.append_nil] at htake
        rw [toList_splice, ByteArray.data_push, Array.toList_push, bytes_buffer]
        change (ofEntries es).bytes.take _ ++ _ ++ (ofEntries es).bytes.drop _ = _
        rw [htake,
          List.drop_of_length_le (Nat.le_of_eq (by rw [length_bytes, sizeBytes_ofEntries])),
          End.attach, packed_append]
        simp only [List.append_assoc, List.append_nil]
      · simp only [End.attach, List.length_append, List.length_map] at hcount ⊢
        exact Nat.mod_eq_of_lt hcount

/-- Cutting an entry out leaves the others. -/
theorem cut_ofEntries {before after : List Entry} {x : Entry} (h : Fits (before ++ x :: after)) :
    (ofEntries (before ++ x :: after)).cut (offset before) (offset (before ++ [x])) =
      ofEntries (before ++ after) := by
  have hcount : ((before ++ x :: after).length + (countRange - 1)) % countRange =
      (before ++ [] ++ after).length := by
    have hlt := h.length_lt
    simp only [List.append_nil, List.length_append, List.length_cons] at hlt ⊢
    have hsum : before.length + (after.length + 1) + (countRange - 1) =
        before.length + after.length + countRange := by omega
    rw [hsum, Nat.add_mod_right]
    exact Nat.mod_eq_of_lt (by omega)
  have hsplice := sealed_splice before [x] after [] hcount
  rw [List.append_nil, List.append_assoc, List.singleton_append] at hsplice
  exact hsplice

/-- The entry at an end, as it is found from there. -/
theorem span?_ofEntries (e : End) {x : Entry} {es : List Entry}
    (h : ∀ entry ∈ x :: es, entry.Encodable) :
    ∃ before after, e.orient (x :: es) = before ++ x :: after ∧ e.orient es = before ++ after ∧
      (ofEntries (e.orient (x :: es))).span? e = some (offset before, offset (before ++ [x])) := by
  have hx : x.Encodable := h x (by simp)
  cases e with
  | front =>
      refine ⟨[], es, rfl, rfl, ?_⟩
      rw [End.orient, span?, first?_ofEntries hx, Option.bind_some]
      have hsize := bodySizeAt?_offset [] es hx
      rw [List.nil_append] at hsize
      rw [hsize, Option.map_some, after_offset]
  | back =>
      refine ⟨es.reverse, [], by simp [End.orient], by simp [End.orient], ?_⟩
      rw [End.orient, List.reverse_cons, span?, last?_ofEntries hx, Option.map_some,
        endOffset_ofEntries]

/-- Without entries there is none at either end. -/
theorem span?_ofEntries_nil (e : End) : (ofEntries []).span? e = none := by
  cases e with
  | front => rfl
  | back => rw [span?, last?_ofEntries_nil, Option.map_none]

/-- **A pop takes the entry at an end**, and leaves the listpack canonical. -/
theorem pop?_ofEntries (e : End) {x : Entry} {es : List Entry} (h : Fits (e.orient (x :: es))) :
    (ofEntries (e.orient (x :: es))).pop? e = some (x.text, ofEntries (e.orient es)) := by
  have hencodable : ∀ entry ∈ x :: es, entry.Encodable := fun entry hentry =>
    h.encodable entry ((End.mem_orient e _ entry).mpr hentry)
  obtain ⟨before, after, hall, hrest, hspan⟩ := span?_ofEntries e hencodable
  rw [hall] at h
  rw [pop?, hspan, hall]
  dsimp only
  rw [get?_offset (hencodable x (by simp)), Option.map_some, cut_ofEntries h, hrest]

end Listpack

end CompactStore
