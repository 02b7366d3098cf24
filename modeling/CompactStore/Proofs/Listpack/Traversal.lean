import CompactStore.Proofs.Listpack.Format
import CompactStore.Proofs.Listpack.History

/-!
# Loaded listpacks from both ends

In a loaded buffer every walk forward goes over the chunks that it was loaded with.
A walk backward reads the lengths behind the blocks again, but without the header in
front of them.  This makes a difference for one chunk only: the empty string as the
first entry, with a flag on the length behind it.  There the loader reads on into
the header and finds a zero, and the walk finds nothing.  `reversible_iff` says that
in all other loaded buffers both directions agree, whatever stands behind the blocks.
-/

namespace CompactStore.Listpack

open Deque Chunk

/-- As many pops at an end as there are entries take all values, from this end on,
and leave an empty listpack. -/
def Drains (lp : Listpack) (e : End) : Prop :=
  (run apply lp (List.replicate lp.len (.pop e))).2 =
      (e.orient lp.values).map (fun value => .taken (some value)) ∧
    (run apply lp (List.replicate lp.len (.pop e))).1.isEmpty ∧
    (run apply lp (List.replicate lp.len (.pop e))).1.entries = []

/-- What is met from the back on is what is met from the front on, backward. -/
structure Reversible (lp : Listpack) : Prop where
  entriesReversed_eq : lp.entriesReversed = lp.entries.reverse
  last?_eq : lp.last? = lp.positions.getLast?
  last?_eq_none : lp.last? = none ↔ lp.len = 0
  drains : ∀ e, lp.Drains e

variable {lp : Listpack} {b front other : Bytes} {first before after cs : List Chunk} {c : Chunk}

/-! ### Where the length is read back without what stands in front -/

/-- A block of nothing but flags is the empty string. -/
theorem eq_of_isBlock_of_replicate {body : Bytes} (h : Entry.IsBlock body)
    (hflags : body = List.replicate body.length 128) : body = [0x80] := by
  obtain ⟨size, hsize⟩ : ∃ size, body.length = size + 1 :=
    ⟨body.length - 1, by have := h.length_bounds.1; omega⟩
  have hread := Entry.isBlock_iff.mp h
  rw [hsize, List.replicate_succ] at hflags
  rw [hflags] at hread hsize
  obtain rfl : size = 0 := by
    have hone : Entry.bodySize? (128 :: List.replicate size 128) = some 1 := rfl
    rw [hone, hsize] at hread
    exact (Nat.succ.inj (Option.some.inj hread)).symm
  exact hflags

/-- What stands in front of a chunk only matters for an empty string with a flag on
its length. -/
theorem Chunk.ReadsBack.transfer (h : c.ReadsBack front)
    (hzero : c.bytes = [0x80, 0x81] → Backlen.decode front ≠ some 0) : c.ReadsBack other := by
  rcases readsBack_iff.mp h with hwritten | ⟨hflag, hends⟩
  · exact hwritten.readsBack other
  · rcases hends.of_append with hbody | ⟨hbody, hfront⟩
    · exact readsBack_iff.mpr (.inr ⟨hflag, hbody.append_left other⟩)
    · have hempty := eq_of_isBlock_of_replicate c.isBlock hbody
      have hbytes : c.bytes = [0x80, 0x81] := by
        rw [Chunk.bytes, hflag, hempty]
        rfl
      exact absurd (hfront.decode_eq (Nat.sub_le _ _)) (hzero hbytes)

/-- Behind bytes at the end of which no zero is read, no chunk needs them. -/
theorem ReadBack.transfer (h : ReadBack front cs) (hzero : Backlen.decode front ≠ some 0) :
    ReadBack other cs := by
  induction cs generalizing front other with
  | nil => exact readBack_nil
  | cons c cs ih =>
      obtain ⟨hc, hcs⟩ := readBack_cons.mp h
      have hpos := c.isBlock.length_bounds.1
      have hnext : Backlen.decode (front ++ c.bytes) ≠ some 0 := by
        rw [show Backlen.decode (front ++ c.bytes) = some c.body.length from hc]
        simp only [ne_eq, Option.some.injEq]
        omega
      exact readBack_cons.mpr ⟨hc.transfer fun _ => hzero, ih hcs hnext⟩

/-- Behind the first chunk nothing needs the header. -/
theorem ReadBack.tail (h : ReadBack front (c :: cs)) : ReadBack other cs := by
  obtain ⟨hc, hcs⟩ := readBack_cons.mp h
  have hpos := c.isBlock.length_bounds.1
  refine hcs.transfer ?_
  rw [show Backlen.decode (front ++ c.bytes) = some c.body.length from hc]
  simp only [ne_eq, Option.some.injEq]
  omega

theorem ReadBack.of_append (h : ReadBack front (before ++ after)) : ReadBack front before := by
  rintro bs c as rfl
  exact h bs c (as ++ after) (by simp)

/-! ### Backward -/

/-- **A step backward** goes from behind a chunk that is read back to its start. -/
theorem Tiled.prev?_place (h : Tiled lp front (before ++ c :: after))
    (hread : c.ReadsBack (join before)) :
    lp.prev? (place (before ++ [c])) = some (place before) := by
  have hsplit : Tiled lp front ((before ++ [c]) ++ after) := by
    rwa [List.append_assoc, List.singleton_append]
  have hbytes : lp.bytes = (front ++ join before) ++ (c.body ++ c.tail) ++
      (join after ++ [terminator]) := by
    rw [hsplit.bytes_split]
    simp [Chunk.bytes]
  have hbehind : (front ++ join before ++ (c.body ++ c.tail)).length = place (before ++ [c]) := by
    rw [← hsplit.length_split (before ++ [c])]
    simp [Chunk.bytes]
  rw [← hbehind, ← h.length_split before]
  refine prev?_of_bytes hbytes c.length_tail (by simp) (by rw [h.length_split, place]; omega) ?_
  rw [← h.length_front, List.append_assoc, List.drop_left]
  exact hread

theorem prev?_place_nil (lp : Listpack) : lp.prev? (place []) = none := by
  rw [prev?, if_pos (.inl (by simp [place]))]

/-- **A walk backward** from behind chunks that are read back meets where they start. -/
theorem Tiled.stops_prev? (h : Tiled lp front (first ++ before ++ after))
    (hread : ReadBack (join first) before) (hstart : lp.prev? (place first) = none)
    {fuel : Nat} (hfuel : before.length ≤ fuel) :
    lp.stops lp.prev? fuel (lp.prev? (place (first ++ before))) =
      (places first before).reverse := by
  induction before using List.reverseRecOn generalizing after fuel with
  | nil =>
      rw [List.append_nil, hstart]
      cases fuel <;> rfl
  | append_singleton before c ih =>
      obtain ⟨fuel, rfl⟩ : ∃ rest, fuel = rest + 1 := ⟨fuel - 1, by simp at hfuel; omega⟩
      have hsplit : Tiled lp front ((first ++ before) ++ c :: after) := by simpa using h
      have hc : c.ReadsBack (join (first ++ before)) := by
        simpa using hread before c [] rfl
      have hrest : Tiled lp front (first ++ before ++ (c :: after)) := hsplit
      rw [← List.append_assoc, hsplit.prev?_place hc, stops, hsplit.get?_place,
        Option.isSome_some, if_pos rfl, ih hrest hread.of_append (by simpa using hfuel),
        places_append_singleton, List.reverse_append, List.reverse_singleton,
        List.singleton_append]

/-- The entries that are met from the back on are those of the chunks behind `first`,
if there is no step backward from there. -/
theorem Tiled.entriesReversed_eq (h : Tiled lp front (first ++ before))
    (hread : ReadBack (join first) before) (hstart : lp.prev? (place first) = none) :
    lp.entriesReversed = (before.map entry).reverse := by
  have hlast : lp.last? = lp.prev? (place (first ++ before)) := by
    rw [last?, h.endOffset_eq]
  have hfuel := h.length_le_sizeBytes
  rw [List.length_append] at hfuel
  have hstops := (show Tiled lp front (first ++ before ++ []) by simpa using h).stops_prev? hread
    hstart (show before.length ≤ lp.sizeBytes by omega)
  rw [entriesReversed, hlast, walk_eq_stops, List.append_nil, List.reverse_reverse, hstops,
    List.filterMap_reverse, h.filterMap_places]

/-- The last position is where the last chunk starts. -/
theorem Tiled.last?_eq (h : Tiled lp front cs) (hread : ReadBack [] cs) :
    lp.last? = (places [] cs).getLast? := by
  rw [last?, h.endOffset_eq]
  cases cs using List.reverseRecOn with
  | nil => exact prev?_place_nil lp
  | append_singleton cs c =>
      have hc : c.ReadsBack (join cs) := by simpa using hread cs c [] rfl
      rw [h.prev?_place hc, places_append_singleton, List.getLast?_append, List.getLast?_singleton,
        List.nil_append]
      rfl

/-! ### Pops -/

/-- A listpack of chunks with the right number of entries. -/
structure Carries (lp : Listpack) (cs : List Chunk) : Prop where
  tiled : ∃ front, Tiled lp front cs
  len_eq : lp.len = cs.length
  len_lt : cs.length < countRange

/-- Cutting a chunk out leaves the others under a new header. -/
theorem Tiled.cut (h : Tiled lp front (before ++ c :: after)) :
    ∃ header, Tiled (lp.cut (place before) (place (before ++ [c]))) header (before ++ after) := by
  have hsplit : Tiled lp front ((before ++ [c]) ++ after) := by
    rwa [List.append_assoc, List.singleton_append]
  have htake : lp.data.data.toList.take (place before) = front ++ join before := by
    rw [← h.length_split before]
    exact (congrArg _ h.bytes_split).trans List.take_left
  have hdrop : lp.data.data.toList.drop (place (before ++ [c])) = join after ++ [terminator] := by
    rw [← hsplit.length_split (before ++ [c])]
    exact (congrArg _ hsplit.bytes_split).trans List.drop_left
  have hdata : (splice lp.data (place before) (place (before ++ [c])) .empty).data.toList =
      front ++ (join (before ++ after) ++ [terminator]) := by
    rw [toList_splice, htake, hdrop, join_append]
    simp
  have hbytes := bytes_sealed (splice lp.data (place before) (place (before ++ [c])) .empty)
    (lp.len + (countRange - 1))
  rw [hdata, ← h.length_front, List.drop_left] at hbytes
  exact ⟨_, hbytes, length_header _ _⟩

/-- Cutting a chunk out leaves the others. -/
theorem Carries.cut (h : Carries lp (before ++ c :: after)) :
    Carries (lp.cut (place before) (place (before ++ [c]))) (before ++ after) := by
  obtain ⟨front, htiled⟩ := h.tiled
  have hlen := h.len_eq
  have hlt := h.len_lt
  rw [List.length_append, List.length_cons] at hlen hlt
  refine ⟨htiled.cut, ?_, by rw [List.length_append]; omega⟩
  rw [Listpack.cut, hlen, ← Nat.add_assoc, List.length_append]
  exact len_sealed_pred _ (by omega)

theorem after_place (before : List Chunk) (c : Chunk) :
    Listpack.after (place before) c.body.length = place (before ++ [c]) := by
  rw [place_append_singleton, Listpack.after, c.length_tail]

/-- The chunk at an end is found from there. -/
theorem Tiled.span?_eq {e : End} (h : Tiled lp front (e.orient (c :: cs)))
    (hread : e = .back → ReadBack [] (e.orient (c :: cs))) :
    ∃ before after, e.orient (c :: cs) = before ++ c :: after ∧ e.orient cs = before ++ after ∧
      lp.span? e = some (place before, place (before ++ [c])) := by
  cases e with
  | front =>
      refine ⟨[], cs, rfl, rfl, ?_⟩
      have hfirst : lp.first? = some (place []) := h.first?_eq
      have hcut : Tiled lp front ([] ++ c :: cs) := h
      have hsize := hcut.bodySizeAt?_place
      rw [span?, hfirst, Option.bind_some, hsize, Option.map_some, after_place]
  | back =>
      refine ⟨cs.reverse, [], by simp [End.orient], by simp [End.orient], ?_⟩
      rw [End.orient, List.reverse_cons] at h hread
      have hc : c.ReadsBack (join cs.reverse) := by simpa using hread rfl cs.reverse c [] rfl
      rw [span?, last?, h.endOffset_eq, h.prev?_place hc, Option.map_some]

/-- **A pop takes the entry of the chunk at an end**, and leaves the other chunks. -/
theorem Carries.pop?_eq {e : End} (h : Carries lp (e.orient (c :: cs)))
    (hread : e = .back → ReadBack [] (e.orient (c :: cs))) :
    ∃ rest, lp.pop? e = some (c.entry.text, rest) ∧ Carries rest (e.orient cs) := by
  obtain ⟨front, htiled⟩ := h.tiled
  obtain ⟨before, after, hall, hrest, hspan⟩ := htiled.span?_eq hread
  rw [hall] at h htiled
  refine ⟨lp.cut (place before) (place (before ++ [c])), ?_, hrest ▸ h.cut⟩
  rw [pop?, hspan]
  dsimp only
  rw [htiled.get?_place, Option.map_some]

/-- **Pops at one end** take the entries from there on. -/
theorem Carries.run_pops {e : End} (h : Carries lp (e.orient cs))
    (hread : e = .back → ReadBack [] (e.orient cs)) :
    (run apply lp (List.replicate cs.length (.pop e))).2 =
        cs.map (fun c => .taken (some c.entry.text)) ∧
      Carries (run apply lp (List.replicate cs.length (.pop e))).1 [] := by
  induction cs generalizing lp with
  | nil =>
      rw [End.orient_nil] at h
      exact ⟨rfl, h⟩
  | cons c cs ih =>
      obtain ⟨rest, hpop, hrest⟩ := h.pop?_eq hread
      have hreadRest : e = .back → ReadBack [] (e.orient cs) := by
        rintro rfl
        have hall := hread rfl
        rw [End.orient, List.reverse_cons] at hall
        exact hall.of_append
      have hstep : apply lp (.pop e) = (rest, .taken (some c.entry.text)) := by
        rw [apply, hpop]
      obtain ⟨hanswers, hempty⟩ := ih hrest hreadRest
      rw [List.length_cons, List.replicate_succ, run, hstep]
      exact ⟨by rw [List.map_cons, ← hanswers], hempty⟩

/-- **Pops from an end** take the entries in order; from the back, as long as lengths are read
back. -/
theorem Carries.drains {e : End} (h : Carries lp cs) (hread : e = .back → ReadBack [] cs) :
    lp.Drains e := by
  obtain ⟨front, htiled⟩ := h.tiled
  obtain ⟨seen, rfl⟩ : ∃ seen, cs = e.orient seen := ⟨e.orient cs, by simp⟩
  obtain ⟨hanswers, hempty⟩ := h.run_pops hread
  obtain ⟨_, hnone⟩ := hempty.tiled
  have hlen : lp.len = seen.length := by rw [h.len_eq, End.length_orient]
  rw [Drains, hlen]
  refine ⟨?_, ?_, hnone.entries_eq⟩
  · rw [hanswers, values, htiled.entries_eq, ← End.map_orient, ← End.map_orient,
      End.orient_orient, List.map_map, List.map_map]
    rfl
  · rw [isEmpty, hempty.len_eq]
    rfl

/-! ### Loaded buffers -/

/-- A loaded buffer carries chunks that are read back behind its header. -/
theorem exists_carries_of_ofBytes? (h : ofBytes? b = some lp) :
    ∃ cs, Carries lp cs ∧ ∃ front, Tiled lp front cs ∧ ReadBack front cs := by
  obtain ⟨cs, hframed, hread, rfl⟩ := ofBytes?_eq_some_iff.mp h
  obtain ⟨hfront, hb⟩ := hframed.take_append
  have htiled : Tiled { data := buffer b, len := cs.length } (b.take headerSize) cs :=
    ⟨(bytes_buffer b).trans hb, hfront⟩
  obtain ⟨n, hsize, -⟩ := hframed
  have hlength : cs.length ≤ b.length := htiled.length_le_sizeBytes
  have hcount : cs.length < countRange := by
    unfold word32 at hsize
    unfold countRange word64
    omega
  exact ⟨cs, ⟨⟨_, htiled⟩, rfl, hcount⟩, _, htiled, hread⟩

/-- **Without a flag that leads into the header** both directions agree. -/
theorem Carries.reversible (h : Carries lp cs) (hread : ReadBack [] cs) : lp.Reversible := by
  obtain ⟨front, htiled⟩ := h.tiled
  have hlast := htiled.last?_eq hread
  refine ⟨?_, ?_, ?_, fun e => h.drains fun _ => hread⟩
  · rw [htiled.entries_eq]
    have hnone : Tiled lp front ([] ++ cs) := htiled
    exact hnone.entriesReversed_eq hread (prev?_place_nil lp)
  · rw [hlast, htiled.positions_eq]
  · rw [hlast, List.getLast?_eq_none_iff, ← List.length_eq_zero_iff, length_places, h.len_eq]

/-- The empty string with a flag on its length is seen at the first position. -/
theorem Tiled.window_eq_iff (h : Tiled lp front cs) :
    lp.window headerSize (headerSize + 2) = [0x80, 0x81] ↔
      ∃ c rest, cs = c :: rest ∧ c.bytes = [0x80, 0x81] := by
  have hwindow := window_of_bytes h.bytes_eq 2
  rw [h.length_front] at hwindow
  rw [hwindow]
  constructor
  · intro htake
    cases cs with
    | nil => simp at htake
    | cons c rest =>
        have hsplit : join (c :: rest) ++ [terminator] =
            0x80 :: 0x81 :: (join (c :: rest) ++ [terminator]).drop 2 := by
          conv_lhs => rw [← List.take_append_drop 2 (join (c :: rest) ++ [terminator]), htake]
          rfl
        have hone : c.body.length = 1 := by
          have hsize := congrArg Entry.bodySize? hsplit
          rw [join_cons, Chunk.bytes, List.append_assoc, List.append_assoc,
            c.isBlock.bodySize?_append] at hsize
          exact Option.some.inj hsize
        have htwo : c.bytes.length = 2 := by
          rw [Chunk.bytes, List.length_append, c.length_tail, hone]
          rfl
        rw [join_cons, List.append_assoc, List.take_left' htwo] at htake
        exact ⟨c, rest, rfl, htake⟩
  · rintro ⟨c, rest, rfl, hbytes⟩
    rw [join_cons, hbytes]
    rfl

/-- **Both directions agree on a loaded buffer** if it does not start with an empty string
that has a flag on its length.  Reading and popping from the front on are right in any case. -/
theorem reversible_iff (h : ofBytes? b = some lp) :
    (lp.positions.map lp.get? = lp.entries.map some ∧ lp.entries.length = lp.len ∧
      lp.Drains .front) ∧
    (lp.Reversible ↔ lp.window headerSize (headerSize + 2) ≠ [0x80, 0x81]) := by
  obtain ⟨cs, hcarries, front, htiled, hread⟩ := exists_carries_of_ofBytes? h
  refine ⟨⟨map_get?_positions lp, ?_, hcarries.drains (by simp)⟩, ?_, ?_⟩
  · rw [htiled.entries_eq, List.length_map, hcarries.len_eq]
  · intro hrev hwindow
    obtain ⟨c, rest, rfl, hbytes⟩ := htiled.window_eq_iff.mp hwindow
    have hsplit : Tiled lp front ([c] ++ rest) := htiled
    -- the walk from the back on stops behind the first chunk
    have hstart : lp.prev? (place [c]) = none := by
      rw [← htiled.length_split [c]]
      refine prev?_eq_none hsplit.bytes_split ?_
      rw [← htiled.length_front, List.drop_left, join_cons, join_nil, List.append_nil, hbytes]
      rfl
    have hentries := hrev.entriesReversed_eq
    rw [hsplit.entriesReversed_eq hread.tail hstart, htiled.entries_eq] at hentries
    have hlength := congrArg List.length hentries
    simp at hlength
  · intro hwindow
    refine hcarries.reversible ?_
    cases cs with
    | nil => exact readBack_nil
    | cons c rest =>
        obtain ⟨hc, -⟩ := readBack_cons.mp hread
        exact readBack_cons.mpr ⟨hc.transfer fun hbytes =>
          absurd (htiled.window_eq_iff.mpr ⟨c, rest, rfl, hbytes⟩) hwindow, hread.tail⟩

/-- A string under a longer tag than it needs, and a zero with a flag on its length. -/
theorem reversible_padded_and_flagged :
    ofBytes? [13, 0, 0, 0, 2, 0, 0xE0, 0x01, 0x61, 0x03, 0x00, 0x81, 0xFF] =
        some ⟨buffer [13, 0, 0, 0, 2, 0, 0xE0, 0x01, 0x61, 0x03, 0x00, 0x81, 0xFF], 2⟩ ∧
      Reversible ⟨buffer [13, 0, 0, 0, 2, 0, 0xE0, 0x01, 0x61, 0x03, 0x00, 0x81, 0xFF], 2⟩ := by
  have hload : ofBytes? [13, 0, 0, 0, 2, 0, 0xE0, 0x01, 0x61, 0x03, 0x00, 0x81, 0xFF] =
      some ⟨buffer [13, 0, 0, 0, 2, 0, 0xE0, 0x01, 0x61, 0x03, 0x00, 0x81, 0xFF], 2⟩ := by
    decide +kernel
  exact ⟨hload, (reversible_iff hload).2.mpr (by decide +kernel)⟩

/-- One entry, the empty string, with a flag that leads into the header: it loads, and is
not found from the back. -/
theorem not_reversible_flagged_empty :
    ∃ lp, ofBytes? [9, 0, 0, 0, 1, 0, 0x80, 0x81, 0xFF] = some lp ∧ ¬lp.Reversible := by
  have hload : ofBytes? [9, 0, 0, 0, 1, 0, 0x80, 0x81, 0xFF] =
      some ⟨buffer [9, 0, 0, 0, 1, 0, 0x80, 0x81, 0xFF], 1⟩ := by
    decide +kernel
  refine ⟨_, hload, fun hrev => ?_⟩
  have hlen := hrev.last?_eq_none.mp (by decide +kernel)
  exact absurd hlen (by decide)

end CompactStore.Listpack
