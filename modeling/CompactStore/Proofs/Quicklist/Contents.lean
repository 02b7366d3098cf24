import CompactStore.Proofs.Quicklist.Edit
import CompactStore.Quicklist.Basic

/-!
# What a quicklist holds

`Stores q e values` says that the values of a quicklist, met from the end `e`, are
these.  It is the only thing that a caller has to know: every operation on a
quicklist is an operation on this sequence, whatever nodes it has.
-/

namespace CompactStore.Quicklist

open Listpack

/-- The values of a quicklist as they are met from an end. -/
def Stores (q : Quicklist) (e : End) (values : List Bytes) : Prop :=
  q.nodeMax ≤ maxBytes ∧ ∃ parts, Holds q e parts ∧ Filled parts ∧
    parts.flatMap Part.entries = values.map Entry.ofBytes

variable {q : Quicklist} {e : End} {values : List Bytes}

/-- From the other end the values are met in reverse. -/
theorem Stores.turn (h : Stores q e values) : Stores q e.opposite values.reverse := by
  obtain ⟨hmax, parts, hparts, hfilled, hentries⟩ := h
  refine ⟨hmax, flip parts, hparts.flip, hfilled.flip, ?_⟩
  rw [flatMap_entries_flip, hentries, List.map_reverse]

/-- Either end tells what the front tells. -/
theorem stores_orient (e : End) : Stores q e (e.orient values) ↔ Stores q .front values := by
  cases e with
  | front => rfl
  | back =>
      constructor
      · intro h
        have hturn := h.turn
        rwa [End.orient, List.reverse_reverse] at hturn
      · exact Stores.turn

/-- A new quicklist is one node without entries. -/
theorem holds_empty (nodeMax : Nat) : Holds (empty nodeMax) .front [⟨0, []⟩] := by
  constructor
  case linked => exact ⟨rfl, trivial⟩
  case first => rfl
  case last => rfl
  case slots => exact List.Perm.refl _
  case count => rfl
  case fits =>
    intro p hp
    obtain rfl := List.mem_singleton.mp hp
    exact ⟨by simp, show offset [] + 1 ≤ maxBytes by decide⟩
  case limit =>
    intro p hp hlen
    obtain rfl := List.mem_singleton.mp hp
    simp at hlen

/-- **A new quicklist** has no values, met from either end. -/
theorem stores_empty {nodeMax : Nat} (h : nodeMax ≤ maxBytes) : Stores (empty nodeMax) e [] := by
  rw [← End.orient_nil e, stores_orient]
  refine ⟨max_le h (by decide), [⟨0, []⟩], holds_empty nodeMax, ?_, rfl⟩
  intro p hp _
  obtain rfl := List.mem_singleton.mp hp
  rfl

/-! ### Reading -/

/-- The length is the number of values. -/
theorem Stores.len_eq (h : Stores q e values) : q.len = values.length := by
  obtain ⟨-, parts, hparts, -, hentries⟩ := h
  rw [len, hparts.count, hentries, List.length_map]

/-- A quicklist is empty exactly if it has no values. -/
theorem Stores.isEmpty_iff (h : Stores q e values) : q.isEmpty = true ↔ values = [] := by
  have hcount : q.count = values.length := h.len_eq
  simp [isEmpty, hcount]

/-- The entries are those of the values. -/
theorem Stores.entries_eq (h : Stores q .front values) : q.entries = values.map Entry.ofBytes := by
  obtain ⟨-, parts, hparts, -, hentries⟩ := h
  rw [hparts.entries_eq, hentries]

/-- Values are told by their entries. -/
theorem map_text_ofBytes (values : List Bytes) :
    (values.map Entry.ofBytes).map Entry.text = values := by
  induction values with
  | nil => rfl
  | cons value rest ih => rw [List.map_cons, List.map_cons, ih, Entry.text_ofBytes]

/-- **The values** are read off from the front. -/
theorem Stores.values_eq (h : Stores q .front values) : q.values = values := by
  rw [Quicklist.values, h.entries_eq, map_text_ofBytes]

/-- Skipping whole listpacks reaches the value at an offset. -/
theorem valueIn?_map_ofEntries {parts : List Part} (h : ∀ p ∈ parts, Fits p.entries) (n : Nat) :
    valueIn? (parts.map fun p => ofEntries p.entries) n =
      (parts.flatMap Part.entries)[n]?.map Entry.text := by
  induction parts generalizing n with
  | nil => rfl
  | cons p rest ih =>
      have hentries := entries_ofEntries (h p (by simp)).encodable
      rw [List.map_cons, valueIn?, len_ofEntries, hentries, List.flatMap_cons]
      split
      · rename_i hin
        rw [List.getElem?_append_left hin]
      · rename_i hout
        rw [ih (fun s hs => h s (by simp [hs])), List.getElem?_append_right (by omega)]

/-- **Reading at an index** counts from the back when it is negative. -/
theorem Holds.index?_eq {parts : List Part} (h : Holds q .front parts) (i : Int) :
    q.index? i = Deque.at? q.values i := by
  have hlen : q.len = q.values.length := by
    rw [Quicklist.values, List.length_map, h.length_entries]
  have hvalues : (parts.flatMap Part.entries).map Entry.text = q.values := by
    rw [Quicklist.values, h.entries_eq]
  unfold index? Deque.at? Deque.position
  rw [hlen, h.packs_eq]
  generalize (if i < 0 then (q.values.length : Int) + i else i) = position
  dsimp only
  by_cases hout : position < 0
  · rw [if_pos (Or.inl hout), if_pos hout]
  · rw [if_neg hout]
    split
    · rw [List.getElem?_eq_none (by omega)]
    · rw [valueIn?_map_ofEntries h.fits, ← List.getElem?_map, hvalues]

/-- **Reading a range.** -/
theorem Holds.range_eq {parts : List Part} (h : Holds q .front parts) (start stop : Int) :
    q.range start stop = Deque.slice q.values start stop := by
  have hlen : q.len = q.values.length := by
    rw [Quicklist.values, List.length_map, h.length_entries]
  have hcut : ∀ n m, ((q.entries.drop n).take m).map Entry.text = (q.values.drop n).take m := by
    intro n m
    rw [List.map_take, List.map_drop, Quicklist.values]
  have hstart : (if start < 0 then max (q.values.length + start : Int) 0 else start) =
      max (Deque.position q.values start) 0 := by
    unfold Deque.position
    split <;> omega
  have hstop : (if stop < 0 then (q.values.length + stop : Int)
      else min stop (q.values.length - 1)) =
        min (Deque.position q.values stop) (q.values.length - 1) := by
    unfold Deque.position
    split <;> omega
  -- both bounds are positions of the sequence, cut off at its ends
  rw [Deque.slice_eq]
  unfold range
  dsimp only
  rw [hlen, hstart, hstop]
  generalize Deque.position q.values start = low
  generalize Deque.position q.values stop = high
  split
  · symm
    apply List.eq_nil_of_length_eq_zero
    rw [List.length_drop, List.length_take]
    omega
  · have hclamp : (max low 0).toNat = low.toNat := by omega
    rw [hcut, List.drop_take, hclamp]
    apply List.take_eq_take_iff.mpr
    rw [List.length_drop]
    omega

/-- **An index** is that of the sequence. -/
theorem Stores.index?_eq (h : Stores q .front values) (i : Int) :
    q.index? i = Deque.at? values i := by
  have hvalues := h.values_eq
  obtain ⟨-, parts, hparts, -, -⟩ := h
  rw [hparts.index?_eq, hvalues]

/-- **A range** is that of the sequence. -/
theorem Stores.range_eq (h : Stores q .front values) (start stop : Int) :
    q.range start stop = Deque.slice values start stop := by
  have hvalues := h.values_eq
  obtain ⟨-, parts, hparts, -, -⟩ := h
  rw [hparts.range_eq, hvalues]

/-! ### Pushing -/

/-- **Values that are pushed** one after another are met in reverse, by induction on them. -/
theorem Stores.foldl_pushOne {block : List Bytes} (h : Stores q e values)
    (hblock : ∀ value ∈ block, Storable value) :
    Stores (block.foldl (pushOne e) q) e (block.reverse ++ values) := by
  induction block generalizing q values with
  | nil => exact h
  | cons value rest ih =>
      obtain ⟨hmax, parts, hparts, hfilled, hentries⟩ := h
      obtain ⟨after, hafter, hfilled', hentries'⟩ :=
        hparts.pushOne hfilled hmax (hblock value (by simp))
      have hone : Stores (Quicklist.pushOne e q value) e (value :: values) := by
        refine ⟨(nodeMax_pushOne q e value).symm ▸ hmax, after, hafter, hfilled', ?_⟩
        rw [hentries', hentries, List.map_cons]
      have hrest := ih hone fun v hv => hblock v (by simp [hv])
      rwa [List.reverse_cons, List.append_assoc, List.singleton_append]

/-- **A push sets its block at an end**, in call order, and counts all of it. -/
theorem Stores.push {block : List Bytes} (h : Stores q .front values) (e : End)
    (hblock : ∀ value ∈ block, Storable value) :
    Stores (q.push e block).1 .front (e.attach block values) ∧
      (q.push e block).2 = block.length := by
  have hcontents : Stores (q.push e block).1 .front (e.attach block values) := by
    cases e with
    | front =>
        have hreversed : ∀ value ∈ block.reverse, Storable value := fun v hv =>
          hblock v (List.mem_reverse.mp hv)
        have hfold := h.foldl_pushOne hreversed
        rwa [List.reverse_reverse] at hfold
    | back =>
        have hfold := ((stores_orient .back).mpr h).foldl_pushOne hblock
        rw [End.orient, ← List.reverse_append] at hfold
        exact (stores_orient .back).mp hfold
  refine ⟨hcontents, ?_⟩
  have hafter : (q.push e block).1.count = (e.attach block values).length := hcontents.len_eq
  have hbefore : q.count = values.length := h.len_eq
  have hanswer : (q.push e block).2 = (q.push e block).1.count - q.count := rfl
  rw [hanswer, hafter, hbefore, End.length_attach, Nat.add_sub_cancel_right]

/-! ### Popping -/

/-- **A pop** takes the first value from the end. -/
theorem Stores.pop?_cons {value : Bytes} (h : Stores q e (value :: values)) :
    ∃ r, q.pop? e = some (value, r) ∧ Stores r e values := by
  obtain ⟨hmax, parts, hparts, hfilled, hentries⟩ := h
  obtain ⟨r, after, hpop, hafter, hfilled', hentries'⟩ := hparts.pop? hfilled hentries
  rw [Entry.text_ofBytes] at hpop
  exact ⟨r, hpop, (nodeMax_pop? hpop).symm ▸ hmax, after, hafter, hfilled', hentries'⟩

/-- Nothing is popped from a quicklist without values. -/
theorem Stores.pop?_nil (h : Stores q e []) : q.pop? e = none := by
  obtain ⟨-, parts, hparts, -, hentries⟩ := h
  exact hparts.pop?_nil hentries

/-- A pop finds nothing, or the value that is met first from its end. -/
theorem Stores.pop?_cases (h : Stores q .front values) (e : End) :
    (values = [] ∧ q.pop? e = none) ∨
      ∃ value rest r, e.orient values = value :: rest ∧ q.pop? e = some (value, r) ∧
        Stores r .front (e.orient rest) := by
  have hseen := (stores_orient e).mpr h
  cases horient : e.orient values with
  | nil =>
      rw [horient] at hseen
      exact .inl ⟨(End.orient_eq_nil e values).mp horient, hseen.pop?_nil⟩
  | cons value rest =>
      rw [horient] at hseen
      obtain ⟨r, hpop, hr⟩ := hseen.pop?_cons
      rw [← End.orient_orient e rest, stores_orient] at hr
      exact .inr ⟨value, rest, r, rfl, hpop, hr⟩

/-- **Pops one after another** take the first values from the end, by induction on their number.
-/
theorem Stores.popEach (h : Stores q e values) (count : Nat) (taken : List Bytes) :
    (q.popEach e count taken).2 = taken.reverse ++ values.take count ∧
      Stores (q.popEach e count taken).1 e (values.drop count) := by
  induction count generalizing q values taken with
  | zero => exact ⟨by simp [Quicklist.popEach], h⟩
  | succ count ih =>
      cases values with
      | nil =>
          rw [Quicklist.popEach, h.pop?_nil]
          exact ⟨by simp, h⟩
      | cons value rest =>
          obtain ⟨r, hpop, hr⟩ := h.pop?_cons
          rw [Quicklist.popEach, hpop]
          obtain ⟨htaken, hleft⟩ := ih hr (value :: taken)
          exact ⟨by rw [htaken]; simp, hleft⟩

/-- **A pop of many takes what is met first**, in this order. -/
theorem Stores.popMany (h : Stores q .front values) (e : End) (count : Nat) :
    (q.popMany e count).2 = (e.orient values).take count ∧
      Stores (q.popMany e count).1 .front (e.orient ((e.orient values).drop count)) := by
  obtain ⟨htaken, hleft⟩ := ((stores_orient e).mpr h).popEach count []
  refine ⟨htaken, (stores_orient e).mp ?_⟩
  rw [End.orient_orient]
  exact hleft

end CompactStore.Quicklist
