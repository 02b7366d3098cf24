import CompactStore.Proofs.Quicklist.Contents

/-!
# What any values do to a quicklist

A value that no listpack can hold is skipped, and may leave an empty node behind at
the end to which it was pushed; a pop at this end then finds nothing although the list
holds values.  What is said here holds of every quicklist that pushes and pops make,
whatever was pushed: the nodes are a chain (`Chained`), a push never makes the list
shorter, and a pop takes as many values as the list becomes shorter by.
-/

namespace CompactStore.Quicklist

open Listpack

/-- The nodes are a chain, and the count is that of their entries. -/
def Chained (q : Quicklist) : Prop :=
  ∃ parts, Holds q .front parts

variable {q : Quicklist} {e : End} {parts rest : List Part} {value : Bytes}

/-- A new quicklist is a chain. -/
theorem chained_empty (nodeMax : Nat) : (empty nodeMax).Chained :=
  ⟨_, holds_empty nodeMax⟩

/-- A quicklist that is met from either end is a chain. -/
theorem Holds.chained (h : Holds q e parts) : q.Chained := by
  cases e with
  | front => exact ⟨parts, h⟩
  | back => exact ⟨_, h.flip⟩

/-- A chain can be met from either end. -/
theorem Chained.exists_holds (h : q.Chained) (e : End) : ∃ parts, Holds q e parts := by
  obtain ⟨parts, hparts⟩ := h
  cases e with
  | front => exact ⟨parts, hparts⟩
  | back => exact ⟨_, hparts.flip⟩

/-- A quicklist is not empty exactly if it counts values. -/
theorem isEmpty_eq_false_iff : q.isEmpty = false ↔ q.len ≠ 0 := decide_eq_false_iff_not

/-- The values from an end are the texts of the entries along the chain. -/
theorem Holds.orient_values (h : Holds q e parts) :
    e.orient q.values = (parts.flatMap Part.entries).map Entry.text := by
  rw [values, ← End.map_orient, h.orient_entries]

/-- A chain counts no values exactly if it has none. -/
theorem Chained.isEmpty_iff (h : q.Chained) : q.isEmpty = true ↔ q.values = [] := by
  obtain ⟨parts, hparts⟩ := h
  have hlen : q.count = q.entries.length := hparts.length_entries
  simp [isEmpty, values, hlen]

/-! ### Pushing -/

/-- Changing a node depends on what becomes of this node alone. -/
theorem modifyNode_congr {i : Nat} {f g : Node → Node} (hi : i < q.nodes.size)
    (h : f (q.node i) = g (q.node i)) : q.modifyNode i f = q.modifyNode i g := by
  have hnodes : q.nodes.modify i f = q.nodes.modify i g := by
    apply Array.ext_getElem?
    intro j
    rw [Array.getElem?_modify, Array.getElem?_modify]
    split
    · rename_i hij
      subst hij
      rw [node, Array.getD_eq_getD_getElem?, Array.getElem?_eq_getElem hi, Option.getD_some] at h
      rw [Array.getElem?_eq_getElem hi, Option.map_some, Option.map_some, h]
    · rfl
  rw [modifyNode, modifyNode, hnodes]

/-- A change that leaves a node leaves the quicklist. -/
theorem modifyNode_eq_self {i : Nat} {f : Node → Node} (hi : i < q.nodes.size)
    (hf : f (q.node i) = q.node i) : q.modifyNode i f = q := by
  have hnodes : q.nodes.modify i id = q.nodes := by
    apply Array.ext_getElem?
    intro j
    rw [Array.getElem?_modify, Option.map_id, id, ite_self]
  rw [modifyNode_congr (g := id) hi hf, modifyNode, hnodes]

/-- A value that the listpack at the end skips leaves the quicklist as it was. -/
theorem Holds.pushEdge_eq_self {i : Nat} {es : List Entry} (h : Holds q e (⟨i, es⟩ :: rest))
    (hskip : admits (offset es + 1) value = false) : q.pushEdge e value = q := by
  have hedge : q.edge e = i := h.edge_eq
  have hi : i < q.nodes.size := h.index_lt (p := ⟨i, es⟩) (by simp)
  have hpack : (q.node i).pack = ofEntries (e.orient es) := hedge ▸ h.pack_edge
  have hstored : stored (offset (e.orient es) + 1) [value] = [] := by
    rw [offset_orient, stored, hskip]
    rfl
  have hpush : ((ofEntries (e.orient es)).push e [value]).1 = ofEntries (e.orient es) := by
    rw [push_ofEntries (fits_orient e (h.fits ⟨i, es⟩ (by simp))), hstored]
    cases e <;> simp [End.attach]
  have hnodes : (q.modifyNode i fun node =>
      { node with pack := (node.pack.push e [value]).1 }) = q := by
    apply modifyNode_eq_self hi
    rw [hpack, hpush, ← hpack]
  unfold Quicklist.pushEdge
  rw [hedge]
  dsimp only
  rw [hnodes, Nat.sub_self]
  rfl

/-- Pushing onto the node at an end puts an entry in front, or skips the value. -/
theorem Holds.pushEdge_cases {i : Nat} {es : List Entry} (h : Holds q e (⟨i, es⟩ :: rest))
    (value : Bytes)
    (hlimit : es ≠ [] → offset es + 1 + (Entry.ofBytes value).encode.length ≤ q.nodeMax) :
    admits (offset es + 1) value = false ∧ q.pushEdge e value = q ∨
      Holds (q.pushEdge e value) e (⟨i, Entry.ofBytes value :: es⟩ :: rest) := by
  cases hadmits : admits (offset es + 1) value with
  | true =>
      obtain ⟨hencodable, hroom⟩ := admits_iff.mp hadmits
      exact .inr (h.pushEdge hencodable hroom hlimit)
  | false => exact .inl ⟨rfl, h.pushEdge_eq_self hadmits⟩

/-- A value that has an entry, but none that a listpack can hold. -/
def Oversized (value : Bytes) : Prop :=
  ∃ size ∈ Entry.encodedSize? value, maxBytes < size + 7

/-- **Pushing one value** leaves the list, or sets the value first, or links a node for an
oversized value that is then skipped. -/
theorem Holds.pushOne_cases {i : Nat} {es : List Entry} (h : Holds q e (⟨i, es⟩ :: rest))
    (value : Bytes) :
    Quicklist.pushOne e q value = q ∨
      (∃ after, Holds (Quicklist.pushOne e q value) e after ∧
        (Filled (⟨i, es⟩ :: rest) → Filled after) ∧
        after.flatMap Part.entries =
          Entry.ofBytes value :: (⟨i, es⟩ :: rest : List Part).flatMap Part.entries) ∨
      (Oversized value ∧ es ≠ []) ∧ Quicklist.pushOne e q value = q.extend e := by
  unfold Quicklist.pushOne
  split
  · exact .inl rfl
  · rename_i size hsize
    obtain ⟨hencodable, rfl⟩ := Entry.encodedSize?_eq_some_iff.mp hsize
    dsimp only
    split
    · rename_i hneeds
      obtain ⟨hes, -⟩ := (needsNode_iff h).mp hneeds
      obtain ⟨j, hextend⟩ := h.extend
      obtain ⟨hskip, hself⟩ | hpush := hextend.pushEdge_cases value fun hne => absurd rfl hne
      · -- not even an empty node takes the value
        have hover : Oversized value := by
          refine ⟨_, hsize, ?_⟩
          by_contra hfits
          have hstart : offset [] = 6 := rfl
          have hadmits : admits (offset [] + 1) value = true :=
            admits_iff.mpr ⟨hencodable, by omega⟩
          rw [hskip] at hadmits
          cases hadmits
        exact .inr (.inr ⟨⟨hover, hes⟩, hself⟩)
      · exact .inr (.inl ⟨_, hpush, fun hfilled => hfilled.cons_part hes, by simp⟩)
    · rename_i hneeds
      obtain ⟨-, hself⟩ | hpush := h.pushEdge_cases value fun hes => by
        by_contra hmore
        exact hneeds ((needsNode_iff h).mpr ⟨hes, by omega⟩)
      · exact .inl hself
      · exact .inr (.inl ⟨_, hpush, Filled.cons, by simp⟩)

/-- Linking a node counts no value. -/
theorem Holds.len_extend (h : Holds q e (p :: rest)) : (q.extend e).len = q.len := by
  obtain ⟨i, hextend⟩ := h.extend
  rw [len, len, hextend.count, h.count]
  rfl

/-- **Any push** keeps the chain and what it holds. -/
theorem Chained.pushOne (h : q.Chained) (e : End) (value : Bytes) :
    (Quicklist.pushOne e q value).Chained ∧ q.len ≤ (Quicklist.pushOne e q value).len := by
  obtain ⟨_ | ⟨⟨i, es⟩, rest⟩, hparts⟩ := h.exists_holds e
  · exact absurd hparts.first (by simp)
  obtain hself | ⟨after, hafter, -, hentries⟩ | ⟨-, hself⟩ := hparts.pushOne_cases value
  · rw [hself]
    exact ⟨h, Nat.le_refl _⟩
  · refine ⟨hafter.chained, ?_⟩
    rw [len, len, hafter.count, hentries, hparts.count, List.length_cons]
    exact Nat.le_succ _
  · rw [hself]
    obtain ⟨j, hextend⟩ := hparts.extend
    exact ⟨hextend.chained, hparts.len_extend.ge⟩

/-- A chain that holds something. -/
def Standing (q : Quicklist) : Prop :=
  q.Chained ∧ q.isEmpty = false

/-- As good as new, or a chain that holds something. -/
def Settled (nodeMax : Nat) (q : Quicklist) : Prop :=
  q = empty nodeMax ∨ q.Standing

/-- A settled quicklist is a chain. -/
theorem Settled.chained {nodeMax : Nat} (h : q.Settled nodeMax) : q.Chained := by
  obtain rfl | hstanding := h
  · exact chained_empty nodeMax
  · exact hstanding.1

/-- Pushing a value keeps a quicklist standing, whether or not it is stored. -/
theorem Standing.pushOne (h : q.Standing) (e : End) (value : Bytes) :
    (pushOne e q value).Standing := by
  obtain ⟨hchained, hsome⟩ := h
  obtain ⟨hpushed, hlen⟩ := hchained.pushOne e value
  rw [isEmpty_eq_false_iff] at hsome
  exact ⟨hpushed, isEmpty_eq_false_iff.mpr (by omega)⟩

/-- Onto a list without values, a value is pushed or the list is left as it was. -/
theorem pushOne_empty (nodeMax : Nat) (e : End) (value : Bytes) :
    pushOne e (empty nodeMax) value = empty nodeMax ∨
      (pushOne e (empty nodeMax) value).isEmpty = false := by
  have h : Holds (empty nodeMax) e [⟨0, []⟩] := by
    cases e with
    | front => exact holds_empty nodeMax
    | back => exact (holds_empty nodeMax).flip
  obtain hself | ⟨after, hafter, -, hentries⟩ | ⟨⟨-, hne⟩, -⟩ := h.pushOne_cases value
  · exact .inl hself
  · refine .inr ?_
    rw [isEmpty, hafter.count, hentries]
    simp
  · exact absurd rfl hne

/-- Pushing a value keeps a quicklist settled. -/
theorem Settled.pushOne {nodeMax : Nat} (h : q.Settled nodeMax) (e : End) (value : Bytes) :
    (pushOne e q value).Settled nodeMax := by
  obtain rfl | hstanding := h
  · have hpushed := ((chained_empty nodeMax).pushOne e value).1
    exact (pushOne_empty nodeMax e value).imp_right fun hsome => ⟨hpushed, hsome⟩
  · exact .inr (hstanding.pushOne e value)

/-- **What every single push keeps, a push keeps.** -/
theorem push_keeps {P : Quicklist → Prop} {block : List Bytes}
    (hstep : ∀ q, ∀ value ∈ block, P q → P (pushOne e q value)) (h : P q) :
    P (q.push e block).1 := by
  have hfold : ∀ values : List Bytes, (∀ value ∈ values, value ∈ block) →
      P (values.foldl (pushOne e) q) := by
    intro values hvalues
    induction values generalizing q with
    | nil => exact h
    | cons value rest ih =>
        apply ih (hstep q value (hvalues value List.mem_cons_self) h)
        exact fun v hv => hvalues v (List.mem_cons_of_mem _ hv)
  cases e with
  | front => exact hfold block.reverse fun v hv => List.mem_reverse.mp hv
  | back => exact hfold block fun v hv => hv

/-! ### Popping -/

/-- **Any pop** takes the value that is met first off, or finds the node at the end
empty. -/
theorem Chained.pop?_cases (h : q.Chained) (e : End) :
    q.pop? e = none ∨ ∃ value r, q.pop? e = some (value, r) ∧ r.Chained ∧
      e.orient q.values = value :: e.orient r.values := by
  obtain ⟨_ | ⟨⟨i, _ | ⟨x, es⟩⟩, rest⟩, hparts⟩ := h.exists_holds e
  · exact absurd hparts.first (by simp)
  · exact .inl hparts.pop?_edge_nil
  obtain ⟨r, hpop, hr⟩ := hparts.cutEdge
  refine .inr ⟨x.text, r.trim e, hpop, ?_⟩
  by_cases hkeep : es ≠ [] ∨ rest = []
  · rw [hr.trim_eq_self hkeep, hparts.orient_values, hr.orient_values]
    exact ⟨hr.chained, rfl⟩
  · rw [not_or, not_not] at hkeep
    obtain ⟨rfl, hrest⟩ := hkeep
    obtain ⟨p, rest, rfl⟩ := List.exists_cons_of_ne_nil hrest
    rw [hparts.orient_values, hr.trim_cons.orient_values]
    exact ⟨hr.trim_cons.chained, rfl⟩

/-- Nothing is popped from a chain that counts no values. -/
theorem Chained.pop?_of_isEmpty (h : q.Chained) (hempty : q.isEmpty = true) (e : End) :
    q.pop? e = none := by
  obtain hnone | ⟨value, r, -, -, hvalues⟩ := h.pop?_cases e
  · exact hnone
  · rw [h.isEmpty_iff.mp hempty, End.orient_nil] at hvalues
    cases hvalues

/-- A chain that counts no values stays as it is when it is popped from. -/
theorem Chained.popMany_of_isEmpty (h : q.Chained) (hempty : q.isEmpty = true) (e : End)
    (count : Nat) : q.popMany e count = (q, []) := by
  cases count with
  | zero => rfl
  | succ count => rw [popMany, Quicklist.popEach, h.pop?_of_isEmpty hempty, List.reverse_nil]

/-- **Many pops** take what is met first, and leave the rest. -/
theorem Chained.popEach (h : q.Chained) (e : End) (count : Nat) (taken : List Bytes) :
    (q.popEach e count taken).1.Chained ∧
      taken.reverse ++ e.orient q.values =
        (q.popEach e count taken).2 ++ e.orient (q.popEach e count taken).1.values := by
  induction count generalizing q taken with
  | zero => exact ⟨h, rfl⟩
  | succ count ih =>
      rw [Quicklist.popEach]
      obtain hnone | ⟨value, r, hpop, hr, hvalues⟩ := h.pop?_cases e
      · rw [hnone]
        exact ⟨h, rfl⟩
      · rw [hpop]
        obtain ⟨hrest, htaken⟩ := ih hr (value :: taken)
        rw [List.reverse_cons, List.append_assoc, List.singleton_append, ← hvalues] at htaken
        exact ⟨hrest, htaken⟩

/-- No more values are popped than were asked for. -/
theorem length_popEach_le (q : Quicklist) (e : End) (count : Nat) (taken : List Bytes) :
    (q.popEach e count taken).2.length ≤ taken.length + count := by
  induction count generalizing q taken with
  | zero => exact (List.length_reverse).le
  | succ count ih =>
      rw [Quicklist.popEach]
      rcases q.pop? e with _ | ⟨value, r⟩
      · exact (List.length_reverse).le.trans (Nat.le_add_right _ _)
      · exact (ih r (value :: taken)).trans_eq (by rw [List.length_cons]; omega)

end CompactStore.Quicklist
