import CompactStore.Proofs.Quicklist.Chain

/-!
# Pushes and pops along the chain

Each operation at an end is an equation about the parts as they are met from
there.  Linking a node puts an empty part in front, pushing puts an entry in front
of the first part, and a pop takes it off again; a part that becomes empty is left
out when there is another.
-/

namespace CompactStore.Quicklist

open Listpack

variable {q : Quicklist} {e : End} {parts rest : List Part} {p : Part}

/-! ### The arena -/

/-- Changing a node changes this node and no other. -/
theorem node_modifyNode (q : Quicklist) {i : Nat} (hi : i < q.nodes.size) (j : Nat)
    (f : Node → Node) :
    (q.modifyNode i f).node j = if i = j then f (q.node j) else q.node j := by
  simp only [node, modifyNode, Array.getD_eq_getD_getElem?, Array.getElem?_modify]
  split
  · rename_i hij
    subst hij
    rw [Array.getElem?_eq_getElem hi]
    rfl
  · rfl

/-- Changing a node leaves the size of the arena. -/
@[simp] theorem size_modifyNode (q : Quicklist) (i : Nat) (f : Node → Node) :
    (q.modifyNode i f).nodes.size = q.nodes.size := by
  simp [modifyNode]

/-- An end is where it was set. -/
@[simp] theorem edge_setEdge (q : Quicklist) (e : End) (i : Nat) : (q.setEdge e i).edge e = i := by
  cases e <;> rfl

/-- Setting one end leaves the other. -/
@[simp] theorem edge_opposite_setEdge (q : Quicklist) (e : End) (i : Nat) :
    (q.setEdge e i).edge e.opposite = q.edge e.opposite := by
  cases e <;> rfl

/-- Setting an end leaves the arena, the free slots and the count. -/
theorem setEdge_fields (q : Quicklist) (e : End) (i : Nat) :
    (q.setEdge e i).nodes = q.nodes ∧ (q.setEdge e i).free = q.free ∧
      (q.setEdge e i).count = q.count := by
  cases e <;> exact ⟨rfl, rfl, rfl⟩

/-- No slot is linked twice, and none is both linked and free. -/
theorem Holds.nodup (h : Holds q e parts) : (parts.map Part.index ++ q.free).Nodup :=
  h.slots.nodup_iff.mpr List.nodup_range

/-- No two parts share an index. -/
theorem Holds.pairwise_ne (h : Holds q e parts) : parts.Pairwise fun p s => p.index ≠ s.index :=
  List.pairwise_map.mp (List.nodup_append.mp h.nodup).1

/-- A linked node is in the arena. -/
theorem Holds.index_lt (h : Holds q e parts) (hp : p ∈ parts) : p.index < q.nodes.size := by
  have hmem : p.index ∈ parts.map Part.index ++ q.free :=
    List.mem_append_left _ (List.mem_map_of_mem hp)
  exact List.mem_range.mp (h.slots.mem_iff.mp hmem)

/-- A free slot is in the arena. -/
theorem Holds.free_lt (h : Holds q e parts) {i : Nat} (hi : i ∈ q.free) :
    i < q.nodes.size := by
  have hmem : i ∈ parts.map Part.index ++ q.free := List.mem_append_right _ hi
  exact List.mem_range.mp (h.slots.mem_iff.mp hmem)

/-- The end that the chain is seen from is its first node. -/
theorem Holds.edge_eq (h : Holds q e (p :: rest)) : q.edge e = p.index :=
  (Option.some.inj h.first).symm

/-- **Placing a node** fills one index, which was free or is new, and leaves the
other nodes alone. -/
theorem place_spec (q : Quicklist) (new : Node) {linked : List Nat}
    (hslots : (linked ++ q.free).Perm (List.range q.nodes.size)) :
    (∀ j, (q.place new).1.node j = if j = (q.place new).2 then new else q.node j) ∧
      ((q.place new).2 :: linked ++ (q.place new).1.free).Perm
        (List.range (q.place new).1.nodes.size) ∧
      (∀ e, (q.place new).1.edge e = q.edge e) ∧
      (q.place new).1.count = q.count := by
  obtain ⟨nodes, free, head, tail, count, nodeMax⟩ := q
  cases free with
  | nil =>
      refine ⟨?_, ?_, fun e => by cases e <;> rfl, rfl⟩
      · intro j
        simp only [place, node, Array.getD_eq_getD_getElem?, Array.getElem?_push]
        split <;> rfl
      · simp only [place, Array.size_push, List.range_succ, List.append_nil] at hslots ⊢
        exact (List.Perm.cons _ hslots).trans (List.perm_append_singleton _ _).symm
  | cons i free =>
      have hi : i < nodes.size := by
        have hmem : i ∈ linked ++ i :: free := by simp
        exact List.mem_range.mp (hslots.mem_iff.mp hmem)
      refine ⟨?_, ?_, fun e => by cases e <;> rfl, rfl⟩
      · intro j
        simp only [place, node, Array.getD_eq_getD_getElem?, Array.getElem?_setIfInBounds]
        by_cases hij : i = j
        · subst hij
          rw [if_pos rfl, if_pos hi, if_pos rfl]
          rfl
        · rw [if_neg hij, if_neg (Ne.symm hij)]
      · simp only [place, Array.size_setIfInBounds]
        exact (List.perm_middle.symm).trans hslots

/-- Setting an end leaves every node. -/
@[simp] theorem node_setEdge (q : Quicklist) (e : End) (i j : Nat) :
    (q.setEdge e i).node j = q.node j := by
  cases e <;> rfl

/-! ### The limit stays -/

/-- A new node leaves the limit. -/
@[simp] theorem nodeMax_place (q : Quicklist) (new : Node) :
    (q.place new).1.nodeMax = q.nodeMax := by
  obtain ⟨nodes, free, head, tail, count, nodeMax⟩ := q
  cases free <;> rfl

@[simp] theorem nodeMax_setEdge (q : Quicklist) (e : End) (i : Nat) :
    (q.setEdge e i).nodeMax = q.nodeMax := by
  cases e <;> rfl

/-- Linking a node leaves the limit. -/
@[simp] theorem nodeMax_extend (q : Quicklist) (e : End) : (q.extend e).nodeMax = q.nodeMax := by
  simp only [extend, nodeMax_setEdge]
  exact nodeMax_place q _

/-- Pushing one value leaves the limit. -/
@[simp] theorem nodeMax_pushOne (q : Quicklist) (e : End) (value : Bytes) :
    (pushOne e q value).nodeMax = q.nodeMax := by
  unfold pushOne
  split
  · rfl
  · split
    · exact nodeMax_extend q e
    · rfl

/-- Pushing values leaves the limit. -/
@[simp] theorem nodeMax_push (q : Quicklist) (e : End) (values : List Bytes) :
    (q.push e values).1.nodeMax = q.nodeMax := by
  have hfold : ∀ (r : Quicklist) (block : List Bytes),
      (block.foldl (pushOne e) r).nodeMax = r.nodeMax := by
    intro r block
    induction block generalizing r with
    | nil => rfl
    | cons value rest ih => rw [List.foldl_cons, ih, nodeMax_pushOne]
  cases e <;> exact hfold _ _

/-- Taking an empty node off leaves the limit. -/
@[simp] theorem nodeMax_trim (q : Quicklist) (e : End) : (q.trim e).nodeMax = q.nodeMax := by
  unfold trim
  dsimp only
  split
  · rfl
  · split
    · exact nodeMax_setEdge _ e _
    · rfl

/-- What a pop leaves: the node at the end is changed, and trimmed. -/
theorem exists_trim_of_pop? {r : Quicklist} {value : Bytes} (h : q.pop? e = some (value, r)) :
    ∃ f, r = { q.modifyNode (q.edge e) f with count := q.count - 1 }.trim e := by
  unfold pop? at h
  dsimp only at h
  split at h
  · cases h
  · split at h
    · cases h
    · obtain ⟨-, rfl⟩ := Prod.mk.inj (Option.some.inj h)
      exact ⟨_, rfl⟩

/-- Popping a value leaves the limit. -/
theorem nodeMax_pop? {r : Quicklist} {value : Bytes} (h : q.pop? e = some (value, r)) :
    r.nodeMax = q.nodeMax := by
  obtain ⟨f, rfl⟩ := exists_trim_of_pop? h
  exact nodeMax_trim _ e

/-! ### Linking -/

/-- What linking a node writes: the new node under an index that no part has, and a link
to it in the node that was at the end. -/
theorem Holds.extend_spec (h : Holds q e (p :: rest)) :
    ∃ i, (q.extend e).node i = .facing e Listpack.empty none (some p.index) ∧
      (q.extend e).node p.index = (q.node p.index).link e (some i) ∧
      (∀ s ∈ rest, (q.extend e).node s.index = q.node s.index) ∧
      (q.extend e).edge e = i ∧ (q.extend e).edge e.opposite = q.edge e.opposite ∧
      (i :: (p :: rest).map Part.index ++ (q.extend e).free).Perm
        (List.range (q.extend e).nodes.size) ∧
      (q.extend e).count = q.count := by
  have hlink : ({} : Node).link e.opposite (some (q.edge e)) =
      .facing e Listpack.empty none (some p.index) := by
    rw [h.edge_eq]
    cases e <;> rfl
  have hextend : q.extend e =
      ((q.place (.facing e Listpack.empty none (some p.index))).1.modifyNode p.index
        fun node => node.link e
          (some (q.place (.facing e Listpack.empty none (some p.index))).2)).setEdge e
      (q.place (.facing e Listpack.empty none (some p.index))).2 := by
    rw [Quicklist.extend, hlink, h.edge_eq]
  obtain ⟨hnode, hslots, hedge, hcount⟩ :=
    place_spec q (.facing e Listpack.empty none (some p.index)) h.slots
  generalize q.place (.facing e Listpack.empty none (some p.index)) = placed at *
  obtain ⟨r, i⟩ := placed
  dsimp only at hnode hslots hedge hcount hextend
  obtain ⟨hnodes, hfree, hcount'⟩ := setEdge_fields
    (r.modifyNode p.index fun node => node.link e (some i)) e i
  -- the new index is none of the linked ones, so writing its node leaves theirs
  have hnodup : (i :: (p :: rest).map Part.index ++ r.free).Nodup :=
    hslots.nodup_iff.mpr List.nodup_range
  have hfresh : ∀ s ∈ p :: rest, s.index ≠ i := by
    intro s hs heq
    exact (List.nodup_cons.mp hnodup).1 (List.mem_append_left _ (heq ▸ List.mem_map_of_mem hs))
  have hold : p.index < r.nodes.size := by
    have hmem : p.index ∈ i :: (p :: rest).map Part.index ++ r.free := by simp
    exact List.mem_range.mp (hslots.mem_iff.mp hmem)
  have hpi := hfresh p List.mem_cons_self
  rw [hextend]
  refine ⟨i, ?_, ?_, ?_, edge_setEdge _ e i, ?_, ?_, hcount'.trans hcount⟩
  · rw [node_setEdge, node_modifyNode r hold, if_neg hpi, hnode, if_pos rfl]
  · rw [node_setEdge, node_modifyNode r hold, if_pos rfl, hnode, if_neg hpi]
  · intro s hs
    rw [node_setEdge, node_modifyNode r hold,
      if_neg (List.rel_of_pairwise_cons h.pairwise_ne hs), hnode,
      if_neg (hfresh s (List.mem_cons_of_mem p hs))]
  · rw [edge_opposite_setEdge]
    exact hedge e.opposite
  · rw [hnodes, hfree, size_modifyNode]
    exact hslots

/-- **Linking a node** puts an empty part in front. -/
theorem Holds.extend (h : Holds q e (p :: rest)) :
    ∃ i, Holds (q.extend e) e (⟨i, []⟩ :: p :: rest) := by
  obtain ⟨i, hnew, hold, hothers, hedge, hopposite, hslots, hcount⟩ := h.extend_spec
  refine ⟨i, ?_⟩
  constructor
  case linked =>
    refine ⟨?_, ?_, h.linked.2.congr hothers⟩
    · rw [hnew]
      simp [ofEntries_nil]
    · rw [hold, h.linked.1, Node.facing_link]
  case first => exact congrArg some hedge.symm
  case last =>
    have hlast := h.last
    rw [List.getLast?_cons_cons, hlast, hopposite]
  case slots => exact hslots
  case count => exact hcount.trans h.count
  case fits =>
    intro s hs
    rcases List.mem_cons.mp hs with rfl | hs
    · exact ⟨by simp, show offset [] + 1 ≤ maxBytes by decide⟩
    · exact h.fits s hs
  case limit =>
    intro s hs hlen
    rcases List.mem_cons.mp hs with rfl | hs
    · simp at hlen
    · rw [nodeMax_extend]
      exact h.limit s hs hlen

/-- **Another listpack in the first node.**  It may hold other entries, as long
as they can be written and keep to the limit. -/
theorem Holds.setPack {i : Nat} {es new : List Entry} (h : Holds q e (⟨i, es⟩ :: rest))
    (f : Listpack → Listpack) (hf : f (ofEntries (e.orient es)) = ofEntries (e.orient new))
    (hfits : Fits new) (hlimit : 2 ≤ new.length → offset new + 1 ≤ q.nodeMax) {count : Nat}
    (hcount : count = new.length + (rest.flatMap Part.entries).length) :
    Holds { q.modifyNode i (fun node => { node with pack := f node.pack }) with count := count } e
      (⟨i, new⟩ :: rest) := by
  have hi : i < q.nodes.size := h.index_lt (p := ⟨i, es⟩) (by simp)
  have hread := node_modifyNode q hi (f := fun node => { node with pack := f node.pack })
  constructor
  case linked =>
    refine ⟨?_, h.linked.2.congr ?_⟩
    · have hfirst := hread i
      rw [if_pos rfl, h.linked.1, Node.facing_pack, hf, Node.facing_with_pack] at hfirst
      exact hfirst
    · -- no other node has this index, so the links behind it stay
      intro s hs
      have hne : i ≠ s.index := List.rel_of_pairwise_cons h.pairwise_ne hs
      have hother := hread s.index
      rw [if_neg hne] at hother
      exact hother
  case first => cases e <;> exact h.first
  case last =>
    cases rest with
    | nil => cases e <;> exact h.last
    | cons s rest => cases e <;> exact h.last
  case slots =>
    have hslots := h.slots
    rw [← size_modifyNode q i fun node => { node with pack := f node.pack }] at hslots
    exact hslots
  case count => rw [hcount, List.flatMap_cons, List.length_append]
  case fits =>
    intro s hs
    rcases List.mem_cons.mp hs with rfl | hs
    · exact hfits
    · exact h.fits s (by simp [hs])
  case limit =>
    intro s hs hlen
    rcases List.mem_cons.mp hs with rfl | hs
    · exact hlimit hlen
    · exact h.limit s (by simp [hs]) hlen

/-! ### Pushing -/

/-- A value of which the entry fits into a listpack of its own. -/
def Storable (value : Bytes) : Prop :=
  ∃ size ∈ Entry.encodedSize? value, size + 7 ≤ maxBytes

instance : DecidablePred Storable := fun _ =>
  inferInstanceAs (Decidable (∃ size ∈ _, _))

/-- What can be stored has an entry that can be written and leaves room for the header and the
terminator. -/
theorem storable_iff {value : Bytes} :
    Storable value ↔ (Entry.ofBytes value).Encodable ∧
      (Entry.ofBytes value).encode.length + 7 ≤ maxBytes := by
  constructor
  · rintro ⟨size, hsize, hfits⟩
    obtain ⟨h, rfl⟩ := Entry.encodedSize?_eq_some_iff.mp hsize
    exact ⟨h, hfits⟩
  · rintro ⟨h, hfits⟩
    exact ⟨_, Entry.encodedSize?_eq_some_iff.mpr ⟨h, rfl⟩, hfits⟩

/-- Entries take up as much room in either direction. -/
theorem offset_orient (e : End) (es : List Entry) : offset (e.orient es) = offset es := by
  cases e with
  | front => rfl
  | back => exact offset_reverse es

/-- Entries fit in either direction. -/
theorem fits_orient {es : List Entry} (e : End) (h : Fits es) : Fits (e.orient es) := by
  cases e with
  | front => exact h
  | back => exact fits_reverse h

/-- One more entry takes up its own bytes. -/
theorem offset_cons (x : Entry) (es : List Entry) :
    offset (x :: es) = offset es + x.encode.length := by
  rw [offset, offset, packed_cons, List.length_append]
  omega

/-- The pack of the node at an end. -/
theorem Holds.pack_edge {i : Nat} {es : List Entry} (h : Holds q e (⟨i, es⟩ :: rest)) :
    (q.node (q.edge e)).pack = ofEntries (e.orient es) := by
  rw [h.edge_eq, h.linked.1, Node.facing_pack]

/-- **Pushing onto the node at an end**, when it has room, puts an entry in front. -/
theorem Holds.pushEdge {i : Nat} {es : List Entry} {value : Bytes}
    (h : Holds q e (⟨i, es⟩ :: rest)) (hencodable : (Entry.ofBytes value).Encodable)
    (hroom : offset es + 1 + (Entry.ofBytes value).encode.length ≤ maxBytes)
    (hlimit : es ≠ [] → offset es + 1 + (Entry.ofBytes value).encode.length ≤ q.nodeMax) :
    Holds (q.pushEdge e value) e (⟨i, Entry.ofBytes value :: es⟩ :: rest) := by
  have hes : Fits es := h.fits ⟨i, es⟩ (by simp)
  have hstored : stored (offset (e.orient es) + 1) [value] = [value] := by
    apply stored_eq_self
    · simpa using hencodable
    · rw [offset_orient]
      simpa using hroom
  have hpush : ((ofEntries (e.orient es)).push e [value]).1 =
      ofEntries (e.orient (Entry.ofBytes value :: es)) := by
    rw [push_ofEntries (fits_orient e hes), hstored, List.map_cons, List.map_nil,
      End.attach_singleton]
  -- the node keeps its links: only its listpack and the count change
  have hnew : offset (Entry.ofBytes value :: es) + 1 =
      offset es + 1 + (Entry.ofBytes value).encode.length := by
    rw [offset_cons]
    omega
  have hedge : q.edge e = i := h.edge_eq
  have hafter := node_modifyNode q (h.index_lt (p := ⟨i, es⟩) (by simp)) i
    fun node => { node with pack := (node.pack.push e [value]).1 }
  rw [if_pos rfl] at hafter
  have hpack := h.pack_edge
  rw [hedge] at hpack
  unfold Quicklist.pushEdge
  rw [hedge]
  apply h.setPack (fun pack => (pack.push e [value]).1) hpush
  · refine ⟨?_, by rw [hnew]; exact hroom⟩
    intro entry hentry
    rcases List.mem_cons.mp hentry with rfl | hentry
    · exact hencodable
    · exact hes.encodable entry hentry
  · intro hlen
    rw [hnew]
    apply hlimit
    rintro rfl
    simp at hlen
  · rw [hafter, hpack, hpush, len_ofEntries, len_ofEntries, End.length_orient, End.length_orient]
    change q.count + _ = _
    rw [h.count, List.flatMap_cons, List.length_append, List.length_cons]
    dsimp only
    omega

/-- The chain stays filled when its first node gets one more entry. -/
theorem Filled.cons {i : Nat} {es : List Entry} {x : Entry} (h : Filled (⟨i, es⟩ :: rest)) :
    Filled (⟨i, x :: es⟩ :: rest) := by
  intro p hp hempty
  rcases List.mem_cons.mp hp with rfl | hp
  · cases hempty
  · have hone := h p (by simp [hp]) hempty
    have hnil : rest = [] := (List.cons.inj hone).2
    rw [hnil] at hp
    cases hp

/-- A new first part leaves no gap if the one that was first holds something. -/
theorem Filled.cons_part {i j : Nat} {es : List Entry} {x : Entry}
    (h : Filled (⟨i, es⟩ :: rest)) (hes : es ≠ []) :
    Filled (⟨j, [x]⟩ :: ⟨i, es⟩ :: rest) := by
  intro p hp hempty
  rcases List.mem_cons.mp hp with rfl | hp
  · cases hempty
  · have hone := List.cons.inj (h p hp hempty)
    rw [← hone.1] at hempty
    exact absurd hempty hes

/-- **When a node is linked**: the one at the end has entries, and the new one would not fit its
limit. -/
theorem needsNode_iff {i size : Nat} {es : List Entry} (h : Holds q e (⟨i, es⟩ :: rest)) :
    q.needsNode e size = true ↔ es ≠ [] ∧ q.nodeMax < offset es + 1 + size := by
  rw [needsNode, h.pack_edge]
  simp [Listpack.isEmpty, offset_orient]

/-- **One value more.**  A value that can be stored is met first, whether it went
into the node at the end or into a new one. -/
theorem Holds.pushOne {value : Bytes} (h : Holds q e parts) (hfilled : Filled parts)
    (hmax : q.nodeMax ≤ maxBytes) (hvalue : Storable value) :
    ∃ after, Holds (pushOne e q value) e after ∧ Filled after ∧
      after.flatMap Part.entries = Entry.ofBytes value :: parts.flatMap Part.entries := by
  obtain ⟨hencodable, hsize⟩ := storable_iff.mp hvalue
  have hencoded := Entry.encodedSize?_eq_some_iff.mpr ⟨hencodable, rfl⟩
  obtain _ | ⟨⟨i, es⟩, rest⟩ := parts
  · exact absurd h.first (by simp)
  have hstart : offset [] = 6 := rfl
  by_cases hneeds : q.needsNode e (Entry.ofBytes value).encode.length = true
  · obtain ⟨hes, -⟩ := (needsNode_iff h).mp hneeds
    obtain ⟨j, hextend⟩ := h.extend
    refine ⟨⟨j, [Entry.ofBytes value]⟩ :: ⟨i, es⟩ :: rest, ?_, hfilled.cons_part hes, by simp⟩
    rw [Quicklist.pushOne, hencoded]
    dsimp only
    rw [if_pos hneeds]
    exact hextend.pushEdge hencodable (by omega) fun hne => absurd rfl hne
  · have hroom : es ≠ [] → offset es + 1 + (Entry.ofBytes value).encode.length ≤ q.nodeMax := by
      intro hes
      by_contra hmore
      exact hneeds ((needsNode_iff h).mpr ⟨hes, by omega⟩)
    refine ⟨⟨i, Entry.ofBytes value :: es⟩ :: rest, ?_, hfilled.cons, by simp⟩
    rw [Quicklist.pushOne, hencoded]
    dsimp only
    rw [if_neg hneeds]
    apply h.pushEdge hencodable _ hroom
    by_cases hes : es = []
    · rw [hes]
      omega
    · exact (hroom hes).trans hmax

/-! ### Popping -/

/-- **Taking the first entry** out of the node at an end. -/
theorem Holds.cutEdge {i : Nat} {x : Entry} {es : List Entry}
    (h : Holds q e (⟨i, x :: es⟩ :: rest)) :
    ∃ r, q.pop? e = some (x.text, r.trim e) ∧ Holds r e (⟨i, es⟩ :: rest) := by
  have hfits : Fits (x :: es) := h.fits ⟨i, x :: es⟩ (by simp)
  have hpop := pop?_ofEntries e (fits_orient e hfits)
  have hsize := hfits.size_le
  rw [offset_cons] at hsize
  -- popping reads the span, the entry and the rest one by one; `hpop` has all three at once
  unfold Listpack.pop? at hpop
  obtain hspan | ⟨⟨start, stop⟩, hspan⟩ :=
    Option.eq_none_or_eq_some ((ofEntries (e.orient (x :: es))).span? e)
  · rw [hspan] at hpop
    cases hpop
  rw [hspan] at hpop
  obtain ⟨entry, hentry, hcut⟩ := Option.map_eq_some_iff.mp hpop
  obtain ⟨htext, hcut⟩ := Prod.mk.inj hcut
  refine ⟨{ q.modifyNode i (fun node => { node with pack := node.pack.cut start stop }) with
    count := q.count - 1 }, ?_, h.setPack (fun pack => pack.cut start stop) hcut ⟨?_, by omega⟩
      ?_ ?_⟩
  · rw [Quicklist.pop?, h.pack_edge, hspan]
    dsimp only
    rw [hentry]
    dsimp only
    rw [htext, h.edge_eq]
    rfl
  · intro entry hentry
    exact hfits.encodable entry (by simp [hentry])
  · intro hlen
    have hlimit := h.limit ⟨i, x :: es⟩ (by simp) (by simpa using Nat.le_of_succ_le hlen)
    rw [offset_cons] at hlimit
    omega
  · rw [h.count, List.flatMap_cons, List.length_append, List.length_cons]
    omega

/-- A node that holds entries, or has no neighbour, stays. -/
theorem Holds.trim_eq_self {i : Nat} {es : List Entry} (h : Holds q e (⟨i, es⟩ :: rest))
    (hkeep : es ≠ [] ∨ rest = []) : q.trim e = q := by
  have hedge : q.edge e = i := h.edge_eq
  have hinner : (q.node i).toward e.opposite = rest.head?.map Part.index := by
    rw [h.linked.1, Node.facing_toward_opposite, Option.or_none]
  unfold Quicklist.trim
  dsimp only
  rw [hedge, hinner]
  cases rest with
  | nil => rfl
  | cons p rest =>
      have hes : es ≠ [] := hkeep.resolve_right (by simp)
      have hpack : (q.node i).pack.isEmpty = false := by
        rw [h.linked.1, Node.facing_pack]
        simpa [Listpack.isEmpty] using hes
      rw [List.head?_cons, Option.map_some]
      dsimp only
      rw [hpack]
      rfl

/-- What unlinking an empty node writes. -/
theorem Holds.trim_eq {i : Nat} (h : Holds q e (⟨i, []⟩ :: p :: rest)) :
    q.trim e = { (q.modifyNode p.index fun node => node.link e none).setEdge e p.index
      with free := i :: q.free } := by
  have hedge : q.edge e = i := h.edge_eq
  have hinner : (q.node i).toward e.opposite = some p.index := by
    rw [h.linked.1, Node.facing_toward_opposite]
    rfl
  have hpack : (q.node i).pack.isEmpty = true := by
    rw [h.linked.1, Node.facing_pack]
    simp [Listpack.isEmpty]
  unfold Quicklist.trim
  dsimp only
  rw [hedge, hinner]
  dsimp only
  rw [if_pos hpack]
  rfl

/-- **An empty node with a neighbour is unlinked**, and its index is free. -/
theorem Holds.trim_cons {i : Nat} (h : Holds q e (⟨i, []⟩ :: p :: rest)) :
    Holds (q.trim e) e (p :: rest) := by
  obtain ⟨hnodes, -, hcount⟩ :=
    setEdge_fields (q.modifyNode p.index fun node => node.link e none) e p.index
  have hread : ∀ j, (q.trim e).node j =
      if p.index = j then (q.node j).link e none else q.node j := by
    intro j
    rw [h.trim_eq]
    exact (node_setEdge _ e p.index j).trans
      (node_modifyNode q (h.index_lt (p := p) (by simp)) j fun node => node.link e none)
  constructor
  case linked =>
    obtain ⟨-, hp, hrest⟩ := h.linked
    refine ⟨?_, hrest.congr ?_⟩
    · rw [hread, if_pos rfl, hp, Node.facing_link]
    · intro s hs
      have hne : p.index ≠ s.index := List.rel_of_pairwise_cons h.pairwise_ne.of_cons hs
      rw [hread, if_neg hne]
  case first =>
    rw [h.trim_eq]
    exact congrArg some (edge_setEdge _ e p.index).symm
  case last =>
    have hlast := h.last
    rw [List.getLast?_cons_cons] at hlast
    rw [hlast, h.trim_eq]
    exact congrArg some (edge_opposite_setEdge
      (q.modifyNode p.index fun node => node.link e none) e p.index).symm
  case slots =>
    have hsize : (q.trim e).nodes.size = q.nodes.size := by
      rw [h.trim_eq]
      exact (congrArg Array.size hnodes).trans (size_modifyNode q _ _)
    have hfree : (q.trim e).free = i :: q.free := by rw [h.trim_eq]
    rw [hsize, hfree]
    exact List.perm_middle.trans h.slots
  case count =>
    rw [h.trim_eq]
    exact hcount.trans h.count
  case fits => exact fun s hs => h.fits s (by simp [hs])
  case limit =>
    intro s hs hlen
    rw [nodeMax_trim]
    exact h.limit s (by simp [hs]) hlen

/-- **One value less.**  A pop takes the entry that is met first. -/
theorem Holds.pop? {x : Entry} {es : List Entry} (h : Holds q e parts) (hfilled : Filled parts)
    (hentries : parts.flatMap Part.entries = x :: es) :
    ∃ r after, q.pop? e = some (x.text, r) ∧ Holds r e after ∧ Filled after ∧
      after.flatMap Part.entries = es := by
  obtain _ | ⟨⟨i, first⟩, rest⟩ := parts
  · cases hentries
  -- an empty first node would be the only one, and nothing would be held
  have hfirst : first ≠ [] := by
    intro hempty
    have hone := (List.cons.inj (hfilled ⟨i, first⟩ (by simp) hempty)).2
    rw [hempty, hone] at hentries
    cases hentries
  obtain ⟨y, ys, rfl⟩ := List.exists_cons_of_ne_nil hfirst
  obtain ⟨rfl, rfl⟩ := List.cons.inj hentries
  obtain ⟨r, hpop, hr⟩ := h.cutEdge
  have hothers : ∀ p ∈ rest, p.entries ≠ [] := by
    intro p hp hempty
    have hone := (List.cons.inj (hfilled p (by simp [hp]) hempty)).2
    rw [hone] at hp
    cases hp
  -- a node that became empty is taken off unless it is the only one
  by_cases hkeep : ys ≠ [] ∨ rest = []
  · refine ⟨r, ⟨i, ys⟩ :: rest, by rw [hpop, hr.trim_eq_self hkeep], hr, ?_, rfl⟩
    intro p hp hempty
    rcases List.mem_cons.mp hp with rfl | hp
    · rw [hkeep.resolve_left (not_not_intro hempty)]
    · exact absurd hempty (hothers p hp)
  · rw [not_or, not_not] at hkeep
    obtain ⟨rfl, hrest⟩ := hkeep
    obtain ⟨p, rest, rfl⟩ := List.exists_cons_of_ne_nil hrest
    exact ⟨r.trim e, p :: rest, hpop, hr.trim_cons,
      fun s hs hempty => absurd hempty (hothers s hs), rfl⟩

/-- Nothing comes off an empty node. -/
theorem Holds.pop?_edge_nil {i : Nat} (h : Holds q e (⟨i, []⟩ :: rest)) : q.pop? e = none := by
  rw [Quicklist.pop?, h.pack_edge, End.orient_nil, span?_ofEntries_nil]

/-- Nothing is popped from nodes without entries. -/
theorem Holds.pop?_nil (h : Holds q e parts) (hentries : parts.flatMap Part.entries = []) :
    q.pop? e = none := by
  obtain _ | ⟨⟨i, es⟩, rest⟩ := parts
  · exact absurd h.first (by simp)
  obtain rfl : es = [] := (List.append_eq_nil_iff.mp hentries).1
  exact h.pop?_edge_nil

end CompactStore.Quicklist
