import CompactStore.Proofs.Quicklist.Contents
import Mathlib.Algebra.GroupWithZero.Nat

/-!
# The arena of a quicklist

`Intact` says what the nodes of a quicklist look like: one chain from the head to
the tail, linked both ways, and beside it only free indices.  A freed node keeps its
links and its index is used again, so this has to hold of the chain alone and of all
operations together: `run_intact`.
-/

namespace CompactStore.Quicklist

open Listpack Deque

/-- The chain leads from the head to the tail along the links, and ends there. -/
structure Spans (q : Quicklist) : Prop where
  head_eq : q.chain.head? = some q.head
  tail_eq : q.chain.getLast? = some q.tail
  linked : q.chain.IsChain fun i j => (q.node i).next = some j ∧ (q.node j).prev = some i
  head_prev : (q.node q.head).prev = none
  tail_next : (q.node q.tail).next = none

/-- The arena holds one chain of nodes and free indices. -/
structure Intact (q : Quicklist) : Prop where
  /-- The chain starts at the head and ends at the tail. -/
  head_eq : q.chain.head? = some q.head
  tail_eq : q.chain.getLast? = some q.tail
  /-- Neighbours in the chain name each other. -/
  linked : q.chain.IsChain fun i j => (q.node i).next = some j ∧ (q.node j).prev = some i
  /-- The head has no neighbour before it, and the tail none after it. -/
  head_prev : (q.node q.head).prev = none
  tail_next : (q.node q.tail).next = none
  /-- Every index is linked or free, once. -/
  nodup : (q.chain ++ q.free).Nodup
  slots : (q.chain ++ q.free).Perm (List.range q.nodes.size)
  nodeCount_eq : q.nodeCount = q.chain.length
  /-- The length of a linked listpack is the number of its entries. -/
  length_entries : ∀ i ∈ q.chain, (q.node i).pack.entries.length = (q.node i).pack.len
  /-- An empty node is the only one. -/
  alone : ∀ i ∈ q.chain, (q.node i).pack.isEmpty → q.chain = [i]
  count_eq : q.count = (q.packs.map Listpack.len).sum
  /-- A node of two entries or more keeps to the limit. -/
  limit : ∀ i ∈ q.chain, 2 ≤ (q.node i).pack.len → (q.node i).pack.sizeBytes ≤ q.nodeMax

/-- An operation on a quicklist. -/
def apply (q : Quicklist) : Operation → Quicklist × Answer
  | .push e values =>
    let (q, count) := q.push e values
    (q, .stored count)
  | .pop e =>
    match q.pop? e with
    | none => (q, .taken none)
    | some (value, q) => (q, .taken (some value))

variable {q : Quicklist} {e : End} {parts : List Part} {p : Part} {values : List Bytes}

/-! ### What is held is intact -/

/-- Nodes that are linked from front to back name each other. -/
theorem Linked.isChain {outer inner : Option Nat} (h : Linked q .front outer parts inner) :
    (parts.map Part.index).IsChain fun i j =>
      (q.node i).next = some j ∧ (q.node j).prev = some i := by
  induction parts generalizing outer with
  | nil => exact .nil
  | cons p rest ih =>
      cases rest with
      | nil => exact .singleton _
      | cons s rest =>
          refine .cons_cons ⟨?_, ?_⟩ (ih h.2)
          · rw [h.1]
            rfl
          · rw [h.2.1]
            rfl

/-- The node at an end has no neighbour on this side. -/
theorem Holds.toward_edge (h : Holds q e parts) : (q.node (q.edge e)).toward e = none := by
  obtain _ | ⟨p, rest⟩ := parts
  · exact absurd h.first (by simp)
  · rw [h.edge_eq, h.linked.1, Node.facing_toward]

/-- A linked node is the node of a part. -/
theorem Holds.mem_chain (h : Holds q .front parts) {i : Nat} (hi : i ∈ q.chain) :
    ∃ p ∈ parts, p.index = i ∧ (q.node i).pack = ofEntries p.entries := by
  rw [h.chain_eq] at hi
  obtain ⟨p, hp, rfl⟩ := List.mem_map.mp hi
  exact ⟨p, hp, rfl, h.linked.pack_eq hp⟩

theorem Holds.spans (h : Holds q .front parts) : q.Spans where
  head_eq := by
    rw [h.chain_eq, List.head?_map]
    exact h.first
  tail_eq := by
    rw [h.chain_eq, List.getLast?_map]
    exact h.last
  linked := by
    rw [h.chain_eq]
    exact h.linked.isChain
  head_prev := h.toward_edge
  tail_next := h.flip.toward_edge

/-- A chain without empty nodes is intact. -/
theorem Holds.intact (h : Holds q .front parts) (hfilled : Filled parts) : q.Intact where
  head_eq := h.spans.head_eq
  tail_eq := h.spans.tail_eq
  linked := h.spans.linked
  head_prev := h.spans.head_prev
  tail_next := h.spans.tail_next
  nodup := by
    rw [h.chain_eq]
    exact h.nodup
  slots := by
    rw [h.chain_eq]
    exact h.slots
  nodeCount_eq := h.nodeCount_eq_length
  length_entries := by
    intro i hi
    obtain ⟨p, hp, rfl, hpack⟩ := h.mem_chain hi
    rw [hpack, entries_ofEntries (h.fits p hp).encodable, len_ofEntries]
  alone := by
    intro i hi hempty
    obtain ⟨p, hp, rfl, hpack⟩ := h.mem_chain hi
    rw [hpack] at hempty
    have hnil : p.entries = [] := by simpa [Listpack.isEmpty] using hempty
    rw [h.chain_eq, hfilled p hp hnil]
    rfl
  count_eq := by
    rw [h.count, h.packs_eq, List.length_flatMap, List.map_map]
    rfl
  limit := by
    intro i hi hlen
    obtain ⟨p, hp, rfl, hpack⟩ := h.mem_chain hi
    rw [hpack, len_ofEntries] at hlen
    rw [hpack, sizeBytes_ofEntries]
    exact h.limit p hp hlen

/-- A quicklist that stores a sequence is intact. -/
theorem Stores.intact (h : Stores q .front values) : q.Intact := by
  obtain ⟨-, parts, hparts, hfilled, -⟩ := h
  exact hparts.intact hfilled

/-! ### Runs -/

/-- The values that an operation brings. -/
def brought : Operation → List Bytes
  | .push _ block => block
  | .pop _ => []

/-- **One step** is a step on the values. -/
theorem Stores.apply (h : Stores q .front values) (op : Operation)
    (hvalues : ∀ value ∈ brought op, Storable value) :
    Stores (q.apply op).1 .front (step values op).1 ∧ (q.apply op).2 = (step values op).2 := by
  cases op with
  | push e block =>
      obtain ⟨hstores, hcount⟩ := h.push e hvalues
      exact ⟨hstores, congrArg Answer.stored hcount⟩
  | pop e =>
      rw [step_pop, Quicklist.apply]
      obtain ⟨rfl, hpop⟩ | ⟨value, rest, r, horient, hpop, hr⟩ := h.pop?_cases e
      · rw [hpop, End.orient_nil]
        exact ⟨by simpa using h, rfl⟩
      · rw [hpop, horient]
        exact ⟨hr, rfl⟩

theorem nodeMax_apply (q : Quicklist) (op : Operation) : (q.apply op).1.nodeMax = q.nodeMax := by
  cases op with
  | push e block => exact nodeMax_push q e block
  | pop e =>
      rw [apply]
      cases hpop : q.pop? e with
      | none => rfl
      | some taken => exact nodeMax_pop? hpop

/-- **A run is a run on the values.** -/
theorem Stores.run {ops : List Operation} (h : Stores q .front values)
    (hvalues : ∀ op ∈ ops, ∀ value ∈ brought op, Storable value) :
    Stores (Deque.run Quicklist.apply q ops).1 .front (Deque.run step values ops).1 ∧
      (Deque.run Quicklist.apply q ops).2 = (Deque.run step values ops).2 ∧
      (Deque.run Quicklist.apply q ops).1.nodeMax = q.nodeMax := by
  induction ops generalizing q values with
  | nil => exact ⟨h, rfl, rfl⟩
  | cons op ops ih =>
      obtain ⟨hstep, hanswer⟩ := h.apply op (hvalues op List.mem_cons_self)
      obtain ⟨hstores, hanswers, hmax⟩ := ih hstep fun other hother =>
        hvalues other (List.mem_cons_of_mem _ hother)
      refine ⟨hstores, ?_, hmax.trans (nodeMax_apply q op)⟩
      rw [Deque.run, Deque.run]
      exact congrArg₂ List.cons hanswer hanswers

/-- **Pushes and pops leave the arena intact**, and the limit as it was set. -/
theorem run_intact {nodeMax : Nat} {ops : List Operation} (hmax : nodeMax ≤ maxBytes)
    (hvalues : ∀ op ∈ ops, ∀ value ∈ brought op, Storable value) :
    (run apply (empty nodeMax) ops).1.Intact ∧
      (run apply (empty nodeMax) ops).1.nodeMax = max nodeMax 1 := by
  obtain ⟨hstores, -, hkept⟩ := (stores_empty (e := .front) hmax).run hvalues
  exact ⟨hstores.intact, hkept⟩

/-- Three nodes of one value each, of which the first is freed and used again. -/
theorem run_intact_recycled :
    (12 ≤ maxBytes ∧ ∀ op ∈ [.push .back [[0x61], [0x62], [0x63]], .pop .front,
      .push .front [[0x64]]], ∀ value ∈ brought op, Storable value) ∧
      (run apply (empty 12) [.push .back [[0x61], [0x62], [0x63]], .pop .front,
        .push .front [[0x64]]]).1.Intact := by
  have hvalues : ∀ op ∈ [.push .back [[0x61], [0x62], [0x63]], .pop .front,
      .push .front [[0x64]]], ∀ value ∈ brought op, Storable value := by
    decide +kernel
  exact ⟨⟨by decide, hvalues⟩, (run_intact (by decide) hvalues).1⟩

/-- The freed index is in the chain again, and no other was added. -/
example : (run apply (empty 12) [.push .back [[0x61], [0x62], [0x63]], .pop .front,
    .push .front [[0x64]]]).1.chain = [0, 1, 2] := by
  decide +kernel

end CompactStore.Quicklist
