import CompactStore.Proofs.Listpack.Edit
import CompactStore.Quicklist.Edit
import Mathlib.Data.List.Perm.Basic
import Mathlib.Data.List.Range

/-!
# The chain of a quicklist

`Holds q e parts` describes a quicklist as it is met from the end `e`: the linked
nodes in order with their entries, nearest first.  The links of the nodes, the
two ends, the free indices, the count and the size of the nodes are all said in
terms of `parts`, so an operation at `e` is an equation about the front of a
list.  `Holds.flip` turns the description around, which makes every statement
about one end a statement about both.
-/

namespace CompactStore.Quicklist

open Listpack

/-- A linked node: its index, and its entries in the order in which they are met
from some end. -/
structure Part where
  index : Nat
  entries : List Entry

namespace Node

/-- The node with this listpack, the neighbour `outer` on the way to an end and
the neighbour `inner` on the way to the other. -/
def facing (e : End) (pack : Listpack) (outer inner : Option Nat) : Node :=
  (({ pack } : Node).link e outer).link e.opposite inner

variable {e : End} {pack : Listpack} {outer inner : Option Nat}

@[simp] theorem facing_pack : (facing e pack outer inner).pack = pack := by
  cases e <;> rfl

/-- The neighbour on the way to the end is the outer one. -/
@[simp] theorem facing_toward : (facing e pack outer inner).toward e = outer := by
  cases e <;> rfl

/-- The neighbour on the way from the end is the inner one. -/
@[simp] theorem facing_toward_opposite :
    (facing e pack outer inner).toward e.opposite = inner := by
  cases e <;> rfl

/-- Linking a node towards the end changes its outer neighbour. -/
@[simp] theorem facing_link (other : Option Nat) :
    (facing e pack outer inner).link e other = facing e pack other inner := by
  cases e <;> rfl

/-- Changing the listpack of a node leaves its neighbours. -/
@[simp] theorem facing_with_pack (other : Listpack) :
    { facing e pack outer inner with pack := other } = facing e other outer inner := by
  cases e <;> rfl

/-- Seen from the other end, the neighbours of a node change places. -/
theorem facing_opposite : facing e.opposite pack inner outer = facing e pack outer inner := by
  cases e <;> rfl

end Node

/-- The nodes of a chain hold the entries of its parts and link to each other, in
order away from the end `e`; `outer` is the neighbour of the first one on the way
to `e`, and `inner` that of the last one on the way from it. -/
def Linked (q : Quicklist) (e : End) : Option Nat → List Part → Option Nat → Prop
  | _, [], _ => True
  | outer, p :: rest, inner =>
    q.node p.index = .facing e (ofEntries (e.orient p.entries)) outer
        ((rest.head?.map Part.index).or inner) ∧
      Linked q e (some p.index) rest inner

/-- A quicklist as it is met from the end `e`. -/
structure Holds (q : Quicklist) (e : End) (parts : List Part) : Prop where
  /-- The nodes are linked in both directions. -/
  linked : Linked q e none parts none
  /-- The first part is the node at `e`. -/
  first : parts.head?.map Part.index = some (q.edge e)
  /-- The last part is the node at the other end. -/
  last : parts.getLast?.map Part.index = some (q.edge e.opposite)
  /-- Every index of the arena is linked or free, and none is both. -/
  slots : (parts.map Part.index ++ q.free).Perm (List.range q.nodes.size)
  /-- The count is that of all entries. -/
  count : q.count = (parts.flatMap Part.entries).length
  /-- The entries of every node can be written. -/
  fits : ∀ p ∈ parts, Fits p.entries
  /-- A node of two entries or more keeps to the limit. -/
  limit : ∀ p ∈ parts, 2 ≤ p.entries.length → offset p.entries + 1 ≤ q.nodeMax

/-- No node is empty unless it is the only one. -/
def Filled (parts : List Part) : Prop :=
  ∀ p ∈ parts, p.entries = [] → parts = [p]

/-- The same part met from the other end. -/
def Part.flip (p : Part) : Part where
  index := p.index
  entries := p.entries.reverse

/-- The same parts met from the other end. -/
def flip (parts : List Part) : List Part :=
  parts.reverse.map Part.flip

/-- From the other end the nodes are met in reverse. -/
@[simp] theorem map_index_flip (parts : List Part) :
    (flip parts).map Part.index = (parts.map Part.index).reverse := by
  simp [flip, Part.flip, Function.comp_def]

/-- From the other end the entries are met in reverse. -/
@[simp] theorem flatMap_entries_flip (parts : List Part) :
    (flip parts).flatMap Part.entries = (parts.flatMap Part.entries).reverse := by
  induction parts with
  | nil => rfl
  | cons p rest ih =>
      have hsplit : flip (p :: rest) = flip rest ++ [p.flip] := by simp [flip]
      rw [hsplit, List.flatMap_append, List.flatMap_singleton, ih, List.flatMap_cons,
        List.reverse_append, Part.flip]

/-- Entries take up as much room in reverse. -/
theorem offset_reverse (es : List Entry) : offset es.reverse = offset es := by
  have hperm : (packed es.reverse).Perm (packed es) := (List.reverse_perm es).flatMap_right _
  rw [offset, offset, hperm.length_eq]

/-- Entries fit in reverse. -/
theorem fits_reverse {es : List Entry} (h : Fits es) : Fits es.reverse := by
  refine ⟨?_, by rw [offset_reverse]; exact h.size_le⟩
  intro entry hentry
  exact h.encodable entry (List.mem_reverse.mp hentry)

/-! ### Turning around -/

/-- Links stay as they are in a list with the same linked nodes. -/
theorem Linked.congr {q r : Quicklist} {e : End} {parts : List Part} {outer inner : Option Nat}
    (h : Linked q e outer parts inner) (hsame : ∀ p ∈ parts, r.node p.index = q.node p.index) :
    Linked r e outer parts inner := by
  induction parts generalizing outer with
  | nil => trivial
  | cons p rest ih =>
      refine ⟨?_, ih h.2 fun s hs => hsame s (by simp [hs])⟩
      rw [hsame p (by simp)]
      exact h.1

/-- Two runs of linked nodes make one if their ends are neighbours of each other. -/
theorem linked_append {q : Quicklist} {e : End} {outer inner : Option Nat} {xs ys : List Part} :
    Linked q e outer (xs ++ ys) inner ↔
      Linked q e outer xs ((ys.head?.map Part.index).or inner) ∧
      Linked q e ((xs.getLast?.map Part.index).or outer) ys inner := by
  induction xs generalizing outer with
  | nil => simp [Linked]
  | cons p xs ih =>
      have hhead : (((xs ++ ys).head?.map Part.index).or inner) =
          (xs.head?.map Part.index).or ((ys.head?.map Part.index).or inner) := by
        rw [List.head?_append, Option.map_or, Option.or_assoc]
      have hlast : ((p :: xs).getLast?.map Part.index).or outer =
          (xs.getLast?.map Part.index).or (some p.index) := by
        rw [List.getLast?_cons]
        cases xs.getLast? <;> rfl
      rw [List.cons_append, Linked, Linked, ih, hhead, hlast, and_assoc]

/-- **Turning a chain around** leaves it a chain. -/
theorem Linked.flip {q : Quicklist} {e : End} {parts : List Part} {outer inner : Option Nat}
    (h : Linked q e outer parts inner) : Linked q e.opposite inner (flip parts) outer := by
  induction parts generalizing outer with
  | nil => trivial
  | cons p rest ih =>
      have hsplit : Quicklist.flip (p :: rest) = Quicklist.flip rest ++ [p.flip] := by
        simp [Quicklist.flip]
      have hlast : ((Quicklist.flip rest).getLast?.map Part.index) = rest.head?.map Part.index := by
        rw [← List.getLast?_map, map_index_flip, List.getLast?_reverse, List.head?_map]
      rw [hsplit, linked_append, hlast]
      refine ⟨by simpa [Part.flip] using ih h.2, ?_, trivial⟩
      have hentries : e.opposite.orient p.flip.entries = e.orient p.entries := by
        cases e <;> simp [End.orient, End.opposite, Part.flip]
      rw [hentries, ← Node.facing_opposite, End.opposite_opposite]
      simpa [Part.flip] using h.1

/-- **A quicklist may be met from either end.** -/
theorem Holds.flip {q : Quicklist} {e : End} {parts : List Part} (h : Holds q e parts) :
    Holds q e.opposite (flip parts) where
  linked := h.linked.flip
  first := by
    rw [← List.head?_map, map_index_flip, List.head?_reverse, List.getLast?_map]
    exact h.last
  last := by
    rw [← List.getLast?_map, map_index_flip, List.getLast?_reverse, List.head?_map,
      End.opposite_opposite]
    exact h.first
  slots := by
    rw [map_index_flip]
    exact ((List.reverse_perm _).append_right _).trans h.slots
  count := by
    rw [flatMap_entries_flip, List.length_reverse]
    exact h.count
  fits := by
    intro p hp
    obtain ⟨r, hr, rfl⟩ := List.mem_map.mp hp
    exact fits_reverse (h.fits r (List.mem_reverse.mp hr))
  limit := by
    intro p hp hlen
    obtain ⟨r, hr, rfl⟩ := List.mem_map.mp hp
    rw [Part.flip, List.length_reverse] at hlen
    rw [Part.flip, offset_reverse]
    exact h.limit r (List.mem_reverse.mp hr) hlen

/-- From either end, no node is empty unless it is the only one. -/
theorem Filled.flip {parts : List Part} (h : Filled parts) : Filled (flip parts) := by
  intro p hp hempty
  obtain ⟨r, hr, rfl⟩ := List.mem_map.mp hp
  have hnil : r.entries = [] := List.reverse_eq_nil_iff.mp hempty
  rw [h r (List.mem_reverse.mp hr) hnil]
  rfl

/-! ### Reading along the chain -/

/-- No more nodes are linked than the arena has. -/
theorem Holds.length_le {q : Quicklist} {e : End} {parts : List Part} (h : Holds q e parts) :
    parts.length ≤ q.nodes.size := by
  have hlen := h.slots.length_eq
  rw [List.length_append, List.length_map, List.length_range] at hlen
  omega

/-- The linked nodes are the parts. -/
theorem Holds.nodeCount_eq {q : Quicklist} {e : End} {parts : List Part} (h : Holds q e parts) :
    q.nodeCount = parts.length := by
  have hlength := h.slots.length_eq
  rw [List.length_append, List.length_map, List.length_range] at hlength
  rw [nodeCount]
  omega

/-- Following the links from the front meets the nodes of the parts, the last one first. -/
theorem follow_linked {q : Quicklist} {parts : List Part} {outer : Option Nat} {fuel : Nat}
    (h : Linked q .front outer parts none) (hfuel : parts.length ≤ fuel) (seen : List Nat) :
    q.follow fuel (parts.head?.map Part.index) seen =
      (parts.map Part.index).reverse ++ seen := by
  induction parts generalizing outer fuel seen with
  | nil => cases fuel <;> rfl
  | cons p rest ih =>
      obtain ⟨fuel, rfl⟩ : ∃ n, fuel = n + 1 := ⟨fuel - 1, by simp at hfuel; omega⟩
      have hnext : (q.node p.index).next = rest.head?.map Part.index := by
        rw [h.1, Option.or_none]
        rfl
      rw [List.head?_cons, Option.map_some, follow, hnext, ih h.2 (by simpa using hfuel),
        List.map_cons, List.reverse_cons, List.append_assoc, List.singleton_append]

/-- Following the links from the front meets the parts in order. -/
theorem Holds.chain_eq {q : Quicklist} {parts : List Part} (h : Holds q .front parts) :
    q.chain = parts.map Part.index := by
  have hfirst : some q.head = parts.head?.map Part.index := h.first.symm
  rw [chain, hfirst, follow_linked h.linked h.length_le, List.append_nil, List.reverse_reverse]

/-- The nodes are counted as they are linked, since the slots that are not free are linked. -/
theorem Holds.nodeCount_eq_length {q : Quicklist} {parts : List Part} (h : Holds q .front parts) :
    q.nodeCount = q.chain.length := by
  rw [h.nodeCount_eq, h.chain_eq, List.length_map]

/-- The listpack of a linked node. -/
theorem Linked.pack_eq {q : Quicklist} {e : End} {parts : List Part} {p : Part}
    {outer inner : Option Nat} (h : Linked q e outer parts inner) (hp : p ∈ parts) :
    (q.node p.index).pack = ofEntries (e.orient p.entries) := by
  induction parts generalizing outer with
  | nil => cases hp
  | cons s rest ih =>
      rcases List.mem_cons.mp hp with rfl | hp
      · rw [h.1, Node.facing_pack]
      · exact ih h.2 hp

/-- The listpacks along the chain are those of the parts. -/
theorem Holds.packs_eq {q : Quicklist} {parts : List Part} (h : Holds q .front parts) :
    q.packs = parts.map fun p => ofEntries p.entries := by
  rw [packs, h.chain_eq, List.map_map]
  exact List.map_congr_left fun p hp => h.linked.pack_eq hp

/-- The entries along the chain are those of the parts. -/
theorem Holds.entries_eq {q : Quicklist} {parts : List Part} (h : Holds q .front parts) :
    q.entries = parts.flatMap Part.entries := by
  rw [entries, h.packs_eq, List.flatMap_map]
  apply List.flatMap_congr
  intro p hp
  exact entries_ofEntries (h.fits p hp).encodable

/-- The entries as they are met from an end. -/
theorem Holds.orient_entries {q : Quicklist} {e : End} {parts : List Part} (h : Holds q e parts) :
    e.orient q.entries = parts.flatMap Part.entries := by
  cases e with
  | front => exact h.entries_eq
  | back =>
      have hflip := h.flip.entries_eq
      rw [flatMap_entries_flip] at hflip
      rw [End.orient, hflip, List.reverse_reverse]

/-- The count is the number of entries. -/
theorem Holds.length_entries {q : Quicklist} {e : End} {parts : List Part} (h : Holds q e parts) :
    q.len = q.entries.length := by
  rw [len, h.count, ← h.orient_entries, End.length_orient]

end CompactStore.Quicklist
