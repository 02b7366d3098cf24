import CompactStore.Listpack.Edit

/-!
# Quicklists

A quicklist is a chain of listpack nodes.  The nodes lie in one array, the
arena, and name their neighbours by index; an index that is taken out of the
chain goes onto a stack of free indices and is used again before the arena
grows.  There is always at least one node, and it is empty exactly when the
list is, as long as every value that was pushed could be stored.

`chain` lists the indices of the linked nodes from front to back, and `entries`
the entries of all of them.  An index of a value counts from zero at the front, or
from -1 at the back when it is negative.  A range holds both of its bounds; what it
names outside of the list is left out.
-/

namespace CompactStore

namespace Quicklist

/-- A listpack and the indices of its neighbours. -/
structure Node where
  pack : Listpack := .empty
  prev : Option Nat := none
  next : Option Nat := none
deriving DecidableEq, Inhabited

/-- The neighbour of a node on the way to an end. -/
def Node.toward (node : Node) : End → Option Nat
  | .front => node.prev
  | .back => node.next

/-- A node with another neighbour on the way to an end. -/
def Node.link (node : Node) : End → Option Nat → Node
  | .front, i => { node with prev := i }
  | .back, i => { node with next := i }

end Quicklist

/-- A chain of listpacks with the number of their entries. -/
structure Quicklist where
  nodes : Array Quicklist.Node
  free : List Nat
  head : Nat
  tail : Nat
  count : Nat
  nodeMax : Nat
deriving DecidableEq

namespace Quicklist

/-- The size that a node may reach before a new one is linked, by default. -/
def defaultNodeMax : Nat := 8 * 1024

/-- A list without values: one empty node. -/
def empty (nodeMax : Nat) : Quicklist where
  nodes := #[{}]
  free := []
  head := 0
  tail := 0
  count := 0
  nodeMax := max nodeMax 1

/-- The number of values. -/
def len (q : Quicklist) : Nat :=
  q.count

/-- Whether there are no values. -/
def isEmpty (q : Quicklist) : Bool :=
  q.count = 0

/-- The number of linked nodes. -/
def nodeCount (q : Quicklist) : Nat :=
  q.nodes.size - q.free.length

/-- The node at an index. -/
def node (q : Quicklist) (i : Nat) : Node :=
  q.nodes.getD i default

/-- The index of the node at an end. -/
def edge (q : Quicklist) : End → Nat
  | .front => q.head
  | .back => q.tail

/-- The list with another node at an end. -/
def setEdge (q : Quicklist) : End → Nat → Quicklist
  | .front, i => { q with head := i }
  | .back, i => { q with tail := i }

/-- The indices met by following the links to the back, newest first in front of
`seen`; a chain cannot be longer than the arena. -/
def follow (q : Quicklist) : Nat → Option Nat → List Nat → List Nat
  | 0, _, seen => seen
  | _, none, seen => seen
  | fuel + 1, some i, seen => follow q fuel (q.node i).next (i :: seen)

/-- The indices of the linked nodes, from front to back. -/
def chain (q : Quicklist) : List Nat :=
  (q.follow q.nodes.size (some q.head) []).reverse

/-- The linked listpacks, from front to back. -/
def packs (q : Quicklist) : List Listpack :=
  q.chain.map fun i => (q.node i).pack

-- The zero of a sum is the numeral, whatever else is imported.
attribute [local instance (high)] Zero.ofOfNat0 in
/-- The length of all linked listpacks together. -/
def sizeBytes (q : Quicklist) : Nat :=
  (q.packs.map Listpack.sizeBytes).sum

/-- All entries, from front to back. -/
def entries (q : Quicklist) : List Entry :=
  q.packs.flatMap Listpack.entries

/-- All values, from front to back. -/
def values (q : Quicklist) : List Bytes :=
  q.entries.map Entry.text

/-! ### Reading parts -/

/-- The value at an offset into a run of listpacks.  Whole listpacks are skipped
by their number of entries. -/
def valueIn? : List Listpack → Nat → Option Bytes
  | [], _ => none
  | pack :: rest, offset =>
    if offset < pack.len then pack.entries[offset]?.map Entry.text
    else valueIn? rest (offset - pack.len)

/-- The value at an index. -/
def index? (q : Quicklist) (i : Int) : Option Bytes :=
  let offset := if i < 0 then (q.len : Int) + i else i
  if offset < 0 ∨ (q.len : Int) ≤ offset then none
  else valueIn? q.packs offset.toNat

/-- The values from one index to another, both included. -/
def range (q : Quicklist) (start stop : Int) : List Bytes :=
  let len : Int := q.len
  let start := if start < 0 then max (len + start) 0 else start
  let stop := if stop < 0 then len + stop else min stop (len - 1)
  if stop < start ∨ len ≤ start then []
  else ((q.entries.drop start.toNat).take (stop - start + 1).toNat).map Entry.text

end Quicklist

end CompactStore
