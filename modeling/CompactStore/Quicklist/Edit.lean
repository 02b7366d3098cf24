import CompactStore.Quicklist.Basic

/-!
# Pushing onto and popping off a quicklist

Values are pushed one at a time onto the node at the end.  If that node holds
values already and the new entry would take it past the size limit, a new node
is linked at this end first, so a node of two or more values never exceeds the
limit, while a value of any size can have a node of its own.

A pop takes from the node at the end.  When that node becomes empty and has a
neighbour, it is unlinked and its index is free again.
-/

namespace CompactStore.Quicklist

/-- Puts a node into the arena, at a free index if there is one. -/
def place (q : Quicklist) (node : Node) : Quicklist × Nat :=
  match q with
  | { nodes, free := i :: free, head, tail, count, nodeMax } =>
    ({ nodes := nodes.setIfInBounds i node, free, head, tail, count, nodeMax }, i)
  | { nodes, free := [], head, tail, count, nodeMax } =>
    let i := nodes.size
    ({ nodes := nodes.push node, free := [], head, tail, count, nodeMax }, i)

/-- Changes the node at an index. -/
def modifyNode (q : Quicklist) (i : Nat) (f : Node → Node) : Quicklist :=
  { q with nodes := q.nodes.modify i f }

/-- Links a new, empty node at an end. -/
def extend (q : Quicklist) (e : End) : Quicklist :=
  let old := q.edge e
  let (q, i) := q.place (({} : Node).link e.opposite (some old))
  (q.modifyNode old fun node => node.link e (some i)).setEdge e i

/-- Whether an entry of this size asks for a new node: the node at the end holds
values, and the entry would take it past the limit. -/
def needsNode (q : Quicklist) (e : End) (entrySize : Nat) : Bool :=
  let pack := (q.node (q.edge e)).pack
  !pack.isEmpty && q.nodeMax < pack.sizeBytes + entrySize

/-- Pushes a value onto the node at an end. -/
def pushEdge (q : Quicklist) (e : End) (value : Bytes) : Quicklist :=
  let i := q.edge e
  let before := (q.node i).pack.len
  let q := q.modifyNode i fun node => { node with pack := (node.pack.push e [value]).1 }
  { q with count := q.count + ((q.node i).pack.len - before) }

/-- Pushes one value at an end; a value without an entry is skipped. -/
def pushOne (e : End) (q : Quicklist) (value : Bytes) : Quicklist :=
  match Entry.encodedSize? value with
  | none => q
  | some size =>
    let q := if q.needsNode e size then q.extend e else q
    q.pushEdge e value

/-- Pushes values at an end and tells how many were stored.  The values keep
their order, so at the front the first of them becomes the head. -/
def push (q : Quicklist) (e : End) (values : List Bytes) : Quicklist × Nat :=
  let before := q.count
  let q := match e with
    | .front => values.reverse.foldl (pushOne .front) q
    | .back => values.foldl (pushOne .back) q
  (q, q.count - before)

/-- Unlinks the node at an end if it is empty and has a neighbour. -/
def trim (q : Quicklist) (e : End) : Quicklist :=
  let i := q.edge e
  let node := q.node i
  match node.toward e.opposite with
  | none => q
  | some inner =>
    if node.pack.isEmpty then
      let q := q.modifyNode inner fun node => node.link e none
      { q.setEdge e inner with free := i :: q.free }
    else q

/-- Takes the value off an end. -/
def pop? (q : Quicklist) (e : End) : Option (Bytes × Quicklist) :=
  let i := q.edge e
  match (q.node i).pack.span? e with
  | none => none
  | some (start, stop) =>
    match (q.node i).pack.get? start with
    | none => none
    | some entry =>
      let q := q.modifyNode i fun node => { node with pack := node.pack.cut start stop }
      some (entry.text, { q with count := q.count - 1 }.trim e)

/-- Takes at most `count` values off an end, in front of those taken before. -/
def popEach (q : Quicklist) (e : End) : Nat → List Bytes → Quicklist × List Bytes
  | 0, taken => (q, taken.reverse)
  | count + 1, taken =>
    match q.pop? e with
    | none => (q, taken.reverse)
    | some (value, q) => popEach q e count (value :: taken)

/-- Takes at most `count` values off an end, in the order in which they come off. -/
def popMany (q : Quicklist) (e : End) (count : Nat) : Quicklist × List Bytes :=
  q.popEach e count []

end CompactStore.Quicklist
