import CompactStore.Bytes
import CompactStore.Command.Basic
import CompactStore.Decimal.Integer
import CompactStore.Error
import CompactStore.Store.Operations

/-!
# Running commands

What a command answers is a `Reply`: a byte string, an integer, an array of replies,
an error text or nothing.

`Command.run` runs a command that was read, and puts the result of the store's
operation into a reply.  `Store.execute` takes a name and arguments as they come
from a client: the name counts in any case, and every failure becomes an error
reply.  `Store.executeIn` takes the name as it is and knows the commands of one
family only.

A name that is no command is quoted in the error.  A name with the marker of a
family is the family's to refuse, which knows it in upper case only.
-/

namespace CompactStore

/-- The answer of a command. -/
inductive Reply where
  | str (bytes : Bytes)
  | int (n : Int)
  | arr (items : List Reply)
  | err (message : String)
  | nil
deriving Repr

namespace Reply

/-- The answer of a command that has nothing to tell. -/
def ok : Reply := .str (Bytes.ofAscii "OK".toList)

/-- An ASCII text. -/
def ofText (text : String) : Reply := .str (Bytes.ofAscii text.toList)

/-- One for true and zero for false. -/
def ofBool (b : Bool) : Reply := .int (if b then 1 else 0)

/-- A count, but no more than the largest 64-bit integer. -/
def ofCount (n : Nat) : Reply := .int (min n (signBit - 1) : Nat)

/-- A byte string, or nothing. -/
def ofBytes? : Option Bytes → Reply
  | some bytes => .str bytes
  | none => .nil

/-- An array of byte strings. -/
def ofValues (values : List Bytes) : Reply := .arr (values.map .str)

/-- An array of truth values. -/
def ofBools (values : List Bool) : Reply := .arr (values.map ofBool)

/-- An array of counts. -/
def ofCounts (counts : List Nat) : Reply := .arr (counts.map ofCount)

/-- The error text of a failure. -/
def ofError (e : Error) : Reply := .err e.message

/-- Whether the answer is an error. -/
def isError : Reply → Bool
  | .err _ => true
  | _ => false

/-- The byte string of an answer that is one. -/
def asBytes? : Reply → Option Bytes
  | .str bytes => some bytes
  | _ => none

/-- The integer of an answer that is one, or that spells one. -/
def asInt? : Reply → Option Int
  | .int n => some n
  | .str bytes => Decimal.signed? (Bytes.chars bytes)
  | _ => none

end Reply

/-! ### Running -/

namespace Command

/-- The reply that describes a bloom filter. -/
def bloomReply (f : BloomFilter) : Reply :=
  .arr [.ofText "Capacity", .ofCount f.capacity,
    .ofText "Size", .ofCount f.sizeBytes,
    .ofText "Number of items inserted", .ofCount f.card,
    .ofText "Number of hash functions", .ofCount f.numHashes,
    .ofText "Error rate", .str (Bytes.ofAscii (Decimal.floatText f.errorRate))]

/-- The reply that describes a cuckoo filter. -/
def cuckooReply (f : CuckooFilter) : Reply :=
  .arr [.ofText "Size", .ofCount f.sizeBytes,
    .ofText "Number of buckets", .ofCount f.numBuckets,
    .ofText "Number of items inserted", .ofCount f.count,
    .ofText "Bucket size", .ofCount Bucket.slots,
    .ofText "Fingerprint bits", .ofCount f.bits,
    .ofText "Max iterations", .ofCount CuckooFilter.maxKicks,
    .ofText "Capacity", .ofCount f.capacity]

/-- The reply that describes a sketch. -/
def sketchReply (s : CountMinSketch) : Reply :=
  .arr [.ofText "width", .ofCount s.columns,
    .ofText "depth", .ofCount s.rows,
    .ofText "count", .ofCount s.total]

/-- The reply to a pop without a count: the value, or nothing. -/
def oneReply (taken : Option (List Bytes)) : Reply :=
  .ofBytes? (taken.bind List.head?)

/-- The reply to a pop with a count: the values, or nothing if there are none. -/
def manyReply (taken : Option (List Bytes)) : Reply :=
  (taken.map Reply.ofValues).getD .nil

/-- Runs a command. -/
def run (c : Command) (s : Store) : Outcome Reply :=
  match c with
  | push e key values => (s.pushList key e values).map .ofCount
  | pop e key none => (s.popList key e 1).map oneReply
  | pop _ key (some 0) => s.answering <|
    if s.contains key then (s.listLength key).map fun _ => .arr [] else .ok .nil
  | pop e key (some count) => (s.popList key e count).map manyReply
  | length key => s.answering ((s.listLength key).map .ofCount)
  | range key start stop => s.answering ((s.listRange key start stop).map .ofValues)
  | index key i => s.answering ((s.listIndex key i).map .ofBytes?)
  | bloomReserve key errorRate capacity =>
    (s.reserveBloom key errorRate capacity).map fun _ => .ok
  | bloomAdd key item => (s.addBloom key item).map .ofBool
  | bloomAddAll key items => (s.addBloomAll key items).map .ofBools
  | bloomContains key item => s.answering ((s.bloomContains key item).map .ofBool)
  | bloomContainsAll key items => s.answering ((s.bloomContainsAll key items).map .ofBools)
  | bloomInfo key => s.answering ((s.bloomInfo key).map bloomReply)
  | bloomCard key => s.answering ((s.bloomCard key).map .ofCount)
  | cuckooReserve key errorRate capacity =>
    (s.reserveCuckoo key errorRate capacity).map fun _ => .ok
  | cuckooAdd key item => (s.addCuckoo key item).map fun _ => .int 1
  | cuckooAddNew key item => (s.addCuckooNew key item).map .ofBool
  | cuckooContains key item => s.answering ((s.cuckooContains key item).map .ofBool)
  | cuckooContainsAll key items => s.answering ((s.cuckooContainsAll key items).map .ofBools)
  | cuckooRemove key item => (s.removeCuckoo key item).map .ofBool
  | cuckooInfo key => s.answering ((s.cuckooInfo key).map cuckooReply)
  | sketchCreate key rows columns => (s.createSketch key rows columns).map fun _ => .ok
  | sketchCreateFor key errorRate probability =>
    (s.createSketchFor key errorRate probability).map fun _ => .ok
  | sketchIncrement key pairs => (s.incrementSketch key pairs).map .ofCounts
  | sketchEstimates key items => s.answering ((s.sketchEstimates key items).map .ofCounts)
  | sketchInfo key => s.answering ((s.sketchInfo key).map sketchReply)
  | delete keys =>
    let (s, deleted) := s.deleteEach 0 keys
    s.answering (.ok (.ofCount deleted))
  | present keys => s.answering (.ok (.ofCount (keys.countP s.contains)))
  | type key => s.answering (.ok (.ofText ((s.typeName? key).getD "none")))

end Command

namespace Store

/-- The error for a name that is no command. -/
def unknownCommand (name : Bytes) : Error :=
  .unknownCommand (Utf8.lossyText name)

/-- Reads and runs the command of a known name. -/
def runNamed (s : Store) (name : CommandName) (args : List Bytes) : Outcome Reply :=
  match Command.read name args with
  | .ok c => c.run s
  | .error e => s.answering (.error e)

/-- Runs a command of one family, under its exact name. -/
def executeIn (s : Store) (family : Family) (name : Bytes) (args : List Bytes) : Outcome Reply :=
  match (CommandName.ofBytes? name).filter fun c => c.family == family with
  | some c => s.runNamed c args
  | none => s.answering (.error (unknownCommand name))

/-- Runs a command of any family, under its name in any case. -/
def route (s : Store) (name : Bytes) (args : List Bytes) : Outcome Reply :=
  let upper := Bytes.upper name
  match CommandName.ofBytes? upper with
  | some c => s.runNamed c args
  | none =>
    s.answering (.error (unknownCommand (if Family.isMarked upper then upper else name)))

/-- The reply of an answer: a failure is an error reply. -/
def replyTo : Except Error Reply → Reply
  | .ok reply => reply
  | .error e => .ofError e

/-- What a client gets to see of a command, and what becomes of the store. -/
structure Response where
  reply : Reply
  store : Store
  events : List Event

/-- Runs a command as it comes from a client. -/
def execute (s : Store) (name : Bytes) (args : List Bytes) : Response :=
  let outcome := s.route name args
  { reply := replyTo outcome.answer, store := outcome.store, events := outcome.events }

end Store

end CompactStore
