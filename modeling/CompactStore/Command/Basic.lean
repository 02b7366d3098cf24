import CompactStore.Command.Name
import CompactStore.Decimal.Float
import CompactStore.Decimal.Integer
import CompactStore.Error
import CompactStore.Listpack.Basic

/-!
# Commands

A command is a name and arguments.  Reading it checks the number of arguments and
turns the numbers among them into numbers; only a command that was read runs, so
a command with a wrong argument never touches the store.

The arguments of the right number are read from left to right, and the first
that is no number of its kind is the error.
-/

namespace CompactStore

/-- A command with its arguments. -/
inductive Command where
  | push (e : End) (key : Bytes) (values : List Bytes)
  | pop (e : End) (key : Bytes) (count : Option Nat)
  | length (key : Bytes)
  | range (key : Bytes) (start stop : Int)
  | index (key : Bytes) (i : Int)
  | bloomReserve (key : Bytes) (errorRate : Float) (capacity : Nat)
  | bloomAdd (key item : Bytes)
  | bloomAddAll (key : Bytes) (items : List Bytes)
  | bloomContains (key item : Bytes)
  | bloomContainsAll (key : Bytes) (items : List Bytes)
  | bloomInfo (key : Bytes)
  | bloomCard (key : Bytes)
  | cuckooReserve (key : Bytes) (errorRate : Float) (capacity : Nat)
  | cuckooAdd (key item : Bytes)
  | cuckooAddNew (key item : Bytes)
  | cuckooContains (key item : Bytes)
  | cuckooContainsAll (key : Bytes) (items : List Bytes)
  | cuckooRemove (key item : Bytes)
  | cuckooInfo (key : Bytes)
  | sketchCreate (key : Bytes) (rows columns : Nat)
  | sketchCreateFor (key : Bytes) (errorRate probability : Float)
  | sketchIncrement (key : Bytes) (pairs : List (Bytes × Nat))
  | sketchEstimates (key : Bytes) (items : List Bytes)
  | sketchInfo (key : Bytes)
  | delete (keys : List Bytes)
  | present (keys : List Bytes)
  | type (key : Bytes)
deriving Repr

namespace Command

/-- An argument that is an integer of 64 bits. -/
def integer (arg : Bytes) : Except Error Int :=
  match Decimal.signed? (Bytes.chars arg) with
  | some n => .ok n
  | none => .error .notInteger

/-- An argument that is a natural number of 64 bits. -/
def natural (arg : Bytes) : Except Error Nat :=
  match Decimal.unsigned? (Bytes.chars arg) with
  | some n => .ok n
  | none => .error .notInteger

/-- An argument that is a float. -/
def float (arg : Bytes) : Except Error Float :=
  match Decimal.float? (Bytes.chars arg) with
  | some x => .ok x
  | none => .error .notFloat

/-- How many values a pop takes: an integer that is not negative. -/
def popCount (arg : Bytes) : Except Error Nat := do
  let n ← integer arg
  if n < 0 then .error .negative else .ok n.toNat

/-- Items with their increments, one after the other. -/
def pairs : List Bytes → Except Error (List (Bytes × Nat))
  | item :: delta :: rest => do
    let delta ← natural delta
    let rest ← pairs rest
    .ok ((item, delta) :: rest)
  | _ => .ok []

/-- The command with this name and these arguments. -/
def read (name : CommandName) (args : List Bytes) : Except Error Command :=
  match name, args with
  | .lpush, key :: value :: values => .ok (.push .front key (value :: values))
  | .rpush, key :: value :: values => .ok (.push .back key (value :: values))
  | .lpop, [key] => .ok (.pop .front key none)
  | .lpop, [key, count] => do .ok (.pop .front key (some (← popCount count)))
  | .rpop, [key] => .ok (.pop .back key none)
  | .rpop, [key, count] => do .ok (.pop .back key (some (← popCount count)))
  | .llen, [key] => .ok (.length key)
  | .lrange, [key, start, stop] => do .ok (.range key (← integer start) (← integer stop))
  | .lindex, [key, i] => do .ok (.index key (← integer i))
  | .bfReserve, [key, errorRate, capacity] => do
    .ok (.bloomReserve key (← float errorRate) (← natural capacity))
  | .bfAdd, [key, item] => .ok (.bloomAdd key item)
  | .bfMadd, key :: item :: items => .ok (.bloomAddAll key (item :: items))
  | .bfExists, [key, item] => .ok (.bloomContains key item)
  | .bfMexists, key :: item :: items => .ok (.bloomContainsAll key (item :: items))
  | .bfInfo, [key] => .ok (.bloomInfo key)
  | .bfCard, [key] => .ok (.bloomCard key)
  | .cfReserve, [key, errorRate, capacity] => do
    .ok (.cuckooReserve key (← float errorRate) (← natural capacity))
  | .cfAdd, [key, item] => .ok (.cuckooAdd key item)
  | .cfAddnx, [key, item] => .ok (.cuckooAddNew key item)
  | .cfExists, [key, item] => .ok (.cuckooContains key item)
  | .cfMexists, key :: item :: items => .ok (.cuckooContainsAll key (item :: items))
  | .cfDel, [key, item] => .ok (.cuckooRemove key item)
  | .cfInfo, [key] => .ok (.cuckooInfo key)
  | .cmsInitByDim, [key, width, depth] => do
    let columns ← natural width
    let rows ← natural depth
    .ok (.sketchCreate key rows columns)
  | .cmsInitByProb, [key, errorRate, probability] => do
    .ok (.sketchCreateFor key (← float errorRate) (← float probability))
  | .cmsIncrBy, key :: item :: delta :: rest =>
    if rest.length % 2 = 0 then do .ok (.sketchIncrement key (← pairs (item :: delta :: rest)))
    else .error (.arity name.text)
  | .cmsQuery, key :: item :: items => .ok (.sketchEstimates key (item :: items))
  | .cmsInfo, [key] => .ok (.sketchInfo key)
  | .del, key :: keys => .ok (.delete (key :: keys))
  | .exist, key :: keys => .ok (.present (key :: keys))
  | .type, [key] => .ok (.type key)
  | _, _ => .error (.arity name.text)

/-- The keys that a command names. -/
def keys : Command → List Bytes
  | push _ key _ | pop _ key _ | length key | range key _ _ | index key _ => [key]
  | bloomReserve key _ _ | bloomAdd key _ | bloomAddAll key _ | bloomContains key _
  | bloomContainsAll key _ | bloomInfo key | bloomCard key => [key]
  | cuckooReserve key _ _ | cuckooAdd key _ | cuckooAddNew key _ | cuckooContains key _
  | cuckooContainsAll key _ | cuckooRemove key _ | cuckooInfo key => [key]
  | sketchCreate key _ _ | sketchCreateFor key _ _ | sketchIncrement key _
  | sketchEstimates key _ | sketchInfo key => [key]
  | delete keys | present keys => keys
  | type key => [key]

end Command

end CompactStore
