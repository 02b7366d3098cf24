import CompactStore.Quicklist.Basic
import CompactStore.Store.Basic

/-!
# Operations on a store

What the commands of each family do to the value under one key, and what they read
of it.  An operation is an effect on what the key holds: the answer, what the key
holds afterwards, and the events that are reported on the way.
-/

namespace CompactStore.Store

/-!
### Lists

Pushing to a missing key makes a list; a list that holds nothing afterwards is not
kept, neither when it was just made nor when the last value was taken off.  A
missing key reads as an empty list.
-/

/-- A list as a key holds it: not at all when it is empty. -/
def keepList (q : Quicklist) : Option Value :=
  if q.isEmpty then none else some (.list q)

/-- Pushes values at an end of a list; the answer is the length of the list. -/
def pushList (s : Store) (key : Bytes) (e : End) (values : List Bytes) : Outcome Nat :=
  s.update key fun
    | some (.list q) =>
      let (q, _) := q.push e values
      { answer := .ok q.len, held := some (.list q) }
    | some value => .refuse .wrongType (some value)
    | none =>
      let (q, _) := (Quicklist.empty s.config.listNodeMax).push e values
      { answer := .ok q.len, held := keepList q, events := [.creatingList] }

/-- Takes at most `count` values off an end of a list; nothing when there are
none. -/
def popList (s : Store) (key : Bytes) (e : End) (count : Nat) : Outcome (Option (List Bytes)) :=
  s.update key fun
    | some (.list q) =>
      let (q, taken) := q.popMany e count
      { answer := .ok (if taken.isEmpty then none else some taken), held := keepList q }
    | some value => .refuse .wrongType (some value)
    | none => { answer := .ok none, held := none }

/-- The list that a key holds; none when the key is missing. -/
def list? (s : Store) (key : Bytes) : Except Error (Option Quicklist) :=
  match s.get? key with
  | some (.list q) => .ok (some q)
  | some _ => .error .wrongType
  | none => .ok none

/-- The length of a list. -/
def listLength (s : Store) (key : Bytes) : Except Error Nat :=
  (s.list? key).map fun q? => (q?.map Quicklist.len).getD 0

/-- The values of a list from one index to another, both included. -/
def listRange (s : Store) (key : Bytes) (start stop : Int) : Except Error (List Bytes) :=
  (s.list? key).map fun q? => (q?.map fun q => q.range start stop).getD []

/-- The value of a list at an index. -/
def listIndex (s : Store) (key : Bytes) (i : Int) : Except Error (Option Bytes) :=
  (s.list? key).map fun q? => q?.bind fun q => q.index? i

/-!
### Bloom filters

A bloom filter is reserved with a size of its own, or made with the configured
size by adding to a missing key.  A missing key reports nothing as present.
-/

/-- Makes an empty bloom filter under a key that holds nothing. -/
def reserveBloom (s : Store) (key : Bytes) (errorRate : Float) (capacity : Nat) : Outcome Unit :=
  s.update key fun
    | some value => .refuse .keyExists (some value)
    | none =>
      match BloomFilter.create s.machine.ln capacity errorRate with
      | .error reason => .refuse (.size reason) none
      | .ok f => {
          answer := .ok ()
          held := some (.bloom f)
          events := [.bloomReserved capacity errorRate] }

/-- Adds items to a bloom filter; for each the answer is whether it was new. -/
def addBloomAll (s : Store) (key : Bytes) (items : List Bytes) : Outcome (List Bool) :=
  s.update key fun
    | some (.bloom f) =>
      let (f, answers) := f.addAll items
      { answer := .ok answers, held := some (.bloom f) }
    | some value => .refuse .wrongType (some value)
    | none =>
      match BloomFilter.create s.machine.ln s.config.bloomCapacity s.config.bloomErrorRate with
      | .error reason =>
        { answer := .error (.size reason), held := none, events := [.creatingBloom] }
      | .ok f =>
        let (f, answers) := f.addAll items
        { answer := .ok answers, held := some (.bloom f), events := [.creatingBloom] }

/-- Adds an item to a bloom filter; the answer is whether it was new. -/
def addBloom (s : Store) (key item : Bytes) : Outcome Bool :=
  (s.addBloomAll key [item]).map fun answers => answers.headD false

/-- The bloom filter that a key holds; none when the key is missing. -/
def bloom? (s : Store) (key : Bytes) : Except Error (Option BloomFilter) :=
  match s.get? key with
  | some (.bloom f) => .ok (some f)
  | some _ => .error .wrongType
  | none => .ok none

/-- Whether an item may have been added. -/
def bloomContains (s : Store) (key item : Bytes) : Except Error Bool :=
  (s.bloom? key).map fun f? => (f?.map fun f => f.contains item).getD false

/-- Whether each of some items may have been added. -/
def bloomContainsAll (s : Store) (key : Bytes) (items : List Bytes) : Except Error (List Bool) :=
  (s.bloom? key).map fun f? => items.map fun item => (f?.map fun f => f.contains item).getD false

/-- The number of items that were new when they were added. -/
def bloomCard (s : Store) (key : Bytes) : Except Error Nat :=
  (s.bloom? key).map fun f? => (f?.map BloomFilter.card).getD 0

/-- The bloom filter under a key that must be there. -/
def bloomInfo (s : Store) (key : Bytes) : Except Error BloomFilter :=
  (s.bloom? key).bind fun
    | some f => .ok f
    | none => .error .noSuchKey

/-!
### Cuckoo filters

A cuckoo filter is reserved with a size of its own, or made with the configured
size by adding to a missing key.  A filter that was just made stays even if its
first item finds no room.  A missing key reports nothing as present, and nothing
can be taken out of it.
-/

/-- Makes an empty cuckoo filter under a key that holds nothing. -/
def reserveCuckoo (s : Store) (key : Bytes) (errorRate : Float) (capacity : Nat) : Outcome Unit :=
  s.update key fun
    | some value => .refuse .keyExists (some value)
    | none =>
      match CuckooFilter.create s.machine.log2 capacity errorRate (s.machine.stream key) with
      | .error reason => .refuse (.size reason) none
      | .ok f => {
          answer := .ok ()
          held := some (.cuckoo f)
          events := [.cuckooReserved capacity errorRate] }

/-- A cuckoo filter after an addition, with the events so far: a full filter is
reported, and is an error. -/
def additionEffect (events : List Event) (f : CuckooFilter) :
    CuckooFilter.Addition → Effect Bool
  | .added => { answer := .ok true, held := some (.cuckoo f), events }
  | .present => { answer := .ok false, held := some (.cuckoo f), events }
  | .full => {
      answer := .error .filterFull
      held := some (.cuckoo f)
      events := events ++ [.cuckooFull] }

/-- Runs an addition on the cuckoo filter under a key, which is made first if the
key is missing; the answer is whether something was added. -/
def extendCuckoo (s : Store) (key : Bytes)
    (addition : CuckooFilter → CuckooFilter × CuckooFilter.Addition) : Outcome Bool :=
  s.update key fun
    | some (.cuckoo f) =>
      let (f, result) := addition f
      additionEffect [] f result
    | some value => .refuse .wrongType (some value)
    | none =>
      match CuckooFilter.create s.machine.log2 s.config.cuckooCapacity s.config.cuckooErrorRate
          (s.machine.stream key) with
      | .error reason =>
        { answer := .error (.size reason), held := none, events := [.creatingCuckoo] }
      | .ok f =>
        let (f, result) := addition f
        additionEffect [.creatingCuckoo] f result

/-- Adds an item to a cuckoo filter. -/
def addCuckoo (s : Store) (key item : Bytes) : Outcome Unit :=
  (s.extendCuckoo key fun f => f.addOnce item).map fun _ => ()

/-- Adds an item to a cuckoo filter unless it is reported present; the answer is
whether it was added. -/
def addCuckooNew (s : Store) (key item : Bytes) : Outcome Bool :=
  s.extendCuckoo key fun f => f.addNew item

/-- Takes one fingerprint of an item out; the answer is whether there was one. -/
def removeCuckoo (s : Store) (key item : Bytes) : Outcome Bool :=
  s.update key fun
    | some (.cuckoo f) =>
      let (f, removed) := f.remove item
      { answer := .ok removed, held := some (.cuckoo f) }
    | some value => .refuse .wrongType (some value)
    | none => { answer := .ok false, held := none }

/-- The cuckoo filter that a key holds; none when the key is missing. -/
def cuckoo? (s : Store) (key : Bytes) : Except Error (Option CuckooFilter) :=
  match s.get? key with
  | some (.cuckoo f) => .ok (some f)
  | some _ => .error .wrongType
  | none => .ok none

/-- Whether an item may be stored. -/
def cuckooContains (s : Store) (key item : Bytes) : Except Error Bool :=
  (s.cuckoo? key).map fun f? => (f?.map fun f => f.contains item).getD false

/-- Whether each of some items may be stored. -/
def cuckooContainsAll (s : Store) (key : Bytes) (items : List Bytes) : Except Error (List Bool) :=
  (s.cuckoo? key).map fun f? => items.map fun item => (f?.map fun f => f.contains item).getD false

/-- The cuckoo filter under a key that must be there. -/
def cuckooInfo (s : Store) (key : Bytes) : Except Error CuckooFilter :=
  (s.cuckoo? key).bind fun
    | some f => .ok f
    | none => .error .noSuchKey

/-!
### Count-min sketches

A sketch has to be made before it is used: counting and asking under a missing
key is an error.
-/

/-- Puts a new sketch under a key that holds nothing; it is made only then. -/
def putSketch (s : Store) (key : Bytes) (make : Unit → Except SizeError CountMinSketch) :
    Outcome Unit :=
  s.update key fun
    | some value => .refuse .keyExists (some value)
    | none =>
      match make () with
      | .error reason => .refuse (.size reason) none
      | .ok sketch => {
          answer := .ok ()
          held := some (.sketch sketch)
          events := [.sketchCreated sketch.rows sketch.columns] }

/-- Makes an empty sketch of these dimensions. -/
def createSketch (s : Store) (key : Bytes) (rows columns : Nat) : Outcome Unit :=
  s.putSketch key fun _ => CountMinSketch.create rows columns

/-- Makes an empty sketch sized by a bound on the error and the probability of
exceeding it. -/
def createSketchFor (s : Store) (key : Bytes) (errorRate probability : Float) : Outcome Unit :=
  s.putSketch key fun _ => CountMinSketch.createFor s.machine.ln errorRate probability

/-- Increments items one after another, with the estimate after each. -/
def incrementSketch (s : Store) (key : Bytes) (pairs : List (Bytes × Nat)) : Outcome (List Nat) :=
  s.update key fun
    | some (.sketch sketch) =>
      let (sketch, estimates) := sketch.incrementAll pairs
      { answer := .ok estimates, held := some (.sketch sketch) }
    | some value => .refuse .wrongType (some value)
    | none => .refuse .noSuchKey none

/-- The sketch under a key that must be there. -/
def sketchInfo (s : Store) (key : Bytes) : Except Error CountMinSketch :=
  match s.get? key with
  | some (.sketch sketch) => .ok sketch
  | some _ => .error .wrongType
  | none => .error .noSuchKey

/-- The estimates for some items. -/
def sketchEstimates (s : Store) (key : Bytes) (items : List Bytes) : Except Error (List Nat) :=
  (s.sketchInfo key).map fun sketch => items.map sketch.estimate

end CompactStore.Store
