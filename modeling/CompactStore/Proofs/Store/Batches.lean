import CompactStore.Proofs.Command.Names
import CompactStore.Proofs.Steps
import CompactStore.Proofs.Store.BloomItems
import CompactStore.Proofs.Store.SketchCounts
import CompactStore.Proofs.Store.Types

/-!
# Commands for many things

A command for many things is an abbreviation: `Command.expansion?` gives commands for one
thing each, in an order, and says what becomes of their replies.  To run these one after
another leaves the same store, down to the nodes and bytes of its lists, and their replies
make up the reply: `serve_eq_singles`.
-/

namespace CompactStore

namespace Reply

/-- The replies that an array holds. -/
def items : Reply → List Reply
  | arr items => items
  | _ => []

/-- Whether the reply tells that there is nothing. -/
def isNil : Reply → Bool
  | nil => true
  | _ => false

/-- The last of some replies. -/
def last (replies : List Reply) : Reply :=
  replies.getLastD nil

/-- Arrays put together. -/
def together (replies : List Reply) : Reply :=
  .arr (replies.flatMap items)

/-- Those that are there, or nothing if none is. -/
def found (replies : List Reply) : Reply :=
  match replies.filter fun reply => !reply.isNil with
  | [] => nil
  | values => .arr values

/-- The sum of counts, which is a count. -/
def total (replies : List Reply) : Reply :=
  .ofCount (replies.map fun reply => (reply.asInt?.getD 0).toNat).sum

end Reply

/-- Commands that stand for one command, and what becomes of their replies. -/
structure Expansion where
  singles : List Command
  gather : List Reply → Reply

/-- The commands for one thing each that a command for many things stands for. -/
def Command.expansion? : Command → Option Expansion
  | push .front key values => some ⟨values.reverse.map fun value => push .front key [value], .last⟩
  | push .back key values => some ⟨values.map fun value => push .back key [value], .last⟩
  | pop e key (some (count + 1)) => some ⟨List.replicate (count + 1) (pop e key none), .found⟩
  | bloomAddAll key items => some ⟨items.map fun item => bloomAdd key item, .arr⟩
  | bloomContainsAll key items => some ⟨items.map fun item => bloomContains key item, .arr⟩
  | cuckooContainsAll key items => some ⟨items.map fun item => cuckooContains key item, .arr⟩
  | sketchIncrement key pairs => some ⟨pairs.map fun pair => sketchIncrement key [pair], .together⟩
  | sketchEstimates key items => some ⟨items.map fun item => sketchEstimates key [item], .together⟩
  | delete keys => some ⟨keys.map fun key => delete [key], .total⟩
  | present keys => some ⟨keys.map fun key => present [key], .total⟩
  | _ => none

namespace Store

/-- The replies to requests served one after another. -/
def replies (s : Store) : List Request → List Reply
  | [] => []
  | r :: rest => (s.serve r).reply :: (s.serve r).store.replies rest

/-- Running one command; the answer is its reply. -/
def runStep (s : Store) (c : Command) : Store × Reply :=
  ((c.run s).store, replyTo (c.run s).answer)

variable {s : Store} {key : Bytes} {rs : List Request} {cs : List Command}

/-- Requests that read as commands run these. -/
theorem after_replies_eq (h : rs.map Request.command? = cs.map some) :
    (s.after rs, s.replies rs) = runSteps runStep s cs := by
  induction rs generalizing s cs with
  | nil =>
      obtain rfl : cs = [] := List.map_eq_nil_iff.mp h.symm
      rfl
  | cons r rest ih =>
      obtain _ | ⟨c, cs⟩ := cs
      · cases h
      obtain ⟨hcommand, hrest⟩ := List.cons.inj h
      obtain ⟨hreply, hstore⟩ := serve_of_command? (s := s) hcommand
      have htail : (s.after (r :: rest), s.replies (r :: rest)) =
          (((s.serve r).store.after rest),
            (s.serve r).reply :: (s.serve r).store.replies rest) := rfl
      have hnext := ih (s := (s.serve r).store) hrest
      rw [htail, runSteps_cons, runStep, ← hstore, ← hnext, hreply]

/-- Putting something else in its place forgets what was put first. -/
theorem put_put (s : Store) (key : Bytes) (first second : Option Value) :
    (s.put key first).put key second = s.put key second := by
  apply ext_get?
  · rw [config_put, config_put, config_put]
  · rw [machine_put, machine_put, machine_put]
  · intro other
    by_cases hkey : key = other
    · subst hkey
      rw [get?_put_self, get?_put_self]
    · rw [get?_put_of_ne _ _ hkey, get?_put_of_ne _ _ hkey, get?_put_of_ne _ _ hkey]

/-- Putting back what a key holds leaves the store. -/
theorem put_eq_self {held : Option Value} (hget : s.get? key = held) : s.put key held = s := by
  rw [← hget, put_get?]

end Store

namespace Command

open Store Quicklist

variable {s : Store} {key : Bytes}

/-! ### Steps under a key

The store is the same all along, but for what the key holds; so a run of commands is a run
of steps on what the key holds. -/

/-- Adding an item under a key adds it to the bloom filter that is there. -/
theorem runStep_bloomAdd (f : BloomFilter) (item : Bytes) :
    (s.put key (some (.bloom f))).runStep (bloomAdd key item) =
      (s.put key (some (.bloom (f.add item).1)), .ofBool (f.add item).2) := by
  obtain ⟨hanswer, hstore⟩ :=
    addBloomAll_of_ok (bloomFor_of_held (s.get?_put_self key (some (.bloom f)))) [item]
  rw [runStep, run, store_map, answer_map, addBloom, store_map, answer_map, hanswer, hstore,
    put_put]
  rfl

/-- Counting an item under a key counts it in the sketch that is there. -/
theorem runStep_sketchIncrement (sketch : CountMinSketch) (pair : Bytes × Nat) :
    (s.put key (some (.sketch sketch))).runStep (sketchIncrement key [pair]) =
      (s.put key (some (.sketch (sketch.increment pair.1 pair.2).1)),
        .ofCounts [(sketch.increment pair.1 pair.2).2]) := by
  obtain ⟨hanswer, hstore⟩ :=
    incrementSketch_of_held (s.get?_put_self key (some (.sketch sketch))) [pair]
  rw [runStep, run, store_map, answer_map, hanswer, hstore, put_put]
  rfl

/-- Pushing a value under a key pushes it to the list that is there, or to a new one. -/
theorem runStep_push {q : Quicklist} (hq : Settled s.config.listNodeMax q) (e : End)
    (value : Bytes) :
    (s.put key (keepList q)).runStep (push e key [value]) =
      (s.put key (keepList (pushStep e q value).1), .ofCount (pushStep e q value).2) := by
  have hsettled : Settled (s.put key (keepList q)).config.listNodeMax q := by
    rwa [config_put]
  have hpush : (q.push e [value]).1 = Quicklist.pushOne e q value := by cases e <;> rfl
  obtain ⟨hanswer, hstore⟩ := pushList_of_keepList hsettled (s.get?_put_self key _) e [value]
  rw [runStep, run, store_map, answer_map, hanswer, hstore, put_put, hpush]
  rfl

/-- Popping under a key pops from the list that is there, and drops it when it is empty. -/
theorem runStep_pop {q : Quicklist} (hq : q.Chained) (e : End) :
    (s.put key (keepList q)).runStep (pop e key none) =
      (s.put key (keepList (popStep e q ()).1), .ofBytes? (popStep e q ()).2) := by
  obtain ⟨hanswer, hstore⟩ := popList_of_keepList hq (s.get?_put_self key _) e 1
  rw [runStep, run, store_map, answer_map, hanswer, hstore, put_put, popMany, popEach, popStep]
  rcases q.pop? e with _ | ⟨value, r⟩ <;> rfl

/-! ### Many things are each of them -/

/-- The commands in the expansion leave what the command leaves, and their replies make
up its reply. -/
def StandsFor (s : Store) (c : Command) (x : Expansion) : Prop :=
  (runSteps runStep s x.singles).1 = (c.run s).store ∧
    replyTo (c.run s).answer = x.gather (runSteps runStep s x.singles).2

/-- **Pushes.** -/
theorem standsFor_push (hshaped : s.Every Value.ListShaped) (hkey : s.TakesLists key) (e : End)
    {block : List Bytes} (hblock : block ≠ []) :
    StandsFor s (push e key block)
      ⟨(e.opposite.orient block).map fun value => push e key [value], .last⟩ := by
  obtain ⟨q, hq, hget⟩ := exists_keepList hshaped hkey
  obtain ⟨hanswer, hstore⟩ := pushList_of_keepList hq hget e block
  have hrun := runSteps_map (fun q => s.put key (keepList q))
    (fun value => push e key [value]) Reply.ofCount
    (fun q value hsettled => ⟨hsettled.pushOne e value, runStep_push hsettled e value⟩) hq
    (e.opposite.orient block)
  have horder : e.opposite.orient block ≠ [] := (End.orient_eq_nil _ _).not.mpr hblock
  have hlast : (runSteps (pushStep e) q (e.opposite.orient block)).2.getLast? =
      some (runSteps (pushStep e) q (e.opposite.orient block)).1.len :=
    getLast?_runSteps len (fun _ _ => rfl) q horder
  rw [put_eq_self hget] at hrun
  unfold StandsFor
  dsimp only
  rw [hrun, run, store_map, answer_map, hanswer, hstore, push_eq_runSteps, Reply.last,
    List.getLastD_eq_getLast?, List.getLast?_map, hlast]
  exact ⟨rfl, rfl⟩

/-- Of several pops the values that were found are replied. -/
theorem found_map_ofBytes? (taken : List (Option Bytes)) :
    Reply.found (taken.map .ofBytes?) =
      manyReply (if taken.reduceOption.isEmpty then none else some taken.reduceOption) := by
  have hfilter : (taken.map Reply.ofBytes?).filter (fun reply => !reply.isNil) =
      taken.reduceOption.map .str := by
    induction taken with
    | nil => rfl
    | cons value? rest ih =>
        cases value? with
        | none => rw [List.map_cons, List.reduceOption_cons_of_none, ← ih]; rfl
        | some value =>
            rw [List.map_cons, List.reduceOption_cons_of_some, List.map_cons, ← ih]
            rfl
  rw [Reply.found, hfilter]
  cases taken.reduceOption <;> rfl

/-- **Pops.** -/
theorem standsFor_pop (hshaped : s.Every Value.ListShaped) (hkey : s.TakesLists key) (e : End)
    (count : Nat) :
    StandsFor s (pop e key (some (count + 1)))
      ⟨List.replicate (count + 1) (pop e key none), .found⟩ := by
  obtain ⟨q, hq, hget⟩ := exists_keepList hshaped hkey
  obtain ⟨hanswer, hstore⟩ := popList_of_keepList hq.chained hget e (count + 1)
  have hrun := runSteps_map (fun q => s.put key (keepList q))
    (fun _ => pop e key none) Reply.ofBytes?
    (fun q u hchained => ⟨chained_popStep hchained e u, runStep_pop hchained e⟩) hq.chained
    (List.replicate (count + 1) ())
  rw [put_eq_self hget, List.map_replicate] at hrun
  unfold StandsFor
  dsimp only
  rw [hrun, run_pop_succ, store_map, answer_map, hanswer, hstore, popMany, popEach_eq_runSteps,
    List.reverse_nil, List.nil_append, found_map_ofBytes?]
  exact ⟨rfl, rfl⟩

/-- **Additions to a bloom filter.** -/
theorem standsFor_bloomAddAll {f : BloomFilter} (hfor : s.bloomFor key = .ok f)
    {items : List Bytes} (hitems : items ≠ []) :
    StandsFor s (bloomAddAll key items) ⟨items.map fun item => bloomAdd key item, .arr⟩ := by
  obtain ⟨item, rest, rfl⟩ := List.exists_cons_of_ne_nil hitems
  obtain ⟨hanswer, hstore⟩ := addBloomAll_of_ok hfor (item :: rest)
  obtain ⟨hfirst, hput⟩ := addBloomAll_of_ok hfor [item]
  -- the first of them may have to make the filter
  have hone : s.runStep (bloomAdd key item) =
      (s.put key (some (.bloom (f.add item).1)), .ofBool (f.add item).2) := by
    rw [runStep, run, store_map, answer_map, addBloom, store_map, answer_map, hfirst, hput]
    rfl
  have hrun := runSteps_map (P := fun _ => True) (fun f => s.put key (some (.bloom f)))
    (fun item => bloomAdd key item) Reply.ofBool
    (fun f item _ => ⟨trivial, runStep_bloomAdd f item⟩) (a := (f.add item).1) trivial rest
  unfold StandsFor
  dsimp only
  rw [List.map_cons, runSteps_cons, hone, hrun, run, store_map, answer_map, hanswer, hstore,
    BloomFilter.addAll_eq_runSteps]
  exact ⟨rfl, rfl⟩

/-- The counts of one item each are replied together. -/
theorem together_map_ofCounts (counts : List Nat) :
    Reply.together (counts.map fun n => .ofCounts [n]) = .ofCounts counts := by
  rw [Reply.together, List.flatMap_map, Reply.ofCounts]
  exact congrArg Reply.arr (List.map_eq_flatMap (f := Reply.ofCount)).symm

/-- **Increments of a sketch.** -/
theorem standsFor_sketchIncrement {sketch : CountMinSketch}
    (hget : s.get? key = some (.sketch sketch)) (pairs : List (Bytes × Nat)) :
    StandsFor s (sketchIncrement key pairs)
      ⟨pairs.map fun pair => sketchIncrement key [pair], .together⟩ := by
  obtain ⟨hanswer, hstore⟩ := incrementSketch_of_held hget pairs
  have hrun := runSteps_map (P := fun _ => True) (fun sketch => s.put key (some (.sketch sketch)))
    (fun pair => sketchIncrement key [pair]) (fun estimate => Reply.ofCounts [estimate])
    (fun sketch pair _ => ⟨trivial, runStep_sketchIncrement sketch pair⟩) (a := sketch) trivial
    pairs
  rw [put_eq_self hget] at hrun
  unfold StandsFor
  dsimp only
  rw [hrun, run, store_map, answer_map, hanswer, hstore, CountMinSketch.incrementAll_eq_runSteps,
    together_map_ofCounts]
  exact ⟨rfl, rfl⟩

/-- **Questions**: what only reads is asked of one store all along. -/
theorem runSteps_of_reads {ι : Type} {single : ι → Command} {reply : ι → Reply}
    (h : ∀ x, s.runStep (single x) = (s, reply x)) (xs : List ι) :
    runSteps runStep s (xs.map single) = (s, xs.map reply) := by
  induction xs with
  | nil => rfl
  | cons x rest ih =>
      rw [List.map_cons, runSteps_cons, h x, ih]
      rfl

/-- A question about many things, where what it asks of each is `single`. -/
theorem standsFor_of_reads {ι : Type} {c : Command} {single : ι → Command} {reply : ι → Reply}
    {gather : List Reply → Reply} (hone : ∀ x, s.runStep (single x) = (s, reply x))
    (hstore : (c.run s).store = s) {xs : List ι}
    (hreply : replyTo (c.run s).answer = gather (xs.map reply)) :
    StandsFor s c ⟨xs.map single, gather⟩ := by
  unfold StandsFor
  dsimp only
  rw [runSteps_of_reads hone, hstore]
  exact ⟨rfl, hreply⟩

/-- Asking a bloom filter for several items is asking for each of them. -/
theorem standsFor_bloomContainsAll {f? : Option BloomFilter} (hread : s.bloom? key = .ok f?)
    (items : List Bytes) :
    StandsFor s (bloomContainsAll key items)
      ⟨items.map fun item => bloomContains key item, .arr⟩ := by
  have hone : ∀ item, s.runStep (bloomContains key item) =
      (s, .ofBool ((f?.map fun f => f.contains item).getD false)) := by
    intro item
    rw [runStep, run, store_answering, answering, Store.bloomContains, hread]
    rfl
  refine standsFor_of_reads hone rfl ?_
  rw [run, answering, Store.bloomContainsAll, hread]
  exact congrArg Reply.arr List.map_map

/-- Asking a cuckoo filter for several items is asking for each of them. -/
theorem standsFor_cuckooContainsAll {f? : Option CuckooFilter} (hread : s.cuckoo? key = .ok f?)
    (items : List Bytes) :
    StandsFor s (cuckooContainsAll key items)
      ⟨items.map fun item => cuckooContains key item, .arr⟩ := by
  have hone : ∀ item, s.runStep (cuckooContains key item) =
      (s, .ofBool ((f?.map fun f => f.contains item).getD false)) := by
    intro item
    rw [runStep, run, store_answering, answering, Store.cuckooContains, hread]
    rfl
  refine standsFor_of_reads hone rfl ?_
  rw [run, answering, Store.cuckooContainsAll, hread]
  exact congrArg Reply.arr List.map_map

/-- Asking a sketch for several items is asking for each of them. -/
theorem standsFor_sketchEstimates {sketch : CountMinSketch}
    (hread : s.sketchInfo key = .ok sketch) (items : List Bytes) :
    StandsFor s (sketchEstimates key items)
      ⟨items.map fun item => sketchEstimates key [item], .together⟩ := by
  have hone : ∀ item, s.runStep (sketchEstimates key [item]) =
      (s, .ofCounts [sketch.estimate item]) := by
    intro item
    rw [runStep, run, store_answering, answering, Store.sketchEstimates, hread]
    rfl
  refine standsFor_of_reads hone rfl ?_
  have hmap : (items.map fun item => Reply.ofCounts [sketch.estimate item]) =
      (items.map sketch.estimate).map fun n => .ofCounts [n] := by
    rw [List.map_map]
    rfl
  rw [run, answering, Store.sketchEstimates, hread, hmap, together_map_ofCounts]
  rfl

/-- The number of those that were found is the sum of ones. -/
theorem total_map_ofCount (found : List Bool) :
    Reply.total (found.map fun b => .ofCount b.toNat) = .ofCount (found.count true) := by
  rw [Reply.total]
  congr 1
  induction found with
  | nil => rfl
  | cons b rest ih =>
      rw [List.map_cons, List.map_cons, List.sum_cons, ih, List.count_cons, Nat.add_comm]
      cases b <;> rfl

/-- **Questions for keys.** -/
theorem standsFor_present (s : Store) (keys : List Bytes) :
    StandsFor s (present keys) ⟨keys.map fun key => present [key], .total⟩ := by
  have hone : ∀ key, s.runStep (present [key]) = (s, .ofCount (s.contains key).toNat) := by
    intro key
    rw [runStep, run, store_answering, answering, List.countP_singleton]
    cases s.contains key <;> rfl
  have hcount : keys.countP s.contains = (keys.map s.contains).count true := by
    rw [List.count, List.countP_map]
    congr 1
    funext key
    cases h : s.contains key <;> simp [h]
  refine standsFor_of_reads hone rfl ?_
  rw [run, answering, hcount, ← total_map_ofCount, List.map_map]
  rfl

/-- Deleting several keys is deleting one after another, and counting those that were there. -/
theorem deleteEach_eq_runSteps (s : Store) (count : Nat) (keys : List Bytes) :
    s.deleteEach count keys = ((runSteps Store.delete s keys).1,
      count + (runSteps Store.delete s keys).2.count true) := by
  induction keys generalizing s count with
  | nil => rfl
  | cons key rest ih =>
      rw [deleteEach, runSteps_cons, List.count_cons]
      dsimp only
      rw [ih]
      cases (s.delete key).2
      · rfl
      · rw [if_pos rfl, Nat.add_assoc, Nat.add_comm 1]
        rfl

/-- **Deletions.** -/
theorem standsFor_delete (s : Store) (keys : List Bytes) :
    StandsFor s (delete keys) ⟨keys.map fun key => delete [key], .total⟩ := by
  have hone : ∀ (t : Store) key, t.runStep (delete [key]) =
      ((t.delete key).1, .ofCount (t.delete key).2.toNat) := by
    intro t key
    rw [runStep, run, deleteEach_eq_runSteps]
    cases hfound : (t.delete key).2 <;> simp [runSteps, hfound, answering, replyTo]
  have hrun : runSteps runStep s (keys.map fun key => delete [key]) =
      ((runSteps Store.delete s keys).1,
        (runSteps Store.delete s keys).2.map fun found => .ofCount found.toNat) :=
    runSteps_map (P := fun _ => True) id (fun key => delete [key])
      (fun found : Bool => Reply.ofCount found.toNat)
      (fun t key _ => ⟨trivial, hone t key⟩) trivial keys
  unfold StandsFor
  dsimp only
  rw [hrun, run, deleteEach_eq_runSteps, total_map_ofCount, Nat.zero_add]
  exact ⟨rfl, rfl⟩

/-! ### Every command for many things -/

/-- A list command that is not refused finds a list, or nothing. -/
theorem takesLists_of_ok {l : ListCommand}
    (hok : (replyTo ((l.under key).run s).answer).isError = false) : s.TakesLists key := by
  intro value hget
  by_cases hfamily : value.family = .list
  · cases value with
    | list q => exact ⟨q, rfl⟩
    | _ => cases hfamily
  · rw [answer_run_under_of_other hget hfamily l] at hok
    cases hok

/-- What is read as a push pushes something. -/
theorem values_ne_nil_of_read {e : End} {values args : List Bytes}
    (h : read (push e key values).name args = .ok (push e key values)) : values ≠ [] := by
  rcases args with _ | ⟨first, _ | ⟨second, rest⟩⟩
  all_goals
    cases e <;> cases h
  all_goals exact List.cons_ne_nil _ _

/-- A command that adds several items has one at least. -/
theorem items_ne_nil_of_read {items args : List Bytes}
    (h : read .bfMadd args = .ok (bloomAddAll key items)) : items ≠ [] := by
  rcases args with _ | ⟨first, _ | ⟨second, rest⟩⟩
  all_goals cases h
  exact List.cons_ne_nil _ _

/-- **A command for many things stands for its expansion**, unless it is refused. -/
theorem standsFor_expansion {c : Command} {x : Expansion} {args : List Bytes}
    (hshaped : s.Every Value.ListShaped) (hread : read c.name args = .ok c)
    (hx : c.expansion? = some x)
    (hok : (replyTo (c.run s).answer).isError = false) : StandsFor s c x := by
  cases c with
  | push e key block =>
      have hkey : s.TakesLists key := takesLists_of_ok (l := .push e block) hok
      have hblock := values_ne_nil_of_read hread
      cases e with
      | front =>
          obtain rfl := Option.some.inj hx
          exact standsFor_push hshaped hkey .front hblock
      | back =>
          obtain rfl := Option.some.inj hx
          exact standsFor_push hshaped hkey .back hblock
  | pop e key count =>
      obtain _ | _ | count := count
      · cases hx
      · cases hx
      · obtain rfl := Option.some.inj hx
        have hkey : s.TakesLists key := takesLists_of_ok (l := .popMany e (count + 1)) hok
        exact standsFor_pop hshaped hkey e count
  | bloomAddAll key items =>
      obtain rfl := Option.some.inj hx
      have hitems := items_ne_nil_of_read hread
      cases hfor : s.bloomFor key with
      | error e =>
          rw [run, answer_map, (addBloomAll_of_error hfor items).1] at hok
          cases hok
      | ok f => exact standsFor_bloomAddAll hfor hitems
  | bloomContainsAll key items =>
      obtain rfl := Option.some.inj hx
      cases hheld : s.bloom? key with
      | error e =>
          rw [run, answering, Store.bloomContainsAll, hheld] at hok
          cases hok
      | ok f? => exact standsFor_bloomContainsAll hheld items
  | cuckooContainsAll key items =>
      obtain rfl := Option.some.inj hx
      cases hheld : s.cuckoo? key with
      | error e =>
          rw [run, answering, Store.cuckooContainsAll, hheld] at hok
          cases hok
      | ok f? => exact standsFor_cuckooContainsAll hheld items
  | sketchIncrement key pairs =>
      obtain rfl := Option.some.inj hx
      by_cases hheld : ∃ sketch, s.get? key = some (.sketch sketch)
      · obtain ⟨sketch, hget⟩ := hheld
        exact standsFor_sketchIncrement hget pairs
      · obtain ⟨⟨e, hanswer⟩, -⟩ :=
          incrementSketch_of_not_held (fun sketch hget => hheld ⟨sketch, hget⟩) pairs
        rw [run, answer_map, hanswer] at hok
        cases hok
  | sketchEstimates key items =>
      obtain rfl := Option.some.inj hx
      cases hheld : s.sketchInfo key with
      | error e =>
          rw [run, answering, Store.sketchEstimates, hheld] at hok
          cases hok
      | ok sketch => exact standsFor_sketchEstimates hheld items
  | delete keys =>
      obtain rfl := Option.some.inj hx
      exact standsFor_delete s keys
  | present keys =>
      obtain rfl := Option.some.inj hx
      exact standsFor_present s keys
  | _ => cases hx

/-! ### Requests for the expansion -/

/-- Each number among the pairs was read from an argument. -/
theorem exists_arg_of_pairs {args : List Bytes} {ps : List (Bytes × Nat)}
    (h : pairs args = .ok ps) : ∀ pair ∈ ps, ∃ arg, natural arg = .ok pair.2 := by
  induction args using pairs.induct generalizing ps with
  | case1 item delta rest ih =>
      rw [pairs] at h
      obtain ⟨n, hn, hrest⟩ := exists_of_bind_eq_ok h
      obtain ⟨more, hmore, hps⟩ := exists_of_bind_eq_ok hrest
      cases hps
      rintro pair (_ | ⟨_, hpair⟩)
      · exact ⟨delta, hn⟩
      · exact ih hmore pair hpair
  | case2 args hargs =>
      rw [pairs] at h
      · cases h
        exact fun pair hpair => absurd hpair List.not_mem_nil
      · exact hargs

/-- Each increment of a command that was read can be asked for by itself. -/
theorem exists_request_of_increment {args : List Bytes} {ps : List (Bytes × Nat)}
    (h : read .cmsIncrBy args = .ok (sketchIncrement key ps)) {pair : Bytes × Nat}
    (hpair : pair ∈ ps) :
    ∃ r : Request, r.command? = some (sketchIncrement key [pair]) := by
  obtain ⟨arg, harg⟩ : ∃ arg, natural arg = .ok pair.2 := by
    rcases args with _ | ⟨first, _ | ⟨second, _ | ⟨third, rest⟩⟩⟩
    case cons.cons.cons =>
      change (if rest.length % 2 = 0 then
        (pairs (second :: third :: rest) >>= fun ps => .ok (sketchIncrement first ps))
        else .error (.arity CommandName.cmsIncrBy.text)) = .ok (sketchIncrement key ps) at h
      split at h
      · obtain ⟨more, hmore, hps⟩ := exists_of_bind_eq_ok h
        cases hps
        exact exists_arg_of_pairs hmore pair hpair
      · cases h
    all_goals cases h
  have hpairs : pairs [pair.1, arg] = .ok [pair] := by
    rw [pairs, harg]
    rfl
  have hsingle : read .cmsIncrBy [key, pair.1, arg] =
      (pairs [pair.1, arg] >>= fun ps => .ok (sketchIncrement key ps)) := rfl
  refine ⟨⟨CommandName.cmsIncrBy.bytes, [key, pair.1, arg]⟩, ?_⟩
  rw [Request.command?_bytes, hsingle, hpairs]
  rfl

/-- **Every command of an expansion** can be asked for. -/
theorem exists_request_of_single {c single : Command} {x : Expansion} {args : List Bytes}
    (hread : read c.name args = .ok c) (hx : c.expansion? = some x)
    (hsingle : single ∈ x.singles) : ∃ r : Request, r.command? = some single := by
  cases c with
  | push e key block =>
      cases e with
      | front =>
          obtain rfl := Option.some.inj hx
          obtain ⟨value, -, rfl⟩ := List.mem_map.mp hsingle
          exact ⟨⟨_, [key, value]⟩, Request.command?_bytes .lpush _⟩
      | back =>
          obtain rfl := Option.some.inj hx
          obtain ⟨value, -, rfl⟩ := List.mem_map.mp hsingle
          exact ⟨⟨_, [key, value]⟩, Request.command?_bytes .rpush _⟩
  | pop e key count =>
      obtain _ | _ | count := count
      · cases hx
      · cases hx
      · obtain rfl := Option.some.inj hx
        obtain rfl := List.eq_of_mem_replicate hsingle
        cases e with
        | front => exact ⟨⟨_, [key]⟩, Request.command?_bytes .lpop _⟩
        | back => exact ⟨⟨_, [key]⟩, Request.command?_bytes .rpop _⟩
  | bloomAddAll key items =>
      obtain rfl := Option.some.inj hx
      obtain ⟨item, -, rfl⟩ := List.mem_map.mp hsingle
      exact ⟨⟨_, [key, item]⟩, Request.command?_bytes .bfAdd _⟩
  | bloomContainsAll key items =>
      obtain rfl := Option.some.inj hx
      obtain ⟨item, -, rfl⟩ := List.mem_map.mp hsingle
      exact ⟨⟨_, [key, item]⟩, Request.command?_bytes .bfExists _⟩
  | cuckooContainsAll key items =>
      obtain rfl := Option.some.inj hx
      obtain ⟨item, -, rfl⟩ := List.mem_map.mp hsingle
      exact ⟨⟨_, [key, item]⟩, Request.command?_bytes .cfExists _⟩
  | sketchIncrement key pairs =>
      obtain rfl := Option.some.inj hx
      obtain ⟨pair, hpair, rfl⟩ := List.mem_map.mp hsingle
      exact exists_request_of_increment hread hpair
  | sketchEstimates key items =>
      obtain rfl := Option.some.inj hx
      obtain ⟨item, -, rfl⟩ := List.mem_map.mp hsingle
      exact ⟨⟨_, [key, item]⟩, Request.command?_bytes .cmsQuery _⟩
  | delete keys =>
      obtain rfl := Option.some.inj hx
      obtain ⟨key, -, rfl⟩ := List.mem_map.mp hsingle
      exact ⟨⟨_, [key]⟩, Request.command?_bytes .del _⟩
  | present keys =>
      obtain rfl := Option.some.inj hx
      obtain ⟨key, -, rfl⟩ := List.mem_map.mp hsingle
      exact ⟨⟨_, [key]⟩, Request.command?_bytes .exist _⟩
  | _ => cases hx

end Command

namespace Store

variable {r : Request} {c : Command} {x : Expansion}

/-- Commands that can each be asked for can be asked for one after another. -/
theorem exists_requests {cs : List Command} (h : ∀ c ∈ cs, ∃ r : Request, r.command? = some c) :
    ∃ rs : List Request, rs.map Request.command? = cs.map some := by
  induction cs with
  | nil => exact ⟨[], rfl⟩
  | cons c rest ih =>
      obtain ⟨r, hr⟩ := h c List.mem_cons_self
      obtain ⟨rs, hrs⟩ := ih fun d hd => h d (List.mem_cons_of_mem c hd)
      exact ⟨r :: rs, by rw [List.map_cons, List.map_cons, hr, hrs]⟩

/-- **A request for many things is requests for one thing each**, in every reachable store
and unless it is refused: there are requests for the commands of its expansion, and when
such requests are served one after another, they leave the same store, and what becomes of
their replies is its reply. -/
theorem serve_eq_singles (machine : Machine) (config : Config) (requests : List Request)
    (hcommand : r.command? = some c) (hx : c.expansion? = some x)
    (hok : (((empty machine config).after requests).serve r).reply.isError = false) :
    let s := (empty machine config).after requests
    (∃ rs : List Request, rs.map Request.command? = x.singles.map some) ∧
    ∀ rs : List Request, rs.map Request.command? = x.singles.map some →
      s.after rs = (s.serve r).store ∧ (s.serve r).reply = x.gather (s.replies rs) := by
  intro s
  obtain ⟨-, hread⟩ := Request.read_of_command? hcommand
  obtain ⟨hreply, hstore⟩ := serve_of_command? (s := s) hcommand
  refine ⟨exists_requests fun single => Command.exists_request_of_single hread hx, ?_⟩
  intro rs hrs
  have hsame : (s.after rs, s.replies rs) = runSteps runStep s x.singles := after_replies_eq hrs
  rw [hreply] at hok
  obtain ⟨hleft, htold⟩ := Command.standsFor_expansion
    (listShaped_after machine config requests) hread hx hok
  rw [hreply, hstore, htold, ← hleft, ← hsame]
  exact ⟨rfl, rfl⟩

/-- A pop of three takes both values of a list and the key, as three pops do, of which the
last finds nothing. -/
theorem serve_eq_singles_pop :
    let s := (empty ⟨id, id, fun _ n => n⟩ {}).after
      [⟨CommandName.rpush.bytes, [[0x6B], [0x61], [0x62]]⟩]
    let many : Request := ⟨CommandName.lpop.bytes, [[0x6B], [0x33]]⟩
    let one : Request := ⟨CommandName.lpop.bytes, [[0x6B]]⟩
    (s.serve many).reply.isError = false ∧
      s.after [one, one, one] = (s.serve many).store ∧
      (s.serve many).reply = .found (s.replies [one, one, one]) := by
  intro s many one
  have hok : (s.serve many).reply.isError = false := by decide +kernel
  have hmany : many.command? = some (.pop .front [0x6B] (some 3)) :=
    Request.command?_bytes .lpop [[0x6B], [0x33]]
  have hone : one.command? = some (.pop .front [0x6B] none) :=
    Request.command?_bytes .lpop [[0x6B]]
  obtain ⟨-, hsingles⟩ := serve_eq_singles ⟨id, id, fun _ n => n⟩ {}
    [⟨CommandName.rpush.bytes, [[0x6B], [0x61], [0x62]]⟩] hmany rfl hok
  have hones : [one, one, one].map Request.command? =
      (List.replicate 3 (Command.pop .front [0x6B] none)).map some := by
    rw [List.map_cons, List.map_cons, List.map_cons, hone]
    rfl
  obtain ⟨hleft, htold⟩ := hsingles [one, one, one] hones
  dsimp only at htold
  exact ⟨hok, hleft, htold⟩

end Store

end CompactStore
