import CompactStore.Proofs.Command.Names
import CompactStore.Proofs.Sketch.Tallies
import CompactStore.Proofs.Store.Invariants

/-!
# Counts of a sketch in a store

A client knows which increments were counted: those of the commands that were not
answered with an error.  `Store.counted` reads them off a run.  Whatever else is asked of
the store in between, the sketch under a key is tallied with these, `Command.run_tallied`,
so no estimate that it replies is below what an item got: `serve_counted`.
-/

namespace CompactStore

open CountMinSketch

/-- What a command is to count in the sketch under a key. -/
def Command.increments (key : Bytes) : Command → List (Bytes × Nat)
  | .sketchIncrement k pairs => if k = key then pairs else []
  | _ => []

/-- What was counted in the sketch under a key, as the reply tells. -/
def Request.counted (r : Request) (key : Bytes) (reply : Reply) : List (Bytes × Nat) :=
  if reply.isError then [] else (r.command?.map (Command.increments key)).getD []

/-- A reply that is a number which is not below what the item got and not above what all
items got, as far as replies state numbers. -/
def Reply.Within (told : List (Bytes × Nat)) (item : Bytes) (reply : Reply) : Prop :=
  ∃ n : Nat, reply = .int n ∧ min (sumOf item told) (signBit - 1) ≤ n ∧
    n ≤ min (sumAll told) (signBit - 1)

namespace Store

/-- What was counted in the sketch under a key, as the replies to requests tell, the first
increment first. -/
def counted (s : Store) (key : Bytes) : List Request → List (Bytes × Nat)
  | [] => []
  | r :: rest => r.counted key (s.serve r).reply ++ (s.serve r).store.counted key rest

/-- A sketch is made under a key by a request, and stays. -/
structure SketchPeriod (s : Store) (key : Bytes) (r : Request) (since : List Request) : Prop where
  asked : (∃ rows columns, r.command? = some (.sketchCreate key rows columns)) ∨
    ∃ errorRate probability, r.command? = some (.sketchCreateFor key errorRate probability)
  made : (s.serve r).reply.isError = false
  kept : ∀ q ∈ since, key ∉ q.deletes

variable {s : Store} {key : Bytes} {sketch : CountMinSketch} {told : List (Bytes × Nat)}
  {r q : Request} {since : List Request} {pairs : List (Bytes × Nat)} {items : List Bytes}

/-! ### Operations -/

/-- Incrementing works on the sketch that the key holds. -/
theorem incrementSketch_of_held (hget : s.get? key = some (.sketch sketch))
    (pairs : List (Bytes × Nat)) :
    (s.incrementSketch key pairs).answer = .ok (sketch.incrementAll pairs).2 ∧
      (s.incrementSketch key pairs).store =
        s.put key (some (.sketch (sketch.incrementAll pairs).1)) := by
  unfold incrementSketch update
  rw [hget]
  exact ⟨rfl, rfl⟩

/-- Without a sketch nothing is counted. -/
theorem incrementSketch_of_not_held (hget : ∀ sketch, s.get? key ≠ some (.sketch sketch))
    (pairs : List (Bytes × Nat)) :
    (∃ e, (s.incrementSketch key pairs).answer = .error e) ∧
      (s.incrementSketch key pairs).store = s := by
  have hsame := s.put_get? key
  unfold incrementSketch update
  generalize s.get? key = held at hget hsame ⊢
  rcases held with _ | (q | f | f | sketch)
  case some.sketch => exact absurd rfl (hget sketch)
  all_goals exact ⟨⟨_, rfl⟩, hsame⟩

/-- A sketch is put under a missing key, if it can be made, and nothing else happens. -/
theorem putSketch_cases (s : Store) (key : Bytes)
    (make : Unit → Except SizeError CountMinSketch) :
    ((∃ e, (s.putSketch key make).answer = .error e) ∧ (s.putSketch key make).store = s) ∨
      s.get? key = none ∧ ∃ sketch, make () = .ok sketch ∧
        (s.putSketch key make).store = s.put key (some (.sketch sketch)) := by
  have hsame := s.put_get? key
  rw [putSketch_eq, update]
  generalize s.get? key = held at hsame ⊢
  cases held with
  | some value => exact .inl ⟨⟨_, rfl⟩, hsame⟩
  | none =>
      cases make () with
      | error reason => exact .inl ⟨⟨_, rfl⟩, hsame⟩
      | ok sketch => exact .inr ⟨rfl, sketch, rfl, rfl⟩

end Store

namespace Command

open Store

variable {s : Store} {key : Bytes} {sketch : CountMinSketch} {told : List (Bytes × Nat)}
  {c : Command}

/-- **All that the commands on sketches do to a store**: nothing, putting a new sketch
under a missing key, or incrementing one. -/
theorem sketch_cases (hfamily : c.family = .sketch) (s : Store) :
    (c.run s).store = s ∨
    (∃ key sketch, s.get? key = none ∧ (∃ rows columns, create rows columns = .ok sketch) ∧
      (c.run s).store = s.put key (some (.sketch sketch))) ∨
    ∃ key sketch pairs, c = .sketchIncrement key pairs ∧ s.get? key = some (.sketch sketch) ∧
      (c.run s).store = s.put key (some (.sketch (sketch.incrementAll pairs).1)) := by
  cases c with
  | sketchCreate key rows columns =>
      rw [run, store_map, createSketch]
      obtain ⟨-, hsame⟩ | ⟨hmissing, sketch, hmake, hput⟩ := s.putSketch_cases key fun _ =>
        CountMinSketch.create rows columns
      · exact .inl hsame
      · exact .inr (.inl ⟨key, sketch, hmissing, ⟨rows, columns, hmake⟩, hput⟩)
  | sketchCreateFor key errorRate probability =>
      rw [run, store_map, createSketchFor]
      obtain ⟨-, hsame⟩ | ⟨hmissing, sketch, hmake, hput⟩ := s.putSketch_cases key fun _ =>
        CountMinSketch.createFor s.machine.ln errorRate probability
      · exact .inl hsame
      · exact .inr (.inl ⟨key, sketch, hmissing, exists_create_of_createFor hmake, hput⟩)
  | sketchIncrement key pairs =>
      rw [run, store_map]
      by_cases hheld : ∃ sketch, s.get? key = some (.sketch sketch)
      · obtain ⟨sketch, hget⟩ := hheld
        exact .inr (.inr ⟨key, sketch, pairs, rfl, hget, (incrementSketch_of_held hget pairs).2⟩)
      · have hother : ∀ sketch, s.get? key ≠ some (.sketch sketch) := fun sketch hget =>
          hheld ⟨sketch, hget⟩
        exact .inl (incrementSketch_of_not_held hother pairs).2
  | sketchEstimates => exact .inl rfl
  | sketchInfo => exact .inl rfl
  | _ => cases hfamily

/-- A command that is not to count in the sketch under a key leaves it, unless it deletes
the key. -/
theorem get?_run_of_not_increment (hget : s.get? key = some (.sketch sketch))
    (hkept : ∀ keys, c = .delete keys → key ∉ keys)
    (hother : ∀ pairs, c ≠ .sketchIncrement key pairs) :
    (c.run s).store.get? key = some (.sketch sketch) := by
  by_cases hfamily : c.family = .sketch
  · obtain hself | ⟨own, made, hmissing, -, hput⟩ | ⟨own, held, pairs, rfl, -, hput⟩ :=
      sketch_cases hfamily s
    · rw [hself, hget]
    · have hne : own ≠ key := by
        rintro rfl
        rw [hget] at hmissing
        cases hmissing
      rw [hput, get?_put_of_ne s _ hne, hget]
    · have hne : own ≠ key := by
        rintro rfl
        exact hother pairs rfl
      rw [hput, get?_put_of_ne s _ hne, hget]
  · exact run_keeps hget (fun heq => hfamily heq.symm) hkept

/-- No other command counts in the sketch. -/
theorem increments_eq_nil (hother : ∀ pairs, c ≠ .sketchIncrement key pairs) :
    c.increments key = [] := by
  cases c with
  | sketchIncrement own pairs =>
      have hne : own ≠ key := by
        rintro rfl
        exact hother pairs rfl
      exact if_neg hne
  | _ => rfl

/-- **One command** counts what its reply tells in the sketch under a key. -/
theorem run_tallied (hget : s.get? key = some (.sketch sketch)) (h : sketch.Tallied told)
    (hkept : ∀ keys, c = .delete keys → key ∉ keys) :
    ∃ after, (c.run s).store.get? key = some (.sketch after) ∧
      after.Tallied
        (told ++ if (replyTo (c.run s).answer).isError then [] else c.increments key) := by
  by_cases hcounts : ∃ pairs, c = .sketchIncrement key pairs
  · obtain ⟨pairs, rfl⟩ := hcounts
    obtain ⟨hanswer, hput⟩ := incrementSketch_of_held hget pairs
    have hreply : (replyTo ((sketchIncrement key pairs).run s).answer).isError = false := by
      rw [run, answer_map, hanswer]
      rfl
    refine ⟨(sketch.incrementAll pairs).1, ?_, ?_⟩
    · rw [run, store_map, hput, get?_put_self]
    · rw [hreply, increments, if_pos rfl]
      exact (h.incrementAll pairs).1
  · have hother : ∀ pairs, c ≠ .sketchIncrement key pairs := fun pairs heq => hcounts ⟨pairs, heq⟩
    refine ⟨sketch, get?_run_of_not_increment hget hkept hother, ?_⟩
    rw [increments_eq_nil hother, ite_self, List.append_nil]
    exact h

end Command

namespace Store

variable {s : Store} {key : Bytes} {sketch : CountMinSketch} {told : List (Bytes × Nat)}
  {r q : Request} {since : List Request} {pairs : List (Bytes × Nat)} {items : List Bytes}

/-! ### Runs -/

/-- **One request** that does not delete the key. -/
theorem serve_tallied (hget : s.get? key = some (.sketch sketch)) (h : sketch.Tallied told)
    (hkept : key ∉ q.deletes) :
    ∃ after, (s.serve q).store.get? key = some (.sketch after) ∧
      after.Tallied (told ++ q.counted key (s.serve q).reply) := by
  cases hcommand : q.command? with
  | none =>
      obtain ⟨⟨e, hreply⟩, hstore⟩ := serve_of_command?_none (s := s) hcommand
      refine ⟨sketch, by rw [hstore]; exact hget, ?_⟩
      rw [Request.counted, hreply, Reply.ofError, Reply.isError, if_pos rfl, List.append_nil]
      exact h
  | some c =>
      obtain ⟨hreply, hstore⟩ := serve_of_command? (s := s) hcommand
      rw [Request.counted, hcommand, hreply, hstore]
      exact Command.run_tallied hget h (Request.not_mem_of_deletes hkept hcommand)

/-- **A run** of requests that do not delete the key. -/
theorem after_tallied (hget : s.get? key = some (.sketch sketch)) (h : sketch.Tallied told)
    (hkept : ∀ q ∈ since, key ∉ q.deletes) :
    ∃ after, (s.after since).get? key = some (.sketch after) ∧
      after.Tallied (told ++ s.counted key since) := by
  induction since generalizing s sketch told with
  | nil =>
      rw [counted, List.append_nil]
      exact ⟨sketch, hget, h⟩
  | cons q rest ih =>
      obtain ⟨next, hnext, htold⟩ := serve_tallied hget h (hkept q List.mem_cons_self)
      obtain ⟨after, hafter, hall⟩ := ih hnext htold fun r hr =>
        hkept r (List.mem_cons_of_mem _ hr)
      rw [counted, ← List.append_assoc]
      exact ⟨after, hafter, hall⟩

/-- A new sketch has counted nothing. -/
theorem SketchPeriod.tallied_made (h : s.SketchPeriod key r since) :
    ∃ sketch, (s.serve r).store.get? key = some (.sketch sketch) ∧ sketch.Tallied [] := by
  -- both commands put a sketch of some dimensions under the key
  have hput : ∀ (c : Command) (make : Unit → Except SizeError CountMinSketch),
      (∀ sketch, make () = .ok sketch → ∃ rows columns, create rows columns = .ok sketch) →
      r.command? = some c → c.run s = (s.putSketch key make).map (fun _ => .ok) →
      ∃ sketch, (s.serve r).store.get? key = some (.sketch sketch) ∧ sketch.Tallied [] := by
    intro c make hmade hcommand hrun
    have hok := h.made
    obtain ⟨hreply, hstore⟩ := serve_of_command? (s := s) hcommand
    rw [hreply, hrun, answer_map] at hok
    rw [hstore, hrun, store_map]
    obtain ⟨⟨e, hrefused⟩, -⟩ | ⟨-, sketch, hmake, hput⟩ := s.putSketch_cases key make
    · rw [hrefused] at hok
      cases hok
    · obtain ⟨rows, columns, hcreate⟩ := hmade sketch hmake
      refine ⟨sketch, ?_, tallied_create hcreate⟩
      rw [hput, get?_put_self]
  obtain ⟨rows, columns, hcommand⟩ | ⟨errorRate, probability, hcommand⟩ := h.asked
  · exact hput _ _ (fun _ hmake => ⟨rows, columns, hmake⟩) hcommand rfl
  · exact hput _ _ (fun _ hmake => exists_create_of_createFor hmake) hcommand rfl

/-! ### Replies -/

theorem sketchInfo_of_held (hget : s.get? key = some (.sketch sketch)) :
    s.sketchInfo key = .ok sketch := by
  rw [sketchInfo, hget]

/-- Stating a number cuts it off once more. -/
theorem within_ofCount {item : Bytes} {n : Nat} (hlow : min maxCount (sumOf item told) ≤ n)
    (hhigh : n ≤ min maxCount (sumAll told)) : (Reply.ofCount n).Within told item := by
  have hsign : signBit ≤ word64 := by decide
  refine ⟨min n (signBit - 1), rfl, ?_, ?_⟩
  · rw [maxCount] at hlow
    omega
  · rw [maxCount] at hhigh
    omega

/-- **Estimates** are replied within what was told of their items. -/
theorem reply_estimates (hget : s.get? key = some (.sketch sketch)) (h : sketch.Tallied told)
    (hcommand : q.command? = some (.sketchEstimates key items)) :
    ∃ replies, (s.serve q).reply = .arr replies ∧
      List.Forall₂ (Reply.Within told) items replies := by
  have hanswer : s.sketchEstimates key items = .ok (items.map sketch.estimate) := by
    rw [sketchEstimates, sketchInfo_of_held hget]
    rfl
  rw [(serve_of_command? hcommand).1, Command.run, answering, hanswer]
  refine ⟨(items.map sketch.estimate).map .ofCount, rfl, ?_⟩
  rw [List.forall₂_map_right_iff, List.forall₂_map_right_iff, List.forall₂_same]
  intro item _
  exact within_ofCount (h.estimate item).1 (h.estimate item).2

/-- **An increment** is replied within what was told of its item, this increment included. -/
theorem reply_increments (hget : s.get? key = some (.sketch sketch)) (h : sketch.Tallied told)
    (hcommand : q.command? = some (.sketchIncrement key pairs)) :
    ∃ replies : List Reply, (s.serve q).reply = .arr replies ∧ replies.length = pairs.length ∧
      ∀ (i : Nat) item delta reply, pairs[i]? = some (item, delta) → replies[i]? = some reply →
        reply.Within (told ++ pairs.take (i + 1)) item := by
  obtain ⟨-, hlength, hanswers⟩ := h.incrementAll pairs
  rw [(serve_of_command? hcommand).1, Command.run, answer_map,
    (incrementSketch_of_held hget pairs).1]
  refine ⟨(sketch.incrementAll pairs).2.map .ofCount, rfl, by rw [List.length_map, hlength], ?_⟩
  intro i item delta reply hpair hreply
  rw [List.getElem?_map] at hreply
  obtain ⟨answer, hanswer, rfl⟩ := Option.map_eq_some_iff.mp hreply
  obtain ⟨t, ht, rfl⟩ := hanswers i item delta answer hpair hanswer
  exact within_ofCount (ht.estimate item).1 (ht.estimate item).2

/-- **The number of all increments** is replied exactly. -/
theorem reply_sketchInfo (hget : s.get? key = some (.sketch sketch)) (h : sketch.Tallied told)
    (hcommand : q.command? = some (.sketchInfo key)) :
    ∃ width depth, (s.serve q).reply = .arr [.ofText "width", width, .ofText "depth", depth,
      .ofText "count", .int (min (sumAll told) (signBit - 1) : Nat)] := by
  have hcount : Reply.ofCount sketch.total = .int (min (sumAll told) (signBit - 1) : Nat) := by
    have hsign : signBit ≤ word64 := by decide
    rw [Reply.ofCount, h.total_eq, maxCount]
    congr 2
    omega
  refine ⟨.ofCount sketch.columns, .ofCount sketch.rows, ?_⟩
  rw [(serve_of_command? hcommand).1, Command.run, answering, sketchInfo_of_held hget, ← hcount]
  rfl

/-- **No count is forgotten.**  From when a sketch is made, and as long as its key is not
deleted, whatever else is asked of the store: an estimate is not below what its item got
and not above what all items got, in the reply to a question as well as in the reply to
the increments, where it includes its own; and the number of all is stated exactly. -/
theorem serve_counted (h : s.SketchPeriod key r since) (q : Request) :
    let told := (s.serve r).store.counted key since
    (∀ items, q.command? = some (.sketchEstimates key items) →
      ∃ replies, ((s.after (r :: since)).serve q).reply = .arr replies ∧
        List.Forall₂ (Reply.Within told) items replies) ∧
    (∀ pairs, q.command? = some (.sketchIncrement key pairs) →
      ∃ replies : List Reply, ((s.after (r :: since)).serve q).reply = .arr replies ∧
        replies.length = pairs.length ∧
        ∀ (i : Nat) item delta reply, pairs[i]? = some (item, delta) → replies[i]? = some reply →
          reply.Within (told ++ pairs.take (i + 1)) item) ∧
    (q.command? = some (.sketchInfo key) →
      ∃ width depth, ((s.after (r :: since)).serve q).reply =
        .arr [.ofText "width", width, .ofText "depth", depth,
          .ofText "count", .int (min (sumAll told) (signBit - 1) : Nat)]) := by
  obtain ⟨made, hmade, hempty⟩ := h.tallied_made
  obtain ⟨sketch, hget, htold⟩ := after_tallied hmade hempty h.kept
  rw [List.nil_append] at htold
  exact ⟨fun _ => reply_estimates hget htold, fun _ => reply_increments hget htold,
    reply_sketchInfo hget htold⟩

/-- Two items share the only counter of a sketch, and one command that is refused counts
nothing. -/
theorem serve_counted_colliding :
    let s := empty ⟨id, id, fun _ n => n⟩ {}
    let make : Request := ⟨CommandName.cmsInitByDim.bytes, [[0x6B], [0x31], [0x31]]⟩
    let since : List Request :=
      [⟨CommandName.cmsIncrBy.bytes, [[0x6B], [0x61], [0x35], [0x62], [0x32]]⟩,
        ⟨CommandName.cmsIncrBy.bytes, [[0x6B], [0x61], [0x78]]⟩]
    s.SketchPeriod [0x6B] make since ∧
      (s.serve make).store.counted [0x6B] since = [([0x61], 5), ([0x62], 2)] ∧
      ∃ width depth, ((s.after (make :: since)).serve
        ⟨CommandName.cmsInfo.bytes, [[0x6B]]⟩).reply =
          .arr [.ofText "width", width, .ofText "depth", depth, .ofText "count", .int 7] := by
  intro s make since
  have hperiod : s.SketchPeriod [0x6B] make since := by
    refine ⟨.inl ⟨1, 1, rfl⟩, rfl, ?_⟩
    decide +kernel
  have htold : (s.serve make).store.counted [0x6B] since = [([0x61], 5), ([0x62], 2)] := by
    decide +kernel
  have hinfo := (serve_counted hperiod ⟨CommandName.cmsInfo.bytes, [[0x6B]]⟩).2.2 rfl
  rw [htold] at hinfo
  exact ⟨hperiod, htold, hinfo⟩

end Store

end CompactStore
