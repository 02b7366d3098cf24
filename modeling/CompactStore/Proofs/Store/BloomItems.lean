import CompactStore.Proofs.Bloom.Growth
import CompactStore.Proofs.Store.Invariants

/-!
# Items of a bloom filter in a store

An item that was added to a bloom filter is reported from then on, until its key is
deleted: `serve_bloom_added`.  Whatever is asked of the store in between, a bloom filter
under a key can only grow, `Command.run_grows`, since all that commands do to bloom
filters is said by `Command.bloom_cases`: they make one, or add items to one.
-/

namespace CompactStore

open BloomFilter

/-- The value has the shape that `create` gives, if it is a bloom filter. -/
def Value.BloomShaped : Value → Prop
  | bloom f => f.Shaped
  | _ => True

namespace Store

/-- The bloom filter that items are added to under a key: the one that it holds, or a new
one of the configured size. -/
def bloomFor (s : Store) (key : Bytes) : Except Error BloomFilter :=
  match s.get? key with
  | some (.bloom f) => .ok f
  | some _ => .error .wrongType
  | none =>
    (BloomFilter.create s.machine.ln s.config.bloomCapacity s.config.bloomErrorRate).mapError .size

variable {s : Store} {key item : Bytes} {items : List Bytes} {f g : BloomFilter} {e : Error}

/-! ### Adding under a key -/

/-- **Adding items** works on this filter. -/
theorem addBloomAll_of_ok (h : s.bloomFor key = .ok f) (items : List Bytes) :
    (s.addBloomAll key items).answer = .ok (f.addAll items).2 ∧
      (s.addBloomAll key items).store = s.put key (some (.bloom (f.addAll items).1)) := by
  unfold bloomFor at h
  unfold addBloomAll update
  generalize s.get? key = held at h ⊢
  rcases held with _ | (q | f' | f' | sketch)
  case some.bloom =>
    cases h
    exact ⟨rfl, rfl⟩
  case none =>
    dsimp only at h ⊢
    cases hcreate :
        BloomFilter.create s.machine.ln s.config.bloomCapacity s.config.bloomErrorRate with
    | error reason =>
        rw [hcreate] at h
        cases h
    | ok f' =>
        rw [hcreate] at h
        cases h
        exact ⟨rfl, rfl⟩
  all_goals cases h

/-- Without such a filter nothing is added. -/
theorem addBloomAll_of_error (h : s.bloomFor key = .error e) (items : List Bytes) :
    (s.addBloomAll key items).answer = .error e ∧ (s.addBloomAll key items).store = s := by
  have hsame := s.put_get? key
  unfold bloomFor at h
  unfold addBloomAll update
  generalize s.get? key = held at h hsame ⊢
  rcases held with _ | (q | f' | f' | sketch)
  case some.bloom => cases h
  case none =>
    dsimp only at h ⊢
    cases hcreate :
        BloomFilter.create s.machine.ln s.config.bloomCapacity s.config.bloomErrorRate with
    | ok f' =>
        rw [hcreate] at h
        cases h
    | error reason =>
        rw [hcreate] at h
        cases h
        exact ⟨rfl, hsame⟩
  all_goals
    cases h
    exact ⟨rfl, hsame⟩

theorem bloomFor_of_held (hget : s.get? key = some (.bloom f)) : s.bloomFor key = .ok f := by
  rw [bloomFor, hget]

/-- The filter that items are added to is held already, or was just made. -/
theorem held_or_made_of_bloomFor (h : s.bloomFor key = .ok f) :
    s.get? key = some (.bloom f) ∨
      s.get? key = none ∧
        ∃ capacity rate, BloomFilter.create s.machine.ln capacity rate = .ok f := by
  unfold bloomFor at h
  generalize s.get? key = held at h ⊢
  rcases held with _ | (q | f' | f' | sketch)
  case some.bloom =>
    cases h
    exact .inl rfl
  case none =>
    refine .inr ⟨rfl, s.config.bloomCapacity, s.config.bloomErrorRate, ?_⟩
    cases hcreate :
        BloomFilter.create s.machine.ln s.config.bloomCapacity s.config.bloomErrorRate with
    | error reason =>
        rw [hcreate] at h
        cases h
    | ok f' =>
        rw [hcreate] at h
        cases h
        rfl
  all_goals cases h

/-- Adding items either leaves the store or puts them into a filter that is held or was
just made. -/
theorem addBloomAll_cases (s : Store) (key : Bytes) (items : List Bytes) :
    (s.addBloomAll key items).store = s ∨ ∃ f,
      (s.get? key = some (.bloom f) ∨ s.get? key = none ∧
        ∃ capacity rate, BloomFilter.create s.machine.ln capacity rate = .ok f) ∧
      (s.addBloomAll key items).store = s.put key (some (.bloom (f.addAll items).1)) := by
  cases hfor : s.bloomFor key with
  | error e => exact .inl (addBloomAll_of_error hfor items).2
  | ok f => exact .inr ⟨f, held_or_made_of_bloomFor hfor, (addBloomAll_of_ok hfor items).2⟩

end Store

namespace Command

open Store

variable {s : Store} {key : Bytes} {f : BloomFilter} {c : Command}

/-- **All that the commands on bloom filters do to a store**: nothing, or adding items, or
none, to a filter that is held or was just made. -/
theorem bloom_cases (hfamily : c.family = .bloom) (s : Store) :
    (c.run s).store = s ∨ ∃ key f items,
      (s.get? key = some (.bloom f) ∨ s.get? key = none ∧
        ∃ capacity rate, BloomFilter.create s.machine.ln capacity rate = .ok f) ∧
      (c.run s).store = s.put key (some (.bloom (f.addAll items).1)) := by
  cases c with
  | bloomReserve key errorRate capacity =>
      rw [run, store_map, reserveBloom_eq]
      cases hget : s.get? key with
      | some value =>
          left
          apply store_update_eq_self
          rw [hget]
          rfl
      | none =>
          cases hcreate : BloomFilter.create s.machine.ln capacity errorRate with
          | error reason =>
              left
              apply store_update_eq_self
              rw [hget]
              rfl
          | ok f =>
              refine .inr ⟨key, f, [], .inr ⟨hget, capacity, errorRate, hcreate⟩, ?_⟩
              rw [update, hget]
              rfl
  | bloomAdd key item =>
      rw [run, store_map, addBloom, store_map]
      obtain hself | ⟨f, hf⟩ := s.addBloomAll_cases key [item]
      · exact .inl hself
      · exact .inr ⟨key, f, [item], hf⟩
  | bloomAddAll key items =>
      rw [run, store_map]
      obtain hself | ⟨f, hf⟩ := s.addBloomAll_cases key items
      · exact .inl hself
      · exact .inr ⟨key, f, items, hf⟩
  | bloomContains => exact .inl rfl
  | bloomContainsAll => exact .inl rfl
  | bloomInfo => exact .inl rfl
  | bloomCard => exact .inl rfl
  | _ => cases hfamily

/-- **A property of bloom filters** that holds of new ones, and that adding items keeps, is
kept by every command. -/
theorem every_run_of_bloom {P : Value → Prop}
    (hothers : ∀ value : Value, value.family ≠ .bloom → P value)
    (hmade : ∀ ln capacity rate f, BloomFilter.create ln capacity rate = .ok f → P (.bloom f))
    (hadded : ∀ f items, P (.bloom f) → P (.bloom (f.addAll items).1)) (c : Command)
    (h : s.Every P) : (c.run s).store.Every P := by
  apply c.every_run hothers h
  intro hfamily
  obtain hself | ⟨key, f, items, horigin, hput⟩ := bloom_cases hfamily s
  · rw [hself]
    exact h
  · have hf : P (.bloom f) := by
      obtain hheld | ⟨-, capacity, rate, hcreate⟩ := horigin
      · exact h key _ hheld
      · exact hmade _ capacity rate f hcreate
    rw [hput]
    apply h.put
    intro value hvalue
    cases hvalue
    exact hadded f items hf

/-- Every command keeps the shape of every bloom filter. -/
theorem bloomShaped_run (s : Store) (c : Command) (h : s.Every Value.BloomShaped) :
    (c.run s).store.Every Value.BloomShaped := by
  apply every_run_of_bloom _ _ _ c h
  · rintro (q | f | f | sketch) hvalue
    case bloom => exact absurd rfl hvalue
    all_goals trivial
  · exact fun ln capacity rate f hcreate => shaped_of_create hcreate
  · exact fun f items hf => (addAll_spec hf items).1.shaped hf

/-- **One command**: a bloom filter under a key that is not deleted grows. -/
theorem run_grows (hget : s.get? key = some (.bloom f)) (hf : f.Shaped)
    (hkept : ∀ keys, c = .delete keys → key ∉ keys) :
    ∃ g, (c.run s).store.get? key = some (.bloom g) ∧ Grows f g := by
  by_cases hfamily : c.family = .bloom
  · obtain hself | ⟨other, f', items, horigin, hput⟩ := bloom_cases hfamily s
    · rw [hself]
      exact ⟨f, hget, Grows.refl f⟩
    · rw [hput]
      by_cases hkey : other = key
      · subst hkey
        obtain hheld | ⟨hmissing, -⟩ := horigin
        · obtain rfl : f = f' := by
            rw [hget] at hheld
            cases hheld
            rfl
          exact ⟨_, get?_put_self s other _, (addAll_spec hf items).1⟩
        · rw [hget] at hmissing
          cases hmissing
      · exact ⟨f, (get?_put_of_ne s _ hkey).trans hget, Grows.refl f⟩
  · exact ⟨f, run_keeps hget (fun heq => hfamily heq.symm) hkept, Grows.refl f⟩

end Command

namespace Store

variable {s : Store} {key item : Bytes} {items : List Bytes} {f g : BloomFilter} {r q : Request}
  {since : List Request}

/-- **A run**: a bloom filter under a key that is not deleted grows. -/
theorem after_grows (hget : s.get? key = some (.bloom f)) (hf : f.Shaped)
    (hkept : ∀ q ∈ since, key ∉ q.deletes) :
    ∃ g, (s.after since).get? key = some (.bloom g) ∧ Grows f g := by
  apply after_keeps (P := fun t => ∃ g, t.get? key = some (.bloom g) ∧ Grows f g)
    (Q := fun c => ∀ keys, c = .delete keys → key ∉ keys)
  · rintro t c hkept ⟨g, hg, hfg⟩
    obtain ⟨g', hg', hgrows⟩ := Command.run_grows hg (hfg.shaped hf) hkept
    exact ⟨g', hg', hfg.trans hgrows⟩
  · intro q hq c hcommand
    exact Request.not_mem_of_deletes (hkept q hq) hcommand
  · exact ⟨f, hget, Grows.refl f⟩

/-- What is asked of the filter under a key that holds one. -/
theorem bloom?_of_held (hget : s.get? key = some (.bloom f)) : s.bloom? key = .ok (some f) := by
  rw [bloom?, hget]

/-- What a filter under a key answers about an item that it reports. -/
theorem reply_of_reported (hget : s.get? key = some (.bloom f)) (hf : f.Shaped)
    (hitem : f.contains item = true) (q : Request) :
    (q.command? = some (.bloomContains key item) → (s.serve q).reply = .int 1) ∧
    (∀ items, q.command? = some (.bloomContainsAll key items) →
      ∃ replies : List Reply, (s.serve q).reply = .arr replies ∧ replies.length = items.length ∧
        ∀ i : Nat, items[i]? = some item → replies[i]? = some (.int 1)) ∧
    (q.command? = some (.bloomAdd key item) → (s.serve q).reply = .int 0) := by
  have hfilter := bloom?_of_held hget
  refine ⟨?_, ?_, ?_⟩
  · intro hcommand
    have hanswer : s.bloomContains key item = .ok (f.contains item) := by
      rw [bloomContains, hfilter]
      rfl
    rw [(serve_of_command? hcommand).1, Command.run, answering, hanswer, hitem]
    rfl
  · intro items hcommand
    have hanswer : s.bloomContainsAll key items = .ok (items.map f.contains) := by
      rw [bloomContainsAll, hfilter]
      rfl
    rw [(serve_of_command? hcommand).1, Command.run, answering, hanswer]
    refine ⟨(items.map f.contains).map .ofBool, rfl, by simp, ?_⟩
    intro i hi
    rw [List.getElem?_map, List.getElem?_map, hi, Option.map_some, hitem]
    rfl
  · intro hcommand
    have hold : (f.addAll [item]).2 = [false] := by
      rw [addAll_cons, (add_spec hf item).2.2, hitem]
      rfl
    have hanswer := (addBloomAll_of_ok (bloomFor_of_held hget) [item]).1
    rw [(serve_of_command? hcommand).1, Command.run, answer_map, addBloom, answer_map, hanswer,
      hold]
    rfl

/-- The number of items is answered by the filter under a key. -/
theorem reply_card (hget : s.get? key = some (.bloom f))
    (hcommand : q.command? = some (.bloomCard key)) :
    (s.serve q).reply = .int (min f.card (signBit - 1) : Nat) := by
  have hanswer : s.bloomCard key = .ok f.card := by
    rw [bloomCard, bloom?_of_held hget]
    rfl
  rw [(serve_of_command? hcommand).1, Command.run, answering, hanswer]
  rfl

/-- A request that adds an item, alone or with others, and is not refused leaves a filter
that reports it. -/
theorem reported_of_added (hshaped : s.Every Value.BloomShaped)
    (hadd : r.command? = some (.bloomAdd key item) ∨
      ∃ items, item ∈ items ∧ r.command? = some (.bloomAddAll key items))
    (hok : (s.serve r).reply.isError = false) :
    ∃ f, (s.serve r).store.get? key = some (.bloom f) ∧ f.Shaped ∧ f.contains item = true := by
  -- both forms add a list of items with this one among them
  obtain ⟨c, items, hitem, hcommand, hstore, herror⟩ : ∃ c items, item ∈ items ∧
      r.command? = some c ∧ (c.run s).store = (s.addBloomAll key items).store ∧
      ∀ e, (s.addBloomAll key items).answer = .error e → (c.run s).answer = .error e := by
    obtain hone | ⟨items, hitem, hmany⟩ := hadd
    · refine ⟨_, [item], List.mem_singleton_self item, hone, rfl, ?_⟩
      intro e he
      rw [Command.run, answer_map, addBloom, answer_map, he]
      rfl
    · refine ⟨_, items, hitem, hmany, rfl, ?_⟩
      intro e he
      rw [Command.run, answer_map, he]
      rfl
  obtain ⟨hreply, hserved⟩ := serve_of_command? (s := s) hcommand
  cases hfor : s.bloomFor key with
  | error e =>
      rw [hreply, herror e (addBloomAll_of_error hfor items).1] at hok
      cases hok
  | ok f =>
      have hf : f.Shaped := by
        obtain hheld | ⟨-, capacity, rate, hcreate⟩ := held_or_made_of_bloomFor hfor
        · exact hshaped key _ hheld
        · exact shaped_of_create hcreate
      obtain ⟨hgrows, hitems⟩ := addAll_spec hf items
      refine ⟨(f.addAll items).1, ?_, hgrows.shaped hf, hitems item hitem⟩
      rw [hserved, hstore, (addBloomAll_of_ok hfor items).2, get?_put_self]

/-- **An added item is never forgotten.**  After any requests: once an item was added to a
bloom filter and the reply was no error, and as long as the key is not deleted, whatever else
is asked of the store, the item is reported, alone and among others, adding it again
tells that it is not new, and the number of items that the filter states does not go
down. -/
theorem serve_bloom_added {machine : Machine} {config : Config} {requests : List Request}
    (hs : s = (empty machine config).after requests)
    (hadd : r.command? = some (.bloomAdd key item) ∨
      ∃ items, item ∈ items ∧ r.command? = some (.bloomAddAll key items))
    (hok : (s.serve r).reply.isError = false) (hkept : ∀ q ∈ since, key ∉ q.deletes)
    (q : Request) :
    (q.command? = some (.bloomContains key item) →
      ((s.after (r :: since)).serve q).reply = .int 1) ∧
    (∀ items, q.command? = some (.bloomContainsAll key items) →
      ∃ replies : List Reply, ((s.after (r :: since)).serve q).reply = .arr replies ∧
        replies.length = items.length ∧
        ∀ i : Nat, items[i]? = some item → replies[i]? = some (.int 1)) ∧
    (q.command? = some (.bloomAdd key item) →
      ((s.after (r :: since)).serve q).reply = .int 0) ∧
    (q.command? = some (.bloomCard key) → ∀ front back, since = front ++ back →
      ∃ before now : Nat, ((s.after (r :: front)).serve q).reply = .int before ∧
        ((s.after (r :: since)).serve q).reply = .int now ∧ before ≤ now) := by
  have hshaped : s.Every Value.BloomShaped := by
    rw [hs]
    exact every_after Command.bloomShaped_run machine config requests
  obtain ⟨f, hheld, hf, hitem⟩ := reported_of_added hshaped hadd hok
  obtain ⟨g, hnow, hgrows⟩ := after_grows hheld hf hkept
  have hreplies := reply_of_reported hnow (hgrows.shaped hf) (hgrows.contains hitem) q
  refine ⟨hreplies.1, hreplies.2.1, hreplies.2.2, ?_⟩
  rintro hcommand front back rfl
  have hfront : ∀ q ∈ front, key ∉ q.deletes := fun q hq => hkept q (List.mem_append_left _ hq)
  have hback : ∀ q ∈ back, key ∉ q.deletes := fun q hq => hkept q (List.mem_append_right _ hq)
  obtain ⟨m, hthen, hgrown⟩ := after_grows hheld hf hfront
  obtain ⟨g', hlater, hmore⟩ := after_grows hthen (hgrown.shaped hf) hback
  have hsame : ((s.serve r).store.after front).after back =
      (s.serve r).store.after (front ++ back) :=
    (List.foldl_append ..).symm
  refine ⟨_, _, reply_card hthen hcommand, reply_card (f := g') ?_ hcommand, ?_⟩
  · exact (congrArg (fun t : Store => t.get? key) hsame).symm.trans hlater
  · have hcard := hmore.card_le
    omega

/-- Two items are added together, then one more, with a command on another key in between. -/
theorem serve_bloom_added_with_others :
    let s := empty ⟨fun _ => -1.0, id, fun _ n => n⟩ { bloomCapacity := 4 }
    let add : Request := ⟨CommandName.bfMadd.bytes, [[0x6B], [0x61], [0x62]]⟩
    let since : List Request := [⟨CommandName.rpush.bytes, [[0x6C], [0x61]]⟩,
      ⟨CommandName.bfAdd.bytes, [[0x6B], [0x63]]⟩]
    (s.serve add).reply.isError = false ∧ (∀ q ∈ since, [0x6B] ∉ q.deletes) ∧
      ((s.after (add :: since)).serve ⟨CommandName.bfExists.bytes, [[0x6B], [0x62]]⟩).reply =
        .int 1 := by
  intro s add since
  have hok : (s.serve add).reply.isError = false := by decide +kernel
  have hkept : ∀ q ∈ since, [0x6B] ∉ q.deletes := by decide +kernel
  have hempty : s = s.after [] := rfl
  have hadd : add.command? = some (.bloomAdd [0x6B] [0x62]) ∨ ∃ items, [0x62] ∈ items ∧
      add.command? = some (.bloomAddAll [0x6B] items) :=
    .inr ⟨[[0x61], [0x62]], by decide, rfl⟩
  exact ⟨hok, hkept, (serve_bloom_added hempty hadd hok hkept _).1 rfl⟩

end Store

end CompactStore
