import CompactStore.Proofs.Cuckoo.Membership
import CompactStore.Proofs.Store.Invariants
import CompactStore.Proofs.Store.ListCommands

/-!
# Items of a cuckoo filter in a store

A client knows of a cuckoo filter what the replies told: an item was added, or taken
out, when the reply was one.  `Store.changes` reads this off a run.  Whatever else is
asked of the store in between, of this key or others, the replies keep the accounts of
the filter: `Command.run_accounts`.  So a client that takes out only what it put in
finds every other item again: `serve_owed`.
-/

namespace CompactStore

open CuckooFilter

/-- Whether a reply is the number one. -/
def Reply.isOne : Reply → Bool
  | .int n => n = 1
  | _ => false

/-- What a command is to change in the cuckoo filter under a key. -/
def Command.cuckooChange? (key : Bytes) : Command → Option Change
  | .cuckooAdd k item | .cuckooAddNew k item => if k = key then some (.stored item) else none
  | .cuckooRemove k item => if k = key then some (.taken item) else none
  | _ => none

/-- What was changed in the cuckoo filter under a key, as the reply tells. -/
def Request.told (r : Request) (key : Bytes) (reply : Reply) : Option Change :=
  (r.command?.bind (Command.cuckooChange? key)).filter fun _ => reply.isOne

namespace Store

/-- What was changed in the cuckoo filter under a key, as the replies to requests tell, the
first change first. -/
def changes (s : Store) (key : Bytes) : List Request → List Change
  | [] => []
  | r :: rest => (r.told key (s.serve r).reply).toList ++ (s.serve r).store.changes key rest

/-- A cuckoo filter is made under a key by a request, and stays; and no item is taken out
after it that was not added more often than taken out. -/
structure CuckooPeriod (s : Store) (key : Bytes) (r : Request) (since : List Request) : Prop where
  before : ∀ f, s.get? key ≠ some (.cuckoo f)
  made : ∃ f, (s.serve r).store.get? key = some (.cuckoo f)
  kept : ∀ q ∈ since, key ∉ q.deletes
  owed : ∀ front q back, since = front ++ q :: back → ∀ item,
    q.command? = some (.cuckooRemove key item) → Owed (s.changes key (r :: front)) item

variable {s : Store} {key item : Bytes} {f g : CuckooFilter} {result : Addition} {taken : Bool}

/-! ### What an addition does under a key -/

/-- An addition works on the filter that the key holds. -/
theorem extendCuckoo_of_some (hget : s.get? key = some (.cuckoo f))
    (addition : CuckooFilter → CuckooFilter × Addition) (haddition : addition f = (g, result)) :
    (s.extendCuckoo key addition).store.get? key = some (.cuckoo g) ∧
      (s.extendCuckoo key addition).answer = (additionEffect [] g result).answer := by
  unfold extendCuckoo
  rw [get?_update, if_pos rfl, update, hget]
  dsimp only
  rw [haddition]
  exact ⟨held_additionEffect _ _ _, rfl⟩

/-- An addition to a missing key works on a new filter, if one can be made. -/
theorem extendCuckoo_of_none (hget : s.get? key = none)
    (addition : CuckooFilter → CuckooFilter × Addition) :
    (s.extendCuckoo key addition).store.get? key = none ∨
      ∃ f, CuckooFilter.create s.machine.log2 s.config.cuckooCapacity
          s.config.cuckooErrorRate (s.machine.stream key) = .ok f ∧
        ∀ g result, addition f = (g, result) →
          (s.extendCuckoo key addition).store.get? key = some (.cuckoo g) ∧
          (s.extendCuckoo key addition).answer =
            (additionEffect [.creatingCuckoo] g result).answer := by
  unfold extendCuckoo
  rw [get?_update, if_pos rfl, update, hget]
  dsimp only
  split
  · exact .inl rfl
  · rename_i f hcreate
    refine .inr ⟨f, hcreate, ?_⟩
    intro g result haddition
    rw [haddition]
    exact ⟨held_additionEffect _ _ _, rfl⟩

/-- **The reply to an addition is one exactly if something was added.** -/
theorem isOne_addition {answer : Except Error Bool} {events : List Event}
    (hanswer : answer = (additionEffect events g result).answer) :
    ((replyTo (answer.map .ofBool)).isOne = true ↔ result = .added) ∧
      (result ≠ .present →
        ((replyTo ((answer.map fun _ => ()).map fun _ => .int 1)).isOne = true ↔
          result = .added)) := by
  subst hanswer
  cases result <;> simp [additionEffect, Except.map, replyTo, Reply.ofBool, Reply.ofError,
    Reply.isOne]

/-- Taking an item out works on the filter that the key holds. -/
theorem update_removal (hget : s.get? key = some (.cuckoo f))
    {remove : CuckooFilter → Bytes → CuckooFilter × Bool} (hremove : remove f item = (g, taken)) :
    (s.update key (removal remove item)).store.get? key = some (.cuckoo g) ∧
      (s.update key (removal remove item)).answer = .ok taken := by
  rw [get?_update, if_pos rfl, update, hget, removal]
  dsimp only
  rw [hremove]
  exact ⟨rfl, rfl⟩

end Store

namespace Command

open Store

variable {s : Store} {key item : Bytes} {f g : CuckooFilter} {c : Command} {result : Addition}
  {taken : Bool}

/-- What a command changed, as its reply tells. -/
def told (c : Command) (key : Bytes) (s : Store) : Option Change :=
  (c.cuckooChange? key).filter fun _ => (replyTo (c.run s).answer).isOne

/-- A command on filters that is to change nothing in the one under its key makes it, or
only reads. -/
theorem makes_or_reads (hown : key ∈ c.keys) (hfamily : c.family = .cuckoo)
    (hnone : c.cuckooChange? key = none) :
    (∃ errorRate capacity, c = .cuckooReserve key errorRate capacity) ∨
      ∀ s, (c.run s).store = s := by
  cases c with
  | cuckooReserve k errorRate capacity =>
      obtain rfl := List.mem_singleton.mp hown
      exact .inl ⟨errorRate, capacity, rfl⟩
  | cuckooContains => exact .inr fun s => rfl
  | cuckooContainsAll => exact .inr fun s => rfl
  | cuckooInfo => exact .inr fun s => rfl
  | cuckooAdd k item =>
      obtain rfl := List.mem_singleton.mp hown
      simp [cuckooChange?] at hnone
  | cuckooAddNew k item =>
      obtain rfl := List.mem_singleton.mp hown
      simp [cuckooChange?] at hnone
  | cuckooRemove k item =>
      obtain rfl := List.mem_singleton.mp hown
      simp [cuckooChange?] at hnone
  | _ => cases hfamily

/-- A command that is to change nothing in a filter leaves it, unless it deletes the key. -/
theorem get?_run_of_unchanging (hget : s.get? key = some (.cuckoo f))
    (hkept : ∀ keys, c = .delete keys → key ∉ keys) (hnone : c.cuckooChange? key = none) :
    (c.run s).store.get? key = some (.cuckoo f) := by
  by_cases hown : key ∈ c.keys
  case neg => rw [(c.run_frame s).2.2 key hown, hget]
  case pos =>
  by_cases hfamily : c.family = .cuckoo
  case neg => exact run_keeps hget (fun heq => hfamily heq.symm) hkept
  case pos =>
  obtain ⟨errorRate, capacity, rfl⟩ | hreads := makes_or_reads hown hfamily hnone
  · have hstore : (s.reserveCuckoo key errorRate capacity).store = s := by
      apply store_update_eq_self
      rw [hget]
      rfl
    rw [run, store_map, hstore, hget]
  · rw [hreads, hget]

/-! ### What was done is what was told -/

/-- Adding without a look at the items never finds one there. -/
theorem addOnce_ne_present (h : f.addOnce item = (g, result)) : result ≠ .present := by
  rw [addOnce] at h
  generalize f.add item = added at h
  obtain ⟨r, stored⟩ := added
  cases stored <;> cases h <;> decide

/-- What adding an item tells is what became of the filter. -/
theorem accounts_addOnce (hf : f.Shaped) (h : f.addOnce item = (g, result)) :
    Accounts f (g, if result = .added then some (.stored item) else none) := by
  have haccounts := accounts_add hf item
  rwa [← adding_additionOf, ← addOnce, h] at haccounts

/-- What adding an item unless it is there tells is what became of the filter. -/
theorem accounts_addNew (hf : f.Shaped) (h : f.addNew item = (g, result)) :
    Accounts f (g, if result = .added then some (.stored item) else none) := by
  have haccounts := accounts_step hf (.addNew item)
  rwa [step, h] at haccounts

/-- What taking an item out tells is what became of the filter. -/
theorem accounts_remove (hf : f.Shaped) (h : f.remove item = (g, taken)) :
    Accounts f (g, if taken then some (.taken item) else none) := by
  have haccounts := accounts_step hf (.remove item)
  rwa [step, h] at haccounts

/-- A command adds an item to the filter under a key by an addition that accounts for what
it did, and replies one exactly if it stored the item. -/
structure Adds (c : Command) (key item : Bytes)
    (addition : CuckooFilter → CuckooFilter × Addition) : Prop where
  asks : c.cuckooChange? key = some (.stored item)
  store : ∀ s, (c.run s).store = (s.extendCuckoo key addition).store
  isOne : ∀ {s f g result events}, addition f = (g, result) →
    (s.extendCuckoo key addition).answer = (additionEffect events g result).answer →
    ((replyTo (c.run s).answer).isOne = true ↔ result = .added)
  accounts : ∀ {f g result}, f.Shaped → addition f = (g, result) →
    Accounts f (g, if result = .added then some (.stored item) else none)

/-- The command that adds an item does so under its key. -/
theorem adds_cuckooAdd (key item : Bytes) :
    (cuckooAdd key item).Adds key item fun f => f.addOnce item where
  asks := if_pos rfl
  store s := by rw [run, store_map, addCuckoo, store_map]
  isOne hadd hanswer := by
    rw [run, answer_map, addCuckoo, answer_map]
    exact (isOne_addition hanswer).2 (addOnce_ne_present hadd)
  accounts hf hadd := accounts_addOnce hf hadd

/-- The command that adds an item unless it is there does so under its key. -/
theorem adds_cuckooAddNew (key item : Bytes) :
    (cuckooAddNew key item).Adds key item fun f => f.addNew item where
  asks := if_pos rfl
  store s := by rw [run, store_map, addCuckooNew]
  isOne _ hanswer := by
    rw [run, answer_map, addCuckooNew]
    exact (isOne_addition hanswer).1
  accounts hf hadd := accounts_addNew hf hadd

/-- Every command that is to store an item adds it. -/
theorem exists_adds (hchange : c.cuckooChange? key = some (.stored item)) :
    ∃ addition, c.Adds key item addition := by
  cases c with
  | cuckooAdd k other =>
      obtain ⟨rfl, rfl⟩ : k = key ∧ other = item := by simpa [cuckooChange?] using hchange
      exact ⟨_, adds_cuckooAdd k other⟩
  | cuckooAddNew k other =>
      obtain ⟨rfl, rfl⟩ : k = key ∧ other = item := by simpa [cuckooChange?] using hchange
      exact ⟨_, adds_cuckooAddNew k other⟩
  | cuckooRemove k other => simp [cuckooChange?] at hchange
  | _ => cases hchange

/-- Only a command that takes an item out is to take it. -/
theorem eq_of_taken (hchange : c.cuckooChange? key = some (.taken item)) :
    c = .cuckooRemove key item := by
  cases c with
  | cuckooRemove k other =>
      obtain ⟨rfl, rfl⟩ : k = key ∧ other = item := by simpa [cuckooChange?] using hchange
      rfl
  | cuckooAdd k other => simp [cuckooChange?] at hchange
  | cuckooAddNew k other => simp [cuckooChange?] at hchange
  | _ => cases hchange

/-- Only a command that removes an item tells that it was taken out. -/
theorem eq_of_told_taken (h : c.told key s = some (.taken item)) : c = .cuckooRemove key item :=
  eq_of_taken (Option.eq_some_of_filter_eq_some h)

/-- A command that changes no item of a filter tells no change. -/
theorem told_of_none (hchange : c.cuckooChange? key = none) : c.told key s = none := by
  rw [told, hchange]
  rfl

/-- An adding command tells what its addition did. -/
theorem Adds.told {addition : CuckooFilter → CuckooFilter × Addition}
    (h : c.Adds key item addition) (haddition : addition f = (g, result)) {events : List Event}
    (hanswer : (s.extendCuckoo key addition).answer = (additionEffect events g result).answer) :
    c.told key s = if result = .added then some (.stored item) else none := by
  rw [Command.told, h.asks, Option.filter_some, if_congr (h.isOne haddition hanswer) rfl rfl]

/-- A removal tells that the item was taken out exactly if it was. -/
theorem told_cuckooRemove (hanswer : (s.removeCuckoo key item).answer = .ok taken) :
    (cuckooRemove key item).told key s = if taken then some (.taken item) else none := by
  rw [told, cuckooChange?, if_pos rfl, Option.filter_some, run, answer_map, hanswer]
  cases taken <;> rfl

/-- **The replies keep the accounts** of a cuckoo filter, whatever the command is. -/
theorem run_accounts (hget : s.get? key = some (.cuckoo f)) (hf : f.Shaped)
    (hkept : ∀ keys, c = .delete keys → key ∉ keys) :
    ∃ g, Accounts f (g, c.told key s) ∧ (c.run s).store.get? key = some (.cuckoo g) := by
  cases hchange : c.cuckooChange? key with
  | none =>
      refine ⟨f, ?_, get?_run_of_unchanging hget hkept hchange⟩
      rw [told_of_none hchange]
      exact accounts_none f
  | some change =>
  cases change with
  | stored item =>
      obtain ⟨addition, hadds⟩ := exists_adds hchange
      rcases haddition : addition f with ⟨g, result⟩
      obtain ⟨hheld, hanswer⟩ := extendCuckoo_of_some hget addition haddition
      refine ⟨g, ?_, (congrArg (·.get? key) (hadds.store s)).trans hheld⟩
      rw [hadds.told haddition hanswer]
      exact hadds.accounts hf haddition
  | taken item =>
      obtain rfl := eq_of_taken hchange
      rcases hremove : f.remove item with ⟨g, taken⟩
      obtain ⟨hheld, hanswer⟩ := update_removal hget hremove
      rw [← removeCuckoo_eq] at hheld hanswer
      refine ⟨g, ?_, ?_⟩
      · rw [told_cuckooRemove hanswer]
        exact accounts_remove hf hremove
      · rw [run, store_map]
        exact hheld

/-- A value of the cuckoo filters is one. -/
theorem exists_cuckoo_of_family {value : Value} (h : value.family = .cuckoo) :
    ∃ f, value = .cuckoo f := by
  cases value with
  | cuckoo f => exact ⟨f, rfl⟩
  | _ => cases h

/-- A filter is made under a missing key, by a command of its family. -/
theorem family_of_made (hbefore : ∀ f, s.get? key ≠ some (.cuckoo f))
    (hmade : (c.run s).store.get? key = some (.cuckoo g)) :
    key ∈ c.keys ∧ c.family = .cuckoo ∧ s.get? key = none := by
  have hown : key ∈ c.keys := by
    by_contra hother
    rw [(c.run_frame s).2.2 key hother] at hmade
    exact hbefore g hmade
  obtain ⟨keys, -, -, hnone⟩ | hstep := c.run_cases s key
  · rw [hnone] at hmade
    cases hmade
  have hfamily : c.family = .cuckoo := by
    by_contra hother
    exact hbefore g (hstep.eq_some hmade fun heq => hother heq.symm)
  refine ⟨hown, hfamily, ?_⟩
  rw [hfamily, hmade] at hstep
  cases hheld : s.get? key with
  | none => rfl
  | some value =>
      rw [hheld] at hstep
      cases hstep with
      | same => exact absurd hheld (hbefore g)
      | changed _ _ hvalue =>
          obtain ⟨f, rfl⟩ := exists_cuckoo_of_family hvalue
          exact absurd hheld (hbefore f)

/-- No filter is made by taking an item out. -/
theorem ne_cuckooRemove_of_made (hbefore : ∀ f, s.get? key ≠ some (.cuckoo f))
    (hmade : (c.run s).store.get? key = some (.cuckoo g)) (item : Bytes) :
    c ≠ .cuckooRemove key item := by
  rintro rfl
  obtain ⟨-, -, hmissing⟩ := family_of_made hbefore hmade
  rw [run, store_map, removeCuckoo_eq, get?_update, if_pos rfl, hmissing] at hmade
  cases hmade

/-- A filter that is made for no item is made empty. -/
theorem run_made_of_unchanging (hbefore : ∀ f, s.get? key ≠ some (.cuckoo f))
    (hmade : (c.run s).store.get? key = some (.cuckoo g)) (hnone : c.cuckooChange? key = none) :
    g.Shaped ∧ ∀ index slot, g.cell index slot = 0 := by
  obtain ⟨hown, hfamily, hmissing⟩ := family_of_made hbefore hmade
  obtain ⟨errorRate, capacity, rfl⟩ | hreads := makes_or_reads hown hfamily hnone
  · rw [run, store_map, reserveCuckoo_eq, get?_update, if_pos rfl, hmissing] at hmade
    cases hcreate :
      CuckooFilter.create s.machine.log2 capacity errorRate (s.machine.stream key) with
    | error reason =>
        rw [hcreate] at hmade
        cases hmade
    | ok f =>
        rw [hcreate] at hmade
        obtain rfl : f = g := by simpa [making] using hmade
        exact create_spec hcreate
  · rw [hreads] at hmade
    exact absurd hmade (hbefore g)

/-- **A new filter accounts for its first item**, if it was made for one. -/
theorem run_made (hbefore : ∀ f, s.get? key ≠ some (.cuckoo f))
    (hmade : ∃ g, (c.run s).store.get? key = some (.cuckoo g)) :
    ∃ f g, f.Shaped ∧ (∀ index slot, f.cell index slot = 0) ∧ Accounts f (g, c.told key s) ∧
      (c.run s).store.get? key = some (.cuckoo g) := by
  obtain ⟨made, hmade⟩ := hmade
  cases hchange : c.cuckooChange? key with
  | none =>
      obtain ⟨hshaped, hempty⟩ := run_made_of_unchanging hbefore hmade hchange
      refine ⟨made, made, hshaped, hempty, ?_, hmade⟩
      rw [told_of_none hchange]
      exact accounts_none made
  | some change =>
  cases change with
  | stored item =>
      obtain ⟨addition, hadds⟩ := exists_adds hchange
      obtain ⟨-, -, hmissing⟩ := family_of_made hbefore hmade
      rw [hadds.store] at hmade ⊢
      rcases extendCuckoo_of_none hmissing addition with hnone | ⟨f, hcreate, hadded⟩
      · rw [hnone] at hmade
        cases hmade
      · obtain ⟨hshaped, hempty⟩ := create_spec hcreate
        rcases haddition : addition f with ⟨g, result⟩
        obtain ⟨hheld, hanswer⟩ := hadded g result haddition
        refine ⟨f, g, hshaped, hempty, ?_, hheld⟩
        rw [hadds.told haddition hanswer]
        exact hadds.accounts hshaped haddition
  | taken item => exact absurd (eq_of_taken hchange) (ne_cuckooRemove_of_made hbefore hmade item)

end Command

namespace Store

/-! ### Runs -/

/-- The filter under a key has balanced accounts, and nothing was taken out that was not
stored. -/
def Tracked (s : Store) (key : Bytes) (f : CuckooFilter) (changes : List Change) : Prop :=
  ∃ g, s.get? key = some (.cuckoo g) ∧ Balanced f (g, changes) ∧ Covered changes

variable {s : Store} {key item : Bytes} {f : CuckooFilter} {r q : Request}
  {since : List Request} {told : List Change} {c : Command}

/-- What the reply to a request tells is what the command did. -/
theorem told_serve (h : r.command? = some c) : r.told key (s.serve r).reply = c.told key s := by
  rw [Request.told, Command.told, h, (serve_of_command? h).1, Option.bind_some]

/-- A request that is not understood tells no change. -/
theorem told_serve_none (h : r.command? = none) (reply : Reply) : r.told key reply = none := by
  rw [Request.told, h]
  rfl

/-- **One request** that does not delete the key. -/
theorem Tracked.serve (h : s.Tracked key f told) (hf : f.Shaped) (hkept : key ∉ q.deletes)
    (howed : ∀ item, q.command? = some (.cuckooRemove key item) → Owed told item) :
    (s.serve q).store.Tracked key f (told ++ (q.told key (s.serve q).reply).toList) := by
  obtain ⟨g, hget, hbalanced, hcovered⟩ := h
  cases hcommand : q.command? with
  | none =>
      rw [(serve_of_command?_none hcommand).2, told_serve_none hcommand, Option.toList_none,
        List.append_nil]
      exact ⟨g, hget, hbalanced, hcovered⟩
  | some c =>
      have hdelete := Request.not_mem_of_deletes hkept hcommand
      obtain ⟨r, haccounts, hheld⟩ :=
        Command.run_accounts hget (hbalanced.shape.shaped hf) hdelete
      rw [(serve_of_command? hcommand).2, told_serve hcommand]
      refine ⟨r, hheld, hbalanced.append haccounts, hcovered.append ?_⟩
      intro item htaken
      exact howed item (hcommand.trans (congrArg some (Command.eq_of_told_taken htaken)))

/-- **A run** of requests that do not delete the key. -/
theorem Tracked.after (h : s.Tracked key f told) (hf : f.Shaped)
    (hkept : ∀ q ∈ since, key ∉ q.deletes)
    (howed : ∀ front q back, since = front ++ q :: back → ∀ item,
      q.command? = some (.cuckooRemove key item) → Owed (told ++ s.changes key front) item) :
    (s.after since).Tracked key f (told ++ s.changes key since) := by
  induction since generalizing s told with
  | nil =>
      rw [changes, List.append_nil]
      exact h
  | cons q rest ih =>
      have hstep := h.serve hf (hkept q List.mem_cons_self) fun item hitem => by
        simpa [changes] using howed [] q rest rfl item hitem
      have hrest := ih hstep (fun r hr => hkept r (List.mem_cons_of_mem _ hr)) (by
        rintro front r back rfl item hitem
        have hitem := howed (q :: front) r back rfl item hitem
        rwa [changes, ← List.append_assoc] at hitem)
      rw [changes, ← List.append_assoc]
      exact hrest

/-- In a period the filter is tracked from its first request on. -/
theorem CuckooPeriod.tracked (h : s.CuckooPeriod key r since) :
    ∃ f, f.Shaped ∧ (s.after (r :: since)).Tracked key f (s.changes key (r :: since)) := by
  obtain ⟨g, hmade⟩ := h.made
  cases hcommand : r.command? with
  | none =>
      rw [(serve_of_command?_none hcommand).2] at hmade
      exact absurd hmade (h.before g)
  | some c =>
      rw [(serve_of_command? hcommand).2] at hmade
      obtain ⟨f, g', hshaped, hempty, haccounts, hheld⟩ := Command.run_made h.before ⟨g, hmade⟩
      have hfirst : (s.serve r).store.Tracked key f (r.told key (s.serve r).reply).toList := by
        rw [(serve_of_command? hcommand).2, told_serve hcommand]
        refine ⟨g', hheld, (balanced_of_empty hempty).append haccounts, ?_⟩
        refine covered_nil.append fun item htaken => ?_
        exact absurd (Command.eq_of_told_taken htaken)
          (Command.ne_cuckooRemove_of_made h.before hmade item)
      exact ⟨f, hshaped, hfirst.after hshaped h.kept h.owed⟩

/-- What is asked of the filter under a key that holds one.  This is said of any question,
so that no filter has to be looked into. -/
theorem cuckoo?_map_some {g : CuckooFilter} (hget : s.get? key = some (.cuckoo g))
    (ask : CuckooFilter → Bytes → Bool) (item : Bytes) (items : List Bytes) :
    ((s.cuckoo? key).map fun f? => (f?.map fun f => ask f item).getD false) = .ok (ask g item) ∧
    ((s.cuckoo? key).map fun f? => items.map fun item => (f?.map fun f => ask f item).getD false) =
      .ok (items.map (ask g)) := by
  rw [cuckoo?, hget]
  exact ⟨rfl, rfl⟩

/-- What a filter under a key answers about an item that it holds. -/
theorem reply_of_found {g : CuckooFilter} (hget : s.get? key = some (.cuckoo g))
    (hcontains : g.contains item = true) (hremove : (g.remove item).2 = true) :
    (q.command? = some (.cuckooContains key item) → (s.serve q).reply = .int 1) ∧
    (∀ items, q.command? = some (.cuckooContainsAll key items) →
      ∃ replies : List Reply, (s.serve q).reply = .arr replies ∧ replies.length = items.length ∧
        ∀ i : Nat, items[i]? = some item → replies[i]? = some (.int 1)) ∧
    (q.command? = some (.cuckooRemove key item) → (s.serve q).reply = .int 1) := by
  refine ⟨?_, ?_, ?_⟩
  · intro hcommand
    have hanswer : s.cuckooContains key item = .ok true := by
      rw [cuckooContains, (cuckoo?_map_some hget CuckooFilter.contains item []).1, hcontains]
    rw [(serve_of_command? hcommand).1, Command.run, answering, hanswer]
    rfl
  · intro items hcommand
    have hanswer : s.cuckooContainsAll key items = .ok (items.map g.contains) := by
      rw [cuckooContainsAll, (cuckoo?_map_some hget CuckooFilter.contains item items).2]
    rw [(serve_of_command? hcommand).1, Command.run, answering, hanswer]
    refine ⟨(items.map g.contains).map .ofBool, rfl, by simp, ?_⟩
    intro i hi
    rw [List.getElem?_map, List.getElem?_map, hi, Option.map_some, hcontains]
    rfl
  · intro hcommand
    rcases hresult : g.remove item with ⟨r, taken⟩
    rw [hresult] at hremove
    obtain ⟨-, hanswer⟩ := update_removal hget hresult
    rw [(serve_of_command? hcommand).1, Command.run, answer_map, removeCuckoo_eq, hanswer]
    obtain rfl : taken = true := hremove
    rfl

/-- **An owed item is never forgotten.**  From when a cuckoo filter is made, and as long as
its key is not deleted and items are taken out only while they were added more often than
taken out, whatever else is asked of the store: an item that was added more often than
taken out is reported, alone and among others, and can be taken out. -/
theorem serve_owed (h : s.CuckooPeriod key r since)
    (howed : Owed (s.changes key (r :: since)) item) (q : Request) :
    (q.command? = some (.cuckooContains key item) →
      ((s.after (r :: since)).serve q).reply = .int 1) ∧
    (∀ items, q.command? = some (.cuckooContainsAll key items) →
      ∃ replies : List Reply, ((s.after (r :: since)).serve q).reply = .arr replies ∧
        replies.length = items.length ∧
        ∀ i : Nat, items[i]? = some item → replies[i]? = some (.int 1)) ∧
    (q.command? = some (.cuckooRemove key item) →
      ((s.after (r :: since)).serve q).reply = .int 1) := by
  obtain ⟨f, hshaped, g, hget, hbalanced, hcovered⟩ := h.tracked
  obtain ⟨hcontains, hremove⟩ := hbalanced.found hshaped hcovered howed
  exact reply_of_found hget hcontains hremove

/-- An item is added twice and taken out once, with a command on another key in between. -/
theorem serve_owed_added_twice :
    let s := empty ⟨id, fun _ => 4.0, fun _ n => n⟩ { cuckooCapacity := 4 }
    let add : Request := ⟨CommandName.cfAdd.bytes, [[0x6B], [0x61]]⟩
    let since : List Request := [add, ⟨CommandName.rpush.bytes, [[0x6C], [0x61]]⟩,
      ⟨CommandName.cfDel.bytes, [[0x6B], [0x61]]⟩]
    s.CuckooPeriod [0x6B] add since ∧ Owed (s.changes [0x6B] (add :: since)) [0x61] ∧
      ((s.after (add :: since)).serve ⟨CommandName.cfExists.bytes, [[0x6B], [0x61]]⟩).reply =
        .int 1 := by
  intro s add since
  have hperiod : s.CuckooPeriod [0x6B] add since := by
    refine ⟨?_, ?_, ?_, ?_⟩
    · intro f hf
      simp [s, get?, empty] at hf
    · have hname : (s.serve add).store.typeName? [0x6B] = some "MBbloomCF" := by decide +kernel
      rw [typeName?] at hname
      rcases hheld : (s.serve add).store.get? [0x6B] with _ | (q | f | f | sketch)
      case some.cuckoo => exact ⟨f, rfl⟩
      all_goals simp [hheld, Value.typeName] at hname
    · decide +kernel
    · rintro (_ | ⟨_, _ | ⟨_, _ | ⟨_, front⟩⟩⟩) q back hsplit item hitem <;>
        simp only [since, List.nil_append, List.cons_append, List.cons.injEq] at hsplit
      case nil =>
        obtain ⟨rfl, -⟩ := hsplit
        cases hitem
      case cons.nil =>
        obtain ⟨-, rfl, -⟩ := hsplit
        cases hitem
      case cons.cons.nil =>
        obtain ⟨rfl, rfl, rfl, -⟩ := hsplit
        cases hitem
        decide +kernel
      case cons.cons.cons => simp at hsplit
  have howed : Owed (s.changes [0x6B] (add :: since)) [0x61] := by decide +kernel
  exact ⟨hperiod, howed, (serve_owed hperiod howed _).1 rfl⟩

end Store

end CompactStore
