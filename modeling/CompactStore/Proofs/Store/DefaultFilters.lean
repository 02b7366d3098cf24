import CompactStore.Proofs.Config.Reached
import CompactStore.Proofs.Cuckoo.Pairs
import CompactStore.Proofs.Store.Emptied
import CompactStore.Proofs.Store.Refusals

/-!
# Filters that adding makes

Adding to a missing key makes a filter of the configured size.  A reached configuration
has a positive capacity and a rate, which is all that a parameter asks for; but a filter
has a largest size, and the parameters do not know it.  So there is one more way to fail,
when the first item comes: the configured size does not fit.  What adding to a missing key
comes to is decided by this alone: `serve_adding`.
-/

namespace CompactStore

/-! ### Sizes that fit -/

/-- The number of bits for these items at this rate is a number, and not too large. -/
def BloomFilter.Fits (ln : Float → Float) (capacity : Nat) (rate : Float) : Prop :=
  let required := Float.ofNat capacity * bitsPerEntry ln rate
  ¬ required.isNaN ∧ ceilWithin (word64 - 1) required ≤ maxBits

instance (ln : Float → Float) (capacity : Nat) (rate : Float) :
    Decidable (BloomFilter.Fits ln capacity rate) :=
  inferInstanceAs (Decidable (_ ∧ _))

/-- There may be this many buckets. -/
def CuckooFilter.Fits (capacity : Nat) : Prop :=
  capacity ≤ 2 ^ maxBucketsLog

/-- The filter that adding makes in a family has a size that fits. -/
def Config.DefaultFits (config : Config) (machine : Machine) : Family → Prop
  | .bloom => BloomFilter.Fits machine.ln config.bloomCapacity config.bloomErrorRate
  | .cuckoo => CuckooFilter.Fits config.cuckooCapacity
  | _ => True

/-- The commands that add items, and make a filter if the key is missing. -/
def CommandName.adding : List CommandName :=
  [bfAdd, bfMadd, cfAdd, cfAddnx]

/-- The key to add to is the first argument. -/
theorem CommandName.keysAmong_of_adding {name : CommandName} (hadding : name ∈ adding)
    (key : Bytes) (others : List Bytes) : name.keysAmong (key :: others) = [key] := by
  simp only [adding, List.mem_cons, List.not_mem_nil, or_false] at hadding
  rcases hadding with rfl | rfl | rfl | rfl <;> rfl

/-- A bloom filter of a positive capacity is made exactly if it fits. -/
theorem BloomFilter.create_cases (ln : Float → Float) {capacity : Nat} {rate : Float}
    (hcapacity : Parameter.IsSize capacity) (hrate : IsRate rate) :
    (Fits ln capacity rate ∧ ∃ f, create ln capacity rate = .ok f) ∨
      (¬ Fits ln capacity rate ∧ create ln capacity rate = .error .capacityTooLarge) := by
  have hpositive : capacity ≠ 0 := Nat.ne_of_gt hcapacity.1
  unfold Fits create
  dsimp only
  rw [if_neg (not_not.mpr hrate), if_neg hpositive]
  split
  · rename_i hlarge
    refine .inr ⟨?_, rfl⟩
    rintro ⟨hnumber, hbits⟩
    exact hlarge.elim hnumber (Nat.not_lt.mpr hbits)
  · rename_i hsmall
    rw [not_or, Nat.not_lt] at hsmall
    exact .inl ⟨hsmall, _, rfl⟩

/-- A cuckoo filter of a positive capacity is made exactly if it fits. -/
theorem CuckooFilter.create_cases (log2 : Float → Float) (stream : Nat → Nat) {capacity : Nat}
    {rate : Float} (hcapacity : Parameter.IsSize capacity) (hrate : IsRate rate) :
    (Fits capacity ∧ ∃ f, create log2 capacity rate stream = .ok f) ∨
      (¬ Fits capacity ∧ create log2 capacity rate stream = .error .capacityTooLarge) := by
  by_cases hfits : Fits capacity
  · exact .inl ⟨hfits, (exists_create_iff hrate).mpr ⟨hcapacity.1, hfits⟩⟩
  · have hpositive : capacity ≠ 0 := Nat.ne_of_gt hcapacity.1
    have hnone : bucketCount? capacity = none := bucketCount?_eq_none.mpr (Nat.lt_of_not_le hfits)
    refine .inr ⟨hfits, ?_⟩
    rw [create, if_neg (not_not.mpr hrate), if_neg hpositive, hnone]

namespace Store

/-! ### Adding to a missing key -/

/-- An outcome that makes a value of a family under a key if it fits, and otherwise finds
it too large and leaves the store. -/
inductive MakesIfFits {α : Type} (s : Store) (key : Bytes) (family : Family) (fits : Prop)
    (o : Outcome α) : Prop
  | made {a : α} {value : Value} : fits → o.answer = .ok a → o.store.get? key = some value →
      value.family = family → MakesIfFits s key family fits o
  | tooLarge : ¬ fits → o.answer = .error (.size .capacityTooLarge) → o.store = s →
      MakesIfFits s key family fits o

variable {α β : Type} {s : Store} {key : Bytes}

theorem MakesIfFits.map {family : Family} {fits : Prop} {o : Outcome α}
    (h : MakesIfFits s key family fits o) (f : α → β) :
    MakesIfFits s key family fits (o.map f) := by
  cases h with
  | @made a _ hfits hanswer hheld hfamily =>
      have hmapped : (o.map f).answer = .ok (f a) := by
        rw [answer_map, hanswer]
        rfl
      exact .made hfits hmapped hheld hfamily
  | tooLarge hlarge hanswer hstore =>
      refine .tooLarge hlarge ?_ hstore
      rw [answer_map, hanswer]
      rfl

/-- Adding to a missing bloom filter makes one exactly if the defaults fit. -/
theorem makesIfFits_addBloomAll (hvalid : s.config.Valid) (hmissing : s.get? key = none)
    (items : List Bytes) :
    MakesIfFits s key .bloom (s.config.DefaultFits s.machine .bloom) (s.addBloomAll key items) := by
  obtain ⟨hfits, f, hcreate⟩ | ⟨hlarge, hcreate⟩ := BloomFilter.create_cases s.machine.ln
    (hvalid .bloomCapacity) (hvalid .bloomErrorRate)
  · have hfor : s.bloomFor key = .ok f := by
      rw [bloomFor, hmissing]
      exact congrArg (Except.mapError Error.size) hcreate
    obtain ⟨hanswer, hstore⟩ := addBloomAll_of_ok hfor items
    exact .made hfits hanswer (hstore ▸ get?_put_self s key _) rfl
  · have hfor : s.bloomFor key = .error (.size .capacityTooLarge) := by
      rw [bloomFor, hmissing]
      exact congrArg (Except.mapError Error.size) hcreate
    obtain ⟨hanswer, hstore⟩ := addBloomAll_of_error hfor items
    exact .tooLarge hlarge hanswer hstore

/-- An addition that is not full is answered. -/
theorem exists_answer_additionEffect {events : List Event} {g : CuckooFilter}
    {result : CuckooFilter.Addition} (h : result ≠ .full) :
    ∃ added, (additionEffect events g result).answer = .ok added := by
  cases result with
  | added => exact ⟨true, rfl⟩
  | present => exact ⟨false, rfl⟩
  | full => exact absurd rfl h

/-- A filter that was just made has room, so nothing but its size can be in the way. -/
theorem makesIfFits_extendCuckoo (hvalid : s.config.Valid) (hmissing : s.get? key = none)
    {addition : CuckooFilter → CuckooFilter × CuckooFilter.Addition}
    (haddition : ∀ f, CuckooFilter.Restrained f (addition f)) :
    MakesIfFits s key .cuckoo (s.config.DefaultFits s.machine .cuckoo)
      (s.extendCuckoo key addition) := by
  have hsame := s.put_get? key
  rw [hmissing] at hsame
  have hcapacity : Parameter.IsSize s.config.cuckooCapacity := hvalid .cuckooCapacity
  have hrate : IsRate s.config.cuckooErrorRate := hvalid .cuckooErrorRate
  unfold extendCuckoo update
  rw [hmissing]
  dsimp only
  obtain ⟨hfits, f, hcreate⟩ | ⟨hlarge, hcreate⟩ :=
    CuckooFilter.create_cases s.machine.log2 (s.machine.stream key) hcapacity hrate
  · rw [hcreate]
    dsimp only
    obtain ⟨-, hempty⟩ := CuckooFilter.create_spec hcreate
    have hanswered : ∃ added, (additionEffect [.creatingCuckoo] (addition f).1
        (addition f).2).answer = .ok added :=
      exists_answer_additionEffect ((haddition f).of_empty hempty)
    obtain ⟨added, hanswer⟩ := hanswered
    have hheld := (get?_put_self s key _).trans
      (held_additionEffect [.creatingCuckoo] (addition f).1 (addition f).2)
    exact .made hfits hanswer hheld rfl
  · rw [hcreate]
    exact .tooLarge hlarge rfl hsame

end Store

namespace Command

open Store

/-- **A command that adds to a missing key** makes a filter of its family if it fits. -/
theorem makesIfFits_run {c : Command} {s : Store} {key : Bytes}
    (hadding : c.name ∈ CommandName.adding) (hkey : c.keys = [key]) (hvalid : s.config.Valid)
    (hmissing : s.get? key = none) :
    MakesIfFits s key c.name.family (s.config.DefaultFits s.machine c.name.family) (c.run s) := by
  cases c with
  | bloomAdd k item =>
      obtain rfl := List.singleton_inj.mp hkey
      exact ((makesIfFits_addBloomAll hvalid hmissing [item]).map _).map _
  | bloomAddAll k items =>
      obtain rfl := List.singleton_inj.mp hkey
      exact (makesIfFits_addBloomAll hvalid hmissing items).map _
  | cuckooAdd k item =>
      obtain rfl := List.singleton_inj.mp hkey
      rw [run, addCuckoo]
      exact ((makesIfFits_extendCuckoo hvalid hmissing
        fun f => f.restrained_addOnce item).map _).map _
  | cuckooAddNew k item =>
      obtain rfl := List.singleton_inj.mp hkey
      rw [run, addCuckooNew]
      exact (makesIfFits_extendCuckoo hvalid hmissing fun f => f.restrained_addNew item).map _
  | push e => cases e <;> simp [name, CommandName.adding] at hadding
  | pop e => cases e <;> simp [name, CommandName.adding] at hadding
  | _ => simp [name, CommandName.adding] at hadding

/-- A command that adds has no numbers among its arguments, so only their number can be
wrong. -/
theorem eq_arity_of_read {written : CommandName} {args : List Bytes} {e : Error}
    (hadding : written ∈ CommandName.adding) (h : read written args = .error e) :
    e = .arity written.text := by
  simp only [CommandName.adding, List.mem_cons, List.not_mem_nil, or_false] at hadding
  rcases hadding with rfl | rfl | rfl | rfl
  all_goals
    rcases args with _ | ⟨key, _ | ⟨item, _ | ⟨other, rest⟩⟩⟩
    all_goals cases h
    all_goals rfl

end Command

namespace Store

variable {s : Store} {key : Bytes}

/-- **Adding to a missing key.**  Let a configuration come of reading a text and of setting
parameters, and let a store with it have answered any calls.  A request to add to a key
that holds nothing is refused as it stands, if the number of its arguments is wrong; else it
makes a filter and is answered, if the configured size fits; and if it does not, the reply
is that the capacity is too large, and the store stays. -/
theorem serve_adding {machine : Machine} {config : Config} {calls : List Call}
    {r : Request} {name : CommandName} (hconfig : config.Reached)
    (hs : s = (empty machine config).afterCalls calls) (hname : r.asksFor? = some name)
    (hadding : name ∈ CommandName.adding) (hkey : r.args.head? = some key)
    (hmissing : s.get? key = none) :
    (r.command? = none → (s.serve r).reply = .ofError (.arity name.text) ∧
      (s.serve r).store = s) ∧
    (r.command?.isSome → config.DefaultFits machine name.family →
      (s.serve r).reply.isError = false ∧
        ∃ value, (s.serve r).store.get? key = some value ∧ value.family = name.family) ∧
    (r.command?.isSome → ¬ config.DefaultFits machine name.family →
      (s.serve r).reply = .ofError (.size .capacityTooLarge) ∧ (s.serve r).store = s) := by
  have hsupplied : s.config = config ∧ s.machine = machine :=
    hs ▸ config_afterCalls machine config calls
  cases hcommand : r.command? with
  | none =>
      rw [Request.command?_of_asksFor? hname] at hcommand
      cases hread : Command.read name r.args with
      | ok c =>
          rw [hread] at hcommand
          cases hcommand
      | error e =>
          -- these commands have no numbers among their arguments, so only their number can be wrong
          obtain rfl := Command.eq_arity_of_read hadding hread
          rw [serve_of_read_error hname hread]
          exact ⟨fun _ => ⟨rfl, rfl⟩, nofun, nofun⟩
  | some c =>
      obtain ⟨hasked, hread⟩ := Request.read_of_command? hcommand
      obtain rfl : name = c.name := Option.some.inj (hname.symm.trans hasked)
      have hkeys : c.keys = [key] := by
        obtain ⟨others, hargs⟩ := List.head?_eq_some_iff.mp hkey
        rw [(Command.read_spec hread).2, hargs, CommandName.keysAmong_of_adding hadding]
      have hvalid : s.config.Valid := hsupplied.1 ▸ hconfig.valid
      have hmakes := Command.makesIfFits_run hadding hkeys hvalid hmissing
      obtain ⟨hreply, hstore⟩ := serve_of_command? (s := s) hcommand
      rw [hsupplied.1, hsupplied.2] at hmakes
      rw [hreply, hstore]
      refine ⟨nofun, fun _ hfits => ?_, fun _ hlarge => ?_⟩
      · cases hmakes with
        | made _ hanswer hheld hfamily =>
            rw [hanswer]
            exact ⟨c.isError_of_ok s hanswer, _, hheld, hfamily⟩
        | tooLarge hlarge => exact absurd hfits hlarge
      · cases hmakes with
        | made hfits => exact absurd hfits hlarge
        | tooLarge _ hanswer hsame =>
            rw [hanswer]
            exact ⟨rfl, hsame⟩

/-- A text asks for the largest cuckoo filter, and for a bloom filter that is too large.  The
key that is added to held a list that was taken off. -/
theorem serve_adding_largest :
    let machine : Machine := ⟨fun _ => -4.605170185988091, fun _ => 9.643856189774725, fun _ n => n⟩
    let config : Config := { bloomCapacity := 500000000, cuckooCapacity := 16777216 }
    let s := (empty machine config).afterCalls
      [.request ⟨CommandName.rpush.bytes, [[0x6B], [0x61]]⟩, .take [0x6B] .back 1]
    let add : Request := ⟨CommandName.cfAddnx.bytes, [[0x6B], [0x61]]⟩
    let addAll : Request := ⟨CommandName.bfMadd.bytes, [[0x6B], [0x61], [0x62]]⟩
    Config.parse "bf-default-capacity 500000000\ncf-default-capacity 16777216" = .ok config ∧
      (s.serve add).reply.isError = false ∧
      (∃ value, (s.serve add).store.get? [0x6B] = some value ∧ value.family = .cuckoo) ∧
      (s.serve addAll).reply = .ofError (.size .capacityTooLarge) ∧
      (s.serve addAll).store = s := by
  intro machine config s add addAll
  have hparse : Config.parse
      "bf-default-capacity 500000000\ncf-default-capacity 16777216" = .ok config := rfl
  have hmissing : s.get? [0x6B] = none := by
    have habsent : s.contains [0x6B] = false := by decide +kernel
    rwa [contains_eq_isSome, Option.isSome_eq_false_iff, Option.isNone_iff_eq_none] at habsent
  have hfits : config.DefaultFits machine .cuckoo := Nat.le_refl _
  have hlarge : ¬ config.DefaultFits machine .bloom :=
    (by decide +kernel : ¬ BloomFilter.Fits machine.ln config.bloomCapacity config.bloomErrorRate)
  have hadd := serve_adding (r := add) (.parsed hparse) rfl rfl (by decide) rfl hmissing
  have hall := serve_adding (r := addAll) (.parsed hparse) rfl rfl (by decide) rfl hmissing
  exact ⟨hparse, (hadd.2.1 rfl hfits).1, (hadd.2.1 rfl hfits).2, hall.2.2 rfl hlarge⟩

/-- **Not every filter that is asked for can be made.**  A text is read, and with this
configuration the first item of a bloom filter and of a cuckoo filter is refused. -/
theorem serve_adding_refused :
    let machine : Machine := ⟨fun _ => -4.605170185988091, fun _ => 9.643856189774725, fun _ n => n⟩
    let config : Config := { bloomCapacity := 500000000, cuckooCapacity := 16777217 }
    let s := empty machine config
    Config.parse "bf-default-capacity 500000000\ncf-default-capacity 16777217" =
        .ok config ∧
      s.get? [0x62] = none ∧ s.get? [0x63] = none ∧
      (s.serve ⟨CommandName.bfAdd.bytes, [[0x62], [0x78]]⟩).reply =
        .err "ERR capacity too large" ∧
      (s.serve ⟨CommandName.cfAdd.bytes, [[0x63], [0x78]]⟩).reply =
        .err "ERR capacity too large" :=
  ⟨rfl, rfl, rfl, rfl, rfl⟩

end Store

end CompactStore
