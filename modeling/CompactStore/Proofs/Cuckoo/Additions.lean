import CompactStore.Proofs.Cuckoo.Conservation

/-!
# Additions that find no room

Both ways of adding an item end in `store`.  When the filter is full for the item,
`store` leaves the filter but for the random choices that it used; and a filter
with nothing in it is full for no item.
-/

namespace CompactStore.CuckooFilter

variable {f : CuckooFilter}

/-- In an empty filter there is room for every item. -/
theorem store_of_empty (hempty : ∀ index slot, f.cell index slot = 0) (c : Candidates) :
    (f.store c).2 = true := by
  cases hslot : f.slot? c.first 0 with
  | some slot =>
      have hlocate : f.locate? c 0 = some (c.first, slot) := by
        unfold locate?
        rw [hslot]
      unfold store
      rw [hlocate]
  | none => exact absurd (hempty c.first 0) (slot?_eq_none.mp hslot 0 (by decide))

/-- **What an addition may do**: it keeps the shape; full, it leaves the filter but
for random choices; and it finds room in an empty filter. -/
structure Restrained (f : CuckooFilter) (result : CuckooFilter × Addition) : Prop where
  shape : SameShape f result.1
  of_full : f.Shaped → result.2 = .full → ∃ used, result.1 = f.advance used
  of_empty : (∀ index slot, f.cell index slot = 0) → result.2 ≠ .full

/-- Storing, told as an addition, does what an addition may do. -/
theorem restrained_additionOf {result : CuckooFilter × Bool} (hshape : SameShape f result.1)
    (hfull : f.Shaped → result.2 = false → ∃ used, result.1 = f.advance used)
    (hempty : (∀ index slot, f.cell index slot = 0) → result.2 = true) :
    Restrained f (additionOf result) := by
  obtain ⟨g, stored⟩ := result
  cases stored with
  | true =>
      exact ⟨hshape, fun _ hstored => Addition.noConfusion hstored,
        fun _ hstored => Addition.noConfusion hstored⟩
  | false =>
      exact ⟨hshape, fun hf _ => hfull hf rfl, fun hnone => Bool.noConfusion (hempty hnone)⟩

/-- Adding an item does what an addition may do. -/
theorem restrained_addOnce (f : CuckooFilter) (item : Bytes) :
    Restrained f (f.addOnce item) := by
  rw [addOnce, add]
  apply restrained_additionOf
  · exact sameShape_store f _
  · exact store_of_full
  · exact fun hempty => store_of_empty hempty _

/-- Adding an item unless it is there does what an addition may do. -/
theorem restrained_addNew (f : CuckooFilter) (item : Bytes) : Restrained f (f.addNew item) := by
  rw [addNew]
  split
  · exact ⟨⟨rfl, rfl⟩, fun _ hpresent => Addition.noConfusion hpresent,
      fun _ hpresent => Addition.noConfusion hpresent⟩
  · exact restrained_addOnce f item

/-- The two ways of adding an item. -/
def additions : List (CuckooFilter → Bytes → CuckooFilter × Addition) :=
  [addOnce, addNew]

/-- Either way of adding an item does what an addition may do. -/
theorem restrained_of_mem_additions {addition : CuckooFilter → Bytes → CuckooFilter × Addition}
    (haddition : addition ∈ additions) (f : CuckooFilter) (item : Bytes) :
    Restrained f (addition f item) := by
  rcases List.mem_pair.mp haddition with rfl | rfl
  · exact restrained_addOnce f item
  · exact restrained_addNew f item

/-- **A chain of evictions that finds no room is undone exactly.**  After any operations
on a new filter, whatever its random choices were: an addition that finds the filter full
leaves every byte of every bucket and the number of fingerprints, and differs from what was
there only in the random choices that it used.  The chain may have come back to a bucket,
or to a slot, or not have left the bucket at all. -/
theorem run_full_leaves {log2 : Float → Float} {capacity : Nat} {rate : Float}
    {stream : Nat → Nat} {f g : CuckooFilter} (hcreate : create log2 capacity rate stream = .ok f)
    {ops : List Operation} (hg : g = (f.run ops).1)
    {addition : CuckooFilter → Bytes → CuckooFilter × Addition} (haddition : addition ∈ additions)
    {item : Bytes} (hfull : (addition g item).2 = .full) :
    (addition g item).1.numBuckets = g.numBuckets ∧
    (∀ index, ((addition g item).1.bucket index).bytes (addition g item).1.bits =
      (g.bucket index).bytes g.bits) ∧
    (addition g item).1.count = g.count ∧
    ∃ used, (addition g item).1 = g.advance used := by
  obtain ⟨hshaped, hempty⟩ := create_spec hcreate
  have hkept : g.Shaped := hg ▸ (balanced_run hshaped hempty ops).shape.shaped hshaped
  obtain ⟨used, hleft⟩ := (restrained_of_mem_additions haddition g item).of_full hkept hfull
  rw [hleft]
  exact ⟨rfl, fun _ => rfl, rfl, used, rfl⟩

/-- Four items fill the only bucket.  The fifth chases fingerprints around in it, five
hundred times, and then all of them are where they were. -/
theorem run_full_leaves_one_bucket :
    ∃ f, create (fun _ => 4.0) 1 0.5 (fun n => n) = .ok f ∧
      ∃ g, g = (f.run [.add [0x61], .add [0x62], .add [0x63], .add [0x64]]).1 ∧
        (g.addOnce [0x65]).2 = .full ∧ (g.addOnce [0x65]).1.draws.used = 501 ∧
        ((g.addOnce [0x65]).1.bucket 0).bytes (g.addOnce [0x65]).1.bits =
          (g.bucket 0).bytes g.bits := by
  have hrate : IsRate 0.5 := by decide +kernel
  have hbits : fingerprintBits (fun _ => 4.0) 0.5 = 4 := by decide +kernel
  have hcount : bucketCount? 1 = some 1 := by decide
  have hcreate : create (fun _ => 4.0) 1 0.5 (fun n => n) = .ok {
      buckets := Array.replicate 1 Bucket.empty, bits := 4, count := 0, capacity := 1
      errorRate := 0.5, draws := .start (fun n => n) } := by
    rw [create, if_neg (not_not_intro hrate), if_neg (by decide), hcount, hbits]
  refine ⟨_, hcreate, _, rfl, by decide +kernel, by decide +kernel, ?_⟩
  exact (run_full_leaves hcreate rfl (List.mem_cons_self) (by decide +kernel)).2.1 0

end CompactStore.CuckooFilter
