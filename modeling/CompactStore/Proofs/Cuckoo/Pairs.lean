import CompactStore.Proofs.Cuckoo.Conservation
import Mathlib.Order.Bounds.Basic

/-!
# Candidates pair up

The number of buckets is the capacity rounded up to a power of two, and there are capacities
for which this is too many.  A power of two is what the other candidate needs: a hash of 32
bits is mixed into an index, and only the lower digits are kept, so mixing it in once more
takes it out again.  A filter of any capacity that is accepted has such a number, and keeps
it: `candidates_pair_up`.
-/

namespace CompactStore.CuckooFilter

variable {f g : CuckooFilter} {capacity n index i : Nat} {rate : Float} {log2 : Float → Float}
  {stream : Nat → Nat} {item : Bytes}

/-! ### The number of buckets -/

/-- The powers of two are tried from the smallest one on. -/
theorem bucketCount?_eq_some_iff :
    bucketCount? capacity = some n ↔
      ∃ k ≤ maxBucketsLog, n = 2 ^ k ∧ capacity ≤ 2 ^ k ∧ ∀ j < k, 2 ^ j < capacity := by
  rw [bucketCount?, List.find?_map, Option.map_eq_some_iff]
  simp only [List.find?_range_eq_some, List.mem_range, Nat.lt_succ_iff, Function.comp_apply,
    decide_eq_true_eq, Bool.not_eq_true', decide_eq_false_iff_not, Nat.not_le]
  constructor
  · rintro ⟨k, ⟨hfits, hk, hfirst⟩, rfl⟩
    exact ⟨k, hk, rfl, hfits, hfirst⟩
  · rintro ⟨k, hk, rfl, hfits, hfirst⟩
    exact ⟨k, ⟨hfits, hk, hfirst⟩, rfl⟩

/-- There is no number of buckets for the capacities above the largest one. -/
theorem bucketCount?_eq_none : bucketCount? capacity = none ↔ 2 ^ maxBucketsLog < capacity := by
  rw [bucketCount?, List.find?_eq_none]
  simp only [List.mem_map, List.mem_range, Nat.lt_succ_iff, decide_eq_true_eq, Nat.not_le]
  constructor
  · exact fun hnone => hnone _ ⟨maxBucketsLog, Nat.le_refl _, rfl⟩
  · rintro hlarge n ⟨k, hk, rfl⟩
    exact Nat.lt_of_le_of_lt (Nat.pow_le_pow_right (by decide) hk) hlarge

/-- **The capacity is rounded up** to the next power of two. -/
theorem isLeast_of_bucketCount? (h : bucketCount? capacity = some n) :
    IsLeast {n | capacity ≤ n ∧ ∃ k, n = 2 ^ k} n := by
  obtain ⟨k, -, rfl, hfits, hfirst⟩ := bucketCount?_eq_some_iff.mp h
  refine ⟨⟨hfits, k, rfl⟩, ?_⟩
  rintro m ⟨hm, j, rfl⟩
  apply Nat.pow_le_pow_right (by decide)
  by_contra hbelow
  exact absurd hm (Nat.not_le.mpr (hfirst j (Nat.lt_of_not_le hbelow)))

/-- A new filter has the least power of two of buckets that is not below the capacity. -/
theorem isLeast_numBuckets (h : create log2 capacity rate stream = .ok f) :
    IsLeast {n | capacity ≤ n ∧ ∃ k, n = 2 ^ k} f.numBuckets := by
  obtain ⟨-, -, n, hcount, rfl⟩ := create_eq_ok_iff.mp h
  have hsize : (Array.replicate n Bucket.empty).size = n := Array.size_replicate
  rw [numBuckets, hsize]
  exact isLeast_of_bucketCount? hcount

/-- **Which capacities are accepted.** -/
theorem exists_create_iff (hrate : IsRate rate) :
    (∃ f, create log2 capacity rate stream = .ok f) ↔
      1 ≤ capacity ∧ capacity ≤ 2 ^ maxBucketsLog := by
  constructor
  · rintro ⟨f, hcreate⟩
    obtain ⟨-, hpos, n, hcount, -⟩ := create_eq_ok_iff.mp hcreate
    refine ⟨hpos, Nat.le_of_not_lt fun hlarge => ?_⟩
    rw [bucketCount?_eq_none.mpr hlarge] at hcount
    cases hcount
  · rintro ⟨hpos, hle⟩
    obtain ⟨n, hcount⟩ : ∃ n, bucketCount? capacity = some n :=
      Option.ne_none_iff_exists'.mp fun hnone =>
        absurd (bucketCount?_eq_none.mp hnone) (Nat.not_lt.mpr hle)
    exact ⟨_, create_eq_ok_iff.mpr ⟨hrate, hpos, n, hcount, rfl⟩⟩

/-! ### The two candidates -/

/-- From either candidate of an item the pair is the same. -/
theorem pair_candidates (h : f.Shaped)
    (hi : i = (f.candidates item).first ∨ i = (f.candidates item).second) :
    i < f.numBuckets ∧
      f.pair i (f.candidates item).fp =
        {(f.candidates item).first, (f.candidates item).second} := by
  have hc := candidates_spec h item
  have hfirst : f.pair (f.candidates item).first (f.candidates item).fp =
      {(f.candidates item).first, (f.candidates item).second} := by
    rw [hc.second_eq]
    rfl
  rcases hi with rfl | rfl
  · exact ⟨hc.first_lt, hfirst⟩
  · rw [← hfirst, hc.second_eq]
    exact ⟨other_lt h _ _, pair_other h hc.first_lt _⟩

/-- **The other candidate of the other candidate is the first one, for every capacity that is
accepted.**  At any rate of false reports a filter is made exactly for the capacities from one
to `2 ^ 24`.  Then, and after any operations on it, the number of buckets is the least power of
two that is not below the capacity.  From any index, with any fingerprint, the other candidate
is an index, and leads back.  So whichever candidate of an item is looked at, the pair is the
same, and it is that of the new filter. -/
theorem candidates_pair_up (hrate : IsRate rate) (capacity : Nat) (log2 : Float → Float)
    (stream : Nat → Nat) :
    ((∃ f, create log2 capacity rate stream = .ok f) ↔ 1 ≤ capacity ∧ capacity ≤ 2 ^ 24) ∧
    ∀ f, create log2 capacity rate stream = .ok f → ∀ ops g, (f.run ops).1 = g →
      IsLeast {n | capacity ≤ n ∧ ∃ k, n = 2 ^ k} g.numBuckets ∧
      (∀ index < g.numBuckets, ∀ fp, g.other index fp < g.numBuckets ∧
        g.other (g.other index fp) fp = index) ∧
      ∀ item, g.candidates item = f.candidates item ∧
        ∀ index, index = (g.candidates item).first ∨ index = (g.candidates item).second →
          index < g.numBuckets ∧
            ({index, g.other index (g.candidates item).fp} : Finset Nat) =
              {(g.candidates item).first, (g.candidates item).second} := by
  refine ⟨exists_create_iff hrate, ?_⟩
  rintro f hcreate ops g rfl
  obtain ⟨hshaped, hempty⟩ := create_spec hcreate
  have hkept : SameShape f (f.run ops).1 := (balanced_run hshaped hempty ops).shape
  have hg : (f.run ops).1.Shaped := hkept.shaped hshaped
  refine ⟨?_, fun index hindex fp => ⟨other_lt hg index fp, other_other hg hindex fp⟩,
    fun item => ⟨hkept.candidates item, fun index hindex => pair_candidates hg hindex⟩⟩
  rw [hkept.2]
  exact isLeast_numBuckets hcreate

/-- Three buckets are asked for, and there are four. -/
theorem candidates_pair_up_four_buckets :
    IsRate 0.5 ∧ ∃ f, create (fun _ => 4.0) 3 0.5 (fun n => n) = .ok f ∧
      f.numBuckets = 4 ∧ f.other 2 0x07 = 3 ∧ f.other 3 0x07 = 2 := by
  have hrate : IsRate 0.5 := by decide +kernel
  obtain ⟨hmade, hpairs⟩ := candidates_pair_up hrate 3 (fun _ => 4.0) (fun n => n)
  obtain ⟨f, hcreate⟩ := hmade.mpr (by decide)
  obtain ⟨hleast, hother, -⟩ := hpairs f hcreate [] f rfl
  have hfour : f.numBuckets = 4 := hleast.unique (isLeast_of_bucketCount? (by decide))
  have hthree : f.other 2 0x07 = 3 := by
    rw [other, hfour]
    decide +kernel
  have hback := (hother 2 (by omega) 0x07).2
  rw [hthree] at hback
  exact ⟨hrate, f, hcreate, hfour, hthree, hback⟩

end CompactStore.CuckooFilter
