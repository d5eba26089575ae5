import Mathlib.Data.Set.Lattice

/-!
# Filters as sets of positions

What a Bloom filter is for, in its own terms: a key has a set of probe
positions, a filter is a set of positions, and it accepts a key when it holds
all of the key's probes. Bits, hash functions and sizes do not appear here.
-/

namespace PositionFilter

variable {K P : Type*} (probes : K → Set P)

/-- The filter `S` accepts the key `k`. -/
def Accepts (S : Set P) (k : K) : Prop :=
  probes k ⊆ S

/-- The filter that the keys `ks` build: every probe of every one of them. -/
def built (ks : List K) : Set P :=
  {p | ∃ k ∈ ks, p ∈ probes k}

variable {probes}

theorem Accepts.mono {S T : Set P} {k : K} (hk : Accepts probes S k) (h : S ⊆ T) :
    Accepts probes T k :=
  hk.trans h

/-- No false negatives: a key that was inserted is accepted. -/
theorem accepts_built_of_mem {ks : List K} {k : K} (h : k ∈ ks) :
    Accepts probes (built probes ks) k :=
  fun _ hp => ⟨k, h, hp⟩

theorem built_nil : built probes [] = ∅ := by
  ext p
  simp [built]

theorem built_cons (k : K) (ks : List K) :
    built probes (k :: ks) = probes k ∪ built probes ks := by
  ext p
  simp [built]

/-- Order and repetitions of the keys do not matter. -/
theorem built_congr {ks ks' : List K} (h : ∀ k, k ∈ ks ↔ k ∈ ks') :
    built probes ks = built probes ks' := by
  ext p
  simp only [built, Set.mem_ofPred_eq, h]

/-- The union of built filters is the filter that all their keys build. -/
theorem built_flatten (groups : List (List K)) :
    built probes groups.flatten = {p | ∃ ks ∈ groups, p ∈ built probes ks} := by
  ext p
  constructor
  · rintro ⟨k, hk, hp⟩
    obtain ⟨ks, hks, hmem⟩ := List.mem_flatten.mp hk
    exact ⟨ks, hks, k, hmem, hp⟩
  · rintro ⟨ks, hks, k, hk, hp⟩
    exact ⟨k, List.mem_flatten.mpr ⟨ks, hks, hk⟩, hp⟩

end PositionFilter
