import Mathlib.Data.List.MinMax
import Mathlib.Data.List.Nodup
import Mathlib.Data.Set.Function

/-!
# Records with versions

A record has a key and a version number. A store may drop a record once it keeps
a newer one of the same key; `Covers` says that from one list to another nothing
else was dropped.

Results:
1. `newest?_eq_some_iff`: the newest record of a key, if versions are distinct.
2. `Covers.newest?_eq`: dropping superseded records changes no newest record.
3. `newest?_append`: reading two layers, the newer one first.
4. `newest?_eq_find?`: in a list from old to new the newest record is the last one.
-/

namespace Versions

variable {ρ κ : Type*} (key : ρ → κ) (version : ρ → Nat)

/-- The newest record of the key `k`. -/
def newest? [DecidableEq κ] (k : κ) (l : List ρ) : Option ρ :=
  (l.filter fun r => key r = k).argmax version

/-- Every record of `all` is superseded by a record that was kept, or kept
itself. -/
structure Covers (all kept : List ρ) : Prop where
  subset : kept ⊆ all
  newer : ∀ r ∈ all, ∃ r' ∈ kept, key r' = key r ∧ version r ≤ version r'

variable {key version} {all kept kept' : List ρ}

/-! ## Covering -/

namespace Covers

theorem of_mem_iff (h : ∀ r, r ∈ kept ↔ r ∈ all) : Covers key version all kept where
  subset r hr := (h r).mp hr
  newer r hr := ⟨r, (h r).mpr hr, rfl, le_rfl⟩

theorem trans (h : Covers key version all kept) (h' : Covers key version kept kept') :
    Covers key version all kept' := by
  refine ⟨fun r hr => h.subset (h'.subset hr), fun r hr => ?_⟩
  obtain ⟨r₁, hr₁, hkey₁, hle₁⟩ := h.newer r hr
  obtain ⟨r₂, hr₂, hkey₂, hle₂⟩ := h'.newer r₁ hr₁
  exact ⟨r₂, hr₂, hkey₂.trans hkey₁, hle₁.trans hle₂⟩

theorem append {all' : List ρ} (h : Covers key version all kept)
    (h' : Covers key version all' kept') : Covers key version (all ++ all') (kept ++ kept') := by
  refine ⟨fun r hr => ?_, fun r hr => ?_⟩
  · rcases List.mem_append.mp hr with hr | hr
    · exact List.mem_append_left _ (h.subset hr)
    · exact List.mem_append_right _ (h'.subset hr)
  · rcases List.mem_append.mp hr with hr | hr
    · obtain ⟨r', hr', hnewer⟩ := h.newer r hr
      exact ⟨r', List.mem_append_left _ hr', hnewer⟩
    · obtain ⟨r', hr', hnewer⟩ := h'.newer r hr
      exact ⟨r', List.mem_append_right _ hr', hnewer⟩

end Covers

/-! ## The newest record -/

section Newest
variable [DecidableEq κ] {k : κ} {l : List ρ} {r : ρ}

theorem newest?_eq_some (h : newest? key version k l = some r) :
    r ∈ l ∧ key r = k ∧ ∀ r' ∈ l, key r' = k → version r' ≤ version r := by
  obtain ⟨hmem, hkey⟩ := List.mem_filter.mp (List.argmax_mem h)
  refine ⟨hmem, of_decide_eq_true hkey, fun r' hr' hkey' => ?_⟩
  exact List.le_of_mem_argmax (List.mem_filter.mpr ⟨hr', decide_eq_true hkey'⟩) h

theorem newest?_eq_none : newest? key version k l = none ↔ ∀ r ∈ l, key r ≠ k := by
  rw [newest?, List.argmax_eq_none, List.filter_eq_nil_iff]
  simp

theorem newest?_eq_some_iff (hinj : Set.InjOn version {r | r ∈ l}) :
    newest? key version k l = some r ↔
      r ∈ l ∧ key r = k ∧ ∀ r' ∈ l, key r' = k → version r' ≤ version r := by
  refine ⟨newest?_eq_some, fun ⟨hmem, hkey, hmax⟩ => ?_⟩
  cases hnewest : newest? key version k l with
  | none => exact absurd hkey (newest?_eq_none.mp hnewest r hmem)
  | some r' =>
    obtain ⟨hmem', hkey', hmax'⟩ := newest?_eq_some hnewest
    rw [hinj hmem' hmem (le_antisymm (hmax r' hmem' hkey') (hmax' r hmem hkey))]

/-- Dropping superseded records changes no newest record. -/
theorem Covers.newest?_eq (h : Covers key version all kept)
    (hinj : Set.InjOn version {r | r ∈ all}) (k : κ) :
    newest? key version k kept = newest? key version k all := by
  cases hnewest : newest? key version k kept with
  | none =>
    refine (newest?_eq_none.mpr fun r hr hkey => ?_).symm
    obtain ⟨r', hr', hkey', -⟩ := h.newer r hr
    exact newest?_eq_none.mp hnewest r' hr' (hkey'.trans hkey)
  | some r =>
    obtain ⟨hmem, hkey, hmax⟩ := newest?_eq_some hnewest
    refine ((newest?_eq_some_iff hinj).mpr ⟨h.subset hmem, hkey, fun r₁ hr₁ hkey₁ => ?_⟩).symm
    obtain ⟨r₂, hr₂, hkey₂, hle⟩ := h.newer r₁ hr₁
    exact hle.trans (hmax r₂ hr₂ (hkey₂.trans hkey₁))

/-- If every record of `l` is newer than every record of `l'`, then `l` is asked
first and `l'` only if it has nothing. -/
theorem newest?_append {l' : List ρ} (hinj : Set.InjOn version {r | r ∈ l ++ l'})
    (hnewer : ∀ r' ∈ l', ∀ r ∈ l, version r' < version r) (k : κ) :
    newest? key version k (l ++ l') =
      (newest? key version k l).or (newest? key version k l') := by
  cases hl : newest? key version k l with
  | none =>
    have hnone : (l ++ l').filter (fun r => key r = k) = l'.filter fun r => key r = k := by
      have hnil : l.filter (fun r => key r = k) = [] := List.argmax_eq_none.mp hl
      rw [List.filter_append, hnil, List.nil_append]
    rw [Option.none_or, newest?, hnone, newest?]
  | some r =>
    obtain ⟨hmem, hkey, hmax⟩ := newest?_eq_some hl
    rw [Option.some_or, newest?_eq_some_iff hinj]
    refine ⟨List.mem_append_left _ hmem, hkey, fun r' hr' hkey' => ?_⟩
    rcases List.mem_append.mp hr' with hr' | hr'
    · exact hmax r' hr' hkey'
    · exact (hnewer r' hr' r hmem).le

omit [DecidableEq κ] in
theorem injOn_of_pairwise (hl : l.Pairwise fun a b => version a < version b) :
    Set.InjOn version {r | r ∈ l} := by
  have hnodup : (l.map version).Nodup := (List.pairwise_map.mpr hl).imp Nat.ne_of_lt
  exact fun a ha b hb hab => List.inj_on_of_nodup_map hnodup ha hb hab

/-- In a list from old to new the newest record of a key is the last one. -/
theorem newest?_eq_find? (hl : l.Pairwise fun a b => version a < version b) (k : κ) :
    newest? key version k l = l.reverse.find? fun r => key r = k := by
  induction l using List.reverseRecOn with
  | nil => rfl
  | append_singleton l r ih =>
    obtain ⟨hpairwise, -, hlast⟩ := List.pairwise_append.mp hl
    rw [List.reverse_append, List.reverse_singleton, List.singleton_append, List.find?_cons]
    by_cases hkey : key r = k
    · rw [decide_eq_true hkey, newest?_eq_some_iff (injOn_of_pairwise hl)]
      refine ⟨List.mem_append_right _ List.mem_cons_self, hkey, fun a ha _ => ?_⟩
      rcases List.mem_append.mp ha with ha | ha
      · exact (hlast a ha r List.mem_cons_self).le
      · rw [List.mem_singleton.mp ha]
    · have hfilter : (l ++ [r]).filter (fun r => key r = k) = l.filter fun r => key r = k := by
        rw [List.filter_append, List.filter_singleton, decide_eq_false hkey]
        exact List.append_nil _
      rw [newest?, hfilter, decide_eq_false hkey]
      exact ih hpairwise

end Newest

end Versions
