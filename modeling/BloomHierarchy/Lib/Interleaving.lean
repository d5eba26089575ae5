import Mathlib

/-!
# Interleaved tasks over a shared state

A pool holds a shared state, the tasks that were submitted so far and those that
are still to be submitted, in order. A step submits the next task or lets any
submitted task take one step of its own, in which it may read and change the
shared state. A run is any sequence of steps.

`Run.origins`: in every run the tasks are those that were submitted first, in order,
each brought further by steps of its own.

Results, for tasks that only read the shared state:
1. `Run.invariant`: an invariant that every task keeps by itself holds of every
   task in every run, and the shared state is what it was.
2. `Run.bounded`: if every step of a task makes its measure smaller, the length
   of a run is bounded.
3. `final_or_step`: a run that cannot go on has submitted and finished
   everything.
-/

namespace Interleaving

variable {σ τ : Type*}

structure Pool (σ τ : Type*) where
  shared : σ
  pending : List τ
  tasks : List τ

/-- What the tasks can still do; a submission counts as one. -/
def Pool.work (m : τ → Nat) (p : Pool σ τ) : Nat :=
  (p.tasks.map m).sum + (p.pending.map fun t => m t + 1).sum

variable (step : σ → τ → Option (σ × τ))

inductive Step : Pool σ τ → Pool σ τ → Prop
  | submit {s : σ} {t : τ} {pending tasks : List τ} :
      Step ⟨s, t :: pending, tasks⟩ ⟨s, pending, tasks ++ [t]⟩
  | task {s s' : σ} {pending tasks : List τ} {k : Nat} {t t' : τ} :
      tasks[k]? = some t → step s t = some (s', t') →
      Step ⟨s, pending, tasks⟩ ⟨s', pending, tasks.set k t'⟩

/-- `Run p n q`: `n` steps lead from `p` to `q`. -/
inductive Run (p : Pool σ τ) : Nat → Pool σ τ → Prop
  | start : Run p 0 p
  | step {n : Nat} {q r : Pool σ τ} : Run p n q → Step step q r → Run p (n + 1) r

/-- Everything is submitted and every task has ended. -/
def Pool.Final (p : Pool σ τ) : Prop :=
  p.pending = [] ∧ ∀ t ∈ p.tasks, step p.shared t = none

/-- A pool that is not final can take a step. -/
theorem final_or_step (p : Pool σ τ) : p.Final step ∨ ∃ q, Step step p q := by
  obtain ⟨s, pending, tasks⟩ := p
  cases pending with
  | cons t pending => exact .inr ⟨_, .submit⟩
  | nil =>
    by_cases h : ∀ t ∈ tasks, step s t = none
    · exact .inl ⟨rfl, h⟩
    · obtain ⟨t, ht, hstep⟩ := not_forall₂.mp h
      obtain ⟨k, hk⟩ := List.getElem?_of_mem ht
      obtain ⟨⟨s', t'⟩, hs⟩ := Option.ne_none_iff_exists'.mp hstep
      exact .inr ⟨_, .task hk hs⟩

theorem sum_map_set_lt {m : τ → Nat} {tasks : List τ} {k : Nat} {t t' : τ}
    (hk : tasks[k]? = some t) (hm : m t' < m t) :
    ((tasks.set k t').map m).sum < (tasks.map m).sum := by
  induction tasks generalizing k with
  | nil => simp at hk
  | cons u tasks ih =>
    cases k with
    | zero =>
      obtain rfl : u = t := by simpa using hk
      simpa using hm
    | succ k =>
      have hrest := ih (by simpa using hk)
      simpa using hrest

theorem sum_map_set_add {m : τ → Nat} {tasks : List τ} {k : Nat} {t : τ}
    (hk : tasks[k]? = some t) (t' : τ) :
    ((tasks.set k t').map m).sum + m t = (tasks.map m).sum + m t' := by
  induction tasks generalizing k with
  | nil => simp at hk
  | cons u tasks ih =>
    cases k with
    | zero =>
      obtain rfl : u = t := by simpa using hk
      simp only [List.set_cons_zero, List.map_cons, List.sum_cons]
      omega
    | succ k =>
      have hrest := ih (by simpa using hk)
      simp only [List.set_cons_succ, List.map_cons, List.sum_cons]
      omega

/-- A task that no state lets go on stays as it is. -/
theorem Step.keeps_ended {step : σ → τ → Option (σ × τ)} {p q : Pool σ τ} (h : Step step p q)
    {k : Nat} {t : τ} (hk : p.tasks[k]? = some t) (hended : ∀ s, step s t = none) :
    q.tasks[k]? = some t := by
  cases h with
  | submit => exact List.getElem?_append_left (List.getElem?_eq_some_iff.mp hk).1 ▸ hk
  | @task s s' pending tasks j u u' hj hs =>
    rcases eq_or_ne j k with rfl | hne
    · have hu : tasks[j]? = some t := hk
      rw [hj] at hu
      cases hu
      rw [hended s] at hs
      cases hs
    · exact (List.getElem?_set_ne hne).trans hk

/-! ## Where the tasks come from -/

/-- `t'` comes from `t` by steps of the task, in whatever shared states it takes them. -/
def Reaches : τ → τ → Prop :=
  Relation.ReflTransGen fun t t' => ∃ s s', step s t = some (s', t')

variable {step}

theorem forall₂_reaches_set {begun tasks : List τ} (h : List.Forall₂ (Reaches step) begun tasks)
    {k : Nat} {t t' : τ} (hk : tasks[k]? = some t) (ht : ∃ s s', step s t = some (s', t')) :
    List.Forall₂ (Reaches step) begun (tasks.set k t') := by
  induction h generalizing k with
  | nil => cases hk
  | @cons u v begun tasks huv hrest ih =>
    cases k with
    | zero =>
      obtain rfl : v = t := Option.some.inj hk
      exact .cons (huv.tail ht) hrest
    | succ k => exact .cons huv (ih hk)

/-- A step submits the next task as it is, or brings one task further. -/
theorem Step.origins {submitted begun : List τ} {p q : Pool σ τ} (h : Step step p q)
    (hp : submitted = begun ++ p.pending) (htasks : List.Forall₂ (Reaches step) begun p.tasks) :
    ∃ begun, submitted = begun ++ q.pending ∧ List.Forall₂ (Reaches step) begun q.tasks := by
  cases h with
  | @submit s t pending tasks =>
    refine ⟨begun ++ [t], ?_, List.rel_append htasks (.cons .refl .nil)⟩
    rw [hp, List.append_assoc]
    rfl
  | @task s s' pending tasks k t t' hk hs =>
    exact ⟨begun, hp, forall₂_reaches_set htasks hk ⟨s, s', hs⟩⟩

theorem Run.origins {s : σ} {submitted : List τ} {n : Nat} {p : Pool σ τ}
    (h : Run step ⟨s, submitted, []⟩ n p) :
    ∃ begun, submitted = begun ++ p.pending ∧ List.Forall₂ (Reaches step) begun p.tasks := by
  induction h with
  | start => exact ⟨[], rfl, .nil⟩
  | step _ hstep ih =>
    obtain ⟨begun, hp, htasks⟩ := ih
    exact hstep.origins hp htasks

section ReadOnly
variable {s : σ}

/-- What a run keeps of its start: the shared state, and for every task the
invariant `I k` of its place `k` in the order of submission. -/
structure Kept (s : σ) (submitted : List τ) (I : Nat → τ → Prop) (p : Pool σ τ) : Prop where
  shared : p.shared = s
  pending : p.pending = submitted.drop p.tasks.length
  length : p.tasks.length ≤ submitted.length
  tasks : ∀ k t, p.tasks[k]? = some t → I k t

variable {submitted : List τ} {I : Nat → τ → Prop}
  (hread : ∀ k t s' t', I k t → step s t = some (s', t') → s' = s)
  (hinit : ∀ k t, submitted[k]? = some t → I k t)
  (hkeep : ∀ k t s' t', I k t → step s t = some (s', t') → I k t')
include hread hinit hkeep

theorem Step.kept {p q : Pool σ τ} (hp : Kept s submitted I p) (h : Step step p q) :
    Kept s submitted I q := by
  cases h with
  | @submit s' t pending tasks =>
    have hnext : submitted[tasks.length]? = some t := by
      rw [← List.head?_drop, ← hp.pending]
      rfl
    have hlt : tasks.length < submitted.length := (List.getElem?_eq_some_iff.mp hnext).1
    refine ⟨hp.shared, ?_, ?_, fun k u hu => ?_⟩
    · have hdrop := hp.pending
      rw [List.drop_eq_getElem_cons hlt] at hdrop
      show pending = _
      rw [List.length_append, List.length_singleton]
      exact (List.cons.inj hdrop).2
    · show (tasks ++ [t]).length ≤ _
      rw [List.length_append, List.length_singleton]
      exact hlt
    · rcases Nat.lt_or_ge k tasks.length with hk | hk
      · exact hp.tasks k u (by rwa [List.getElem?_append_left hk] at hu)
      · rw [List.getElem?_append_right hk, List.getElem?_singleton] at hu
        split at hu
        · cases hu
          obtain rfl : k = tasks.length := by omega
          exact hinit _ _ hnext
        · cases hu
  | @task s₀ s' pending tasks k t t' hk hs =>
    obtain rfl : s₀ = s := hp.shared
    have hI := hp.tasks k t hk
    refine ⟨hread k t s' t' hI hs, ?_, ?_, fun j u hu => ?_⟩
    · show pending = _
      rw [List.length_set]
      exact hp.pending
    · show (tasks.set k t').length ≤ _
      rw [List.length_set]
      exact hp.length
    · rcases eq_or_ne k j with rfl | hne
      · rw [List.getElem?_set_self (List.getElem?_eq_some_iff.mp hk).1] at hu
        cases hu
        exact hkeep k t s' t' hI hs
      · rw [List.getElem?_set_ne hne] at hu
        exact hp.tasks j u hu

theorem Run.invariant {n : Nat} {p : Pool σ τ} (h : Run step ⟨s, submitted, []⟩ n p) :
    Kept s submitted I p := by
  induction h with
  | start => exact ⟨rfl, rfl, Nat.zero_le _, fun k t hk => by simp at hk⟩
  | step _ hstep ih => exact hstep.kept hread hinit hkeep ih

variable {m : τ → Nat}

theorem Run.bounded (hless : ∀ k t s' t', I k t → step s t = some (s', t') → m t' < m t) {n : Nat}
    {p : Pool σ τ} (h : Run step ⟨s, submitted, []⟩ n p) :
    n + p.work m ≤ Pool.work m ⟨s, submitted, []⟩ := by
  induction h with
  | start => exact Nat.le_of_eq (Nat.zero_add _)
  | @step n q r hrun hstep ih =>
    have hq := Run.invariant hread hinit hkeep hrun
    suffices hdec : r.work m < q.work m by omega
    cases hstep with
    | submit =>
      simp only [Pool.work, List.map_append, List.map_cons, List.map_nil, List.sum_append,
        List.sum_cons, List.sum_nil]
      omega
    | @task s₀ s' pending tasks k t t' hk hs =>
      obtain rfl : s₀ = s := hq.shared
      exact Nat.add_lt_add_right
        (sum_map_set_lt hk (hless k t s' t' (hq.tasks k t hk) hs)) _

end ReadOnly

end Interleaving
