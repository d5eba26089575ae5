import BloomHierarchy.ThreadFailures
import BloomHierarchy.ThreadPoolRuns

/-!
# The threaded search in the thread pool

`CheckInHierarchyMultiplyValueForThreads` makes a pool of `t` threads with
`dbThreadPoolInit`. `CheckInHierarchyMultiplyValueForOneThread` submits `t` tasks to it
and waits for their futures, and the next `dbThreadPoolInit` destroys it. The results
on the threaded search are about tasks that take their steps in any order; here the
threads of the pool take them.

Results, for every order in which the threads of the pool and the caller run:
1. `pool_search`: when the caller has waited for all futures, every value was looked up
   once, as the sequential code does it, and the caller cannot be stuck.
2. `pool_search_returns`: whatever files are missing, the search returns and does not
   throw.
-/

namespace BloomHierarchy

open Interleaving ThreadPool

section Calls

/-- What the caller does with the pool: the calls of
`CheckInHierarchyMultiplyValueForOneThread`, then the destructor. -/
def searchCalls (N : Nat) (threadNmb : Int32) (valuesToFind : List Bytes) :
    List (Call (Task N)) :=
  (List.range threadNmb.toNatClampNeg).map
      (fun i => .submit (submittedTask N threadNmb valuesToFind i)) ++
    ((List.range threadNmb.toNatClampNeg).map Call.wait ++ [.destroy])

variable {N : Nat} {threadNmb : Int32} {values : List Bytes}

theorem submitted_searchCalls :
    submitted (searchCalls N threadNmb values) =
      (List.range threadNmb.toNatClampNeg).map (submittedTask N threadNmb values) := by
  have hsubmit : ∀ l : List Nat,
      (l.map fun i => Call.submit (submittedTask N threadNmb values i)).filterMap Call.task? =
        l.map (submittedTask N threadNmb values) := by
    intro l
    rw [List.filterMap_map, ← List.filterMap_eq_map]
    rfl
  have hwait : ∀ l : List Nat, (l.map Call.wait).filterMap (@Call.task? (Task N)) = [] := by
    intro l
    rw [List.filterMap_map]
    exact List.filterMap_eq_nil_iff.mpr fun _ _ => rfl
  rw [submitted, searchCalls, List.filterMap_append, List.filterMap_append, hsubmit, hwait]
  exact List.append_nil _

theorem plain_searchCalls : ∀ call ∈ searchCalls N threadNmb values, call.Plain := by
  intro call hcall
  rcases List.mem_append.mp hcall with h | h
  · obtain ⟨i, -, rfl⟩ := List.mem_map.mp h
    trivial
  · rcases List.mem_append.mp h with h | h
    · obtain ⟨i, -, rfl⟩ := List.mem_map.mp h
      trivial
    · obtain rfl := List.mem_singleton.mp h
      trivial

theorem waitsAfterSubmit_submit {τ : Type*} (tasks : List τ) (n : Nat) (calls : List (Call τ)) :
    WaitsAfterSubmit n (tasks.map Call.submit ++ calls) ↔
      WaitsAfterSubmit (n + tasks.length) calls := by
  induction tasks generalizing n with
  | nil => rfl
  | cons t tasks ih =>
    rw [List.map_cons, List.cons_append, WaitsAfterSubmit, ih, List.length_cons, Nat.add_right_comm,
      Nat.add_assoc]

theorem waitsAfterSubmit_wait {τ : Type*} {n : Nat} {ks : List Nat} (hks : ∀ k ∈ ks, k < n)
    {calls : List (Call τ)} (hcalls : WaitsAfterSubmit n calls) :
    WaitsAfterSubmit n (ks.map Call.wait ++ calls) := by
  induction ks with
  | nil => exact hcalls
  | cons k ks ih =>
    obtain ⟨hk, hks⟩ := List.forall_mem_cons.mp hks
    exact ⟨hk, ih hks⟩

theorem waitsAfterSubmit_searchCalls : WaitsAfterSubmit 0 (searchCalls N threadNmb values) := by
  have hsubmits : (List.range threadNmb.toNatClampNeg).map
      (fun i => Call.submit (submittedTask N threadNmb values i)) =
      ((List.range threadNmb.toNatClampNeg).map (submittedTask N threadNmb values)).map
        Call.submit := by
    rw [List.map_map]
    rfl
  rw [searchCalls, hsubmits, waitsAfterSubmit_submit, List.length_map, List.length_range,
    Nat.zero_add]
  exact waitsAfterSubmit_wait (fun k hk => List.mem_range.mp hk) trivial

/-- The destructor is the last call. -/
theorem calls_of_destroy_mem {begun rest : List (Call (Task N))}
    (h : searchCalls N threadNmb values = begun ++ rest) (hmem : .destroy ∈ begun) : rest = [] := by
  rcases List.eq_nil_or_concat' rest with hnil | ⟨init, last, hlast⟩
  · exact hnil
  · rw [searchCalls, hlast, ← List.append_assoc, ← List.append_assoc] at h
    have hbefore := List.append_inj_left' h rfl
    have hmem : Call.destroy ∈ begun ++ init := List.mem_append_left _ hmem
    rw [← hbefore] at hmem
    rcases List.mem_append.mp hmem with h | h
    · obtain ⟨i, -, hi⟩ := List.mem_map.mp h
      cases hi
    · obtain ⟨i, -, hi⟩ := List.mem_map.mp h
      cases hi

theorem wait_mem_searchCalls {k : Nat} (hk : k < threadNmb.toNatClampNeg) :
    .wait k ∈ searchCalls N threadNmb values :=
  List.mem_append_right _ (List.mem_append_left _
    (List.mem_map_of_mem (List.mem_range.mpr hk)))

theorem destroy_mem_searchCalls : .destroy ∈ searchCalls N threadNmb values :=
  List.mem_append_right _ (List.mem_append_right _ List.mem_cons_self)

end Calls

/-! ## The search -/

section Search
variable {hash : Bytes → UInt64} {N : Nat}

theorem step_of_ended {t : Task N} (h : t.phase.Ended) : ThreadPool.Ended (Task.step hash) t := by
  intro s
  unfold Task.step
  cases hphase : t.phase with
  | loop =>
    rw [hphase] at h
    exact h.elim
  | search value work blNames =>
    rw [hphase] at h
    exact h.elim
  | scan value bloomFiles rest retrieved =>
    rw [hphase] at h
    exact h.elim
  | returned => rfl
  | thrown message => rfl
  | fault => rfl

/-- A task of the search that has ended in one state of the pool has ended in all. -/
theorem step_stable (s : SharedState N) (t : Task N) (h : Task.step hash s t = none) :
    ThreadPool.Ended (Task.step hash) t :=
  step_of_ended (ended_of_step h)

variable {threadNmb : Int32} {values : List Bytes} {s : SharedState N} {hardwareConcurrency : Nat}
  {p : ThreadPool (SharedState N) (Task N)}

theorem count_searchCalls : (submitted (searchCalls N threadNmb values)).length < 2 ^ 64 := by
  have hlt := threadNmb.toNatClampNeg_lt
  rw [submitted_searchCalls, List.length_map, List.length_range]
  exact hlt.trans (by decide)

/-- When the caller has waited for all futures, the tasks have come to the end of a run. -/
theorem search_final
    (h : Reachable hardwareConcurrency (Task.step hash) threadNmb.toNatClampNeg s
      (searchCalls N threadNmb values) p)
    (hwaited : ∀ k, .wait k ∉ p.calls) : p.abstraction.Final (Task.step hash) := by
  obtain ⟨begun, hcalls, -, hready⟩ := h.history step_stable
  have hinv := h.inv step_stable
  have hpending := hinv.pending
  have hlength := hinv.length_le
  rw [submitted_searchCalls] at hpending
  rw [submitted_searchCalls, List.length_map, List.length_range] at hlength
  have hended : ∀ k < threadNmb.toNatClampNeg, ∃ t, p.futures[k]? = some t ∧
      ThreadPool.Ended (Task.step hash) t := by
    intro k hk
    have hmem := @wait_mem_searchCalls N threadNmb values k hk
    rw [hcalls] at hmem
    exact hready k ((List.mem_append.mp hmem).resolve_right (hwaited k))
  constructor
  · show p.pending = []
    rw [hpending]
    refine List.drop_eq_nil_of_le ?_
    rw [List.length_map, List.length_range]
    -- otherwise the first task that was not pushed would have ended
    by_contra hlt
    obtain ⟨t, ht, -⟩ := hended p.futures.length (Nat.lt_of_not_le hlt)
    rw [List.getElem?_eq_none (Nat.le_refl _)] at ht
    cases ht
  · intro t ht
    have ht : t ∈ p.futures := ht
    obtain ⟨k, hk⟩ := List.getElem?_of_mem ht
    obtain ⟨u, hu, hnone⟩ := hended k ((List.getElem?_eq_some_iff.mp hk).1.trans_le hlength)
    rw [hu] at hk
    cases hk
    exact hnone p.shared

/-- The run of the tasks, without the pool. -/
theorem search_run
    (h : Reachable hardwareConcurrency (Task.step hash) threadNmb.toNatClampNeg s
      (searchCalls N threadNmb values) p) :
    ∃ n, Run (Task.step hash) (threadedSearch s threadNmb values) n p.abstraction := by
  obtain ⟨n, hrun⟩ := h.refines
  rw [submitted_searchCalls] at hrun
  exact ⟨n, hrun⟩

theorem threadCountFor_of_one_le (hthreads : 1 ≤ threadNmb) :
    1 ≤ threadCountFor hardwareConcurrency threadNmb.toNatClampNeg := by
  obtain ⟨T, hT, rfl, hpos⟩ := exists_ofNat_of_one_le hthreads
  rw [Int32.toNatClampNeg_ofNat_of_lt hT, threadCountFor, if_neg (Nat.ne_of_gt hpos)]
  exact hpos

/-- The search cannot be stuck: from every state it can be brought to its end, with the
pool destroyed. -/
theorem search_can_finish (hthreads : 1 ≤ threadNmb)
    (h : Reachable hardwareConcurrency (Task.step hash) threadNmb.toNatClampNeg s
      (searchCalls N threadNmb values) p) :
    ∃ q, Relation.ReflTransGen (PoolStep hardwareConcurrency (Task.step hash)) p q ∧
      q.caller = .destroyed ∧ q.calls = [] := by
  have hinit : ∀ t ∈ submitted (searchCalls N threadNmb values), RoundInv t := by
    intro t ht
    rw [submitted_searchCalls] at ht
    obtain ⟨i, -, rfl⟩ := List.mem_map.mp ht
    exact submittedTask_round threadNmb values i
  have htask : ∀ (t : Task N) (s' : SharedState N) (t' : Task N), RoundInv t →
      Task.step hash s t = some (s', t') → s' = s ∧ RoundInv t' ∧
        t'.left s.treeHierarchy.rootOr < t.left s.treeHierarchy.rootOr := by
    intro t s' t' hround hs
    obtain ⟨hshared, hmoves⟩ := step_eq_some hs
    exact ⟨hshared, hmoves.round hround⟩
  obtain ⟨q, hpath, hfinished⟩ := exists_finish step_stable count_searchCalls plain_searchCalls
    waitsAfterSubmit_searchCalls (threadCountFor_of_one_le hthreads) hinit htask h
  obtain ⟨begun, hcalls, hdestroy, -⟩ :=
    Reachable.history step_stable (Relation.ReflTransGen.trans h hpath)
  refine ⟨q, hpath, ?_⟩
  rcases hfinished with hdestroyed | ⟨hcaller, hnil⟩
  · rw [hdestroyed] at hdestroy
    exact ⟨hdestroyed, calls_of_destroy_mem hcalls (hdestroy.mpr trivial)⟩
  · -- a program that ends with the destructor does not end between two calls
    rw [hnil, List.append_nil] at hcalls
    rw [hcaller, ← hcalls] at hdestroy
    exact (hdestroy.mp destroy_mem_searchCalls).elim

/-- The threaded search in a pool of `threadNmb` threads, for every order in which its
threads and the caller run, if the search for each value in the tree is defined and the
filter files it names can be read. The tree and the files stay as they are, and no task
fails. When the caller has waited for all futures, the lookups of the tasks, one after
the other, are those of the sequential code. From every state the search can be brought
to its end, with the pool destroyed. -/
theorem pool_search (hlen : values.length < 2 ^ 31) (hthreads : 1 ≤ threadNmb)
    (hread : ∀ v ∈ values, ∃ files, s.treeHierarchy.checkExistanceThread hash v = some files ∧
      ∀ file ∈ files, (s.dir.read? file).isSome = true)
    (h : Reachable hardwareConcurrency (Task.step hash) threadNmb.toNatClampNeg s
      (searchCalls N threadNmb values) p) :
    p.shared = s ∧ (∀ t ∈ p.futures, t.AsSequential hash s values) ∧
    ((∀ k, .wait k ∉ p.calls) →
      (p.futures.flatMap Task.lookups).map Except.ok =
        values.zipIdx.map fun e => sequentialLookup hash s.dir s.treeHierarchy e.2 e.1) ∧
    ∃ q, Relation.ReflTransGen (PoolStep hardwareConcurrency (Task.step hash)) p q ∧
      q.caller = .destroyed ∧ q.calls = [] := by
  have hfinish := search_can_finish hthreads h
  have hfinal := search_final h
  obtain ⟨n, hrun⟩ := search_run h
  obtain ⟨root, hroot, hfiles⟩ := exists_root hread
  obtain ⟨T, hT, rfl, hpos⟩ := exists_ofNat_of_one_le hthreads
  have hkept := run_kept hroot hlen hfiles hT hrun
  refine ⟨hkept.shared, fun t ht => ?_, fun hwaited => ?_, hfinish⟩
  · obtain ⟨k, hk⟩ := List.getElem?_of_mem ht
    obtain ⟨hlt, hinv⟩ := hkept.tasks k t hk
    exact hinv.asSequential (fun k hk => sequentialLookup_valueAt hroot hfiles hk)
      (chunkStop_le hlt)
  · exact lookups_sequential hroot hlen hfiles hT hpos hrun (hfinal hwaited)

/-- The steps of a pool of two threads that take turns, until the caller has waited for
both tasks. -/
def takingTurns : List (Option Nat) :=
  List.replicate 7 none ++ (List.replicate 18 [some 0, some 1]).flatten ++ [none, none]

/-- Two threads for three values. -/
theorem pool_search_oneFilter :
    ∃ p : ThreadPool (SharedState 8) (Task 8),
      Reachable 0 (Task.step polyHash) 2 oneFilter
        (searchCalls 8 2 [ascii ['x'], ascii ['y'], ascii ['x']]) p ∧
      p.calls = [.destroy] ∧ p.futures.length = 2 ∧
      (p.futures.flatMap Task.lookups).map Except.ok =
        [ascii ['x'], ascii ['y'], ascii ['x']].zipIdx.map fun e =>
          sequentialLookup polyHash oneFilter.dir oneFilter.treeHierarchy e.2 e.1 := by
  have hcalls : (runSchedule 0 (Task.step polyHash) takingTurns
      (construct 0 2 oneFilter (searchCalls 8 2 [ascii ['x'], ascii ['y'], ascii ['x']]))).map
        (fun p => (p.calls, p.futures.length)) = some ([.destroy], 2) := rfl
  obtain ⟨p, hrun, hp⟩ := Option.map_eq_some_iff.mp hcalls
  obtain ⟨hp, hfutures⟩ := Prod.mk.inj hp
  have hreach := reachable_of_runSchedule hrun
  have h := @pool_search polyHash 8 2 _ oneFilter 0 p (by decide) (by decide) readable_oneFilter
    hreach
  refine ⟨p, hreach, hp, hfutures, h.2.2.1 fun k hk => ?_⟩
  rw [hp] at hk
  cases List.mem_singleton.mp hk

/-- Whatever files are missing, when the caller has waited for all futures it goes on as
after a complete search, and it can always come to that point. -/
theorem pool_search_returns (hlen : values.length < 2 ^ 31) (hthreads : 1 ≤ threadNmb)
    (hroot : values ≠ [] → s.treeHierarchy.root ≠ none)
    (h : Reachable hardwareConcurrency (Task.step hash) threadNmb.toNatClampNeg s
      (searchCalls N threadNmb values) p) :
    ((∀ k, .wait k ∉ p.calls) → finishSearch threadNmb p.futures = .ok threadNmb) ∧
    ∃ q, Relation.ReflTransGen (PoolStep hardwareConcurrency (Task.step hash)) p q ∧
      q.calls = [] ∧ finishSearch threadNmb q.futures = .ok threadNmb := by
  have hreturns : ∀ {p : ThreadPool (SharedState N) (Task N)},
      Reachable hardwareConcurrency (Task.step hash) threadNmb.toNatClampNeg s
        (searchCalls N threadNmb values) p →
      (∀ k, .wait k ∉ p.calls) → finishSearch threadNmb p.futures = .ok threadNmb := by
    intro p h hwaited
    obtain ⟨n, hrun⟩ := search_run h
    exact finishSearch_eq_ok hlen hthreads hroot hrun (search_final h hwaited)
  obtain ⟨q, hpath, -, hcalls⟩ := search_can_finish hthreads h
  refine ⟨hreturns h, q, hpath, hcalls, hreturns (Relation.ReflTransGen.trans h hpath) ?_⟩
  intro k
  rw [hcalls]
  exact List.not_mem_nil

/-- Two threads for three values, when no filter file can be opened. -/
theorem pool_search_returns_lockedFilter :
    ∃ p q : ThreadPool (SharedState 8) (Task 8),
      Reachable 0 (Task.step polyHash) 2 lockedFilter
        (searchCalls 8 2 [ascii ['x'], ascii ['y'], ascii ['x']]) p ∧
      p.calls = [.destroy] ∧ p.futures.flatMap Task.lookups = [] ∧
      finishSearch 2 p.futures = .ok 2 ∧
      Relation.ReflTransGen (PoolStep 0 (Task.step polyHash)) p q ∧
      q.calls = [] ∧ finishSearch 2 q.futures = .ok 2 := by
  have hcalls : (runSchedule 0 (Task.step polyHash) takingTurns
      (construct 0 2 lockedFilter (searchCalls 8 2 [ascii ['x'], ascii ['y'], ascii ['x']]))).map
        (fun p => (p.calls, p.futures.flatMap Task.lookups)) = some ([.destroy], []) := rfl
  obtain ⟨p, hrun, hp⟩ := Option.map_eq_some_iff.mp hcalls
  obtain ⟨hp, hlookups⟩ := Prod.mk.inj hp
  have hreach := reachable_of_runSchedule hrun
  obtain ⟨hreturns, q, hpath, hq⟩ := @pool_search_returns polyHash 8 2 _ lockedFilter 0 p
    (by decide) (by decide) (fun _ => Option.some_ne_none _) hreach
  refine ⟨p, q, hreach, hp, hlookups, hreturns fun k hk => ?_, hpath, hq⟩
  rw [hp] at hk
  cases List.mem_singleton.mp hk

end Search

end BloomHierarchy
