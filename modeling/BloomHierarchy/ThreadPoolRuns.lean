import BloomHierarchy.ThreadPool

/-!
# What a thread pool guarantees to its caller

The tasks end by themselves and do not wait for one another: once a task has ended, it
has ended whatever the others do.

Results:
1. `Reachable.history`, `Reachable.submits`: what the calls that have begun have brought
   about.
2. `pool_accounts`: in every state every task that was submitted is in the queue, in one
   thread, or has ended, tasks are started in the order of submission, and `tasks_total` is
   their number.
3. `waitForTasks_ended`, `destroyed_tasks`: what has happened when `wait_for_tasks` and
   the destructor return.
4. `exists_finish`: a program that only submits, waits and destroys can be brought to its
   end from every state.
-/

namespace BloomHierarchy

open Interleaving

namespace ThreadPool

variable {σ τ : Type*} {step : σ → τ → Option (σ × τ)} {all : List τ} {p q : ThreadPool σ τ}
  {hardwareConcurrency threadCount : Nat} {s : σ} {calls : List (Call τ)}

/-! ## Where the tasks are -/

theorem Inv.held_le (h : Inv step all p) : p.held.length ≤ p.started := by
  have hsub := List.subperm_of_subset h.nodup fun k hk => List.mem_range.mpr (h.held_lt k hk)
  exact hsub.length_le.trans_eq List.length_range

theorem Inv.unfinished_le (h : Inv step all p) : p.unfinished ≤ all.length := by
  have hheld := h.held_le
  have hlength := h.length_le
  have hle := h.le
  have hpending := congrArg List.length h.pending
  rw [ThreadPool.pending, List.length_append, List.length_drop] at hpending
  unfold started at hheld
  unfold unfinished
  omega

theorem Inv.total_toNat (h : Inv step all p) (hcount : all.length < 2 ^ 64) :
    p.tasksTotal.toNat = p.unfinished := by
  rw [h.total, UInt64.toNat_ofNat_of_lt' (h.unfinished_le.trans_lt hcount)]

/-- The tasks in the queue are those that were not started. -/
theorem Inv.mem_tasks (h : Inv step all p) {k : Nat} :
    k ∈ p.tasks ↔ p.started ≤ k ∧ k < p.futures.length := by
  have hle := h.le
  rw [h.queue, List.mem_range'_1, started]
  omega

/-! ## The calls that have returned -/

section History

/-- The caller is in the destructor or past it. -/
def Caller.Destroying : Caller τ → Prop
  | .createThreads _ => False
  | .ready => False
  | .pushTask _ => False
  | .waitForTasks after => after = some .destroy
  | .tasksQueued after _ => after = some .destroy
  | .tasksTotal after _ => after = some .destroy
  | .stopRunning teardown => teardown = .destroy
  | .destroyThreads teardown _ => teardown = .destroy
  | .destroyed => True

theorem destroying_afterWait (after : Option Teardown) :
    (afterWait after : Caller τ).Destroying ↔ after = some .destroy := by
  cases after with
  | none => exact ⟨fun h => h.elim, fun h => by cases h⟩
  | some teardown => exact Option.some.injEq teardown .destroy ▸ Iff.rfl

/-- A step of the caller goes on with a call, or begins one. A `wait` is over when it
begins. -/
theorem CallerMoves.history (h : CallerMoves hardwareConcurrency step p q) :
    (q.calls = p.calls ∧ (q.caller.Destroying ↔ p.caller.Destroying)) ∨
      ∃ call, p.calls = call :: q.calls ∧ ¬ p.caller.Destroying ∧
        (q.caller.Destroying ↔ call = .destroy) ∧
        ∀ k, call = .wait k → ∃ t, q.futures[k]? = some t ∧ step q.shared t = none := by
  cases h with
  | created hcaller => exact .inl ⟨rfl, by rw [hcaller]; rfl⟩
  | create hcaller => exact .inl ⟨rfl, by rw [hcaller]; rfl⟩
  | @submit task calls hcaller hcalls =>
    exact .inr ⟨.submit task, hcalls, by rw [hcaller]; exact id, iff_of_false id (by simp), by simp⟩
  | push hcaller => exact .inl ⟨rfl, by rw [hcaller]; rfl⟩
  | @wait k t calls hcaller hcalls ht hs =>
    refine .inr ⟨.wait k, hcalls, by rw [hcaller]; exact id, ?_, fun l hl => ?_⟩
    · rw [hcaller]
      exact iff_of_false id (by simp)
    · cases hl
      exact ⟨t, ht, hs⟩
  | @waitForTasks calls hcaller hcalls =>
    exact .inr ⟨.waitForTasks, hcalls, by rw [hcaller]; exact id,
      iff_of_false (by simp [Caller.Destroying]) (by simp), by simp⟩
  | @setPaused paused calls hcaller hcalls =>
    refine .inr ⟨.setPaused paused, hcalls, by rw [hcaller]; exact id, ?_, by simp⟩
    rw [hcaller]
    exact iff_of_false id (by simp)
  | @reset threadCount calls hcaller hcalls =>
    exact .inr ⟨.reset threadCount, hcalls, by rw [hcaller]; exact id,
      iff_of_false (by simp [Caller.Destroying]) (by simp), by simp⟩
  | @destroy calls hcaller hcalls =>
    exact .inr ⟨.destroy, hcalls, by rw [hcaller]; exact id, iff_of_true rfl rfl, by simp⟩
  | waited hcaller _ _ => exact .inl ⟨rfl, by rw [hcaller]; exact destroying_afterWait _⟩
  | getTasksRunning hcaller _ hnext =>
    rcases hnext with rfl | rfl
    · exact .inl ⟨rfl, by rw [hcaller]; rfl⟩
    · exact .inl ⟨rfl, by rw [hcaller]; rfl⟩
  | @gotTasksRunning after n caller hcaller hnext =>
    have hbefore : p.caller.Destroying ↔ after = some .destroy := by
      rcases hcaller with hcaller | hcaller
      · rw [hcaller]; rfl
      · rw [hcaller]; rfl
    rcases hnext with rfl | rfl
    · exact .inl ⟨rfl, (destroying_afterWait after).trans hbefore.symm⟩
    · exact .inl ⟨rfl, hbefore.symm⟩
  | stop hcaller => exact .inl ⟨rfl, by rw [hcaller]; rfl⟩
  | join hcaller _ => exact .inl ⟨rfl, by rw [hcaller]; rfl⟩
  | restart hcaller _ =>
    exact .inl ⟨rfl, by rw [hcaller]; exact iff_of_false id (by simp [Caller.Destroying])⟩
  | finish hcaller _ => exact .inl ⟨rfl, by rw [hcaller]; exact iff_of_true trivial rfl⟩

/-- What a step of a thread does not change. -/
theorem WorkerMoves.frame {w w' : Worker} (hm : WorkerMoves step p w q w') :
    q.paused = p.paused ∧ q.running = p.running ∧ q.caller = p.caller ∧ q.calls = p.calls ∧
      q.threads = p.threads ∧ q.futures.length = p.futures.length := by
  cases hm with
  | task _ _ => exact ⟨rfl, rfl, rfl, rfl, rfl, List.length_set⟩
  | enter _ => exact ⟨rfl, rfl, rfl, rfl, rfl, rfl⟩
  | leave _ => exact ⟨rfl, rfl, rfl, rfl, rfl, rfl⟩
  | paused _ => exact ⟨rfl, rfl, rfl, rfl, rfl, rfl⟩
  | proceed _ => exact ⟨rfl, rfl, rfl, rfl, rfl, rfl⟩
  | empty _ => exact ⟨rfl, rfl, rfl, rfl, rfl, rfl⟩
  | pop _ => exact ⟨rfl, rfl, rfl, rfl, rfl, rfl⟩
  | taskReturns _ _ => exact ⟨rfl, rfl, rfl, rfl, rfl, rfl⟩
  | decrement => exact ⟨rfl, rfl, rfl, rfl, rfl, rfl⟩

/-- The future of a task that has ended stays ready. -/
theorem PoolStep.keeps_ended (h : PoolStep hardwareConcurrency step p q) {k : Nat} {t : τ}
    (ht : p.futures[k]? = some t) (hended : Ended step t) : q.futures[k]? = some t := by
  rcases h.refines with heq | hmove
  · have hfutures : q.futures = p.futures := congrArg Pool.tasks heq
    rw [hfutures]
    exact ht
  · exact hmove.keeps_ended ht hended

/-- The calls that have begun: what they waited for has ended, and the destructor is among
them exactly if the caller is in it. -/
theorem Reachable.history (hstable : ∀ s t, step s t = none → Ended step t)
    (h : Reachable hardwareConcurrency step threadCount s calls p) :
    ∃ begun, calls = begun ++ p.calls ∧ (.destroy ∈ begun ↔ p.caller.Destroying) ∧
      ∀ k, .wait k ∈ begun → ∃ t, p.futures[k]? = some t ∧ Ended step t := by
  induction h with
  | refl => exact ⟨[], rfl, iff_of_false List.not_mem_nil id, fun k hk => by cases hk⟩
  | @tail p q _ hstep ih =>
    obtain ⟨begun, hcalls, hdestroy, hwaits⟩ := ih
    have hwaits : ∀ k, .wait k ∈ begun → ∃ t, q.futures[k]? = some t ∧ Ended step t := by
      intro k hk
      obtain ⟨t, ht, hended⟩ := hwaits k hk
      exact ⟨t, hstep.keeps_ended ht hended, hended⟩
    cases hstep with
    | worker hi hw =>
      obtain ⟨-, -, hcaller, hsame, -, -⟩ := (workerStep_eq_some hw).frame
      exact ⟨begun, hsame ▸ hcalls, hcaller ▸ hdestroy, hwaits⟩
    | caller totalFirst hc =>
      rcases (callerStep_eq_some hc).history with
        ⟨hsame, hiff⟩ | ⟨call, hbegin, hnot, hiff, hready⟩
      · exact ⟨begun, hsame ▸ hcalls, hdestroy.trans hiff.symm, hwaits⟩
      · refine ⟨begun ++ [call], ?_, ?_, fun k hk => ?_⟩
        · rw [hcalls, hbegin, List.append_assoc]
          rfl
        · rw [List.mem_append, List.mem_singleton, hiff, or_iff_right (mt hdestroy.mp hnot)]
          exact eq_comm
        · rcases List.mem_append.mp hk with hk | hk
          · exact hwaits k hk
          · obtain ⟨t, ht, hs⟩ := hready k (List.mem_singleton.mp hk).symm
            exact ⟨t, ht, hstable _ _ hs⟩

theorem submitted_append (calls calls' : List (Call τ)) :
    submitted (calls ++ calls') = submitted calls ++ submitted calls' :=
  List.filterMap_append

/-- The submits that have begun: their tasks, brought further, are those that have a
future, and the one that is about to be pushed. -/
theorem Reachable.submits (hstable : ∀ s t, step s t = none → Ended step t)
    (h : Reachable hardwareConcurrency step threadCount s calls p) :
    ∃ begun, calls = begun ++ p.calls ∧
      List.Forall₂ (Reaches step) (submitted begun) (p.futures ++ p.caller.pushing) := by
  obtain ⟨begun, hcalls, -, -⟩ := h.history hstable
  obtain ⟨n, hrun⟩ := h.refines
  obtain ⟨pushed, hpushed, hfutures⟩ := hrun.origins
  refine ⟨begun, hcalls, ?_⟩
  have hall : submitted begun ++ submitted p.calls =
      (pushed ++ p.caller.pushing) ++ submitted p.calls := by
    rw [← submitted_append, ← hcalls, hpushed, List.append_assoc]
    rfl
  rw [List.append_cancel_right hall]
  exact List.rel_append hfutures (List.forall₂_same.mpr fun _ _ => .refl)

/-- The destructor is the last call that begins. -/
theorem Reachable.destroying (hstable : ∀ s t, step s t = none → Ended step t)
    (h : Reachable hardwareConcurrency step threadCount s calls p)
    (hdestroying : p.caller.Destroying) : ∃ before, calls = before ++ .destroy :: p.calls := by
  induction h with
  | refl => exact hdestroying.elim
  | @tail p q hreach hstep ih =>
    cases hstep with
    | worker hi hw =>
      obtain ⟨-, -, hcaller, hsame, -, -⟩ := (workerStep_eq_some hw).frame
      rw [hcaller] at hdestroying
      rw [hsame]
      exact ih hdestroying
    | caller totalFirst hc =>
      rcases (callerStep_eq_some hc).history with ⟨hsame, hiff⟩ | ⟨call, hbegin, -, hiff, -⟩
      · rw [hsame]
        exact ih (hiff.mp hdestroying)
      · obtain ⟨begun, hcalls, -, -⟩ := Reachable.history hstable hreach
        rw [hbegin, hiff.mp hdestroying] at hcalls
        exact ⟨begun, hcalls⟩

end History

/-! ## Every task is accounted for -/

/-- Every `submit` that has begun has its task in the pool, as it was submitted or brought
further. Every task is in the queue, in one thread, or has ended. The queue keeps the order
of submission, and a task in it is as it was submitted. `tasks_total` counts the tasks that
are not finished, and no more of them have been started than there are threads. -/
theorem pool_accounts (hstable : ∀ s t, step s t = none → Ended step t)
    (hcount : (submitted calls).length < 2 ^ 64)
    (h : Reachable hardwareConcurrency step threadCount s calls p) :
    (∃ begun, calls = begun ++ p.calls ∧
      List.Forall₂ (Reaches step) (submitted begun) (p.futures ++ p.caller.pushing)) ∧
    (p.held ++ p.tasks).Pairwise (· ≠ ·) ∧
    (∀ k t, p.futures[k]? = some t →
      k ∈ p.held ∨ (k ∈ p.tasks ∧ (submitted calls)[k]? = some t) ∨ Ended step t) ∧
    p.tasks.Pairwise (· < ·) ∧ (∀ k ∈ p.held, ∀ l ∈ p.tasks, k < l) ∧
    p.tasksTotal.toNat = p.caller.pushing.length + p.tasks.length + p.held.length ∧
    p.held.length ≤ p.threads.length := by
  have hinv := h.inv hstable
  have horder : ∀ k ∈ p.held, ∀ l ∈ p.tasks, k < l := fun k hk l hl =>
    (hinv.held_lt k hk).trans_le (hinv.mem_tasks.mp hl).1
  have hqueue : p.tasks.Pairwise (· < ·) := by
    rw [hinv.queue]
    exact List.pairwise_lt_range'
  refine ⟨h.submits hstable, ?_, fun k t ht => ?_, hqueue, horder, hinv.total_toNat hcount,
    List.length_filterMap_le _ _⟩
  · exact List.pairwise_append.mpr ⟨hinv.nodup, hqueue.imp Nat.ne_of_lt,
      fun k hk l hl => Nat.ne_of_lt (horder k hk l hl)⟩
  · rcases Nat.lt_or_ge k p.started with hlt | hge
    · by_cases hmem : k ∈ p.held
      · exact .inl hmem
      · exact .inr (.inr (hinv.ended k t hlt ht hmem))
    · have hlen := (List.getElem?_eq_some_iff.mp ht).1
      exact .inr (.inl ⟨hinv.mem_tasks.mpr ⟨hge, hlen⟩, hinv.untouched k t hge ht⟩)

/-- A task that counts down to zero. -/
def countdown (s : Unit) : Nat → Option (Unit × Nat)
  | 0 => none
  | t + 1 => some (s, t)

theorem countdown_stable (s : Unit) (t : Nat) (h : countdown s t = none) : Ended countdown t := by
  cases t with
  | zero => exact fun _ => rfl
  | succ t => cases h

/-- Three tasks in a pool of two threads: the first has made a step, the second has been
started, the third is in the queue. -/
theorem pool_accounts_countdown :
    ∃ p : ThreadPool Unit Nat,
      Reachable 0 countdown 2 () [.submit 2, .submit 1, .submit 3, .waitForTasks] p ∧
      p.futures = [1, 1, 3] ∧ p.held = [0, 1] ∧ p.tasks = [2] ∧ p.tasksTotal.toNat = 3 ∧
      (∃ begun, [.submit 2, .submit 1, .submit 3, .waitForTasks] = begun ++ p.calls ∧
        List.Forall₂ (Reaches countdown) (submitted begun) (p.futures ++ p.caller.pushing)) ∧
      ∀ k t, p.futures[k]? = some t →
        k ∈ p.held ∨ (k ∈ p.tasks ∧ [2, 1, 3][k]? = some t) ∨ Ended countdown t := by
  have hrun : runSchedule 0 countdown
      (List.replicate 9 none ++ List.replicate 4 (some 0) ++ List.replicate 3 (some 1))
      (construct 0 2 () [.submit 2, .submit 1, .submit 3, .waitForTasks]) = some
        { shared := (), futures := [1, 1, 3], tasks := [2], tasksTotal := 3,
          threads := [.execute 0, .execute 1], caller := .ready, calls := [.waitForTasks] } := rfl
  have hreach := reachable_of_runSchedule hrun
  have h := pool_accounts countdown_stable (by decide) hreach
  exact ⟨_, hreach, rfl, rfl, rfl, h.2.2.2.2.2.1, h.1, h.2.2.1⟩

/-! ## Waiting for all tasks -/

/-- No task is in the queue or in a thread. -/
def Idle (p : ThreadPool σ τ) : Prop :=
  p.tasks = [] ∧ p.held = []

theorem Inv.ended_of_idle (h : Inv step all p) (hidle : p.Idle) : ∀ t ∈ p.futures, Ended step t := by
  intro t ht
  obtain ⟨k, hk⟩ := List.getElem?_of_mem ht
  have hstarted : p.started = p.futures.length := by
    rw [started, hidle.1]
    rfl
  refine h.ended k t (hstarted ▸ (List.getElem?_eq_some_iff.mp hk).1) hk ?_
  rw [hidle.2]
  exact List.not_mem_nil

theorem Inv.idle_of_total (h : Inv step all p) (hcount : all.length < 2 ^ 64)
    (hzero : p.tasksTotal = 0) : p.Idle := by
  have htotal := h.total_toNat hcount
  rw [hzero] at htotal
  change 0 = p.caller.pushing.length + p.tasks.length + p.held.length at htotal
  exact ⟨List.length_eq_zero_iff.mp (by omega), List.length_eq_zero_iff.mp (by omega)⟩

/-- When `wait_for_tasks` of a pool that is not paused returns, every task that was
submitted so far has been run to its end. -/
theorem waitForTasks_ended (hstable : ∀ s t, step s t = none → Ended step t)
    (hcount : (submitted calls).length < 2 ^ 64)
    (h : Reachable hardwareConcurrency step threadCount s calls p) {after : Option Teardown}
    (hcaller : p.caller = .waitForTasks after) (hpaused : p.paused = false) {totalFirst : Bool}
    (hstep : callerStep hardwareConcurrency step totalFirst p = some q) :
    q.caller = afterWait after ∧ q.Idle ∧ q.futures = p.futures ∧
      (∃ begun, calls = begun ++ q.calls ∧
        List.Forall₂ (Reaches step) (submitted begun) q.futures) ∧
      ∀ t ∈ q.futures, Ended step t := by
  have hinv := h.inv hstable
  obtain ⟨begun, hcalls, hfutures⟩ := h.submits hstable
  rw [hcaller] at hfutures
  rw [Caller.pushing, List.append_nil] at hfutures
  rw [callerStep, hcaller] at hstep
  dsimp only at hstep
  rw [hpaused, Bool.not_false, if_pos rfl] at hstep
  split at hstep
  · next hzero =>
    cases hstep
    have hidle := hinv.idle_of_total hcount hzero
    exact ⟨rfl, hidle, rfl, ⟨begun, hcalls, hfutures⟩, hinv.ended_of_idle hidle⟩
  · cases hstep

/-- Two threads have run two tasks to their end, and a third task is still to be
submitted. -/
theorem waitForTasks_ended_countdown :
    ∃ p q : ThreadPool Unit Nat,
      Reachable 0 countdown 2 () [.submit 2, .submit 1, .waitForTasks, .submit 3, .destroy] p ∧
      callerStep 0 countdown true p = some q ∧ q.caller = .ready ∧ q.futures = [0, 0] ∧
      (∃ begun, [.submit 2, .submit 1, .waitForTasks, .submit 3, .destroy] = begun ++ q.calls ∧
        List.Forall₂ (Reaches countdown) (submitted begun) q.futures) ∧
      ∀ t ∈ q.futures, Ended countdown t := by
  have hrun : runSchedule 0 countdown
      (List.replicate 7 none ++ List.replicate 4 (some 0) ++ List.replicate 6 (some 1) ++
        List.replicate 3 (some 0) ++ [none])
      (construct 0 2 () [.submit 2, .submit 1, .waitForTasks, .submit 3, .destroy]) = some
        { shared := (), futures := [0, 0], tasksTotal := 0, threads := [.test, .test],
          caller := .waitForTasks none, calls := [.submit 3, .destroy] } := rfl
  have hreach := reachable_of_runSchedule hrun
  have hstep : callerStep 0 countdown true
      { shared := (), futures := [0, 0], tasksTotal := 0, threads := [.test, .test],
        caller := .waitForTasks none, calls := [.submit 3, .destroy] } = some
      { shared := (), futures := [0, 0], tasksTotal := 0, threads := [.test, .test],
        caller := .ready, calls := [.submit 3, .destroy] } := rfl
  have h := waitForTasks_ended countdown_stable (by decide) hreach rfl rfl hstep
  exact ⟨_, _, hreach, hstep, h.1, rfl, h.2.2.2.1, h.2.2.2.2⟩

/-! ## Programs that submit, wait and destroy -/

section Plain

/-- A call that neither pauses the pool nor changes its threads. -/
def Call.Plain : Call τ → Prop
  | .submit _ => True
  | .wait _ => True
  | .waitForTasks => True
  | .setPaused _ => False
  | .reset _ => False
  | .destroy => True

/-- A program that waits for tasks only after it has submitted them, `n` tasks being
submitted before. -/
def WaitsAfterSubmit : Nat → List (Call τ) → Prop
  | _, [] => True
  | n, .submit _ :: calls => WaitsAfterSubmit (n + 1) calls
  | n, .wait k :: calls => k < n ∧ WaitsAfterSubmit n calls
  | n, .waitForTasks :: calls => WaitsAfterSubmit n calls
  | n, .setPaused _ :: calls => WaitsAfterSubmit n calls
  | n, .reset _ :: calls => WaitsAfterSubmit n calls
  | n, .destroy :: calls => WaitsAfterSubmit n calls

/-- The threads and the flag `running` at each point of the caller, for `T` threads. -/
def CallerInv (T : Nat) (p : ThreadPool σ τ) : Prop :=
  match p.caller with
  | .createThreads left => p.running = true ∧ p.threads.length + left = T
  | .ready => p.running = true ∧ p.threads.length = T
  | .pushTask _ => p.running = true ∧ p.threads.length = T
  | .waitForTasks none => p.running = true ∧ p.threads.length = T
  | .waitForTasks (some .destroy) => p.running = true ∧ p.threads.length = T
  | .waitForTasks (some (.reset _ _)) => False
  | .tasksQueued _ _ => False
  | .tasksTotal _ _ => False
  | .stopRunning .destroy => p.running = true ∧ p.threads.length = T ∧ p.Idle
  | .stopRunning (.reset _ _) => False
  | .destroyThreads .destroy _ => p.running = false ∧ p.threads.length = T ∧ p.Idle
  | .destroyThreads (.reset _ _) _ => False
  | .destroyed => p.Idle

/-- What holds while such a program runs. -/
structure Live (T : Nat) (p : ThreadPool σ τ) : Prop where
  paused : p.paused = false
  plain : ∀ call ∈ p.calls, call.Plain
  waits : WaitsAfterSubmit (p.futures.length + p.caller.pushing.length) p.calls
  caller : CallerInv T p
  alive : p.running = true → .exited ∉ p.threads

theorem WorkerMoves.idle {i : Nat} {w w' : Worker} (hm : WorkerMoves step p w q w')
    (hi : p.threads[i]? = some w) (hidle : p.Idle) :
    Idle { q with threads := q.threads.set i w' } := by
  obtain ⟨htasks, hheld⟩ := hidle
  obtain ⟨rest, hbefore, hafter⟩ := exists_rest hi w'
  have hnone : ∀ w ∈ p.threads, w.task? = none := List.filterMap_eq_nil_iff.mp hheld
  have hw : w.task? = none := hnone w (List.mem_of_getElem? hi)
  have hset : w'.task? = none → (p.threads.set i w').filterMap Worker.task? = [] := by
    intro hw'
    refine List.filterMap_eq_nil_iff.mpr fun v hv => ?_
    rcases List.mem_cons.mp (hafter.subset hv) with rfl | hmem
    · exact hw'
    · exact hnone v (hbefore.symm.subset (List.mem_cons_of_mem _ hmem))
  cases hm with
  | enter _ => exact ⟨htasks, hset rfl⟩
  | leave _ => exact ⟨htasks, hset rfl⟩
  | paused _ => exact ⟨htasks, hset rfl⟩
  | proceed _ => exact ⟨htasks, hset rfl⟩
  | empty _ => exact ⟨htasks, hset rfl⟩
  | pop hpop =>
    rw [htasks] at hpop
    cases hpop
  | task _ _ => cases hw
  | taskReturns _ _ => cases hw
  | decrement => cases hw

/-- Steps that keep the caller, `running` and the number of threads, and leave an idle
pool idle. -/
theorem CallerInv.congr {T : Nat} (h : CallerInv T p) (hcaller : q.caller = p.caller)
    (hrunning : q.running = p.running) (hthreads : q.threads.length = p.threads.length)
    (hidle : p.Idle → q.Idle) : CallerInv T q := by
  unfold CallerInv at h ⊢
  rw [hcaller, hrunning, hthreads]
  cases hc : p.caller with
  | createThreads left =>
    rw [hc] at h
    exact h
  | ready =>
    rw [hc] at h
    exact h
  | pushTask task =>
    rw [hc] at h
    exact h
  | waitForTasks after =>
    rw [hc] at h
    cases after with
    | none => exact h
    | some teardown =>
      cases teardown with
      | reset threadCount wasPaused => exact h
      | destroy => exact h
  | tasksQueued after total =>
    rw [hc] at h
    exact h
  | tasksTotal after queued =>
    rw [hc] at h
    exact h
  | stopRunning teardown =>
    rw [hc] at h
    cases teardown with
    | reset threadCount wasPaused => exact h
    | destroy => exact ⟨h.1, h.2.1, hidle h.2.2⟩
  | destroyThreads teardown i =>
    rw [hc] at h
    cases teardown with
    | reset threadCount wasPaused => exact h
    | destroy => exact ⟨h.1, h.2.1, hidle h.2.2⟩
  | destroyed =>
    rw [hc] at h
    exact hidle h

variable {T : Nat}

theorem WorkerMoves.live {i : Nat} {w w' : Worker} (h : Live T p)
    (hi : p.threads[i]? = some w) (hm : WorkerMoves step p w q w') :
    Live T { q with threads := q.threads.set i w' } := by
  obtain ⟨hpaused, hrunning, hcaller, hcalls, hthreads, hlength⟩ := hm.frame
  refine ⟨hpaused.trans h.paused, ?_, ?_, ?_, ?_⟩
  · show ∀ call ∈ q.calls, call.Plain
    rw [hcalls]
    exact h.plain
  · show WaitsAfterSubmit (q.futures.length + q.caller.pushing.length) q.calls
    rw [hlength, hcaller, hcalls]
    exact h.waits
  · refine h.caller.congr hcaller hrunning ?_ (hm.idle hi)
    rw [List.length_set, hthreads]
  · intro hrun hmem
    have hrun : p.running = true := hrunning ▸ hrun
    obtain ⟨rest, hbefore, hafter⟩ := exists_rest hi w'
    have hmem : Worker.exited ∈ p.threads.set i w' := hthreads ▸ hmem
    rcases List.mem_cons.mp (hafter.subset hmem) with heq | hrest
    · subst heq
      cases hm with
      | leave hfalse =>
        rw [hrun] at hfalse
        cases hfalse
    · exact h.alive hrun (hbefore.symm.subset (List.mem_cons_of_mem _ hrest))

/-- A call that has begun is taken from the program. -/
theorem Live.begin (h : Live T p) {call : Call τ} {calls : List (Call τ)}
    (hcalls : p.calls = call :: calls) : call.Plain ∧ ∀ call ∈ calls, call.Plain := by
  have hplain := h.plain
  rw [hcalls] at hplain
  exact List.forall_mem_cons.mp hplain

theorem CallerMoves.live (h : Live T p) (hinv : Inv step all p) (hcount : all.length < 2 ^ 64)
    (hm : CallerMoves hardwareConcurrency step p q) : Live T q := by
  have hphase := h.caller
  have hwaits := h.waits
  unfold CallerInv at hphase
  cases hm with
  | created hcaller =>
    rw [hcaller] at hphase hwaits
    exact ⟨h.paused, h.plain, hwaits, hphase, h.alive⟩
  | @create left hcaller =>
    rw [hcaller] at hphase hwaits
    refine ⟨h.paused, h.plain, hwaits, ⟨hphase.1, ?_⟩, fun hrun hmem => ?_⟩
    · rw [List.length_append, List.length_singleton, Nat.add_assoc, Nat.add_comm 1]
      exact hphase.2
    · rcases List.mem_append.mp hmem with hmem | hmem
      · exact h.alive hrun hmem
      · cases List.mem_singleton.mp hmem
  | submit hcaller hcalls =>
    rw [hcaller] at hphase
    rw [hcaller, hcalls] at hwaits
    exact ⟨h.paused, (h.begin hcalls).2, hwaits, hphase, h.alive⟩
  | push hcaller =>
    rw [hcaller] at hphase hwaits
    refine ⟨h.paused, h.plain, ?_, hphase, h.alive⟩
    show WaitsAfterSubmit ((p.futures ++ [_]).length + 0) p.calls
    rw [List.length_append]
    exact hwaits
  | wait hcaller hcalls _ _ =>
    rw [hcalls] at hwaits
    exact ⟨h.paused, (h.begin hcalls).2, hwaits.2, h.caller, h.alive⟩
  | waitForTasks hcaller hcalls =>
    rw [hcaller] at hphase
    rw [hcaller, hcalls] at hwaits
    exact ⟨h.paused, (h.begin hcalls).2, hwaits, hphase, h.alive⟩
  | setPaused hcaller hcalls => exact False.elim (h.begin hcalls).1
  | reset hcaller hcalls => exact False.elim (h.begin hcalls).1
  | destroy hcaller hcalls =>
    rw [hcaller] at hphase
    rw [hcaller, hcalls] at hwaits
    exact ⟨h.paused, (h.begin hcalls).2, hwaits, hphase, h.alive⟩
  | @waited after hcaller _ hzero =>
    rw [hcaller] at hphase hwaits
    have hidle := hinv.idle_of_total hcount hzero
    cases after with
    | none => exact ⟨h.paused, h.plain, hwaits, hphase, h.alive⟩
    | some teardown =>
      cases teardown with
      | reset threadCount wasPaused => exact hphase.elim
      | destroy => exact ⟨h.paused, h.plain, hwaits, ⟨hphase.1, hphase.2, hidle⟩, h.alive⟩
  | getTasksRunning hcaller hpaused _ =>
    rw [h.paused] at hpaused
    cases hpaused
  | gotTasksRunning hcaller _ =>
    rcases hcaller with hcaller | hcaller
    · rw [hcaller] at hphase
      exact hphase.elim
    · rw [hcaller] at hphase
      exact hphase.elim
  | @stop teardown hcaller =>
    rw [hcaller] at hphase hwaits
    cases teardown with
    | reset threadCount wasPaused => exact hphase.elim
    | destroy => exact ⟨h.paused, h.plain, hwaits, ⟨rfl, hphase.2⟩, fun hrun => by cases hrun⟩
  | @join teardown i hcaller hi =>
    rw [hcaller] at hphase hwaits
    cases teardown with
    | reset threadCount wasPaused => exact hphase.elim
    | destroy => exact ⟨h.paused, h.plain, hwaits, hphase, h.alive⟩
  | restart hcaller _ =>
    rw [hcaller] at hphase
    exact hphase.elim
  | finish hcaller _ =>
    rw [hcaller] at hphase hwaits
    exact ⟨h.paused, h.plain, hwaits, hphase.2.2, h.alive⟩

theorem Reachable.live (hstable : ∀ s t, step s t = none → Ended step t)
    (hcount : (submitted calls).length < 2 ^ 64) (hplain : ∀ call ∈ calls, call.Plain)
    (hwaits : WaitsAfterSubmit 0 calls)
    (h : Reachable hardwareConcurrency step threadCount s calls p) :
    Live (threadCountFor hardwareConcurrency threadCount) p := by
  induction h with
  | refl =>
    exact ⟨rfl, hplain, hwaits, ⟨rfl, Nat.zero_add _⟩, fun _ => List.not_mem_nil⟩
  | tail hreach hstep ih =>
    cases hstep with
    | worker hi hw => exact (workerStep_eq_some hw).live ih hi
    | caller totalFirst hc =>
      exact (callerStep_eq_some hc).live ih (Reachable.inv hstable hreach) hcount

/-- When the destructor has returned, every `submit` before it has its task in the pool,
as it was submitted or brought further. All threads have exited and no task is left half
done: those that have not ended are in the queue as they were submitted. If the program
did not pause or reset the pool, all tasks have ended. -/
theorem destroyed_tasks (hstable : ∀ s t, step s t = none → Ended step t)
    (hcount : (submitted calls).length < 2 ^ 64)
    (h : Reachable hardwareConcurrency step threadCount s calls p)
    (hdestroyed : p.caller = .destroyed) :
    (∃ before, calls = before ++ .destroy :: p.calls ∧
      List.Forall₂ (Reaches step) (submitted before) p.futures) ∧
    (∀ w ∈ p.threads, w = .exited) ∧
    (∀ k t, p.futures[k]? = some t →
      Ended step t ∨ (k ∈ p.tasks ∧ (submitted calls)[k]? = some t)) ∧
    ((∀ call ∈ calls, call.Plain) → WaitsAfterSubmit 0 calls →
      p.tasks = [] ∧ ∀ t ∈ p.futures, Ended step t) := by
  have hinv := h.inv hstable
  have hjoined : p.joined = p.threads.length := by rw [joined, hdestroyed]
  obtain ⟨hexited, hheld⟩ := hinv.held_of_joined hjoined.ge
  refine ⟨?_, hexited, fun k t ht => ?_, fun hplain hwaits => ?_⟩
  · obtain ⟨before, hbefore⟩ := h.destroying hstable (by rw [hdestroyed]; trivial)
    obtain ⟨begun, hbegun, hfutures⟩ := h.submits hstable
    have hlast : begun = before ++ [.destroy] := by
      refine List.append_cancel_right (hbegun.symm.trans ?_)
      rw [hbefore, List.append_assoc]
      rfl
    have hnone : submitted [(.destroy : Call τ)] = [] := rfl
    rw [hlast, submitted_append, hnone, hdestroyed, Caller.pushing, List.append_nil,
      List.append_nil] at hfutures
    exact ⟨before, hbefore, hfutures⟩
  · rcases Nat.lt_or_ge k p.started with hlt | hge
    · refine .inl (hinv.ended k t hlt ht ?_)
      rw [hheld]
      exact List.not_mem_nil
    · exact .inr ⟨hinv.mem_tasks.mpr ⟨hge, (List.getElem?_eq_some_iff.mp ht).1⟩,
        hinv.untouched k t hge ht⟩
  · have hphase := (h.live hstable hcount hplain hwaits).caller
    rw [CallerInv, hdestroyed] at hphase
    exact ⟨hphase.1, hinv.ended_of_idle hphase⟩

/-- Three tasks in a pool of two threads that is destroyed while they run. -/
theorem destroyed_tasks_countdown :
    ∃ p : ThreadPool Unit Nat,
      Reachable 0 countdown 2 () [.submit 2, .submit 1, .submit 3, .destroy] p ∧
      p.caller = .destroyed ∧ p.futures = [0, 0, 0] ∧
      (∃ before, [.submit 2, .submit 1, .submit 3, .destroy] = before ++ .destroy :: p.calls ∧
        List.Forall₂ (Reaches countdown) (submitted before) p.futures) ∧
      (∀ w ∈ p.threads, w = .exited) ∧ p.tasks = [] ∧ ∀ t ∈ p.futures, Ended countdown t := by
  have hrun : runSchedule 0 countdown
      (List.replicate 10 none ++ List.replicate 4 (some 0) ++ List.replicate 14 (some 1) ++
        List.replicate 3 (some 0) ++ [none, none, some 1, some 0] ++ List.replicate 3 none)
      (construct 0 2 () [.submit 2, .submit 1, .submit 3, .destroy]) = some
        { shared := (), futures := [0, 0, 0], tasksTotal := 0, running := false,
          threads := [.exited, .exited], caller := .destroyed, calls := [] } := rfl
  have hreach := reachable_of_runSchedule hrun
  have hplain : ∀ call ∈ ([.submit 2, .submit 1, .submit 3, .destroy] : List (Call Nat)),
      call.Plain := by
    simp [Call.Plain]
  have h := destroyed_tasks countdown_stable (by decide) hreach rfl
  exact ⟨_, hreach, rfl, rfl, h.1, h.2.1, h.2.2.2 hplain trivial⟩

/-! ## The caller is never stuck -/

/-- The program has come to its end. -/
def Finished (p : ThreadPool σ τ) : Prop :=
  p.caller = .destroyed ∨ p.caller = .ready ∧ p.calls = []

/-- How far a thread is from its next task or, when the pool is stopped, from its exit. -/
def Worker.rank (running : Bool) : Worker → Nat
  | .test => if running then 3 else 1
  | .checkPaused => if running then 2 else 3
  | .popTask => if running then 1 else 2
  | .execute _ => 5
  | .returned _ => 4
  | .exited => 0

/-- A call pays for its own steps and for the thread or task it makes. -/
def Call.weight (m : τ → Nat) (T : Nat) : Call τ → Nat
  | .submit task => m task + 8
  | .wait _ => 1
  | .waitForTasks => 2
  | .setPaused _ => 0
  | .reset _ => 0
  | .destroy => 2 * T + 6

def Caller.weight (m : τ → Nat) (T : Nat) : Caller τ → Nat
  | .createThreads left => 4 * left + 1
  | .ready => 0
  | .pushTask task => m task + 7
  | .waitForTasks none => 1
  | .waitForTasks (some _) => 2 * T + 5
  | .tasksQueued _ _ => 0
  | .tasksTotal _ _ => 0
  | .stopRunning _ => 2 * T + 4
  | .destroyThreads _ i => T - i + 1
  | .destroyed => 0

/-- What is left to do, where `m` counts the steps of a task. -/
def toDo (m : τ → Nat) (T : Nat) (p : ThreadPool σ τ) : Nat :=
  (p.futures.map m).sum + 6 * p.tasks.length + (p.threads.map (Worker.rank p.running)).sum +
    (p.caller.weight m T + (p.calls.map (Call.weight m T)).sum)

theorem WorkerMoves.step_eq {w w' : Worker} (h : WorkerMoves step p w q w') :
    workerStep step p w = some (q, w') := by
  unfold workerStep
  cases h with
  | enter hrunning => rw [hrunning]; rfl
  | leave hrunning => rw [hrunning]; rfl
  | paused hpaused => rw [hpaused]; rfl
  | proceed hpaused => rw [hpaused]; rfl
  | empty htasks => rw [htasks]
  | pop htasks => rw [htasks]
  | task ht hs =>
    dsimp only
    rw [ht]
    dsimp only
    rw [hs]
  | taskReturns ht hs =>
    dsimp only
    rw [ht]
    dsimp only
    rw [hs]
  | decrement => rfl

variable {m : τ → Nat}

/-- A thread brings the pool further if it moves on and pays for what it starts. -/
theorem WorkerMoves.decreases {i : Nat} {w w' : Worker} (hi : p.threads[i]? = some w)
    (hm : WorkerMoves step p w q w')
    (hless : (q.futures.map m).sum + 6 * q.tasks.length + w'.rank p.running <
      (p.futures.map m).sum + 6 * p.tasks.length + w.rank p.running) :
    ∃ q, PoolStep hardwareConcurrency step p q ∧ toDo m T q < toDo m T p := by
  refine ⟨_, .worker hi hm.step_eq, ?_⟩
  obtain ⟨-, hrunning, hcaller, hcalls, hthreads, -⟩ := hm.frame
  have hsum := @sum_map_set_add _ (Worker.rank p.running) _ _ _ hi w'
  unfold toDo
  rw [hrunning, hcaller, hcalls, hthreads]
  refine Nat.add_lt_add_right ?_ _
  dsimp only
  omega

/-- A thread with a task brings the pool further. -/
theorem exists_decrease_of_held (hinv : Inv step all p)
    (hless : ∀ t ∈ p.futures, ∀ s' t', step p.shared t = some (s', t') → m t' < m t)
    (hheld : p.held ≠ []) :
    ∃ q, PoolStep hardwareConcurrency step p q ∧ toDo m T q < toDo m T p := by
  obtain ⟨k, hk⟩ := List.exists_mem_of_ne_nil _ hheld
  obtain ⟨w, hw, htask⟩ := List.mem_filterMap.mp hk
  obtain ⟨i, hi⟩ := List.getElem?_of_mem hw
  cases w with
  | test => cases htask
  | checkPaused => cases htask
  | popTask => cases htask
  | exited => cases htask
  | returned l =>
    refine WorkerMoves.decreases hi .decrement (Nat.add_lt_add_left ?_ _)
    cases p.running with
    | true => exact Nat.lt_succ_self 3
    | false => exact Nat.one_lt_succ_succ 2
  | execute l =>
    cases htask
    have hlt : k < p.futures.length := (hinv.held_lt k hk).trans_le (Nat.sub_le _ _)
    have ht := List.getElem?_eq_getElem hlt
    cases hs : step p.shared p.futures[k] with
    | none => exact WorkerMoves.decreases hi (.taskReturns ht hs) (Nat.lt_succ_self _)
    | some result =>
      obtain ⟨s', t'⟩ := result
      refine WorkerMoves.decreases hi (.task ht hs) (Nat.add_lt_add_right ?_ _)
      refine Nat.add_lt_add_right ?_ _
      exact sum_map_set_lt ht (hless _ (List.getElem_mem hlt) s' t' hs)

/-- If tasks are waiting and no thread has one, a thread comes closer to `pop_task`. -/
theorem exists_decrease_of_queue (hlive : Live T p) (hrunning : p.running = true)
    (hthreads : p.threads ≠ []) (hheld : p.held = []) (htasks : p.tasks ≠ []) :
    ∃ q, PoolStep hardwareConcurrency step p q ∧ toDo m T q < toDo m T p := by
  obtain ⟨w, hw⟩ := List.exists_mem_of_ne_nil _ hthreads
  obtain ⟨i, hi⟩ := List.getElem?_of_mem hw
  have hnone := List.filterMap_eq_nil_iff.mp hheld w hw
  cases w with
  | test =>
    refine WorkerMoves.decreases hi (.enter hrunning) (Nat.add_lt_add_left ?_ _)
    rw [hrunning]
    decide
  | checkPaused =>
    refine WorkerMoves.decreases hi (.proceed hlive.paused) (Nat.add_lt_add_left ?_ _)
    rw [hrunning]
    decide
  | popTask =>
    obtain ⟨k, tasks, hcons⟩ := List.exists_cons_of_ne_nil htasks
    refine WorkerMoves.decreases hi (.pop hcons) ?_
    rw [hrunning, hcons]
    simp only [Worker.rank, List.length_cons, if_true]
    omega
  | execute k => cases hnone
  | returned k => cases hnone
  | exited => exact absurd hw (hlive.alive hrunning)

/-- A pool that is not idle is brought further by one of its threads. -/
theorem exists_decrease_of_not_idle (hinv : Inv step all p) (hlive : Live T p)
    (hless : ∀ t ∈ p.futures, ∀ s' t', step p.shared t = some (s', t') → m t' < m t)
    (hrunning : p.running = true) (hthreads : p.threads ≠ []) (hbusy : ¬ p.Idle) :
    ∃ q, PoolStep hardwareConcurrency step p q ∧ toDo m T q < toDo m T p := by
  by_cases hheld : p.held = []
  · exact exists_decrease_of_queue hlive hrunning hthreads hheld fun htasks =>
      hbusy ⟨htasks, hheld⟩
  · exact exists_decrease_of_held hinv hless hheld

/-- A step of the caller that only touches what counts for the caller. -/
theorem exists_decrease_of_caller (totalFirst : Bool)
    (hstep : callerStep hardwareConcurrency step totalFirst p = some q)
    (hless : toDo m T q < toDo m T p) :
    ∃ q, PoolStep hardwareConcurrency step p q ∧ toDo m T q < toDo m T p :=
  ⟨q, .caller totalFirst hstep, hless⟩

/-- A thread that is not yet joined comes closer to its exit when the pool is stopped. -/
theorem exists_decrease_of_stopped (hlive : Live T p) (hrunning : p.running = false)
    (hidle : p.Idle) {i : Nat} {w : Worker} (hi : p.threads[i]? = some w) (hw : w ≠ .exited) :
    ∃ q, PoolStep hardwareConcurrency step p q ∧ toDo m T q < toDo m T p := by
  have hnone := List.filterMap_eq_nil_iff.mp hidle.2 w (List.mem_of_getElem? hi)
  cases w with
  | test =>
    refine WorkerMoves.decreases hi (.leave hrunning) (Nat.add_lt_add_left ?_ _)
    rw [hrunning]
    decide
  | checkPaused =>
    refine WorkerMoves.decreases hi (.proceed hlive.paused) (Nat.add_lt_add_left ?_ _)
    rw [hrunning]
    decide
  | popTask =>
    refine WorkerMoves.decreases hi (.empty hidle.1) (Nat.add_lt_add_left ?_ _)
    rw [hrunning]
    decide
  | execute k => cases hnone
  | returned k => cases hnone
  | exited => exact absurd rfl hw

/-- Stopping the pool sends every thread back by at most one place. -/
theorem sum_rank_le (threads : List Worker) :
    (threads.map (Worker.rank false)).sum ≤ (threads.map (Worker.rank true)).sum + threads.length := by
  induction threads with
  | nil => exact Nat.le_refl 0
  | cons w threads ih =>
    have hw : w.rank false ≤ w.rank true + 1 := by
      cases w with
      | execute k => exact Nat.le_succ 5
      | returned k => exact Nat.le_succ 4
      | test => decide
      | checkPaused => decide
      | popTask => decide
      | exited => decide
    rw [List.map_cons, List.sum_cons, List.map_cons, List.sum_cons, List.length_cons]
    omega

/-- The caller can begin its next call, or a thread brings the pool further. -/
theorem exists_decrease_of_ready (hinv : Inv step all p) (hlive : Live T p) (hT : 1 ≤ T)
    (hless : ∀ t ∈ p.futures, ∀ s' t', step p.shared t = some (s', t') → m t' < m t)
    (hcaller : p.caller = .ready) {call : Call τ} {calls : List (Call τ)}
    (hcalls : p.calls = call :: calls) :
    ∃ q, PoolStep hardwareConcurrency step p q ∧ toDo m T q < toDo m T p := by
  have hphase := hlive.caller
  rw [CallerInv, hcaller] at hphase
  obtain ⟨hrunning, hlength⟩ := hphase
  -- the call that begins is worth more than the point that the caller comes to
  have hbegin : ∀ q : ThreadPool σ τ, beginCall step p call = some q →
      toDo m T { q with calls := calls } < toDo m T p →
      ∃ q, PoolStep hardwareConcurrency step p q ∧ toDo m T q < toDo m T p := by
    intro q hq hlt
    refine exists_decrease_of_caller true ?_ hlt
    rw [callerStep, hcaller]
    dsimp only
    rw [hcalls]
    dsimp only
    rw [hq]
    rfl
  cases call with
  | submit task =>
    refine hbegin _ rfl ?_
    unfold toDo
    rw [hcaller, hcalls, List.map_cons, List.sum_cons]
    simp only [Caller.weight, Call.weight]
    omega
  | wait k =>
    have hwaits := hlive.waits
    rw [hcaller, hcalls] at hwaits
    have hlt : k < p.futures.length := hwaits.1
    have ht := List.getElem?_eq_getElem hlt
    cases hs : step p.shared p.futures[k] with
    | none =>
      refine hbegin p ?_ ?_
      · rw [beginCall, ht]
        dsimp only
        rw [hs]
      · unfold toDo
        rw [hcaller, hcalls, List.map_cons, List.sum_cons]
        simp only [Caller.weight, Call.weight]
        omega
    | some result =>
      -- the task that is waited for has not ended
      have hthreads : p.threads ≠ [] := List.ne_nil_of_length_pos (hlength ▸ hT)
      refine exists_decrease_of_not_idle hinv hlive hless hrunning hthreads fun hidle => ?_
      rw [hinv.ended_of_idle hidle _ (List.getElem_mem hlt) p.shared] at hs
      cases hs
  | waitForTasks =>
    refine hbegin _ rfl ?_
    unfold toDo
    rw [hcaller, hcalls, List.map_cons, List.sum_cons]
    simp only [Caller.weight, Call.weight]
    omega
  | setPaused paused => exact False.elim (hlive.begin hcalls).1
  | reset threadCount => exact False.elim (hlive.begin hcalls).1
  | destroy =>
    refine hbegin _ rfl ?_
    unfold toDo
    rw [hcaller, hcalls, List.map_cons, List.sum_cons]
    simp only [Caller.weight, Call.weight]
    omega

/-- The caller leaves the loop of `wait_for_tasks`, or a thread brings the pool further. -/
theorem exists_decrease_of_waiting (hinv : Inv step all p) (hlive : Live T p) (hT : 1 ≤ T)
    (hless : ∀ t ∈ p.futures, ∀ s' t', step p.shared t = some (s', t') → m t' < m t)
    {after : Option Teardown} (hcaller : p.caller = .waitForTasks after) :
    ∃ q, PoolStep hardwareConcurrency step p q ∧ toDo m T q < toDo m T p := by
  have hphase := hlive.caller
  rw [CallerInv, hcaller] at hphase
  obtain ⟨hrunning, hlength⟩ : p.running = true ∧ p.threads.length = T := by
    cases after with
    | none => exact hphase
    | some teardown =>
      cases teardown with
      | reset threadCount wasPaused => exact hphase.elim
      | destroy => exact hphase
  by_cases hidle : p.Idle
  · have hzero : p.tasksTotal = 0 := by
      rw [hinv.total, unfinished, hcaller, hidle.1, hidle.2]
      rfl
    refine exists_decrease_of_caller (q := { p with caller := afterWait after }) true ?_ ?_
    · rw [callerStep, hcaller]
      dsimp only
      rw [hlive.paused, hzero]
      rfl
    · unfold toDo
      rw [hcaller]
      refine Nat.add_lt_add_left (Nat.add_lt_add_right ?_ _) _
      cases after with
      | none => exact Nat.lt_succ_self 0
      | some teardown => exact Nat.lt_succ_self _
  · have hthreads : p.threads ≠ [] := List.ne_nil_of_length_pos (hlength ▸ hT)
    exact exists_decrease_of_not_idle hinv hlive hless hrunning hthreads hidle

/-- Unless the program has ended, some thread can bring the pool further. -/
theorem exists_decrease (hinv : Inv step all p) (hlive : Live T p) (hT : 1 ≤ T)
    (hless : ∀ t ∈ p.futures, ∀ s' t', step p.shared t = some (s', t') → m t' < m t) :
    p.Finished ∨ ∃ q, PoolStep hardwareConcurrency step p q ∧ toDo m T q < toDo m T p := by
  have hphase := hlive.caller
  unfold CallerInv at hphase
  cases hcaller : p.caller with
  | createThreads left =>
    right
    cases left with
    | zero =>
      refine exists_decrease_of_caller true (by rw [callerStep, hcaller]) ?_
      unfold toDo
      rw [hcaller]
      exact Nat.add_lt_add_left (Nat.add_lt_add_right (Nat.lt_succ_self 0) _) _
    | succ left =>
      rw [hcaller] at hphase
      refine exists_decrease_of_caller true (by rw [callerStep, hcaller]) ?_
      unfold toDo
      rw [hcaller, hphase.1, List.map_append, List.sum_append]
      simp only [Caller.weight, List.map_cons, List.map_nil, List.sum_cons, List.sum_nil,
        Worker.rank, if_true]
      omega
  | ready =>
    cases hcalls : p.calls with
    | nil => exact .inl (.inr ⟨hcaller, hcalls⟩)
    | cons call calls =>
      exact .inr (exists_decrease_of_ready hinv hlive hT hless hcaller hcalls)
  | pushTask task =>
    right
    refine exists_decrease_of_caller true (by rw [callerStep, hcaller]) ?_
    unfold toDo
    rw [hcaller]
    simp only [Caller.weight, List.map_append, List.sum_append, List.map_cons, List.map_nil,
      List.sum_cons, List.sum_nil, List.length_append, List.length_singleton]
    omega
  | waitForTasks after => exact .inr (exists_decrease_of_waiting hinv hlive hT hless hcaller)
  | tasksQueued after total =>
    rw [hcaller] at hphase
    exact hphase.elim
  | tasksTotal after queued =>
    rw [hcaller] at hphase
    exact hphase.elim
  | stopRunning teardown =>
    right
    rw [hcaller] at hphase
    cases teardown with
    | reset threadCount wasPaused => exact hphase.elim
    | destroy =>
      obtain ⟨hrunning, hlength, -⟩ := hphase
      refine exists_decrease_of_caller true (by rw [callerStep, hcaller]) ?_
      have hsum := sum_rank_le p.threads
      unfold toDo
      rw [hcaller, hrunning]
      simp only [Caller.weight]
      omega
  | destroyThreads teardown i =>
    right
    rw [hcaller] at hphase
    cases teardown with
    | reset threadCount wasPaused => exact hphase.elim
    | destroy =>
      obtain ⟨hrunning, hlength, hidle⟩ := hphase
      cases hi : p.threads[i]? with
      | none =>
        refine exists_decrease_of_caller (q := { p with caller := .destroyed }) true ?_ ?_
        · rw [callerStep, hcaller]
          dsimp only
          rw [hi]
          rfl
        · unfold toDo
          rw [hcaller]
          exact Nat.add_lt_add_left (Nat.add_lt_add_right (Nat.succ_pos _) _) _
      | some w =>
        by_cases hw : w = .exited
        · subst hw
          have hlt : i < T := hlength ▸ (List.getElem?_eq_some_iff.mp hi).1
          refine exists_decrease_of_caller
            (q := { p with caller := .destroyThreads .destroy (i + 1) }) true ?_ ?_
          · rw [callerStep, hcaller]
            dsimp only
            rw [hi]
          · unfold toDo
            rw [hcaller]
            refine Nat.add_lt_add_left (Nat.add_lt_add_right ?_ _) _
            simp only [Caller.weight]
            omega
        · exact exists_decrease_of_stopped hlive hrunning hidle hi hw
  | destroyed => exact .inl (.inl hcaller)

/-- With at least one thread, and with tasks that only read what they share and end after
finitely many steps, the program can be brought to its end from every state. -/
theorem exists_finish (hstable : ∀ s t, step s t = none → Ended step t)
    (hcount : (submitted calls).length < 2 ^ 64) (hplain : ∀ call ∈ calls, call.Plain)
    (hwaits : WaitsAfterSubmit 0 calls)
    (hthreads : 1 ≤ threadCountFor hardwareConcurrency threadCount) {I : τ → Prop}
    (hinit : ∀ t ∈ submitted calls, I t)
    (htask : ∀ t s' t', I t → step s t = some (s', t') → s' = s ∧ I t' ∧ m t' < m t)
    (h : Reachable hardwareConcurrency step threadCount s calls p) :
    ∃ q, Relation.ReflTransGen (PoolStep hardwareConcurrency step) p q ∧ q.Finished := by
  -- by what is left to do
  induction hn : toDo m (threadCountFor hardwareConcurrency threadCount) p
    using Nat.strong_induction_on generalizing p with
  | _ n ih =>
    obtain ⟨_, hrun⟩ := h.refines
    have hkept := Run.invariant (I := fun _ => I) (fun _ t s' t' hI hs => (htask t s' t' hI hs).1)
      (fun _ t ht => hinit t (List.mem_of_getElem? ht))
      (fun _ t s' t' hI hs => (htask t s' t' hI hs).2.1) hrun
    have hshared : p.shared = s := hkept.shared
    have hless : ∀ t ∈ p.futures, ∀ s' t', step p.shared t = some (s', t') → m t' < m t := by
      intro t ht s' t' hs
      obtain ⟨k, hk⟩ := List.getElem?_of_mem ht
      rw [hshared] at hs
      exact (htask t s' t' (hkept.tasks k t hk) hs).2.2
    rcases exists_decrease (h.inv hstable) (h.live hstable hcount hplain hwaits) hthreads hless
      with hfinished | ⟨q, hstep, hlt⟩
    · exact ⟨p, .refl, hfinished⟩
    · obtain ⟨r, hpath, hfinished⟩ := ih _ (hn ▸ hlt) (h.tail hstep) rfl
      exact ⟨r, .head hstep hpath, hfinished⟩

end Plain

end ThreadPool

end BloomHierarchy
