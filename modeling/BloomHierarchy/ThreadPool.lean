import BloomHierarchy.Lib.Interleaving

/-!
# The thread pool

`thread_pool` keeps a queue of tasks behind a mutex, the atomic counter `tasks_total`
and the atomic flags `paused` and `running`. Its threads run `worker`; one thread, the
caller, constructs the pool, submits tasks, waits for futures or for all tasks, resets
the pool and destroys it.

A step is one access of one thread to what the threads share: a test of a flag, one
operation on the queue or on the counter, or one step of a task. A thread that waits or
spins takes a step when it gets on. Only the caller writes the flags, so that its own
reads of them are not steps of their own. `ui32` is `uint_fast32_t`, which has 64 bits.
The operands of `tasks_total - get_tasks_queued()` are read in either order.

`submit` wraps a task so that nothing it throws leaves it, and makes its future ready
when it has ended. The queue holds the numbers of the tasks in the order of submission.

Results, for every program of the caller and every interleaving:
1. `Reachable.inv`: no task is lost, started twice or started out of order, and
   `tasks_total` counts the tasks that are not finished.
2. `Reachable.refines`: what the pool does with the tasks is a run of `Interleaving`.

What has happened when the calls return is in `ThreadPoolRuns`.
-/

namespace BloomHierarchy

open Interleaving

namespace ThreadPool

/-- Where a thread is in `worker`. -/
inductive Worker
  /-- At the test of `running`. -/
  | test
  /-- At the test of `paused`. -/
  | checkPaused
  /-- At `pop_task`. -/
  | popTask
  /-- In the task with this number. -/
  | execute (k : Nat)
  /-- The task has returned, `tasks_total` is not yet decremented. -/
  | returned (k : Nat)
  | exited
deriving DecidableEq, Repr

/-- What the caller can do with a pool. `wait` is for the future of a task. -/
inductive Call (τ : Type*)
  | submit (task : τ)
  | wait (k : Nat)
  | waitForTasks
  | setPaused (paused : Bool)
  | reset (threadCount : Nat)
  | destroy

/-- The two functions that destroy the threads. -/
inductive Teardown
  | reset (threadCount : Nat) (wasPaused : Bool)
  | destroy

/-- Where the caller is. -/
inductive Caller (τ : Type*)
  /-- In `create_threads`, with the number of threads that are still to be created. -/
  | createThreads (left : Nat)
  /-- Between two calls. -/
  | ready
  /-- In `push_task`, after the increment of `tasks_total`. -/
  | pushTask (task : τ)
  /-- In the loop of `wait_for_tasks`, which `after` has called if it is not `none`. -/
  | waitForTasks (after : Option Teardown)
  /-- In `get_tasks_running`, with `tasks_total` read. -/
  | tasksQueued (after : Option Teardown) (total : UInt64)
  /-- In `get_tasks_running`, with the length of the queue read. -/
  | tasksTotal (after : Option Teardown) (queued : UInt64)
  /-- At `running = false`. -/
  | stopRunning (teardown : Teardown)
  /-- In `destroy_threads`, at the thread with this number. -/
  | destroyThreads (teardown : Teardown) (i : Nat)
  | destroyed

end ThreadPool

/-- The pool, with what its tasks share, its threads and the caller. -/
structure ThreadPool (σ τ : Type*) where
  shared : σ
  /-- The tasks that were pushed so far, in the state they have reached. -/
  futures : List τ := []
  /-- The queue. -/
  tasks : List Nat := []
  tasksTotal : UInt64 := 0
  paused : Bool := false
  running : Bool := true
  threads : List ThreadPool.Worker := []
  caller : ThreadPool.Caller τ
  calls : List (ThreadPool.Call τ)

namespace ThreadPool

variable {σ τ : Type*}

/-! ## Steps -/

/-- The number of threads for the argument `threadCount`. -/
def threadCountFor (hardwareConcurrency threadCount : Nat) : Nat :=
  if threadCount = 0 then hardwareConcurrency else threadCount

/-- The constructor is called, then the functions in `calls`. -/
def construct (hardwareConcurrency threadCount : Nat) (s : σ) (calls : List (Call τ)) :
    ThreadPool σ τ where
  shared := s
  caller := .createThreads (threadCountFor hardwareConcurrency threadCount)
  calls := calls

section Steps
variable (hardwareConcurrency : Nat) (step : σ → τ → Option (σ × τ))

/-- One step of a thread of the pool that is at `w`. -/
def workerStep (p : ThreadPool σ τ) (w : Worker) : Option (ThreadPool σ τ × Worker) :=
  match w with
  | .test => some (p, if p.running then .checkPaused else .exited)
  | .checkPaused => some (p, if p.paused then .test else .popTask)
  | .popTask =>
    match p.tasks with
    | [] => some (p, .test)
    | k :: tasks => some ({ p with tasks := tasks }, .execute k)
  | .execute k =>
    match p.futures[k]? with
    | none => none
    | some t =>
      match step p.shared t with
      | some (s, t) => some ({ p with shared := s, futures := p.futures.set k t }, .execute k)
      | none => some (p, .returned k)
  | .returned _ => some ({ p with tasksTotal := p.tasksTotal - 1 }, .test)
  | .exited => none

/-- Where the caller goes when `wait_for_tasks` returns. -/
def afterWait : Option Teardown → Caller τ
  | none => .ready
  | some teardown => .stopRunning teardown

/-- What follows when all threads are joined. -/
def afterDestroy (p : ThreadPool σ τ) : Teardown → ThreadPool σ τ
  | .reset threadCount wasPaused =>
    { p with
      threads := []
      paused := wasPaused
      running := true
      caller := .createThreads (threadCountFor hardwareConcurrency threadCount) }
  | .destroy => { p with caller := .destroyed }

/-- The first step of a call, which is the only one of `wait` and of the assignment to
`paused`. -/
def beginCall (p : ThreadPool σ τ) : Call τ → Option (ThreadPool σ τ)
  | .submit task => some { p with tasksTotal := p.tasksTotal + 1, caller := .pushTask task }
  | .wait k =>
    match p.futures[k]? with
    | none => none
    | some t =>
      match step p.shared t with
      | some _ => none
      | none => some p
  | .waitForTasks => some { p with caller := .waitForTasks none }
  | .setPaused paused => some { p with paused := paused }
  | .reset threadCount =>
    some { p with
      paused := true
      caller := .waitForTasks (some (.reset threadCount p.paused)) }
  | .destroy => some { p with caller := .waitForTasks (some .destroy) }

/-- One step of the caller. `totalFirst` is the order in which `get_tasks_running` reads
its two numbers. -/
def callerStep (totalFirst : Bool) (p : ThreadPool σ τ) : Option (ThreadPool σ τ) :=
  match p.caller with
  | .createThreads 0 => some { p with caller := .ready }
  | .createThreads (left + 1) =>
    some { p with threads := p.threads ++ [.test], caller := .createThreads left }
  | .ready =>
    match p.calls with
    | [] => none
    | call :: calls => (beginCall step p call).map fun q => { q with calls := calls }
  | .pushTask task =>
    some { p with
      futures := p.futures ++ [task]
      tasks := p.tasks ++ [p.futures.length]
      caller := .ready }
  | .waitForTasks after =>
    if !p.paused then
      if p.tasksTotal = 0 then some { p with caller := afterWait after } else none
    else if totalFirst then some { p with caller := .tasksQueued after p.tasksTotal }
    else some { p with caller := .tasksTotal after (UInt64.ofNat p.tasks.length) }
  | .tasksQueued after total =>
    if total - UInt64.ofNat p.tasks.length = 0 then some { p with caller := afterWait after }
    else some { p with caller := .waitForTasks after }
  | .tasksTotal after queued =>
    if p.tasksTotal - queued = 0 then some { p with caller := afterWait after }
    else some { p with caller := .waitForTasks after }
  | .stopRunning teardown => some { p with running := false, caller := .destroyThreads teardown 0 }
  | .destroyThreads teardown i =>
    match p.threads[i]? with
    | none => some (afterDestroy hardwareConcurrency p teardown)
    | some .exited => some { p with caller := .destroyThreads teardown (i + 1) }
    | some _ => none
  | .destroyed => none

inductive PoolStep : ThreadPool σ τ → ThreadPool σ τ → Prop
  | worker {p q : ThreadPool σ τ} {i : Nat} {w w' : Worker} :
      p.threads[i]? = some w → workerStep step p w = some (q, w') →
      PoolStep p { q with threads := q.threads.set i w' }
  | caller {p q : ThreadPool σ τ} (totalFirst : Bool) :
      callerStep hardwareConcurrency step totalFirst p = some q → PoolStep p q

/-- `p` can come after the constructor was called with `threadCount`. -/
def Reachable (threadCount : Nat) (s : σ) (calls : List (Call τ)) (p : ThreadPool σ τ) : Prop :=
  Relation.ReflTransGen (PoolStep hardwareConcurrency step)
    (construct hardwareConcurrency threadCount s calls) p

/-- The state after the steps of a schedule, in which `none` stands for the caller and
`some i` for thread `i`. -/
def runSchedule : List (Option Nat) → ThreadPool σ τ → Option (ThreadPool σ τ)
  | [], p => some p
  | none :: schedule, p =>
    match callerStep hardwareConcurrency step true p with
    | none => none
    | some q => runSchedule schedule q
  | some i :: schedule, p =>
    match p.threads[i]? with
    | none => none
    | some w =>
      match workerStep step p w with
      | none => none
      | some (q, w') => runSchedule schedule { q with threads := q.threads.set i w' }

variable {hardwareConcurrency step} in
theorem reachable_of_runSchedule {schedule : List (Option Nat)} {p q : ThreadPool σ τ}
    (h : runSchedule hardwareConcurrency step schedule p = some q) :
    Relation.ReflTransGen (PoolStep hardwareConcurrency step) p q := by
  induction schedule generalizing p with
  | nil =>
    cases h
    exact .refl
  | cons i schedule ih =>
    cases i with
    | none =>
      rw [runSchedule] at h
      split at h
      · cases h
      · next r hr => exact .head (.caller true hr) (ih h)
    | some i =>
      rw [runSchedule] at h
      split at h
      · cases h
      · next w hw =>
        split at h
        · cases h
        · next r w' hr => exact .head (.worker hw hr) (ih h)

end Steps

/-! ## What a step does -/

section Moves
variable (hardwareConcurrency : Nat) (step : σ → τ → Option (σ × τ))

/-- The steps of a thread of the pool. -/
inductive WorkerMoves (p : ThreadPool σ τ) : Worker → ThreadPool σ τ → Worker → Prop
  | enter : p.running = true → WorkerMoves p .test p .checkPaused
  | leave : p.running = false → WorkerMoves p .test p .exited
  | paused : p.paused = true → WorkerMoves p .checkPaused p .test
  | proceed : p.paused = false → WorkerMoves p .checkPaused p .popTask
  | empty : p.tasks = [] → WorkerMoves p .popTask p .test
  | pop {k : Nat} {tasks : List Nat} :
      p.tasks = k :: tasks → WorkerMoves p .popTask { p with tasks := tasks } (.execute k)
  | task {k : Nat} {t t' : τ} {s' : σ} :
      p.futures[k]? = some t → step p.shared t = some (s', t') →
      WorkerMoves p (.execute k) { p with shared := s', futures := p.futures.set k t' }
        (.execute k)
  | taskReturns {k : Nat} {t : τ} :
      p.futures[k]? = some t → step p.shared t = none →
      WorkerMoves p (.execute k) p (.returned k)
  | decrement {k : Nat} :
      WorkerMoves p (.returned k) { p with tasksTotal := p.tasksTotal - 1 } .test

/-- The steps of the caller. -/
inductive CallerMoves (p : ThreadPool σ τ) : ThreadPool σ τ → Prop
  | created : p.caller = .createThreads 0 → CallerMoves p { p with caller := .ready }
  | create {left : Nat} :
      p.caller = .createThreads (left + 1) →
      CallerMoves p { p with threads := p.threads ++ [.test], caller := .createThreads left }
  | submit {task : τ} {calls : List (Call τ)} :
      p.caller = .ready → p.calls = .submit task :: calls →
      CallerMoves p { p with
        tasksTotal := p.tasksTotal + 1
        caller := .pushTask task
        calls := calls }
  | push {task : τ} :
      p.caller = .pushTask task →
      CallerMoves p { p with
        futures := p.futures ++ [task]
        tasks := p.tasks ++ [p.futures.length]
        caller := .ready }
  | wait {k : Nat} {t : τ} {calls : List (Call τ)} :
      p.caller = .ready → p.calls = .wait k :: calls → p.futures[k]? = some t →
      step p.shared t = none → CallerMoves p { p with calls := calls }
  | waitForTasks {calls : List (Call τ)} :
      p.caller = .ready → p.calls = .waitForTasks :: calls →
      CallerMoves p { p with caller := .waitForTasks none, calls := calls }
  | setPaused {paused : Bool} {calls : List (Call τ)} :
      p.caller = .ready → p.calls = .setPaused paused :: calls →
      CallerMoves p { p with paused := paused, calls := calls }
  | reset {threadCount : Nat} {calls : List (Call τ)} :
      p.caller = .ready → p.calls = .reset threadCount :: calls →
      CallerMoves p { p with
        paused := true
        caller := .waitForTasks (some (.reset threadCount p.paused))
        calls := calls }
  | destroy {calls : List (Call τ)} :
      p.caller = .ready → p.calls = .destroy :: calls →
      CallerMoves p { p with caller := .waitForTasks (some .destroy), calls := calls }
  /-- All tasks are finished. -/
  | waited {after : Option Teardown} :
      p.caller = .waitForTasks after → p.paused = false → p.tasksTotal = 0 →
      CallerMoves p { p with caller := afterWait after }
  /-- A pool that is paused looks for running tasks. -/
  | getTasksRunning {after : Option Teardown} {caller : Caller τ} :
      p.caller = .waitForTasks after → p.paused = true →
      (caller = .tasksQueued after p.tasksTotal ∨
        caller = .tasksTotal after (UInt64.ofNat p.tasks.length)) →
      CallerMoves p { p with caller := caller }
  | gotTasksRunning {after : Option Teardown} {n : UInt64} {caller : Caller τ} :
      (p.caller = .tasksQueued after n ∨ p.caller = .tasksTotal after n) →
      (caller = afterWait after ∨ caller = .waitForTasks after) →
      CallerMoves p { p with caller := caller }
  | stop {teardown : Teardown} :
      p.caller = .stopRunning teardown →
      CallerMoves p { p with running := false, caller := .destroyThreads teardown 0 }
  | join {teardown : Teardown} {i : Nat} :
      p.caller = .destroyThreads teardown i → p.threads[i]? = some .exited →
      CallerMoves p { p with caller := .destroyThreads teardown (i + 1) }
  | restart {threadCount i : Nat} {wasPaused : Bool} :
      p.caller = .destroyThreads (.reset threadCount wasPaused) i → p.threads.length ≤ i →
      CallerMoves p { p with
        threads := []
        paused := wasPaused
        running := true
        caller := .createThreads (threadCountFor hardwareConcurrency threadCount) }
  | finish {i : Nat} :
      p.caller = .destroyThreads .destroy i → p.threads.length ≤ i →
      CallerMoves p { p with caller := .destroyed }

variable {hardwareConcurrency step} {p q : ThreadPool σ τ}

theorem workerStep_eq_some {w w' : Worker} (h : workerStep step p w = some (q, w')) :
    WorkerMoves step p w q w' := by
  unfold workerStep at h
  cases w with
  | test =>
    cases hrunning : p.running with
    | true =>
      rw [hrunning] at h
      cases h
      exact .enter hrunning
    | false =>
      rw [hrunning] at h
      cases h
      exact .leave hrunning
  | checkPaused =>
    cases hpaused : p.paused with
    | true =>
      rw [hpaused] at h
      cases h
      exact .paused hpaused
    | false =>
      rw [hpaused] at h
      cases h
      exact .proceed hpaused
  | popTask =>
    dsimp only at h
    split at h
    · next htasks =>
      cases h
      exact .empty htasks
    · next k tasks htasks =>
      cases h
      exact .pop htasks
  | execute k =>
    dsimp only at h
    split at h
    · cases h
    · next t ht =>
      split at h
      · next s' t' hs =>
        cases h
        exact .task ht hs
      · next hs =>
        cases h
        exact .taskReturns ht hs
  | returned k =>
    cases h
    exact .decrement
  | exited => cases h

theorem beginCall_moves {call : Call τ} {calls : List (Call τ)} (hcaller : p.caller = .ready)
    (hcalls : p.calls = call :: calls) (h : beginCall step p call = some q) :
    CallerMoves hardwareConcurrency step p { q with calls := calls } := by
  unfold beginCall at h
  cases call with
  | submit task =>
    cases h
    exact .submit hcaller hcalls
  | wait k =>
    dsimp only at h
    split at h
    · cases h
    · next t ht =>
      split at h
      · cases h
      · next hs =>
        cases h
        exact .wait hcaller hcalls ht hs
  | waitForTasks =>
    cases h
    exact .waitForTasks hcaller hcalls
  | setPaused paused =>
    cases h
    exact .setPaused hcaller hcalls
  | reset threadCount =>
    cases h
    exact .reset hcaller hcalls
  | destroy =>
    cases h
    exact .destroy hcaller hcalls

theorem callerStep_eq_some {totalFirst : Bool}
    (h : callerStep hardwareConcurrency step totalFirst p = some q) :
    CallerMoves hardwareConcurrency step p q := by
  unfold callerStep at h
  split at h
  · next hcaller =>
    cases h
    exact .created hcaller
  · next left hcaller =>
    cases h
    exact .create hcaller
  · next hcaller =>
    split at h
    · cases h
    · next call calls hcalls =>
      obtain ⟨q', hq', rfl⟩ := Option.map_eq_some_iff.mp h
      exact beginCall_moves hcaller hcalls hq'
  · next task hcaller =>
    cases h
    exact .push hcaller
  · next after hcaller =>
    split at h
    · next hpaused =>
      split at h
      · next htotal =>
        cases h
        exact .waited hcaller (by simpa using hpaused) htotal
      · cases h
    · next hpaused =>
      split at h
      · cases h
        exact .getTasksRunning hcaller (by simpa using hpaused) (.inl rfl)
      · cases h
        exact .getTasksRunning hcaller (by simpa using hpaused) (.inr rfl)
  · next after total hcaller =>
    split at h
    · cases h
      exact .gotTasksRunning (.inl hcaller) (.inl rfl)
    · cases h
      exact .gotTasksRunning (.inl hcaller) (.inr rfl)
  · next after queued hcaller =>
    split at h
    · cases h
      exact .gotTasksRunning (.inr hcaller) (.inl rfl)
    · cases h
      exact .gotTasksRunning (.inr hcaller) (.inr rfl)
  · next teardown hcaller =>
    cases h
    exact .stop hcaller
  · next teardown i hcaller =>
    split at h
    · next hi =>
      have hle := List.getElem?_eq_none_iff.mp hi
      cases teardown with
      | reset threadCount wasPaused =>
        cases h
        exact .restart hcaller hle
      | destroy =>
        cases h
        exact .finish hcaller hle
    · next hi =>
      cases h
      exact .join hcaller hi
    · cases h
  · cases h

end Moves

/-! ## The tasks of a pool as interleaved tasks -/

section Refinement

/-- The task of a `submit`. -/
def Call.task? : Call τ → Option τ
  | .submit task => some task
  | .wait _ => none
  | .waitForTasks => none
  | .setPaused _ => none
  | .reset _ => none
  | .destroy => none

/-- The tasks of a program, in order. -/
def submitted (calls : List (Call τ)) : List τ :=
  calls.filterMap Call.task?

/-- The task that the caller is about to push. -/
def Caller.pushing : Caller τ → List τ
  | .createThreads _ => []
  | .ready => []
  | .pushTask task => [task]
  | .waitForTasks _ => []
  | .tasksQueued _ _ => []
  | .tasksTotal _ _ => []
  | .stopRunning _ => []
  | .destroyThreads _ _ => []
  | .destroyed => []

/-- What is not yet pushed. -/
def pending (p : ThreadPool σ τ) : List τ :=
  p.caller.pushing ++ submitted p.calls

/-- The pool as the tasks see it. -/
def abstraction (p : ThreadPool σ τ) : Pool σ τ :=
  ⟨p.shared, p.pending, p.futures⟩

@[simp] theorem pushing_afterWait (after : Option Teardown) :
    (afterWait after : Caller τ).pushing = [] := by
  cases after with
  | none => rfl
  | some teardown => rfl

theorem submitted_cons (call : Call τ) (calls : List (Call τ)) :
    submitted (call :: calls) = call.task?.toList ++ submitted calls := by
  rw [submitted, List.filterMap_cons]
  cases call with
  | submit task => rfl
  | wait k => rfl
  | waitForTasks => rfl
  | setPaused paused => rfl
  | reset threadCount => rfl
  | destroy => rfl

variable {hardwareConcurrency : Nat} {step : σ → τ → Option (σ × τ)} {p q : ThreadPool σ τ}

/-- Only `push_task` changes what is pending. -/
theorem CallerMoves.pending (h : CallerMoves hardwareConcurrency step p q) :
    (q.pending = p.pending ∧ q.futures = p.futures ∧ q.tasks = p.tasks ∧ q.shared = p.shared) ∨
      ∃ task, p.pending = task :: q.pending ∧ q.futures = p.futures ++ [task] ∧
        q.tasks = p.tasks ++ [p.futures.length] ∧ q.shared = p.shared := by
  unfold ThreadPool.pending
  cases h with
  | created hcaller => exact .inl ⟨by rw [hcaller]; rfl, rfl, rfl, rfl⟩
  | create hcaller => exact .inl ⟨by rw [hcaller]; rfl, rfl, rfl, rfl⟩
  | submit hcaller hcalls =>
    exact .inl ⟨by rw [hcaller, hcalls, submitted_cons]; rfl, rfl, rfl, rfl⟩
  | @push task hcaller => exact .inr ⟨task, by rw [hcaller]; rfl, rfl, rfl, rfl⟩
  | wait hcaller hcalls _ _ =>
    exact .inl ⟨by rw [hcaller, hcalls, submitted_cons]; rfl, rfl, rfl, rfl⟩
  | waitForTasks hcaller hcalls =>
    exact .inl ⟨by rw [hcaller, hcalls, submitted_cons]; rfl, rfl, rfl, rfl⟩
  | setPaused hcaller hcalls =>
    exact .inl ⟨by rw [hcaller, hcalls, submitted_cons]; rfl, rfl, rfl, rfl⟩
  | reset hcaller hcalls =>
    exact .inl ⟨by rw [hcaller, hcalls, submitted_cons]; rfl, rfl, rfl, rfl⟩
  | destroy hcaller hcalls =>
    exact .inl ⟨by rw [hcaller, hcalls, submitted_cons]; rfl, rfl, rfl, rfl⟩
  | waited hcaller _ _ => exact .inl ⟨by rw [hcaller, pushing_afterWait]; rfl, rfl, rfl, rfl⟩
  | getTasksRunning hcaller _ hnext =>
    rcases hnext with rfl | rfl
    · exact .inl ⟨by rw [hcaller]; rfl, rfl, rfl, rfl⟩
    · exact .inl ⟨by rw [hcaller]; rfl, rfl, rfl, rfl⟩
  | gotTasksRunning hcaller hnext =>
    have hbefore : p.caller.pushing = [] := by
      rcases hcaller with hcaller | hcaller
      · rw [hcaller]; rfl
      · rw [hcaller]; rfl
    rcases hnext with rfl | rfl
    · exact .inl ⟨by rw [hbefore, pushing_afterWait], rfl, rfl, rfl⟩
    · exact .inl ⟨by rw [hbefore]; rfl, rfl, rfl, rfl⟩
  | stop hcaller => exact .inl ⟨by rw [hcaller]; rfl, rfl, rfl, rfl⟩
  | join hcaller _ => exact .inl ⟨by rw [hcaller]; rfl, rfl, rfl, rfl⟩
  | restart hcaller _ => exact .inl ⟨by rw [hcaller]; rfl, rfl, rfl, rfl⟩
  | finish hcaller _ => exact .inl ⟨by rw [hcaller]; rfl, rfl, rfl, rfl⟩

/-- A step of the pool pushes a task, is a step of a task, or does nothing to the tasks. -/
theorem PoolStep.refines (h : PoolStep hardwareConcurrency step p q) :
    q.abstraction = p.abstraction ∨ Step step p.abstraction q.abstraction := by
  cases h with
  | worker hi hw =>
    cases workerStep_eq_some hw with
    | enter _ => exact .inl rfl
    | leave _ => exact .inl rfl
    | paused _ => exact .inl rfl
    | proceed _ => exact .inl rfl
    | empty _ => exact .inl rfl
    | pop _ => exact .inl rfl
    | task ht hs => exact .inr (.task ht hs)
    | taskReturns _ _ => exact .inl rfl
    | decrement => exact .inl rfl
  | caller totalFirst hstep =>
    rcases (callerStep_eq_some hstep).pending with
      ⟨hpending, hfutures, -, hshared⟩ | ⟨task, hpending, hfutures, -, hshared⟩
    · left
      rw [abstraction, hpending, hfutures, hshared]
      rfl
    · right
      rw [abstraction, abstraction, hpending, hfutures, hshared]
      exact .submit

/-- Whatever the pool does is, for its tasks, a run in which they are interleaved. -/
theorem Reachable.refines {threadCount : Nat} {s : σ} {calls : List (Call τ)}
    (h : Reachable hardwareConcurrency step threadCount s calls p) :
    ∃ n, Run step ⟨s, submitted calls, []⟩ n p.abstraction := by
  induction h with
  | refl => exact ⟨0, .start⟩
  | @tail p q _ hstep ih =>
    obtain ⟨n, hrun⟩ := ih
    rcases hstep.refines with heq | hmove
    · exact ⟨n, heq ▸ hrun⟩
    · exact ⟨n + 1, hrun.step hmove⟩

end Refinement

/-! ## No task is lost or started twice -/

section Invariant

/-- The task that a thread has and has not yet counted off. -/
def Worker.task? : Worker → Option Nat
  | .test => none
  | .checkPaused => none
  | .popTask => none
  | .execute k => some k
  | .returned k => some k
  | .exited => none

/-- The tasks that the threads have. -/
def held (p : ThreadPool σ τ) : List Nat :=
  p.threads.filterMap Worker.task?

/-- The number of tasks that are not finished. -/
def unfinished (p : ThreadPool σ τ) : Nat :=
  p.caller.pushing.length + p.tasks.length + p.held.length

/-- The number of tasks that were taken from the queue. -/
def started (p : ThreadPool σ τ) : Nat :=
  p.futures.length - p.tasks.length

/-- The number of threads that are joined. -/
def joined (p : ThreadPool σ τ) : Nat :=
  match p.caller with
  | .createThreads _ => 0
  | .ready => 0
  | .pushTask _ => 0
  | .waitForTasks _ => 0
  | .tasksQueued _ _ => 0
  | .tasksTotal _ _ => 0
  | .stopRunning _ => 0
  | .destroyThreads _ i => i
  | .destroyed => p.threads.length

/-- A task that has ended, whatever the others do. -/
def Ended (step : σ → τ → Option (σ × τ)) (t : τ) : Prop :=
  ∀ s, step s t = none

/-- The queue holds the last of the tasks that were pushed, in order and as they were
submitted. Of the others, each is in one thread or has ended. -/
structure Inv (step : σ → τ → Option (σ × τ)) (all : List τ) (p : ThreadPool σ τ) : Prop where
  pending : p.pending = all.drop p.futures.length
  length_le : p.futures.length ≤ all.length
  le : p.tasks.length ≤ p.futures.length
  queue : p.tasks = List.range' p.started p.tasks.length
  untouched : ∀ k t, p.started ≤ k → p.futures[k]? = some t → all[k]? = some t
  held_lt : ∀ k ∈ p.held, k < p.started
  nodup : p.held.Nodup
  ended : ∀ k t, k < p.started → p.futures[k]? = some t → k ∉ p.held → Ended step t
  returned : ∀ k t, .returned k ∈ p.threads → p.futures[k]? = some t → Ended step t
  total : p.tasksTotal = UInt64.ofNat p.unfinished
  exited : ∀ (j : Nat) (w : Worker), j < p.joined → p.threads[j]? = some w → w = .exited

variable {step : σ → τ → Option (σ × τ)} {all : List τ} {p q : ThreadPool σ τ}

theorem inv_construct (hardwareConcurrency threadCount : Nat) (s : σ) (calls : List (Call τ)) :
    Inv step (submitted calls) (construct hardwareConcurrency threadCount s calls) where
  pending := rfl
  length_le := Nat.zero_le _
  le := Nat.le_refl 0
  queue := rfl
  untouched _ _ _ ht := by cases ht
  held_lt _ hk := by cases hk
  nodup := List.nodup_nil
  ended _ _ _ ht := by cases ht
  returned _ _ hk := by cases hk
  total := rfl
  exited _ _ _ hw := by cases hw

/-- The other threads do not change when one of them goes from `w` to `w'`. -/
theorem exists_rest {threads : List Worker} {i : Nat} {w : Worker} (hi : threads[i]? = some w)
    (w' : Worker) :
    ∃ rest, threads.Perm (w :: rest) ∧ (threads.set i w').Perm (w' :: rest) := by
  obtain ⟨hlt, rfl⟩ := List.getElem?_eq_some_iff.mp hi
  exact ⟨threads.eraseIdx i, (List.getElem_cons_eraseIdx_perm hlt).symm,
    List.set_perm_cons_eraseIdx hlt w'⟩

theorem held_perm {threads rest : List Worker} {w : Worker} (h : threads.Perm (w :: rest)) :
    (threads.filterMap Worker.task?).Perm (w.task?.toList ++ rest.filterMap Worker.task?) := by
  refine (h.filterMap Worker.task?).trans (List.Perm.of_eq ?_)
  rw [List.filterMap_cons]
  cases w.task? with
  | none => rfl
  | some k => rfl

theorem joined_set (p : ThreadPool σ τ) (i : Nat) (w : Worker) :
    joined { p with threads := p.threads.set i w } = p.joined := by
  unfold joined
  cases p.caller with
  | destroyed => exact List.length_set
  | createThreads left => rfl
  | ready => rfl
  | pushTask task => rfl
  | waitForTasks after => rfl
  | tasksQueued after total => rfl
  | tasksTotal after queued => rfl
  | stopRunning teardown => rfl
  | destroyThreads teardown i => rfl

/-- A thread that takes a step is not joined. -/
theorem Inv.exited_set (h : Inv step all p) {i : Nat} {w : Worker} (hi : p.threads[i]? = some w)
    (hw : w ≠ .exited) (w' : Worker) (j : Nat) (v : Worker)
    (hj : j < joined { p with threads := p.threads.set i w' })
    (hv : (p.threads.set i w')[j]? = some v) : v = .exited := by
  rw [joined_set] at hj
  rcases eq_or_ne i j with rfl | hne
  · exact absurd (h.exited i w hj hi) hw
  · rw [List.getElem?_set_ne hne] at hv
    exact h.exited j v hj hv

/-- A thread that moves and keeps its task, if it has one. -/
theorem Inv.move (h : Inv step all p) {i : Nat} {w w' : Worker} (hi : p.threads[i]? = some w)
    (hexited : w ≠ .exited) (htask : w'.task? = w.task?)
    (hreturned : ∀ k t, w' = .returned k → p.futures[k]? = some t → Ended step t) :
    Inv step all { p with threads := p.threads.set i w' } := by
  obtain ⟨rest, hbefore, hafter⟩ := exists_rest hi w'
  have hheld : ((p.threads.set i w').filterMap Worker.task?).Perm p.held := by
    have hnew := held_perm hafter
    rw [htask] at hnew
    exact hnew.trans (held_perm hbefore).symm
  refine ⟨h.pending, h.length_le, h.le, h.queue, h.untouched, fun k hk => h.held_lt k (hheld.subset hk),
    hheld.nodup_iff.mpr h.nodup, fun k t hk ht hnot => ?_, fun k t hk ht => ?_, ?_,
    h.exited_set hi hexited w'⟩
  · exact h.ended k t hk ht fun hmem => hnot (hheld.symm.subset hmem)
  · rcases List.mem_cons.mp (hafter.subset hk) with heq | hmem
    · exact hreturned k t heq.symm ht
    · exact h.returned k t (hbefore.symm.subset (List.mem_cons_of_mem _ hmem)) ht
  · show p.tasksTotal = UInt64.ofNat (p.caller.pushing.length + p.tasks.length +
      ((p.threads.set i w').filterMap Worker.task?).length)
    rw [h.total, unfinished, hheld.length_eq]

/-- `pop_task` takes the task that was pushed first of those that are left. -/
theorem Inv.pop (h : Inv step all p) {i k : Nat} {tasks : List Nat}
    (hi : p.threads[i]? = some .popTask) (htasks : p.tasks = k :: tasks) :
    Inv step all { p with tasks := tasks, threads := p.threads.set i (.execute k) } := by
  obtain ⟨rest, hbefore, hafter⟩ := exists_rest hi (.execute k)
  have hheld : ((p.threads.set i (.execute k)).filterMap Worker.task?).Perm (k :: p.held) :=
    (held_perm hafter).trans ((held_perm hbefore).symm.cons k)
  have hle := h.le
  have hqueue := h.queue
  rw [htasks, List.length_cons] at hle
  rw [htasks, List.length_cons, List.range'_succ, List.cons.injEq] at hqueue
  obtain ⟨hk, htail⟩ := hqueue
  have hstarted : p.started = p.futures.length - (tasks.length + 1) := by
    rw [started, htasks, List.length_cons]
  have hnext : p.futures.length - tasks.length = p.started + 1 := by omega
  refine ⟨h.pending, h.length_le, ?_, ?_, ?_, ?_, ?_, ?_, ?_, ?_, h.exited_set hi (by simp) _⟩
  · show tasks.length ≤ p.futures.length
    omega
  · show tasks = List.range' (p.futures.length - tasks.length) tasks.length
    rw [hnext]
    exact htail
  · intro l t hl ht
    have hl : p.futures.length - tasks.length ≤ l := hl
    exact h.untouched l t (by omega) ht
  · intro l hl
    show l < p.futures.length - tasks.length
    rcases List.mem_cons.mp (hheld.subset hl) with rfl | hl
    · omega
    · have hlt := h.held_lt l hl
      omega
  · refine hheld.nodup_iff.mpr (List.nodup_cons.mpr ⟨fun hmem => ?_, h.nodup⟩)
    have hlt := h.held_lt k hmem
    omega
  · intro l t hl ht hnot
    have hl : l < p.futures.length - tasks.length := hl
    have hne : l ≠ k := by
      rintro rfl
      exact hnot (hheld.symm.subset List.mem_cons_self)
    refine h.ended l t (by omega) ht fun hmem => hnot ?_
    exact hheld.symm.subset (List.mem_cons_of_mem _ hmem)
  · intro l t hl ht
    rcases List.mem_cons.mp (hafter.subset hl) with heq | hmem
    · cases heq
    · exact h.returned l t (hbefore.symm.subset (List.mem_cons_of_mem _ hmem)) ht
  · show p.tasksTotal = UInt64.ofNat (p.caller.pushing.length + tasks.length +
      ((p.threads.set i (.execute k)).filterMap Worker.task?).length)
    rw [h.total, unfinished, hheld.length_eq, htasks, List.length_cons, List.length_cons]
    congr 1
    omega

/-- A step of a task. -/
theorem Inv.task (h : Inv step all p) {i k : Nat} {t' : τ} {s' : σ}
    (hi : p.threads[i]? = some (.execute k)) :
    Inv step all { p with
      shared := s'
      futures := p.futures.set k t'
      threads := p.threads.set i (.execute k) } := by
  have hset : p.threads.set i (.execute k) = p.threads := by
    obtain ⟨hlt, hget⟩ := List.getElem?_eq_some_iff.mp hi
    rw [← hget, List.set_getElem_self]
  have hmem : k ∈ p.held := List.mem_filterMap.mpr ⟨_, List.mem_of_getElem? hi, rfl⟩
  have hk := h.held_lt k hmem
  have hstarted : (p.futures.set k t').length - p.tasks.length = p.started := by
    rw [List.length_set]
    rfl
  rw [hset]
  refine ⟨?_, ?_, ?_, ?_, ?_, ?_, h.nodup, ?_, ?_, h.total, h.exited⟩
  · show p.pending = all.drop (p.futures.set k t').length
    rw [List.length_set]
    exact h.pending
  · show (p.futures.set k t').length ≤ all.length
    rw [List.length_set]
    exact h.length_le
  · show p.tasks.length ≤ (p.futures.set k t').length
    rw [List.length_set]
    exact h.le
  · show p.tasks = List.range' ((p.futures.set k t').length - p.tasks.length) p.tasks.length
    rw [hstarted]
    exact h.queue
  · intro l t hl ht
    have hl : (p.futures.set k t').length - p.tasks.length ≤ l := hl
    have ht : (p.futures.set k t')[l]? = some t := ht
    rw [hstarted] at hl
    rw [List.getElem?_set_ne (by omega)] at ht
    exact h.untouched l t hl ht
  · intro l hl
    show l < (p.futures.set k t').length - p.tasks.length
    rw [hstarted]
    exact h.held_lt l hl
  · intro l t hl ht hnot
    have hl : l < (p.futures.set k t').length - p.tasks.length := hl
    have ht : (p.futures.set k t')[l]? = some t := ht
    rw [hstarted] at hl
    rw [List.getElem?_set_ne (by rintro rfl; exact hnot hmem)] at ht
    exact h.ended l t hl ht hnot
  · intro l t hl ht
    have ht : (p.futures.set k t')[l]? = some t := ht
    -- a task that has returned is not the one that takes the step
    have hne : k ≠ l := by
      rintro rfl
      obtain ⟨rest, hbefore, -⟩ := exists_rest hi .test
      have hnodup := (held_perm hbefore).nodup_iff.mp h.nodup
      rcases List.mem_cons.mp (hbefore.subset hl) with heq | hrest
      · cases heq
      · exact (List.nodup_cons.mp hnodup).1 (List.mem_filterMap.mpr ⟨_, hrest, rfl⟩)
    rw [List.getElem?_set_ne hne] at ht
    exact h.returned l t hl ht

/-- A task is counted off. -/
theorem Inv.decrement (h : Inv step all p) {i k : Nat} (hi : p.threads[i]? = some (.returned k)) :
    Inv step all { p with
      tasksTotal := p.tasksTotal - 1
      threads := p.threads.set i .test } := by
  obtain ⟨rest, hbefore, hafter⟩ := exists_rest hi .test
  have hheld : p.held.Perm (k :: (p.threads.set i .test).filterMap Worker.task?) :=
    (held_perm hbefore).trans ((held_perm hafter).symm.cons k)
  refine ⟨h.pending, h.length_le, h.le, h.queue, h.untouched,
    fun l hl => h.held_lt l (hheld.symm.subset (List.mem_cons_of_mem _ hl)),
    (List.nodup_cons.mp (hheld.nodup_iff.mp h.nodup)).2, fun l t hl ht hnot => ?_,
    fun l t hl ht => ?_, ?_, h.exited_set hi (by simp) _⟩
  · by_cases hmem : l ∈ p.held
    · rcases List.mem_cons.mp (hheld.subset hmem) with rfl | hmem
      · exact h.returned l t (List.mem_of_getElem? hi) ht
      · exact absurd hmem hnot
    · exact h.ended l t hl ht hmem
  · rcases List.mem_cons.mp (hafter.subset hl) with heq | hmem
    · cases heq
    · exact h.returned l t (hbefore.symm.subset (List.mem_cons_of_mem _ hmem)) ht
  · show p.tasksTotal - 1 = UInt64.ofNat (p.caller.pushing.length + p.tasks.length +
      ((p.threads.set i .test).filterMap Worker.task?).length)
    rw [h.total, unfinished, hheld.length_eq, List.length_cons, ← Nat.add_assoc, UInt64.ofNat_add]
    exact UInt64.add_sub_cancel _ _

/-- A step of the caller that leaves the tasks, the counter and the threads alone. -/
theorem Inv.quiet (h : Inv step all p) {paused running : Bool} {caller : Caller τ}
    {calls : List (Call τ)} (hbefore : p.caller.pushing = []) (hafter : caller.pushing = [])
    (hcalls : submitted p.calls = submitted calls)
    (hexited : ∀ (j : Nat) (w : Worker), j < joined { p with caller := caller } →
      p.threads[j]? = some w → w = .exited) :
    Inv step all { p with
      paused := paused
      running := running
      caller := caller
      calls := calls } := by
  refine ⟨?_, h.length_le, h.le, h.queue, h.untouched, h.held_lt, h.nodup, h.ended, h.returned, ?_, hexited⟩
  · show caller.pushing ++ submitted calls = _
    rw [hafter, ← hcalls, ← hbefore]
    exact h.pending
  · show p.tasksTotal = _
    rw [h.total]
    unfold unfinished
    rw [hbefore, hafter]
    rfl

theorem joined_afterWait (p : ThreadPool σ τ) (after : Option Teardown) :
    joined { p with caller := afterWait after } = 0 := by
  cases after with
  | none => rfl
  | some teardown => rfl

/-- A new thread has no task. -/
theorem Inv.create (h : Inv step all p) {left : Nat}
    (hcaller : p.caller = .createThreads (left + 1)) :
    Inv step all { p with threads := p.threads ++ [.test], caller := .createThreads left } := by
  have hheld : (p.threads ++ [Worker.test]).filterMap Worker.task? = p.held := by
    rw [List.filterMap_append]
    exact List.append_nil _
  refine ⟨?_, h.length_le, h.le, h.queue, h.untouched, ?_, ?_, ?_, fun k t hk ht => ?_, ?_, fun j w hj => ?_⟩
  · have hpending := h.pending
    rw [ThreadPool.pending, hcaller] at hpending
    exact hpending
  · show ∀ k ∈ (p.threads ++ [Worker.test]).filterMap Worker.task?, k < p.started
    rw [hheld]
    exact h.held_lt
  · show ((p.threads ++ [Worker.test]).filterMap Worker.task?).Nodup
    rw [hheld]
    exact h.nodup
  · show ∀ k t, k < p.started → p.futures[k]? = some t →
      k ∉ (p.threads ++ [Worker.test]).filterMap Worker.task? → Ended step t
    rw [hheld]
    exact h.ended
  · rcases List.mem_append.mp hk with hk | hk
    · exact h.returned k t hk ht
    · cases List.mem_singleton.mp hk
  · show p.tasksTotal = UInt64.ofNat (_ + _ + ((p.threads ++ [Worker.test]).filterMap _).length)
    rw [hheld, h.total, unfinished, hcaller]
    rfl
  · exact absurd hj (Nat.not_lt_zero j)

/-- `push_task` counts the task, then puts it at the end of the queue. -/
theorem Inv.push (h : Inv step all p) {task : τ} (hcaller : p.caller = .pushTask task) :
    Inv step all { p with
      futures := p.futures ++ [task]
      tasks := p.tasks ++ [p.futures.length]
      caller := .ready } := by
  have hle := h.le
  have hpending := h.pending
  rw [ThreadPool.pending, hcaller] at hpending
  have hnext : all[p.futures.length]? = some task := by
    rw [← List.head?_drop, ← hpending]
    rfl
  have hstarted : (p.futures ++ [task]).length - (p.tasks ++ [p.futures.length]).length =
      p.started := by
    rw [List.length_append, List.length_append, List.length_singleton, List.length_singleton,
      Nat.add_sub_add_right]
    rfl
  -- the new task is not yet started
  have hold : ∀ k t, k < p.started → (p.futures ++ [task])[k]? = some t →
      p.futures[k]? = some t := by
    intro k t hk ht
    rwa [List.getElem?_append_left (hk.trans_le (Nat.sub_le _ _))] at ht
  refine ⟨?_, ?_, ?_, ?_, fun k t hk ht => ?_, ?_, h.nodup, ?_, fun k t hk ht => ?_, ?_,
    fun j w hj => ?_⟩
  · show submitted p.calls = all.drop (p.futures ++ [task]).length
    rw [List.length_append, List.length_singleton, ← List.drop_drop, ← hpending]
    rfl
  · show (p.futures ++ [task]).length ≤ all.length
    rw [List.length_append, List.length_singleton]
    exact (List.getElem?_eq_some_iff.mp hnext).1
  · show (p.tasks ++ [p.futures.length]).length ≤ (p.futures ++ [task]).length
    rw [List.length_append, List.length_append, List.length_singleton, List.length_singleton]
    exact Nat.succ_le_succ hle
  · show p.tasks ++ [p.futures.length] = List.range' (_ - _) _
    rw [hstarted, List.length_append, List.length_singleton, List.range'_concat, ← h.queue,
      Nat.one_mul, started, Nat.sub_add_cancel hle]
  · have hk : (p.futures ++ [task]).length - (p.tasks ++ [p.futures.length]).length ≤ k := hk
    have ht : (p.futures ++ [task])[k]? = some t := ht
    rw [hstarted] at hk
    rcases Nat.lt_or_ge k p.futures.length with hlt | hge
    · rw [List.getElem?_append_left hlt] at ht
      exact h.untouched k t hk ht
    · rw [List.getElem?_append_right hge, List.getElem?_singleton] at ht
      split at ht
      · cases ht
        obtain rfl : k = p.futures.length := by omega
        exact hnext
      · cases ht
  · show ∀ k ∈ p.held, k < (p.futures ++ [task]).length - (p.tasks ++ [p.futures.length]).length
    rw [hstarted]
    exact h.held_lt
  · show ∀ k t, k < (p.futures ++ [task]).length - (p.tasks ++ [p.futures.length]).length → _
    rw [hstarted]
    exact fun k t hk ht => h.ended k t hk (hold k t hk ht)
  · have hmem : k ∈ p.held := List.mem_filterMap.mpr ⟨_, hk, rfl⟩
    exact h.returned k t hk (hold k t (h.held_lt k hmem) ht)
  · show p.tasksTotal = UInt64.ofNat (0 + (p.tasks ++ [p.futures.length]).length + p.held.length)
    rw [h.total, unfinished, hcaller, List.length_append]
    congr 2
    exact (Nat.add_comm _ _).trans (Nat.zero_add _).symm
  · exact absurd hj (Nat.not_lt_zero j)

/-- When all threads are joined, no task is left half done. -/
theorem Inv.held_of_joined (h : Inv step all p) (hjoined : p.threads.length ≤ p.joined) :
    (∀ w ∈ p.threads, w = .exited) ∧ p.held = [] := by
  have hexited : ∀ w ∈ p.threads, w = .exited := by
    intro w hw
    obtain ⟨j, hj⟩ := List.getElem?_of_mem hw
    exact h.exited j w ((List.getElem?_eq_some_iff.mp hj).1.trans_le hjoined) hj
  refine ⟨hexited, List.filterMap_eq_nil_iff.mpr fun w hw => ?_⟩
  rw [hexited w hw]
  rfl

/-- The new threads of `reset` start with the tasks that are in the queue. -/
theorem Inv.restart (h : Inv step all p) {teardown : Teardown} {i left : Nat} {wasPaused : Bool}
    (hcaller : p.caller = .destroyThreads teardown i) (hle : p.threads.length ≤ i) :
    Inv step all { p with
      threads := []
      paused := wasPaused
      running := true
      caller := .createThreads left } := by
  have hjoined : p.joined = i := by rw [joined, hcaller]
  obtain ⟨-, hheld⟩ := h.held_of_joined (hjoined ▸ hle)
  refine ⟨?_, h.length_le, h.le, h.queue, h.untouched, fun k hk => ?_, List.nodup_nil, fun k t hk ht _ => ?_,
    fun k t hk => ?_, ?_, fun j w hj => ?_⟩
  · have hpending := h.pending
    rw [ThreadPool.pending, hcaller] at hpending
    exact hpending
  · cases hk
  · refine h.ended k t hk ht ?_
    rw [hheld]
    exact List.not_mem_nil
  · cases hk
  · show p.tasksTotal = UInt64.ofNat (0 + p.tasks.length + 0)
    rw [h.total, unfinished, hcaller, hheld]
    rfl
  · exact absurd hj (Nat.not_lt_zero j)

theorem CallerMoves.inv {hardwareConcurrency : Nat} (h : Inv step all p)
    (hm : CallerMoves hardwareConcurrency step p q) : Inv step all q := by
  have hnone : ∀ (j : Nat) (w : Worker), j < 0 → p.threads[j]? = some w → w = .exited :=
    fun j _ hj => absurd hj (Nat.not_lt_zero j)
  cases hm with
  | created hcaller => exact h.quiet (by rw [hcaller]; rfl) rfl rfl hnone
  | create hcaller => exact h.create hcaller
  | @submit task calls hcaller hcalls =>
    refine ⟨?_, h.length_le, h.le, h.queue, h.untouched, h.held_lt, h.nodup, h.ended, h.returned, ?_, hnone⟩
    · have hpending := h.pending
      rw [ThreadPool.pending, hcaller, hcalls, submitted_cons] at hpending
      exact hpending
    · have hcount : 1 + p.tasks.length + p.held.length = p.unfinished + 1 := by
        rw [unfinished, hcaller]
        simp only [Caller.pushing, List.length_nil]
        omega
      show p.tasksTotal + 1 = UInt64.ofNat (1 + p.tasks.length + p.held.length)
      rw [hcount, UInt64.ofNat_add, h.total]
      rfl
  | push hcaller => exact h.push hcaller
  | wait hcaller hcalls _ _ =>
    refine h.quiet (by rw [hcaller]; rfl) (by rw [hcaller]; rfl) ?_ h.exited
    rw [hcalls, submitted_cons]
    rfl
  | waitForTasks hcaller hcalls =>
    refine h.quiet (by rw [hcaller]; rfl) rfl ?_ hnone
    rw [hcalls, submitted_cons]
    rfl
  | setPaused hcaller hcalls =>
    refine h.quiet (by rw [hcaller]; rfl) (by rw [hcaller]; rfl) ?_ h.exited
    rw [hcalls, submitted_cons]
    rfl
  | reset hcaller hcalls =>
    refine h.quiet (by rw [hcaller]; rfl) rfl ?_ hnone
    rw [hcalls, submitted_cons]
    rfl
  | destroy hcaller hcalls =>
    refine h.quiet (by rw [hcaller]; rfl) rfl ?_ hnone
    rw [hcalls, submitted_cons]
    rfl
  | @waited after hcaller _ _ =>
    refine h.quiet (by rw [hcaller]; rfl) (pushing_afterWait after) rfl ?_
    rw [joined_afterWait]
    exact hnone
  | getTasksRunning hcaller _ hnext =>
    rcases hnext with rfl | rfl
    · exact h.quiet (by rw [hcaller]; rfl) rfl rfl hnone
    · exact h.quiet (by rw [hcaller]; rfl) rfl rfl hnone
  | @gotTasksRunning after n caller hcaller hnext =>
    have hbefore : p.caller.pushing = [] := by
      rcases hcaller with hcaller | hcaller
      · rw [hcaller]; rfl
      · rw [hcaller]; rfl
    rcases hnext with rfl | rfl
    · refine h.quiet hbefore (pushing_afterWait after) rfl ?_
      rw [joined_afterWait]
      exact hnone
    · exact h.quiet hbefore rfl rfl hnone
  | stop hcaller => exact h.quiet (by rw [hcaller]; rfl) rfl rfl hnone
  | @join teardown i hcaller hi =>
    refine h.quiet (by rw [hcaller]; rfl) rfl rfl fun j w hj hw => ?_
    rcases Nat.lt_succ_iff_lt_or_eq.mp hj with hlt | rfl
    · exact h.exited j w (by rw [joined, hcaller]; exact hlt) hw
    · rw [hi] at hw
      cases hw
      rfl
  | restart hcaller hle => exact h.restart hcaller hle
  | @finish i hcaller hle =>
    refine h.quiet (by rw [hcaller]; rfl) rfl rfl fun j w hj hw => ?_
    exact h.exited j w (by rw [joined, hcaller]; exact lt_of_lt_of_le hj hle) hw

variable (hstable : ∀ s t, step s t = none → Ended step t)
include hstable

theorem WorkerMoves.inv (h : Inv step all p) {i : Nat} {w w' : Worker}
    (hi : p.threads[i]? = some w) (hm : WorkerMoves step p w q w') :
    Inv step all { q with threads := q.threads.set i w' } := by
  cases hm with
  | enter _ => exact h.move hi (by simp) rfl (by simp)
  | leave _ => exact h.move hi (by simp) rfl (by simp)
  | paused _ => exact h.move hi (by simp) rfl (by simp)
  | proceed _ => exact h.move hi (by simp) rfl (by simp)
  | empty _ => exact h.move hi (by simp) rfl (by simp)
  | pop htasks => exact h.pop hi htasks
  | task _ _ => exact h.task hi
  | @taskReturns k t ht hs =>
    refine h.move hi (by simp) rfl fun l u hl hu => ?_
    cases hl
    rw [ht] at hu
    cases hu
    exact hstable _ _ hs
  | decrement => exact h.decrement hi

theorem Reachable.inv {hardwareConcurrency threadCount : Nat} {s : σ} {calls : List (Call τ)}
    (h : Reachable hardwareConcurrency step threadCount s calls p) :
    Inv step (submitted calls) p := by
  induction h with
  | refl => exact inv_construct hardwareConcurrency threadCount s calls
  | tail _ hstep ih =>
    cases hstep with
    | worker hi hw => exact (workerStep_eq_some hw).inv hstable ih hi
    | caller totalFirst hc => exact (callerStep_eq_some hc).inv ih

end Invariant

end ThreadPool

end BloomHierarchy
