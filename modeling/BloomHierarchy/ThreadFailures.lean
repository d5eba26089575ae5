import BloomHierarchy.Threads

/-!
# Failed tasks of the threaded search

`submit` catches what a task throws and stores it in the future of the task.
`CheckInHierarchyMultiplyValueForOneThread` calls `wait()` on every future and never
`get()`, so it does not learn of an exception: it logs its time and returns.

Results:
1. `finishSearch_ne_thrown`: the function never throws.
2. `finishSearch_eq_ok`: it returns from every run, whatever files are missing, if
   the tree was built and the number of values is an `int`.
3. `sequentialLookup_eq_ok`: a value can be looked up to its end only if every file
   that the tree names for it can be read.
4. `threaded_search_reported_iff`: in every interleaving, the values are all searched
   or the function throws exactly if no file is missing and the number of values is
   an `int`.
-/

namespace BloomHierarchy

open Interleaving

/-! ## Futures -/

/-- What the promise of a task was given when the task ended. -/
inductive Future
  | value
  | exception (message : Bytes)
deriving DecidableEq, Repr

/-- `wait()` returns when the future is ready, whatever it holds. -/
def Future.wait : Future → Except Stop Unit
  | .value => .ok ()
  | .exception _ => .ok ()

section Futures
variable {N : Nat}

/-- The future of a task. While the task runs it is not ready, and a task whose
behaviour is undefined has none. -/
def Task.future? (t : Task N) : Option Future :=
  match t.phase with
  | .loop => none
  | .search _ _ _ => none
  | .scan _ _ _ _ => none
  | .returned => some .value
  | .thrown message => some (.exception message)
  | .fault => none

/-- The loop over the futures, when the tasks have ended. -/
def waitForAll : List (Task N) → Except Stop Unit
  | [] => .ok ()
  | t :: rest =>
    match t.future? with
    | none => .error .undefined
    | some future => do
      future.wait
      waitForAll rest

/-- The end of `CheckInHierarchyMultiplyValueForOneThread`: it waits, logs `threadNmb`
with the time, and returns. The result is what it logs. -/
def finishSearch (threadNmb : Int32) (tasks : List (Task N)) : Except Stop Int32 := do
  waitForAll tasks
  return threadNmb

theorem Future.wait_eq (future : Future) : future.wait = .ok () := by
  cases future with
  | value => rfl
  | exception message => rfl

theorem waitForAll_ne_thrown (tasks : List (Task N)) (message : Bytes) :
    waitForAll tasks ≠ .error (.thrown message) := by
  induction tasks with
  | nil => exact nofun
  | cons t rest ih =>
    rw [waitForAll]
    split
    · exact nofun
    · next future _ =>
      rw [future.wait_eq]
      exact ih

/-- Whatever the tasks have thrown, the function does not. -/
theorem finishSearch_ne_thrown (threadNmb : Int32) (tasks : List (Task N)) (message : Bytes) :
    finishSearch threadNmb tasks ≠ .error (.thrown message) := by
  intro h
  rw [finishSearch] at h
  cases hwait : waitForAll tasks with
  | error stop =>
    rw [hwait] at h
    cases h
    exact waitForAll_ne_thrown tasks message hwait
  | ok =>
    rw [hwait] at h
    cases h

end Futures

/-! ## The function returns -/

section Returns
variable {hash : Bytes → UInt64} {N : Nat} {s : SharedState N} {values : List Bytes}
  {t t' : Task N}

/-- No undefined behaviour so far. -/
def Phase.Defined : Phase N → Prop
  | .loop => True
  | .search _ _ _ => True
  | .scan _ _ _ _ => True
  | .returned => True
  | .thrown _ => True
  | .fault => False

/-- What a task keeps whether or not files can be read: it stays inside the list. -/
structure InBounds (values : List Bytes) (t : Task N) : Prop where
  round : RoundInv t
  data : t.data = values
  start : 0 ≤ t.i.toInt
  stop : t.stop.toInt ≤ values.length
  defined : t.phase.Defined

theorem InBounds.elementAt_ne_none (h : InBounds values t) (hlt : t.i < t.stop) :
    elementAt t.data t.i ≠ none := by
  have hstart := h.start
  have hstop := h.stop
  have hlt := Int32.lt_iff_toInt_lt.mp hlt
  have hpos : ¬ t.i < 0 := fun hneg => by
    have := Int32.lt_iff_toInt_lt.mp hneg
    rw [Int32.toInt_zero] at this
    omega
  rw [elementAt, if_neg hpos, h.data]
  refine List.getElem?_eq_none_iff.not.mpr ?_
  rw [← Int32.toNat_toInt]
  omega

theorem InBounds.next (h : InBounds values t) (hround : t.phase.InRound)
    (bloomFiles retrieved : List Bytes) : InBounds values (t.next bloomFiles retrieved) := by
  refine ⟨h.round.next hround bloomFiles retrieved, h.data, ?_, h.stop, trivial⟩
  have hstart := h.start
  show 0 ≤ (t.i + 1).toInt
  rw [toInt_add_one (h.round.inRound hround)]
  omega

theorem Moves.inBounds (hroot : values ≠ [] → s.treeHierarchy.root ≠ none)
    (h : InBounds values t) (hm : Moves hash s t t') : InBounds values t' := by
  have hround := (hm.round h.round).1
  cases hm with
  | begin => exact ⟨hround, h.data, h.start, h.stop, trivial⟩
  | fault hphase hlt hmissing =>
    have helement := h.elementAt_ne_none hlt
    rcases hmissing with hvalue | hnone
    · exact absurd hvalue helement
    · have hnil : values = [] := not_not.mp fun hne => hroot hne hnone
      rw [h.data, hnil] at helement
      exact absurd (by simp [elementAt]) helement
  | returns => exact ⟨hround, h.data, h.start, h.stop, trivial⟩
  | notFound hphase => exact h.next (by rw [hphase]; trivial) _ _
  | found => exact ⟨hround, h.data, h.start, h.stop, trivial⟩
  | leaf => exact ⟨hround, h.data, h.start, h.stop, trivial⟩
  | accept => exact ⟨hround, h.data, h.start, h.stop, trivial⟩
  | reject => exact ⟨hround, h.data, h.start, h.stop, trivial⟩
  | scanned hphase => exact h.next (by rw [hphase]; trivial) _ _
  | throw => exact ⟨hround, h.data, h.start, h.stop, trivial⟩
  | load => exact ⟨hround, h.data, h.start, h.stop, trivial⟩

theorem submittedTask_inBounds (hlen : values.length < 2 ^ 31) {T k : Nat} (hT : T < 2 ^ 31)
    (hk : k < T) : InBounds values (submittedTask N (Int32.ofNat T) values k) := by
  have hbounds := chunkBounds_eq hlen hT hk
  have hstop := chunkStop_le (n := values.length) hk
  have hle := chunkStart_le_chunkStop (n := values.length) hk
  refine ⟨submittedTask_round _ _ _, rfl, ?_, ?_, trivial⟩
  · rw [submittedTask, hbounds, Int32.toInt_ofNat_of_lt (by omega)]
    omega
  · rw [submittedTask, hbounds, Int32.toInt_ofNat_of_lt (by omega)]
    omega

theorem Task.future?_ne_none (hended : t.phase.Ended) (hdefined : t.phase.Defined) :
    t.future? ≠ none := by
  rw [Task.future?]
  cases hphase : t.phase with
  | loop =>
    rw [hphase] at hended
    exact hended.elim
  | search =>
    rw [hphase] at hended
    exact hended.elim
  | scan =>
    rw [hphase] at hended
    exact hended.elim
  | returned => exact Option.some_ne_none _
  | thrown message => exact Option.some_ne_none _
  | fault =>
    rw [hphase] at hdefined
    exact hdefined.elim

theorem waitForAll_eq_ok {tasks : List (Task N)}
    (h : ∀ t ∈ tasks, t.phase.Ended ∧ t.phase.Defined) : waitForAll tasks = .ok () := by
  induction tasks with
  | nil => rfl
  | cons t rest ih =>
    obtain ⟨⟨hended, hdefined⟩, hrest⟩ := List.forall_mem_cons.mp h
    rw [waitForAll]
    split
    · next hnone => exact absurd hnone (Task.future?_ne_none hended hdefined)
    · next future _ =>
      rw [future.wait_eq]
      exact ih hrest

/-- Whatever files are missing, every run ends with the function returning normally:
it logs its number of threads as after a complete search. -/
theorem finishSearch_eq_ok (hlen : values.length < 2 ^ 31) {threadNmb : Int32}
    (hthreads : 1 ≤ threadNmb) (hroot : values ≠ [] → s.treeHierarchy.root ≠ none) {n : Nat}
    {p : Pool (SharedState N) (Task N)}
    (hrun : Run (Task.step hash) (threadedSearch s threadNmb values) n p)
    (hfinal : p.Final (Task.step hash)) : finishSearch threadNmb p.tasks = .ok threadNmb := by
  obtain ⟨T, hT, rfl, -⟩ := exists_ofNat_of_one_le hthreads
  have hinit : ∀ i < (Int32.ofNat T).toNatClampNeg,
      InBounds values (submittedTask N (Int32.ofNat T) values i) := by
    intro i hi
    rw [Int32.toNatClampNeg_ofNat_of_lt hT] at hi
    exact submittedTask_inBounds hlen hT hi
  have hmoves : ∀ t t' : Task N, InBounds values t → Moves hash s t t' → InBounds values t' ∧
      t'.left s.treeHierarchy.rootOr < t.left s.treeHierarchy.rootOr := fun t t' h hm =>
    ⟨hm.inBounds hroot h, (hm.round h.round).2⟩
  obtain ⟨_, _, hbounds⟩ := run_moves hinit hmoves hrun
  rw [finishSearch, waitForAll_eq_ok]
  · rfl
  · intro t ht
    exact ⟨ended_of_step (hfinal.2 t ht), (hbounds t ht).defined⟩

end Returns

/-! ## Lookups that come to their end -/

theorem exists_of_foldlM_ok {ε σ α : Type} {f : σ → α → Except ε σ} {l : List α} {s s' : σ}
    (h : l.foldlM f s = .ok s') : ∀ a ∈ l, ∃ s₁ s₂, f s₁ a = .ok s₂ := by
  induction l generalizing s with
  | nil => exact nofun
  | cons a l ih =>
    rw [List.foldlM_cons] at h
    cases hfirst : f s a with
    | error e =>
      rw [hfirst] at h
      cases h
    | ok s₁ =>
      rw [hfirst] at h
      exact List.forall_mem_cons.mpr ⟨⟨s, s₁, hfirst⟩, ih h⟩

section Lookups
variable {hash : Bytes → UInt64} {N : Nat} {d : Directory}

theorem isSome_read?_of_loadFilter {file : Bytes} {filter : BloomValue N}
    (h : loadFilter N d file = .ok filter) : (d.read? file).isSome = true := by
  rw [loadFilter, BloomValue.loadFromFile] at h
  cases hread : d.read? file with
  | none =>
    rw [hread] at h
    cases h
  | some contents => rfl

theorem readable_of_scanning {files : List Bytes} {value : Bytes} {retrieved : List Bytes}
    (h : scanningInBloomFilesMultiplyValue hash N d files value = .ok retrieved) :
    ∀ file ∈ files, (d.read? file).isSome = true := by
  intro file hfile
  obtain ⟨before, after, hround⟩ := exists_of_foldlM_ok h file hfile
  cases hload : loadFilter N d file with
  | error stop =>
    rw [hload] at hround
    cases hround
  | ok filter => exact isSome_read?_of_loadFilter hload

/-- A lookup that comes to its end has read every file that the tree names. -/
theorem sequentialLookup_eq_ok {tree : BloomTree N} {index : Int} {value : Bytes} {l : Lookup}
    (h : sequentialLookup hash d tree index value = .ok l) :
    l.index = index ∧ ∃ files, tree.checkExistanceThread hash value = some files ∧
      ∀ file ∈ files, (d.read? file).isSome = true := by
  unfold sequentialLookup at h
  split at h
  · cases h
  · next files hfiles =>
    split at h
    · next hempty =>
      obtain rfl := List.isEmpty_iff.mp hempty
      cases h
      exact ⟨rfl, [], hfiles, nofun⟩
    · cases hscan : scanningInBloomFilesMultiplyValue hash N d files value with
      | error stop =>
        rw [hscan] at h
        cases h
      | ok retrieved =>
        rw [hscan] at h
        cases h
        exact ⟨rfl, files, hfiles, readable_of_scanning hscan⟩

end Lookups

/-! ## Reported failures -/

section Reported
variable (hash : Bytes → UInt64) {N : Nat}

/-- Every value was looked up to its end, as the sequential code does it. -/
def SearchedAll (s : SharedState N) (values : List Bytes) (tasks : List (Task N)) : Prop :=
  ∀ e ∈ values.zipIdx, ∃ t ∈ tasks, ∃ l ∈ t.lookups,
    sequentialLookup hash s.dir s.treeHierarchy e.2 e.1 = .ok l

/-- The function throws, or it has searched every value. -/
def Reported (s : SharedState N) (threadNmb : Int32) (values : List Bytes)
    (tasks : List (Task N)) : Prop :=
  (∃ message, finishSearch threadNmb tasks = .error (.thrown message)) ∨
    SearchedAll hash s values tasks

variable {hash} {s : SharedState N} {values : List Bytes}

theorem reported_iff (threadNmb : Int32) (tasks : List (Task N)) :
    Reported hash s threadNmb values tasks ↔ SearchedAll hash s values tasks := by
  refine or_iff_right ?_
  rintro ⟨message, h⟩
  exact finishSearch_ne_thrown threadNmb tasks message h

/-- No task looks the last one of `2 ^ 31` values up. -/
theorem SearchedAll.length_lt {tasks : List (Task N)} (h : SearchedAll hash s values tasks)
    (hround : ∀ t ∈ tasks, RoundInv t) : values.length < 2 ^ 31 := by
  by_contra hlen
  have hlast : values.length - 1 < values.length := by omega
  have hmem : (values[values.length - 1], values.length - 1) ∈ values.zipIdx :=
    List.mk_mem_zipIdx_iff_getElem?.mpr (List.getElem?_eq_getElem hlast)
  obtain ⟨t, ht, l, hl, hlookup⟩ := h _ hmem
  have hindex := (hround t ht).index l hl
  rw [(sequentialLookup_eq_ok hlookup).1] at hindex
  dsimp only at hindex
  omega

theorem SearchedAll.readable {tasks : List (Task N)} (h : SearchedAll hash s values tasks) :
    ∀ v ∈ values, ∃ files, s.treeHierarchy.checkExistanceThread hash v = some files ∧
      ∀ file ∈ files, (s.dir.read? file).isSome = true := by
  intro v hv
  obtain ⟨k, hk⟩ := List.getElem?_of_mem hv
  obtain ⟨t, _, l, _, hlookup⟩ := h (v, k) (List.mk_mem_zipIdx_iff_getElem?.mpr hk)
  exact (sequentialLookup_eq_ok hlookup).2

theorem searchedAll_of_lookups {tasks : List (Task N)}
    (h : (tasks.flatMap Task.lookups).map Except.ok =
      values.zipIdx.map fun e => sequentialLookup hash s.dir s.treeHierarchy e.2 e.1) :
    SearchedAll hash s values tasks := by
  intro e he
  have hmem : sequentialLookup hash s.dir s.treeHierarchy e.2 e.1 ∈
      (tasks.flatMap Task.lookups).map Except.ok := by
    rw [h]
    exact List.mem_map_of_mem he
  obtain ⟨l, hl, heq⟩ := List.mem_map.mp hmem
  obtain ⟨t, ht, hlt⟩ := List.mem_flatMap.mp hl
  exact ⟨t, ht, l, hlt, heq.symm⟩

/-- The threaded search for any list of values by any number of threads, in any
interleaving and with any files missing. Every run ends, and at its end either every
value was searched or the function throws, exactly if the number of values is an
`int`, the search in the tree is defined for each of them, and the files that the
tree names can be read. -/
theorem threaded_search_reported_iff (values : List Bytes) {threadNmb : Int32}
    (hthreads : 1 ≤ threadNmb) (s : SharedState N) :
    ∃ bound, ∀ n p, Run (Task.step hash) (threadedSearch s threadNmb values) n p →
      n ≤ bound ∧ (p.Final (Task.step hash) ∨ ∃ q, Step (Task.step hash) p q) ∧
      (p.Final (Task.step hash) →
        (Reported hash s threadNmb values p.tasks ↔
          values.length < 2 ^ 31 ∧
          ∀ v ∈ values, ∃ files, s.treeHierarchy.checkExistanceThread hash v = some files ∧
            ∀ file ∈ files, (s.dir.read? file).isSome = true)) := by
  refine ⟨(threadedSearch s threadNmb values).work (Task.left s.treeHierarchy.rootOr),
    fun n p hrun => ?_⟩
  obtain ⟨hbound, _, hround⟩ := run_bounded s threadNmb values hrun
  refine ⟨hbound, final_or_step _ p, fun hfinal => ?_⟩
  rw [reported_iff]
  constructor
  · intro h
    exact ⟨h.length_lt hround, h.readable⟩
  · rintro ⟨hlen, hread⟩
    obtain ⟨root, hroot, hfiles⟩ := exists_root hread
    obtain ⟨T, hT, rfl, hpos⟩ := exists_ofNat_of_one_le hthreads
    exact searchedAll_of_lookups (lookups_sequential hroot hlen hfiles hT hpos hrun hfinal)

/-- Two threads for three values, with every file there. -/
theorem threaded_search_reported_oneFilter :
    (1 : Int32) ≤ 2 ∧
    ∃ bound, ∀ n p, Run (Task.step polyHash)
        (threadedSearch oneFilter 2 [ascii ['x'], ascii ['y'], ascii ['x']]) n p →
      n ≤ bound ∧ (p.Final (Task.step polyHash) ∨ ∃ q, Step (Task.step polyHash) p q) ∧
      (p.Final (Task.step polyHash) →
        Reported polyHash oneFilter 2 [ascii ['x'], ascii ['y'], ascii ['x']] p.tasks) := by
  obtain ⟨bound, h⟩ := @threaded_search_reported_iff polyHash 8
    [ascii ['x'], ascii ['y'], ascii ['x']] 2 (by decide) oneFilter
  refine ⟨by decide, bound, fun n p hrun => ?_⟩
  obtain ⟨hbound, hstep, hreported⟩ := h n p hrun
  exact ⟨hbound, hstep, fun hfinal => (hreported hfinal).mpr ⟨by decide, readable_oneFilter⟩⟩

/-- The tree of `oneFilter`, when its filter file cannot be opened. -/
def lockedFilter : SharedState 8 :=
  { oneFilter with dir := { oneFilter.dir with canOpen := fun _ => false } }

/-- One thread for two values. The task ends with the exception of the first file, no
value has been searched, and the function returns and logs its one thread. -/
theorem threaded_search_lockedFilter :
    ∃ n p, Run (Task.step polyHash)
        (threadedSearch lockedFilter 1 [ascii ['x'], ascii ['y']]) n p ∧
      p.Final (Task.step polyHash) ∧ p.tasks.flatMap Task.lookups = [] ∧
      finishSearch 1 p.tasks = .ok 1 ∧
      ¬ Reported polyHash lockedFilter 1 [ascii ['x'], ascii ['y']] p.tasks := by
  -- The steps: submission, the test of the loop, the root, the leaf, the end of the
  -- search in the tree, and the file.
  let values := [ascii ['x'], ascii ['y']]
  let task : Task 8 := submittedTask 8 1 values 0
  let name := ascii ['d', '/', '2', '.', 'b']
  let leaf : Node 8 := .mk [] { bitArray := 0xff#8 } name
  let root : Node 8 := .mk [leaf] { bitArray := 0xff#8 } Node.memory
  have hsubmit : Run (Task.step polyHash) (threadedSearch lockedFilter 1 values) 1
      ⟨lockedFilter, [], [task]⟩ := .step .start .submit
  have hloop : Run (Task.step polyHash) (threadedSearch lockedFilter 1 values) 2
      ⟨lockedFilter, [], [{ task with phase := .search (ascii ['x']) [root] [] }]⟩ :=
    .step hsubmit (.task (k := 0) rfl (Moves.begin rfl (by decide) (by decide) rfl).step_eq)
  have haccept : root.blValue.existsKey polyHash (ascii ['x']) = true := by decide +kernel
  have hmemory : leaf.filename ≠ Node.memory := by decide
  have hroot : Run (Task.step polyHash) (threadedSearch lockedFilter 1 values) 3
      ⟨lockedFilter, [], [{ task with phase := .search (ascii ['x']) [leaf] [] }]⟩ :=
    .step hloop (.task (k := 0) rfl (Moves.accept rfl rfl haccept).step_eq)
  have hleaf : Run (Task.step polyHash) (threadedSearch lockedFilter 1 values) 4
      ⟨lockedFilter, [], [{ task with phase := .search (ascii ['x']) [] [name] }]⟩ :=
    .step hroot (.task (k := 0) rfl
      (@Moves.leaf polyHash _ _ _ (ascii ['x']) leaf [] [] rfl hmemory).step_eq)
  have hfound : Run (Task.step polyHash) (threadedSearch lockedFilter 1 values) 5
      ⟨lockedFilter, [], [{ task with phase := .scan (ascii ['x']) [name] [name] [] }]⟩ :=
    .step hleaf (.task (k := 0) rfl (Moves.found rfl (List.cons_ne_nil name [])).step_eq)
  have hthrow : Run (Task.step polyHash) (threadedSearch lockedFilter 1 values) 6
      ⟨lockedFilter, [], [{ task with phase := .thrown (openError name) }]⟩ :=
    .step hfound (.task (k := 0) rfl (Moves.throw rfl rfl).step_eq)
  refine ⟨6, _, hthrow, ⟨rfl, fun t ht => ?_⟩, rfl, rfl, fun h => ?_⟩
  · obtain rfl := List.mem_singleton.mp ht
    rfl
  · obtain ⟨t, ht, l, hl, _⟩ := (reported_iff 1 _).mp h (ascii ['x'], 0) (by decide)
    obtain rfl := List.mem_singleton.mp ht
    cases hl

end Reported

end BloomHierarchy
