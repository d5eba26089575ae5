import BloomHierarchy.DBOperation
import BloomHierarchy.TreeSearch
import BloomHierarchy.Lib.Interleaving

/-!
# The threaded search for many values

`CheckInHierarchyMultiplyValueForOneThread` cuts the list of values into one
chunk for each thread and submits a task for each chunk to the thread pool. The
tasks share the tree and the files. Between any two steps of a task any other
task may run; a step is one test of the loop, one node of the tree or one filter
file.

An `int` is an `Int32`. What would be undefined behaviour, an index outside
the list or a tree without a root, is the phase `fault` of a task. An exception
ends the task with the phase `thrown` and is kept in its future.

Results:
1. `chunkBounds_eq`: the chunks of `n` values, without overflow.
2. `step_eq_some`: what a step of a task can be; the other results come from that.
3. `Moves.round`, `run_moves`: every step leaves less to do, so every run ends, and what
   every step of a task keeps holds in every run.
4. `Moves.taskInv`: what each step keeps as long as files can be read.
5. `threaded_search`: every interleaving ends, with every value looked up once,
   as the sequential code looks it up, and the tree unchanged.
-/

namespace BloomHierarchy

open Interleaving

/-! ## The sequential code -/

section Sequential
variable (hash : Bytes → UInt64) {N : Nat}

/-- The tables that `ScanningInBloomFilesMultiplyValue` reads. -/
def scanningInBloomFilesMultiplyValue (N : Nat) (d : Directory) (bloomfiles : List Bytes)
    (valuetofind : Bytes) : Except Stop (List Bytes) :=
  bloomfiles.foldlM (fun retrieved file => do
    let filter ← loadFilter N d file
    if filter.existsKey hash valuetofind then
      return retrieved ++ [transformFileName file bloomExt dataExt]
    else return retrieved) []

/-- What the lookup of one value did: its index, the files that the tree names,
and the tables that were read. -/
structure Lookup where
  index : Int
  bloomFiles : List Bytes
  retrieved : List Bytes
deriving DecidableEq

/-- One round of the loop of a task, without interruption. -/
def sequentialLookup (d : Directory) (treeHierarchy : BloomTree N) (index : Int) (value : Bytes) :
    Except Stop Lookup :=
  match treeHierarchy.checkExistanceThread hash value with
  | none => .error .undefined
  | some bloomFiles =>
    if bloomFiles.isEmpty then .ok ⟨index, bloomFiles, []⟩
    else do
      let retrieved ← scanningInBloomFilesMultiplyValue hash N d bloomFiles value
      return ⟨index, bloomFiles, retrieved⟩

end Sequential

/-! ## The tasks -/

/-- The bounds `start` and `end` of chunk `i`. -/
def chunkBounds (dataSize threadNmb i : Int32) : Int32 × Int32 :=
  let chunkSize := dataSize / threadNmb
  let start := i * chunkSize
  let stop := if i = threadNmb - 1 then dataSize else start + chunkSize
  (start, stop)

/-- Where a task is. -/
inductive Phase (N : Nat)
  /-- At the test of the loop. -/
  | loop
  /-- In the tree, with the nodes that are still to be visited. -/
  | search (value : Bytes) (work : List (Node N)) (blNames : List Bytes)
  /-- In the files that the tree named, with those that are left. -/
  | scan (value : Bytes) (bloomFiles rest retrieved : List Bytes)
  | returned
  | thrown (message : Bytes)
  | fault

/-- A task, with its own copy of the values. `lookups` records what it did. -/
structure Task (N : Nat) where
  data : List Bytes
  i : Int32
  stop : Int32
  phase : Phase N := .loop
  lookups : List Lookup := []

/-- What all tasks use. -/
structure SharedState (N : Nat) where
  treeHierarchy : BloomTree N
  dir : Directory

/-- `data[i]`, if it exists. -/
def elementAt (data : List Bytes) (i : Int32) : Option Bytes :=
  if i < 0 then none else data[i.toNatClampNeg]?

namespace Task
variable (hash : Bytes → UInt64) {N : Nat}

/-- The end of a round. -/
def next (t : Task N) (bloomFiles retrieved : List Bytes) : Task N :=
  { t with
    i := t.i + 1
    phase := .loop
    lookups := t.lookups ++ [⟨t.i.toInt, bloomFiles, retrieved⟩] }

/-- One step of a task; `none` if it has ended. -/
def step (s : SharedState N) (t : Task N) : Option (SharedState N × Task N) :=
  match t.phase with
  | .loop =>
    if t.i < t.stop then
      match elementAt t.data t.i, s.treeHierarchy.root with
      | some value, some root => some (s, { t with phase := .search value [root] [] })
      | _, _ => some (s, { t with phase := .fault })
    else some (s, { t with phase := .returned })
  | .search value [] blNames =>
    if blNames.isEmpty then some (s, t.next blNames [])
    else some (s, { t with phase := .scan value blNames blNames [] })
  | .search value (.mk children blValue filename :: work) blNames =>
    if filename ≠ Node.memory then
      some (s, { t with phase := .search value work (blNames ++ [filename]) })
    else if blValue.existsKey hash value then
      some (s, { t with phase := .search value (children ++ work) blNames })
    else some (s, { t with phase := .search value work blNames })
  | .scan _ bloomFiles [] retrieved => some (s, t.next bloomFiles retrieved)
  | .scan value bloomFiles (file :: rest) retrieved =>
    match BloomValue.loadFromFile N s.dir file with
    | .error message => some (s, { t with phase := .thrown message })
    | .ok filter =>
      let retrieved := if filter.existsKey hash value then
          retrieved ++ [transformFileName file bloomExt dataExt]
        else retrieved
      some (s, { t with phase := .scan value bloomFiles rest retrieved })
  | .returned => none
  | .thrown _ => none
  | .fault => none

end Task

/-- The task for chunk `i`. -/
def submittedTask (N : Nat) (threadNmb : Int32) (valuesToFind : List Bytes) (i : Nat) : Task N :=
  let bounds := chunkBounds (Int32.ofNat valuesToFind.length) threadNmb (Int32.ofNat i)
  { data := valuesToFind, i := bounds.1, stop := bounds.2 }

/-- `CheckInHierarchyMultiplyValueForOneThread` before it submits its first
task. It returns when all tasks have ended. -/
def threadedSearch {N : Nat} (s : SharedState N) (threadNmb : Int32) (valuesToFind : List Bytes) :
    Pool (SharedState N) (Task N) :=
  ⟨s, (List.range threadNmb.toNatClampNeg).map (submittedTask N threadNmb valuesToFind), []⟩

/-! ## What a step does -/

section Moves
variable (hash : Bytes → UInt64) {N : Nat}

/-- The steps of a task, one constructor for each branch of the source. None of them
changes the shared state. -/
inductive Moves (s : SharedState N) (t : Task N) : Task N → Prop
  /-- The next round begins at the root. -/
  | begin {value : Bytes} {root : Node N} :
      t.phase = .loop → t.i < t.stop → elementAt t.data t.i = some value →
      s.treeHierarchy.root = some root → Moves s t { t with phase := .search value [root] [] }
  /-- An index outside the list, or a tree without a root. -/
  | fault :
      t.phase = .loop → t.i < t.stop →
      (elementAt t.data t.i = none ∨ s.treeHierarchy.root = none) →
      Moves s t { t with phase := .fault }
  | returns : t.phase = .loop → ¬ t.i < t.stop → Moves s t { t with phase := .returned }
  /-- "Value not found in bloom". -/
  | notFound {value : Bytes} : t.phase = .search value [] [] → Moves s t (t.next [] [])
  | found {value : Bytes} {blNames : List Bytes} :
      t.phase = .search value [] blNames → blNames ≠ [] →
      Moves s t { t with phase := .scan value blNames blNames [] }
  | leaf {value : Bytes} {n : Node N} {work : List (Node N)} {blNames : List Bytes} :
      t.phase = .search value (n :: work) blNames → n.filename ≠ Node.memory →
      Moves s t { t with phase := .search value work (blNames ++ [n.filename]) }
  | accept {value : Bytes} {n : Node N} {work : List (Node N)} {blNames : List Bytes} :
      t.phase = .search value (n :: work) blNames → n.filename = Node.memory →
      n.blValue.existsKey hash value = true →
      Moves s t { t with phase := .search value (n.children ++ work) blNames }
  | reject {value : Bytes} {n : Node N} {work : List (Node N)} {blNames : List Bytes} :
      t.phase = .search value (n :: work) blNames → n.filename = Node.memory →
      ¬ n.blValue.existsKey hash value = true →
      Moves s t { t with phase := .search value work blNames }
  | scanned {value : Bytes} {bloomFiles retrieved : List Bytes} :
      t.phase = .scan value bloomFiles [] retrieved → Moves s t (t.next bloomFiles retrieved)
  | throw {value file message : Bytes} {bloomFiles rest retrieved : List Bytes} :
      t.phase = .scan value bloomFiles (file :: rest) retrieved →
      BloomValue.loadFromFile N s.dir file = .error message →
      Moves s t { t with phase := .thrown message }
  | load {value file : Bytes} {bloomFiles rest retrieved : List Bytes} {filter : BloomValue N} :
      t.phase = .scan value bloomFiles (file :: rest) retrieved →
      BloomValue.loadFromFile N s.dir file = .ok filter →
      Moves s t { t with
        phase := .scan value bloomFiles rest (if filter.existsKey hash value then
            retrieved ++ [transformFileName file bloomExt dataExt]
          else retrieved) }

/-- A task that has ended. -/
def Phase.Ended : Phase N → Prop
  | .loop => False
  | .search _ _ _ => False
  | .scan _ _ _ _ => False
  | .returned => True
  | .thrown _ => True
  | .fault => True

variable {hash} {s s' : SharedState N} {t t' : Task N}

theorem step_eq_some (h : Task.step hash s t = some (s', t')) : s' = s ∧ Moves hash s t t' := by
  unfold Task.step at h
  cases hphase : t.phase with
  | loop =>
    rw [hphase] at h
    dsimp only at h
    split at h
    · next hlt =>
      split at h
      · next value root hvalue hroot =>
        cases h
        exact ⟨rfl, .begin hphase hlt hvalue hroot⟩
      · next hmissing =>
        cases h
        refine ⟨rfl, .fault hphase hlt ?_⟩
        cases hvalue : elementAt t.data t.i with
        | none => exact .inl rfl
        | some value =>
          cases hroot : s.treeHierarchy.root with
          | none => exact .inr rfl
          | some root => exact absurd hroot (hmissing value root hvalue)
    · next hlt =>
      cases h
      exact ⟨rfl, .returns hphase hlt⟩
  | search value work blNames =>
    rw [hphase] at h
    cases work with
    | nil =>
      dsimp only at h
      split at h
      · next hempty =>
        obtain rfl := List.isEmpty_iff.mp hempty
        cases h
        exact ⟨rfl, .notFound hphase⟩
      · next hempty =>
        cases h
        exact ⟨rfl, .found hphase fun hnil => hempty (List.isEmpty_iff.mpr hnil)⟩
    | cons n work =>
      obtain ⟨children, blValue, filename⟩ := n
      dsimp only at h
      split at h
      · next hleaf =>
        cases h
        exact ⟨rfl, .leaf hphase hleaf⟩
      · next hinner =>
        split at h
        · next haccept =>
          cases h
          exact ⟨rfl, .accept hphase (not_not.mp hinner) haccept⟩
        · next hreject =>
          cases h
          exact ⟨rfl, .reject hphase (not_not.mp hinner) hreject⟩
  | scan value bloomFiles rest retrieved =>
    rw [hphase] at h
    cases rest with
    | nil =>
      cases h
      exact ⟨rfl, .scanned hphase⟩
    | cons file rest =>
      dsimp only at h
      split at h
      · next message hload =>
        cases h
        exact ⟨rfl, .throw hphase hload⟩
      · next filter hload =>
        cases h
        exact ⟨rfl, .load hphase hload⟩
  | returned =>
    rw [hphase] at h
    cases h
  | thrown message =>
    rw [hphase] at h
    cases h
  | fault =>
    rw [hphase] at h
    cases h

theorem Moves.step_eq (h : Moves hash s t t') : Task.step hash s t = some (s, t') := by
  unfold Task.step
  cases h with
  | begin hphase hlt hvalue hroot =>
    rw [hphase]
    dsimp only
    rw [if_pos hlt, hvalue, hroot]
  | fault hphase hlt hmissing =>
    rw [hphase]
    dsimp only
    rw [if_pos hlt]
    rcases hmissing with hvalue | hroot
    · rw [hvalue]
    · rw [hroot]
      cases elementAt t.data t.i with
      | none => rfl
      | some value => rfl
  | returns hphase hlt =>
    rw [hphase]
    exact if_neg hlt
  | notFound hphase =>
    rw [hphase]
    rfl
  | found hphase hne =>
    rw [hphase]
    exact if_neg fun hempty => hne (List.isEmpty_iff.mp hempty)
  | @leaf value n work blNames hphase hleaf =>
    obtain ⟨children, blValue, filename⟩ := n
    rw [hphase]
    exact if_pos hleaf
  | @accept value n work blNames hphase hinner haccept =>
    obtain ⟨children, blValue, filename⟩ := n
    rw [hphase]
    exact (if_neg (not_not.mpr hinner)).trans (if_pos haccept)
  | @reject value n work blNames hphase hinner hreject =>
    obtain ⟨children, blValue, filename⟩ := n
    rw [hphase]
    exact (if_neg (not_not.mpr hinner)).trans (if_neg hreject)
  | scanned hphase => rw [hphase]
  | throw hphase hload =>
    rw [hphase]
    dsimp only
    rw [hload]
  | load hphase hload =>
    rw [hphase]
    dsimp only
    rw [hload]

/-- A task that cannot go on has ended. -/
theorem ended_of_step (h : Task.step hash s t = none) : t.phase.Ended := by
  unfold Task.step at h
  cases hphase : t.phase with
  | loop =>
    rw [hphase] at h
    dsimp only at h
    split at h
    · split at h <;> cases h
    · cases h
  | search value work blNames =>
    rw [hphase] at h
    cases work with
    | nil =>
      dsimp only at h
      split at h <;> cases h
    | cons n work =>
      obtain ⟨children, blValue, filename⟩ := n
      dsimp only at h
      split at h
      · cases h
      · split at h <;> cases h
  | scan value bloomFiles rest retrieved =>
    rw [hphase] at h
    cases rest with
    | nil => cases h
    | cons file rest =>
      dsimp only at h
      split at h <;> cases h
  | returned => trivial
  | thrown message => trivial
  | fault => trivial

end Moves

/-! ## Chunks -/

/-- Chunk `i` of `n` values in `T` chunks, as natural numbers. -/
def chunkStart (n T i : Nat) : Nat :=
  i * (n / T)

def chunkStop (n T i : Nat) : Nat :=
  if i = T - 1 then n else i * (n / T) + n / T

theorem chunkStart_le_chunkStop {n T i : Nat} (hi : i < T) :
    chunkStart n T i ≤ chunkStop n T i := by
  unfold chunkStart chunkStop
  split
  · calc i * (n / T) ≤ T * (n / T) := Nat.mul_le_mul_right _ hi.le
      _ ≤ n := Nat.mul_div_le n T
  · exact Nat.le_add_right _ _

theorem chunkStop_le {n T i : Nat} (hi : i < T) : chunkStop n T i ≤ n := by
  unfold chunkStop
  split
  · exact Nat.le_refl n
  · calc i * (n / T) + n / T = (i + 1) * (n / T) := (Nat.succ_mul _ _).symm
      _ ≤ T * (n / T) := Nat.mul_le_mul_right _ hi
      _ ≤ n := Nat.mul_div_le n T

theorem ofNat_inj {a b : Nat} (ha : a < 2 ^ 31) (hb : b < 2 ^ 31) :
    Int32.ofNat a = Int32.ofNat b ↔ a = b := by
  refine ⟨fun h => ?_, fun h => h ▸ rfl⟩
  rw [← Int32.toNatClampNeg_ofNat_of_lt ha, h, Int32.toNatClampNeg_ofNat_of_lt hb]

/-- No bound overflows. -/
theorem chunkBounds_eq {n T i : Nat} (hn : n < 2 ^ 31) (hT : T < 2 ^ 31) (hi : i < T) :
    chunkBounds (Int32.ofNat n) (Int32.ofNat T) (Int32.ofNat i) =
      (Int32.ofNat (chunkStart n T i), Int32.ofNat (chunkStop n T i)) := by
  have hlast : Int32.ofNat i = Int32.ofNat T - 1 ↔ i = T - 1 := by
    have hsub : Int32.ofNat T - 1 = Int32.ofNat (T - 1) := (Int32.ofNat_sub T 1 (by omega)).symm
    rw [hsub, ofNat_inj (by omega) (by omega)]
  simp only [chunkBounds, chunkStart, chunkStop, ← Int32.ofNat_div hn hT, ← Int32.ofNat_mul,
    ← Int32.ofNat_add, hlast]
  split
  · rfl
  · rfl

theorem flatMap_range'_mul (c m : Nat) :
    ((List.range m).flatMap fun i => List.range' (i * c) c) = List.range (m * c) := by
  induction m with
  | zero => rw [Nat.zero_mul]; rfl
  | succ m ih =>
    rw [List.range_succ, List.flatMap_append, ih, List.flatMap_singleton, List.range_eq_range',
      List.range_eq_range', Nat.succ_mul, ← List.range'_append_1, Nat.zero_add]

/-- Put one after the other, the chunks are all indices in order. -/
theorem flatMap_chunks {n T : Nat} (hT : 1 ≤ T) :
    ((List.range T).flatMap fun i =>
      List.range' (chunkStart n T i) (chunkStop n T i - chunkStart n T i)) = List.range n := by
  obtain ⟨m, rfl⟩ : ∃ m, T = m + 1 := ⟨T - 1, by omega⟩
  -- all chunks but the last one have the same length
  have hfirst : ((List.range m).flatMap fun i => List.range' (chunkStart n (m + 1) i)
      (chunkStop n (m + 1) i - chunkStart n (m + 1) i)) = List.range (m * (n / (m + 1))) := by
    rw [← flatMap_range'_mul]
    refine List.flatMap_congr fun i hi => ?_
    have hne : i ≠ m + 1 - 1 := by
      have hlt := List.mem_range.mp hi
      omega
    rw [chunkStop, if_neg hne, chunkStart, Nat.add_sub_cancel_left]
  have hlast : chunkStop n (m + 1) m = n := if_pos rfl
  have hle : chunkStart n (m + 1) m ≤ n :=
    (chunkStart_le_chunkStop (Nat.lt_succ_self m)).trans_eq hlast
  rw [List.range_succ, List.flatMap_append, hfirst, List.flatMap_singleton, hlast,
    List.range_eq_range', List.range_eq_range', ← chunkStart]
  have happend : List.range' 0 (chunkStart n (m + 1) m) ++
      List.range' (0 + chunkStart n (m + 1) m) (n - chunkStart n (m + 1) m) = List.range' 0 _ :=
    List.range'_append_1
  rw [Nat.zero_add, Nat.add_sub_cancel' hle] at happend
  exact happend

/-! ## What the sequential code does -/

section Expected
variable (hash : Bytes → UInt64) {N : Nat}

/-- The tables behind the accepting ones of `files`. -/
def retrievedFrom (N : Nat) (d : Directory) (value : Bytes) (files : List Bytes) : List Bytes :=
  files.flatMap fun file =>
    if (loadedFilter N d file).existsKey hash value then [transformFileName file bloomExt dataExt]
    else []

theorem scanningInBloomFilesMultiplyValue_eq {d : Directory} {files : List Bytes}
    (hread : ∀ file ∈ files, (d.read? file).isSome = true) (value : Bytes) :
    scanningInBloomFilesMultiplyValue hash N d files value =
      .ok (retrievedFrom hash N d value files) := by
  rw [retrievedFrom, List.flatMap_eq_foldl]
  refine foldlM_ok (fun file hfile retrieved => ?_) []
  rw [loadFilter_eq (hread file hfile)]
  cases haccept : (loadedFilter N d file).existsKey hash value with
  | true => simp [bind, Except.bind, haccept, pure, Except.pure]
  | false => simp [bind, Except.bind, haccept, pure, Except.pure]

/-- The lookup of `value` in a tree with the root `root`. -/
def expectedLookup (d : Directory) (root : Node N) (index : Nat) (value : Bytes) : Lookup :=
  ⟨index, root.names hash value, retrievedFrom hash N d value (root.names hash value)⟩

theorem retrievedFrom_concat (d : Directory) (value : Bytes) (files : List Bytes) (file : Bytes) :
    retrievedFrom hash N d value (files ++ [file]) =
      if (loadedFilter N d file).existsKey hash value then
        retrievedFrom hash N d value files ++ [transformFileName file bloomExt dataExt]
      else retrievedFrom hash N d value files := by
  rw [retrievedFrom, List.flatMap_append, List.flatMap_singleton, ← retrievedFrom]
  split
  · rfl
  · exact List.append_nil _

theorem sequentialLookup_eq {d : Directory} {tree : BloomTree N} {root : Node N}
    (hroot : tree.root = some root) {value : Bytes}
    (hread : ∀ file ∈ root.names hash value, (d.read? file).isSome = true) (index : Nat) :
    sequentialLookup hash d tree index value = .ok (expectedLookup hash d root index value) := by
  have hthread : tree.checkExistanceThread hash value = some (root.names hash value) := by
    rw [BloomTree.checkExistanceThread, hroot]
    rfl
  rw [sequentialLookup, hthread, expectedLookup]
  cases hnames : root.names hash value with
  | nil => rfl
  | cons file files =>
    rw [hnames] at hread
    simp only [List.isEmpty_cons]
    rw [scanningInBloomFilesMultiplyValue_eq hash hread]
    rfl

end Expected

/-! ## How long a task can go on -/

mutual
/-- The number of nodes of a tree. -/
def Node.count {N : Nat} : Node N → Nat
  | .mk children _ _ => 1 + Node.countAll children

def Node.countAll {N : Nat} : List (Node N) → Nat
  | [] => 0
  | n :: rest => n.count + Node.countAll rest
end

theorem Node.countAll_append {N : Nat} (a b : List (Node N)) :
    Node.countAll (a ++ b) = Node.countAll a + Node.countAll b := by
  induction a with
  | nil => exact (Nat.zero_add _).symm
  | cons n a ih =>
    rw [List.cons_append, Node.countAll, ih, Node.countAll, Nat.add_assoc]

theorem Node.count_eq {N : Nat} (n : Node N) : n.count = 1 + Node.countAll n.children := by
  cases n
  rw [Node.count, Node.children_mk]

section Measure
variable {hash : Bytes → UInt64} {N : Nat}

/-- The root, or a node without children if there is none. -/
def BloomTree.rootOr (tree : BloomTree N) : Node N :=
  tree.root.getD (.leaf {} [])

/-- How many steps are left with `rounds` rounds to go, counting two for each node
and one for each file of a round. -/
def Phase.left (root : Node N) (rounds : Nat) : Phase N → Nat
  | .loop => rounds * (2 * root.count + 3) + 1
  | .search _ work blNames =>
    (rounds - 1) * (2 * root.count + 3) + (2 * Node.countAll work + blNames.length + 3)
  | .scan _ _ rest _ => (rounds - 1) * (2 * root.count + 3) + (rest.length + 2)
  | .returned => 0
  | .thrown _ => 0
  | .fault => 0

def Task.left (root : Node N) (t : Task N) : Nat :=
  t.phase.left root (t.stop.toInt - t.i.toInt).toNat

/-- A task in the middle of a round. -/
def Phase.InRound : Phase N → Prop
  | .loop => False
  | .search _ _ _ => True
  | .scan _ _ _ _ => True
  | .returned => False
  | .thrown _ => False
  | .fault => False

/-- What every task keeps, whatever its chunk: in the middle of a round it has not
come to its end, and what it has looked up lies below the largest `int`. -/
structure RoundInv (t : Task N) : Prop where
  inRound : t.phase.InRound → t.i < t.stop
  index : ∀ l ∈ t.lookups, l.index < 2 ^ 31 - 1

/-- Below the end `i + 1` does not overflow. -/
theorem toInt_add_one {i stop : Int32} (h : i < stop) : (i + 1).toInt = i.toInt + 1 := by
  have hlt := Int32.lt_iff_toInt_lt.mp h
  have hmax := stop.toInt_lt
  have hmin := i.le_toInt
  rw [Int32.toInt_add]
  exact Int.bmod_eq_of_le (by simp; omega) (by simp; omega)

variable {s : SharedState N} {t t' : Task N}

theorem RoundInv.next (h : RoundInv t) (hround : t.phase.InRound)
    (bloomFiles retrieved : List Bytes) : RoundInv (t.next bloomFiles retrieved) := by
  refine ⟨fun hin => hin.elim, fun l hl => ?_⟩
  rcases List.mem_append.mp hl with hl | hl
  · exact h.index l hl
  · obtain rfl := List.mem_singleton.mp hl
    have hlt := Int32.lt_iff_toInt_lt.mp (h.inRound hround)
    have hmax := t.stop.toInt_lt
    show t.i.toInt < _
    omega

/-- The end of a round takes one round off what is left. -/
theorem RoundInv.left_next (h : RoundInv t) (hround : t.phase.InRound) (root : Node N)
    (bloomFiles retrieved : List Bytes) :
    (t.next bloomFiles retrieved).left root =
      ((t.stop.toInt - t.i.toInt).toNat - 1) * (2 * root.count + 3) + 1 := by
  have hrounds : (t.stop.toInt - (t.i + 1).toInt).toNat = (t.stop.toInt - t.i.toInt).toNat - 1 := by
    rw [toInt_add_one (h.inRound hround)]
    omega
  show (t.stop.toInt - (t.i + 1).toInt).toNat * (2 * root.count + 3) + 1 = _
  rw [hrounds]

/-- Every step keeps that and leaves less to do. -/
theorem Moves.round (hm : Moves hash s t t') (h : RoundInv t) :
    RoundInv t' ∧ t'.left s.treeHierarchy.rootOr < t.left s.treeHierarchy.rootOr := by
  -- a step that changes the phase alone
  have hphase : ∀ phase : Phase N, (phase.InRound → t.i < t.stop) →
      phase.left s.treeHierarchy.rootOr (t.stop.toInt - t.i.toInt).toNat <
        t.phase.left s.treeHierarchy.rootOr (t.stop.toInt - t.i.toInt).toNat →
      RoundInv { t with phase := phase } ∧
        Task.left s.treeHierarchy.rootOr { t with phase := phase } <
          t.left s.treeHierarchy.rootOr :=
    fun phase hin hless => ⟨⟨hin, h.index⟩, hless⟩
  -- a step that ends the round
  have hdone : t.phase.InRound → ∀ bloomFiles retrieved : List Bytes,
      ((t.stop.toInt - t.i.toInt).toNat - 1) * (2 * s.treeHierarchy.rootOr.count + 3) + 1 <
        t.phase.left s.treeHierarchy.rootOr (t.stop.toInt - t.i.toInt).toNat →
      RoundInv (t.next bloomFiles retrieved) ∧
        (t.next bloomFiles retrieved).left s.treeHierarchy.rootOr <
          t.left s.treeHierarchy.rootOr := by
    intro hround bloomFiles retrieved hless
    refine ⟨h.next hround bloomFiles retrieved, ?_⟩
    rw [h.left_next hround]
    exact hless
  cases hm with
  | @begin value root hp hlt _ hroot =>
    refine hphase _ (fun _ => hlt) ?_
    have hrootOr : s.treeHierarchy.rootOr = root := by
      rw [BloomTree.rootOr, hroot]
      rfl
    have hpos : 0 < (t.stop.toInt - t.i.toInt).toNat := by
      have hlt' := Int32.lt_iff_toInt_lt.mp hlt
      omega
    -- the round that begins pays for the visit of the whole tree
    obtain ⟨rounds, hrounds⟩ : ∃ rounds, (t.stop.toInt - t.i.toInt).toNat = rounds + 1 :=
      ⟨_, (Nat.succ_pred_eq_of_pos hpos).symm⟩
    rw [hp, hrootOr, hrounds]
    simp only [Phase.left, Node.countAll, List.length_nil, Nat.succ_mul, Nat.add_sub_cancel]
    omega
  | fault hp hlt _ =>
    refine hphase _ (fun hin => hin.elim) ?_
    rw [hp]
    exact Nat.succ_pos _
  | returns hp hlt =>
    refine hphase _ (fun hin => hin.elim) ?_
    rw [hp]
    exact Nat.succ_pos _
  | notFound hp =>
    refine hdone (by rw [hp]; trivial) _ _ ?_
    rw [hp]
    simp only [Phase.left]
    omega
  | found hp _ =>
    refine hphase _ (fun _ => h.inRound (by rw [hp]; trivial)) ?_
    rw [hp]
    simp only [Phase.left]
    omega
  | @leaf value n work blNames hp _ =>
    refine hphase _ (fun _ => h.inRound (by rw [hp]; trivial)) ?_
    rw [hp]
    simp only [Phase.left, Node.countAll, n.count_eq, List.length_append, List.length_singleton]
    omega
  | @accept value n work blNames hp _ _ =>
    refine hphase _ (fun _ => h.inRound (by rw [hp]; trivial)) ?_
    rw [hp]
    simp only [Phase.left, Node.countAll, n.count_eq, Node.countAll_append]
    omega
  | @reject value n work blNames hp _ _ =>
    refine hphase _ (fun _ => h.inRound (by rw [hp]; trivial)) ?_
    rw [hp]
    simp only [Phase.left, Node.countAll, n.count_eq]
    omega
  | scanned hp =>
    refine hdone (by rw [hp]; trivial) _ _ ?_
    rw [hp]
    simp only [Phase.left]
    omega
  | throw hp _ =>
    refine hphase _ (fun hin => hin.elim) ?_
    rw [hp]
    simp only [Phase.left]
    omega
  | load hp _ =>
    refine hphase _ (fun _ => h.inRound (by rw [hp]; trivial)) ?_
    rw [hp]
    simp only [Phase.left, List.length_cons]
    omega

/-- What the submitted tasks have and every step keeps, with less to do, holds of all
tasks in every run, and the length of a run is bounded. -/
theorem run_moves {s : SharedState N} {threadNmb : Int32} {values : List Bytes}
    {I : Task N → Prop}
    (hinit : ∀ i < threadNmb.toNatClampNeg, I (submittedTask N threadNmb values i))
    (hmoves : ∀ t t', I t → Moves hash s t t' →
      I t' ∧ t'.left s.treeHierarchy.rootOr < t.left s.treeHierarchy.rootOr)
    {n : Nat} {p : Pool (SharedState N) (Task N)}
    (hrun : Run (Task.step hash) (threadedSearch s threadNmb values) n p) :
    n ≤ (threadedSearch s threadNmb values).work (Task.left s.treeHierarchy.rootOr) ∧
      p.shared = s ∧ ∀ t ∈ p.tasks, I t := by
  have hsubmitted : ∀ (k : Nat) (t : Task N),
      (threadedSearch s threadNmb values).pending[k]? = some t → I t := by
    intro k t hk
    obtain ⟨i, hi, rfl⟩ := List.mem_map.mp (List.mem_of_getElem? hk)
    exact hinit i (List.mem_range.mp hi)
  have hread : ∀ (_ : Nat) (t : Task N) (s' : SharedState N) (t' : Task N), I t →
      Task.step hash s t = some (s', t') → s' = s := fun _ t s' t' _ hs => (step_eq_some hs).1
  have hkeep : ∀ (_ : Nat) (t : Task N) (s' : SharedState N) (t' : Task N), I t →
      Task.step hash s t = some (s', t') → I t' := fun _ t s' t' h hs =>
    (hmoves t t' h (step_eq_some hs).2).1
  have hbounded := Run.bounded hread hsubmitted hkeep
    (fun _ t s' t' h hs => (hmoves t t' h (step_eq_some hs).2).2) hrun
  have hkept := Run.invariant hread hsubmitted hkeep hrun
  refine ⟨le_of_add_le_left hbounded, hkept.shared, fun t ht => ?_⟩
  obtain ⟨k, hk⟩ := List.getElem?_of_mem ht
  exact hkept.tasks k t hk

theorem submittedTask_round (threadNmb : Int32) (values : List Bytes) (i : Nat) :
    RoundInv (submittedTask N threadNmb values i) :=
  ⟨fun hin => hin.elim, fun l hl => by cases hl⟩

/-- Every run of the threaded search ends. -/
theorem run_bounded (s : SharedState N) (threadNmb : Int32) (values : List Bytes) {n : Nat}
    {p : Pool (SharedState N) (Task N)}
    (hrun : Run (Task.step hash) (threadedSearch s threadNmb values) n p) :
    n ≤ (threadedSearch s threadNmb values).work (Task.left s.treeHierarchy.rootOr) ∧
      p.shared = s ∧ ∀ t ∈ p.tasks, RoundInv t :=
  run_moves (fun i _ => submittedTask_round threadNmb values i) (fun _ _ h hm => hm.round h) hrun

end Measure

/-! ## What a task keeps -/

section Invariant
variable (hash : Bytes → UInt64) {N : Nat}

/-- The value that index `k` stands for. -/
def valueAt (values : List Bytes) (k : Nat) : Bytes :=
  values.getD k []

theorem valueAt_mem {values : List Bytes} {k : Nat} (hk : k < values.length) :
    valueAt values k ∈ values := by
  rw [valueAt, List.getD_eq_getElem _ _ hk]
  exact List.getElem_mem hk

/-- What holds while a task works on index `k` of a chunk that ends at `stop`. -/
def PhaseInv (d : Directory) (root : Node N) (values : List Bytes) (k stop : Nat) :
    Phase N → Prop
  | .loop => True
  | .search value work blNames =>
    k < stop ∧ value = valueAt values k ∧
      blNames ++ work.flatMap (fun n => n.names hash value) = root.names hash value
  | .scan value bloomFiles rest retrieved =>
    k < stop ∧ value = valueAt values k ∧ bloomFiles = root.names hash value ∧
      ∃ done, bloomFiles = done ++ rest ∧ retrieved = retrievedFrom hash N d value done
  | .returned => k = stop
  | .thrown _ => False
  | .fault => False

/-- The invariant of a task on the chunk from `start` to `stop`: its finished
lookups are those of the first indices of the chunk, in order. -/
structure TaskInv (d : Directory) (root : Node N) (values : List Bytes) (start stop : Nat)
    (t : Task N) : Prop where
  data : t.data = values
  stop_eq : t.stop = Int32.ofNat stop
  i_eq : t.i = Int32.ofNat (start + t.lookups.length)
  le : start + t.lookups.length ≤ stop
  lookups : t.lookups = (List.range' start t.lookups.length).map fun k =>
    expectedLookup hash d root k (valueAt values k)
  phase : PhaseInv hash d root values (start + t.lookups.length) stop t.phase

variable {hash} {d : Directory} {root : Node N} {values : List Bytes} {start stop : Nat}

namespace TaskInv
variable {t : Task N}

theorem lt_iff (h : TaskInv hash d root values start stop t) (hstop : stop < 2 ^ 31) :
    t.i < t.stop ↔ start + t.lookups.length < stop := by
  have hle := h.le
  rw [h.stop_eq, h.i_eq, Int32.ofNat_lt_iff_lt (by omega) hstop]

/-- A task in its loop reads the list inside its bounds. -/
theorem elementAt_eq (h : TaskInv hash d root values start stop t) (hstop : stop ≤ values.length)
    (hlen : values.length < 2 ^ 31) (hlt : start + t.lookups.length < stop) :
    elementAt t.data t.i = some (valueAt values (start + t.lookups.length)) := by
  have hk : start + t.lookups.length < values.length := by omega
  have hpos : ¬ Int32.ofNat (start + t.lookups.length) < 0 :=
    Int32.not_lt.mpr (Int32.zero_le_ofNat_of_lt (by omega))
  rw [h.data, h.i_eq, elementAt, if_neg hpos, Int32.toNatClampNeg_ofNat_of_lt (by omega), valueAt,
    List.getD_eq_getElem?_getD, List.getElem?_eq_getElem hk, Option.getD_some]

/-- A step that stays in the round. -/
theorem enter (h : TaskInv hash d root values start stop t) {phase : Phase N}
    (hphase : PhaseInv hash d root values (start + t.lookups.length) stop phase) :
    TaskInv hash d root values start stop { t with phase := phase } :=
  ⟨h.data, h.stop_eq, h.i_eq, h.le, h.lookups, hphase⟩

/-- The end of a round that did what the sequential code does. -/
theorem next (h : TaskInv hash d root values start stop t) (hstop : stop < 2 ^ 31)
    (hlt : start + t.lookups.length < stop) {bloomFiles retrieved : List Bytes}
    (hlookup : (⟨(start + t.lookups.length : Nat), bloomFiles, retrieved⟩ : Lookup) =
      expectedLookup hash d root (start + t.lookups.length)
        (valueAt values (start + t.lookups.length))) :
    TaskInv hash d root values start stop (t.next bloomFiles retrieved) := by
  have hlen : (t.next bloomFiles retrieved).lookups.length = t.lookups.length + 1 := by
    simp [Task.next]
  refine ⟨h.data, h.stop_eq, ?_, ?_, ?_, trivial⟩
  · show t.i + 1 = _
    rw [hlen, h.i_eq, ← Nat.add_assoc, Int32.ofNat_add (start + t.lookups.length) 1]
    rfl
  · rw [hlen]
    exact hlt
  · have hindex : t.i.toInt = (start + t.lookups.length : Nat) := by
      rw [h.i_eq, Int32.toInt_ofNat_of_lt (by omega)]
    rw [hlen, List.range'_concat, List.map_append, ← h.lookups, Nat.one_mul]
    show t.lookups ++ [⟨t.i.toInt, bloomFiles, retrieved⟩] = _
    rw [hindex, hlookup]
    rfl

/-- A task that has ended has finished its chunk. -/
theorem ended (h : TaskInv hash d root values start stop t) (hend : t.phase.Ended) :
    t.phase = .returned ∧ start + t.lookups.length = stop := by
  have hp := h.phase
  cases hphase : t.phase with
  | loop =>
    rw [hphase] at hend
    cases hend
  | search value work blNames =>
    rw [hphase] at hend
    cases hend
  | scan value bloomFiles rest retrieved =>
    rw [hphase] at hend
    cases hend
  | returned =>
    rw [hphase] at hp
    exact ⟨rfl, hp⟩
  | thrown message =>
    rw [hphase] at hp
    cases hp
  | fault =>
    rw [hphase] at hp
    cases hp

end TaskInv

/-- If there is a root and the files it names can be read, then every step keeps the
invariant. -/
theorem Moves.taskInv {s : SharedState N} {t t' : Task N} (hm : Moves hash s t t')
    (hroot : values ≠ [] → s.treeHierarchy.root = some root) (hstop : stop ≤ values.length)
    (hlen : values.length < 2 ^ 31)
    (hread : ∀ v ∈ values, ∀ file ∈ root.names hash v, (s.dir.read? file).isSome = true)
    (h : TaskInv hash s.dir root values start stop t) :
    TaskInv hash s.dir root values start stop t' := by
  have hbound : stop < 2 ^ 31 := hstop.trans_lt hlen
  have hp := h.phase
  -- a file that is still to be scanned is one that the tree names for the value
  have hfile : ∀ {value file : Bytes} {bloomFiles rest retrieved : List Bytes},
      t.phase = .scan value bloomFiles (file :: rest) retrieved →
      (s.dir.read? file).isSome = true := by
    intro value file bloomFiles rest retrieved hphase
    rw [hphase] at hp
    obtain ⟨hk, hv, hfiles, done, hdone, _⟩ := hp
    refine hread value (hv ▸ valueAt_mem (hk.trans_le hstop)) file ?_
    rw [← hfiles, hdone]
    exact List.mem_append_right _ List.mem_cons_self
  cases hm with
  | begin hphase hlt hvalue hr =>
    have hk := (h.lt_iff hbound).mp hlt
    have hne : values ≠ [] := List.ne_nil_of_length_pos (by omega)
    rw [h.elementAt_eq hstop hlen hk] at hvalue
    rw [hroot hne] at hr
    cases hvalue
    cases hr
    exact h.enter ⟨hk, rfl, by simp⟩
  | fault hphase hlt hmissing =>
    have hk := (h.lt_iff hbound).mp hlt
    have hne : values ≠ [] := List.ne_nil_of_length_pos (by omega)
    rw [h.elementAt_eq hstop hlen hk, hroot hne] at hmissing
    rcases hmissing with hmissing | hmissing
    · cases hmissing
    · cases hmissing
  | returns hphase hlt =>
    have hk := mt (h.lt_iff hbound).mpr hlt
    have hle := h.le
    refine h.enter ?_
    show start + t.lookups.length = stop
    omega
  | notFound hphase =>
    rw [hphase] at hp
    obtain ⟨hk, hv, hnames⟩ := hp
    refine h.next hbound hk ?_
    rw [expectedLookup, ← hv, ← hnames]
    rfl
  | found hphase _ =>
    rw [hphase] at hp
    obtain ⟨hk, hv, hnames⟩ := hp
    rw [List.flatMap_nil, List.append_nil] at hnames
    exact h.enter ⟨hk, hv, hnames, [], rfl, rfl⟩
  | leaf hphase hname =>
    rw [hphase] at hp
    obtain ⟨hk, hv, hnames⟩ := hp
    refine h.enter ⟨hk, hv, ?_⟩
    rw [← hnames, List.flatMap_cons, names_of_ne_memory hash _ hname, List.append_assoc]
  | accept hphase hname haccept =>
    rw [hphase] at hp
    obtain ⟨hk, hv, hnames⟩ := hp
    refine h.enter ⟨hk, hv, ?_⟩
    rw [← hnames, List.flatMap_cons, names_of_accepting hash _ hname haccept, List.flatMap_append]
  | reject hphase hname hreject =>
    rw [hphase] at hp
    obtain ⟨hk, hv, hnames⟩ := hp
    refine h.enter ⟨hk, hv, ?_⟩
    rw [← hnames, List.flatMap_cons, names_of_rejecting hash _ hname hreject, List.nil_append]
  | scanned hphase =>
    rw [hphase] at hp
    obtain ⟨hk, hv, hfiles, done, hdone, hretrieved⟩ := hp
    rw [List.append_nil] at hdone
    refine h.next hbound hk ?_
    rw [expectedLookup, ← hv, ← hfiles, hretrieved, hdone]
  | throw hphase hload =>
    rw [loadFromFile_eq (hfile hphase)] at hload
    cases hload
  | @load value file bloomFiles rest retrieved filter hphase hload =>
    rw [loadFromFile_eq (hfile hphase)] at hload
    cases hload
    rw [hphase] at hp
    obtain ⟨hk, hv, hfiles, done, hdone, hretrieved⟩ := hp
    refine h.enter ⟨hk, hv, hfiles, done ++ [file], ?_, ?_⟩
    · rw [hdone, List.append_assoc]
      rfl
    · rw [retrievedFrom_concat, hretrieved]

/-! ## Every interleaving -/

theorem submittedTask_inv (hlen : values.length < 2 ^ 31) {T : Nat} (hT : T < 2 ^ 31) {k : Nat}
    (hk : k < T) :
    TaskInv hash d root values (chunkStart values.length T k) (chunkStop values.length T k)
      (submittedTask N (Int32.ofNat T) values k) := by
  have hbounds := chunkBounds_eq hlen hT hk
  refine ⟨rfl, ?_, ?_, chunkStart_le_chunkStop hk, rfl, trivial⟩
  · exact congrArg Prod.snd hbounds
  · exact congrArg Prod.fst hbounds

theorem map_zipIdx_eq {α : Type*} (f : Nat → Bytes → α) (values : List Bytes) :
    values.zipIdx.map (fun e => f e.2 e.1) =
      (List.range values.length).map fun k => f k (valueAt values k) := by
  refine List.ext_getElem (by simp) fun k h₁ h₂ => ?_
  have hk : k < values.length := by simpa using h₁
  simp [valueAt, hk]

/-- When all tasks have finished their chunks, the lookups are those of all
indices in order. -/
theorem lookups_of_ended {T : Nat} (hT : 1 ≤ T) {tasks : List (Task N)} (hlength : tasks.length = T)
    (hinv : ∀ k t, tasks[k]? = some t →
      TaskInv hash d root values (chunkStart values.length T k) (chunkStop values.length T k) t ∧
        chunkStart values.length T k + t.lookups.length = chunkStop values.length T k) :
    tasks.flatMap Task.lookups = (List.range values.length).map fun k =>
      expectedLookup hash d root k (valueAt values k) := by
  have hmap : tasks.map Task.lookups = (List.range T).map fun k =>
      (List.range' (chunkStart values.length T k)
        (chunkStop values.length T k - chunkStart values.length T k)).map fun k =>
          expectedLookup hash d root k (valueAt values k) := by
    refine List.ext_getElem (by simp [hlength]) fun k h₁ h₂ => ?_
    have hk : k < tasks.length := by simpa using h₁
    obtain ⟨h, hend⟩ := hinv k tasks[k] (List.getElem?_eq_getElem hk)
    have hcount : tasks[k].lookups.length =
        chunkStop values.length T k - chunkStart values.length T k := by omega
    rw [List.getElem_map, List.getElem_map, List.getElem_range, ← hcount]
    exact h.lookups
  rw [List.flatMap_def, hmap, ← List.flatMap_def, ← flatMap_chunks (n := values.length) hT,
    List.map_flatMap]

/-- A task that has neither failed nor looked up anything otherwise than the
sequential code does, for some index of the list. -/
def Task.AsSequential (hash : Bytes → UInt64) (s : SharedState N) (values : List Bytes)
    (t : Task N) : Prop :=
  t.phase ≠ .fault ∧ (∀ message, t.phase ≠ .thrown message) ∧
    ∀ l ∈ t.lookups, ∃ e ∈ values.zipIdx, l.index = e.2 ∧
      sequentialLookup hash s.dir s.treeHierarchy e.2 e.1 = .ok l

theorem TaskInv.asSequential {s : SharedState N} {t : Task N}
    (hseq : ∀ k < values.length, sequentialLookup hash s.dir s.treeHierarchy k (valueAt values k) =
      .ok (expectedLookup hash s.dir root k (valueAt values k)))
    (hstop : stop ≤ values.length) (h : TaskInv hash s.dir root values start stop t) :
    t.AsSequential hash s values := by
  have hp := h.phase
  refine ⟨fun hfault => ?_, fun message hthrown => ?_, fun l hl => ?_⟩
  · rw [hfault] at hp
    exact hp
  · rw [hthrown] at hp
    exact hp
  · rw [h.lookups] at hl
    obtain ⟨k, hk, rfl⟩ := List.mem_map.mp hl
    have hle := h.le
    have hlt : k < values.length := by
      have hrange := List.mem_range'_1.mp hk
      omega
    have hmem : (valueAt values k, k) ∈ values.zipIdx := by
      rw [List.mk_mem_zipIdx_iff_getElem?, valueAt, List.getD_eq_getElem _ _ hlt]
      exact List.getElem?_eq_getElem hlt
    exact ⟨_, hmem, rfl, hseq k hlt⟩

/-- If the search for each value is defined, then there is a root, unless there is
nothing to search for. -/
theorem exists_root {s : SharedState N} (hread : ∀ v ∈ values, ∃ files,
    s.treeHierarchy.checkExistanceThread hash v = some files ∧
      ∀ file ∈ files, (s.dir.read? file).isSome = true) :
    ∃ root : Node N, (values ≠ [] → s.treeHierarchy.root = some root) ∧
      ∀ v ∈ values, ∀ file ∈ root.names hash v, (s.dir.read? file).isSome = true := by
  cases hroot : s.treeHierarchy.root with
  | none =>
    have hnil : values = [] := by
      refine List.eq_nil_iff_forall_not_mem.mpr fun v hv => ?_
      obtain ⟨files, hfiles, -⟩ := hread v hv
      rw [BloomTree.checkExistanceThread, hroot] at hfiles
      cases hfiles
    subst hnil
    exact ⟨.mk [] { bitArray := 0 } [], fun hne => absurd rfl hne, fun v hv => by cases hv⟩
  | some root =>
    refine ⟨root, fun _ => rfl, fun v hv => ?_⟩
    obtain ⟨files, hfiles, hreadable⟩ := hread v hv
    rw [BloomTree.checkExistanceThread, hroot] at hfiles
    cases hfiles
    exact hreadable

section Runs
variable {s : SharedState N} {T : Nat}

/-- Task `k` of `T` keeps the invariant of chunk `k`. -/
def ChunkInv (hash : Bytes → UInt64) (d : Directory) (root : Node N) (values : List Bytes)
    (T k : Nat) (t : Task N) : Prop :=
  k < T ∧ TaskInv hash d root values (chunkStart values.length T k) (chunkStop values.length T k) t

theorem chunkInv_submitted (hlen : values.length < 2 ^ 31) (hT : T < 2 ^ 31) (k : Nat) (t : Task N)
    (hk : (threadedSearch s (Int32.ofNat T) values).pending[k]? = some t) :
    ChunkInv hash d root values T k t := by
  rw [threadedSearch, Int32.toNatClampNeg_ofNat_of_lt hT, List.getElem?_map,
    Option.map_eq_some_iff] at hk
  obtain ⟨i, hi, rfl⟩ := hk
  obtain ⟨hlt, rfl⟩ := List.getElem?_eq_some_iff.mp hi
  have hk : k < T := by simpa using hlt
  rw [List.getElem_range]
  exact ⟨hk, submittedTask_inv hlen hT hk⟩

variable (hroot : values ≠ [] → s.treeHierarchy.root = some root) (hlen : values.length < 2 ^ 31)
  (hread : ∀ v ∈ values, ∀ file ∈ root.names hash v, (s.dir.read? file).isSome = true)
include hroot hlen hread

theorem ChunkInv.step (k : Nat) (t : Task N) (s' : SharedState N) (t' : Task N)
    (h : ChunkInv hash s.dir root values T k t) (hs : Task.step hash s t = some (s', t')) :
    ChunkInv hash s.dir root values T k t' :=
  ⟨h.1, (step_eq_some hs).2.taskInv hroot (chunkStop_le h.1) hlen hread h.2⟩

/-- What holds after any run of the threaded search. -/
theorem run_kept (hT : T < 2 ^ 31) {n : Nat} {p : Pool (SharedState N) (Task N)}
    (hrun : Run (Task.step hash) (threadedSearch s (Int32.ofNat T) values) n p) :
    Kept s (threadedSearch s (Int32.ofNat T) values).pending
      (ChunkInv hash s.dir root values T) p :=
  Run.invariant (fun _ _ _ _ _ hs => (step_eq_some hs).1) (chunkInv_submitted hlen hT)
    (ChunkInv.step hroot hlen hread) hrun

omit hroot hlen hread in
/-- At the end every task was submitted and has finished its chunk. -/
theorem kept_final (hT : T < 2 ^ 31) {p : Pool (SharedState N) (Task N)}
    (hkept : Kept s (threadedSearch s (Int32.ofNat T) values).pending
      (ChunkInv hash d root values T) p) (hfinal : p.Final (Task.step hash)) :
    p.tasks.length = T ∧ ∀ k t, p.tasks[k]? = some t → t.phase = .returned ∧
      chunkStart values.length T k + t.lookups.length = chunkStop values.length T k := by
  obtain ⟨hpending, hnone⟩ := hfinal
  refine ⟨?_, fun k t hk => (hkept.tasks k t hk).2.ended
    (ended_of_step (hnone t (List.mem_of_getElem? hk)))⟩
  have hle := hkept.length
  have hge := List.drop_eq_nil_iff.mp (hkept.pending.symm.trans hpending)
  simp only [threadedSearch, List.length_map, List.length_range,
    Int32.toNatClampNeg_ofNat_of_lt hT] at hle hge
  omega

omit hroot hlen hread in
/-- At the end the lookups are those of all indices in order. -/
theorem lookups_final (hT : T < 2 ^ 31) (hpos : 1 ≤ T) {p : Pool (SharedState N) (Task N)}
    (hkept : Kept s (threadedSearch s (Int32.ofNat T) values).pending
      (ChunkInv hash d root values T) p) (hfinal : p.Final (Task.step hash)) :
    p.tasks.flatMap Task.lookups = (List.range values.length).map fun k =>
      expectedLookup hash d root k (valueAt values k) := by
  obtain ⟨hlength, hended⟩ := kept_final hT hkept hfinal
  exact lookups_of_ended hpos hlength fun k t hk => ⟨(hkept.tasks k t hk).2, (hended k t hk).2⟩

omit hlen in
theorem sequentialLookup_valueAt {k : Nat} (hk : k < values.length) :
    sequentialLookup hash s.dir s.treeHierarchy k (valueAt values k) =
      .ok (expectedLookup hash s.dir root k (valueAt values k)) :=
  sequentialLookup_eq hash (hroot (List.ne_nil_of_mem (valueAt_mem hk)))
    (hread _ (valueAt_mem hk)) k

/-- At the end the lookups are those of the sequential code. -/
theorem lookups_sequential (hT : T < 2 ^ 31) (hpos : 1 ≤ T) {n : Nat}
    {p : Pool (SharedState N) (Task N)}
    (hrun : Run (Task.step hash) (threadedSearch s (Int32.ofNat T) values) n p)
    (hfinal : p.Final (Task.step hash)) :
    (p.tasks.flatMap Task.lookups).map Except.ok =
      values.zipIdx.map fun e => sequentialLookup hash s.dir s.treeHierarchy e.2 e.1 := by
  rw [lookups_final hT hpos (run_kept hroot hlen hread hT hrun) hfinal,
    map_zipIdx_eq (fun k v => sequentialLookup hash s.dir s.treeHierarchy k v), List.map_map]
  exact List.map_congr_left fun k hk =>
    (sequentialLookup_valueAt hroot hread (List.mem_range.mp hk)).symm

end Runs

/-- An `int` that is at least 1, such as a number of threads, is a natural number. -/
theorem exists_ofNat_of_one_le {i : Int32} (h : 1 ≤ i) :
    ∃ T < 2 ^ 31, i = Int32.ofNat T ∧ 1 ≤ T := by
  have hT := i.toNatClampNeg_lt
  have heq := (Int32.ofNat_toNatClampNeg i (Int32.le_of_lt h)).symm
  rw [heq] at h
  exact ⟨_, hT, heq, (Int32.ofNat_le_iff_le (by decide) hT).mp h⟩

/-- The threaded search for any list of values by any number of threads, in any
interleaving, if the search for each value in the tree is defined and the filter
files it names can be read. Every run ends; the tree and the files stay as they
are; no task fails or leaves the list; and at the end the lookups of the tasks,
one after the other, are those of the sequential code: each index once. -/
theorem threaded_search {values : List Bytes} (hlen : values.length < 2 ^ 31) {threadNmb : Int32}
    (hthreads : 1 ≤ threadNmb) {s : SharedState N}
    (hread : ∀ v ∈ values, ∃ files, s.treeHierarchy.checkExistanceThread hash v = some files ∧
      ∀ file ∈ files, (s.dir.read? file).isSome = true) :
    ∃ bound, ∀ n p, Run (Task.step hash) (threadedSearch s threadNmb values) n p →
      n ≤ bound ∧ p.shared = s ∧ (∀ t ∈ p.tasks, t.AsSequential hash s values) ∧
      (p.Final (Task.step hash) ∨ ∃ q, Step (Task.step hash) p q) ∧
      (p.Final (Task.step hash) →
        p.tasks.length = threadNmb.toNatClampNeg ∧ (∀ t ∈ p.tasks, t.phase = .returned) ∧
        (p.tasks.flatMap Task.lookups).map Except.ok =
          values.zipIdx.map fun e => sequentialLookup hash s.dir s.treeHierarchy e.2 e.1) := by
  obtain ⟨root, hroot, hfiles⟩ := exists_root hread
  obtain ⟨T, hT, rfl, hpos⟩ := exists_ofNat_of_one_le hthreads
  refine ⟨(threadedSearch s (Int32.ofNat T) values).work (Task.left s.treeHierarchy.rootOr),
    fun n p hrun => ?_⟩
  have hkept := run_kept hroot hlen hfiles hT hrun
  refine ⟨(run_bounded s _ values hrun).1, hkept.shared, fun t ht => ?_, final_or_step _ p,
    fun hfinal => ?_⟩
  · obtain ⟨k, hk⟩ := List.getElem?_of_mem ht
    obtain ⟨hlt, hinv⟩ := hkept.tasks k t hk
    exact hinv.asSequential (fun k hk => sequentialLookup_valueAt hroot hfiles hk)
      (chunkStop_le hlt)
  · obtain ⟨hlength, hended⟩ := kept_final hT hkept hfinal
    refine ⟨by rw [hlength, Int32.toNatClampNeg_ofNat_of_lt hT], fun t ht => ?_,
      lookups_sequential hroot hlen hfiles hT hpos hrun hfinal⟩
    obtain ⟨k, hk⟩ := List.getElem?_of_mem ht
    exact (hended k t hk).1

/-- One filter file that accepts everything, under a root. -/
def oneFilter : SharedState 8 where
  treeHierarchy :=
    { ratio := 3
      root := some (.mk [.mk [] { bitArray := 0xff#8 } (ascii ['d', '/', '2', '.', 'b'])]
        { bitArray := 0xff#8 } Node.memory) }
  dir :=
    { path := ascii ['d']
      files := [(ascii ['2', '.', 'b'], [3, 0, 0, 0, 0xff])]
      nodup := by decide }

theorem readable_oneFilter : ∀ v ∈ [ascii ['x'], ascii ['y'], ascii ['x']], ∃ files,
    oneFilter.treeHierarchy.checkExistanceThread polyHash v = some files ∧
      ∀ file ∈ files, (oneFilter.dir.read? file).isSome = true := by
  intro v hv
  refine ⟨[ascii ['d', '/', '2', '.', 'b']], ?_, by decide⟩
  rcases List.mem_cons.mp hv with rfl | hv
  · decide +kernel
  · rcases List.mem_cons.mp hv with rfl | hv
    · decide +kernel
    · obtain rfl := List.mem_singleton.mp hv
      decide +kernel

/-- Five threads for three values. -/
theorem threaded_search_oneFilter :
    [ascii ['x'], ascii ['y'], ascii ['x']].length < 2 ^ 31 ∧ (1 : Int32) ≤ 5 ∧
    ∃ bound, ∀ n p, Run (Task.step polyHash)
        (threadedSearch oneFilter 5 [ascii ['x'], ascii ['y'], ascii ['x']]) n p →
      n ≤ bound ∧ p.shared = oneFilter ∧
      (∀ t ∈ p.tasks, t.AsSequential polyHash oneFilter [ascii ['x'], ascii ['y'], ascii ['x']]) ∧
      (p.Final (Task.step polyHash) ∨ ∃ q, Step (Task.step polyHash) p q) ∧
      (p.Final (Task.step polyHash) →
        p.tasks.length = Int32.toNatClampNeg 5 ∧ (∀ t ∈ p.tasks, t.phase = .returned) ∧
        (p.tasks.flatMap Task.lookups).map Except.ok =
          [ascii ['x'], ascii ['y'], ascii ['x']].zipIdx.map fun e =>
            sequentialLookup polyHash oneFilter.dir oneFilter.treeHierarchy e.2 e.1) := by
  exact ⟨by decide, by decide, threaded_search (by decide) (by decide) readable_oneFilter⟩

end Invariant

end BloomHierarchy
