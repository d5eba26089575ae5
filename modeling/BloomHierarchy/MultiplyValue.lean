import BloomHierarchy.DbCreation
import BloomHierarchy.Threads

/-!
# The experiment with many values

`MainFlowMultiplyValues` creates a database of `itemNumber` items and looks random
values up in it, with the same `itemNumber`. The loop of `DbCreation` starts at 1 and
ends before `itemNumber`; the distribution of `CreateMultiplyValue` includes it.

Results:
1. `Reached.values`: the values of a database that one run of `DbCreation` created
   are those that the run put.
2. `multiplyValue_searches`: the searches of the experiment meet the assumptions of
   the threaded search, so each of them looks up every drawn value.
3. `queries_not_stored`: the values that are put and those that can be drawn differ
   by the last one for every number of items.
-/

namespace BloomHierarchy

open Interleaving

/-! ## The queries -/

/-- What the calls of a `std::uniform_int_distribution<>` from `min` to `max` return:
any numbers of the range. -/
structure Draws (min max : Int32) where
  draw : Nat → Int32
  min_le : ∀ k, min ≤ draw k
  le_max : ∀ k, draw k ≤ max

def createMultiplyValue (itemNmb dataSize : Int32) (distr : Draws 1 itemNmb) : List Bytes :=
  (List.range dataSize.toNatClampNeg).map fun i =>
    ascii ['V', 'a', 'l', 'u', 'e'] ++ intToString (distr.draw i)

/-- The array `threads`. -/
def threads : List Int32 :=
  [1, 2, 4, 8, 16, 32]

/-- `CheckInHierarchyMultiplyValueForThreads`: one search after the other, each with
its number of threads. No search changes the tree or the files. -/
def checkInHierarchyMultiplyValueForThreads {N : Nat} (s : SharedState N)
    (numThreads itemNmb dataSize : Int32) (distr : Draws 1 itemNmb) :
    List (Pool (SharedState N) (Task N)) :=
  let valuesToFind := createMultiplyValue itemNmb dataSize distr
  (threads.filter fun t => t ≤ numThreads).map fun t => threadedSearch s t valuesToFind

theorem one_le_of_mem_threads {t : Int32} (ht : t ∈ threads) : 1 ≤ t := by
  simp only [threads, List.mem_cons, List.not_mem_nil, or_false] at ht
  rcases ht with rfl | rfl | rfl | rfl | rfl | rfl
  · decide
  · decide
  · decide
  · decide
  · decide
  · decide

theorem length_createMultiplyValue (itemNmb dataSize : Int32) (distr : Draws 1 itemNmb) :
    (createMultiplyValue itemNmb dataSize distr).length < 2 ^ 31 := by
  rw [createMultiplyValue, List.length_map, List.length_range]
  exact dataSize.toNatClampNeg_lt

/-- Every search of the experiment ends in every interleaving, with the tree and the
files unchanged, and with every drawn value looked up once. -/
theorem multiplyValue_searches {hash : Bytes → UInt64} {N : Nat} {s : SharedState N}
    {numThreads itemNmb dataSize : Int32} {distr : Draws 1 itemNmb}
    (hread : ∀ v ∈ createMultiplyValue itemNmb dataSize distr, ∃ files,
      s.treeHierarchy.checkExistanceThread hash v = some files ∧
        ∀ file ∈ files, (s.dir.read? file).isSome = true) :
    ∀ search ∈ checkInHierarchyMultiplyValueForThreads s numThreads itemNmb dataSize distr,
      ∃ bound, ∀ n p, Run (Task.step hash) search n p →
        n ≤ bound ∧ p.shared = s ∧
        (p.Final (Task.step hash) →
          (p.tasks.flatMap Task.lookups).map Except.ok =
            (createMultiplyValue itemNmb dataSize distr).zipIdx.map fun e =>
              sequentialLookup hash s.dir s.treeHierarchy e.2 e.1) := by
  intro search hsearch
  obtain ⟨t, ht, rfl⟩ := List.mem_map.mp hsearch
  obtain ⟨root, hroot, hfiles⟩ := exists_root hread
  have hone : 1 ≤ t := one_le_of_mem_threads (List.mem_filter.mp ht).1
  obtain ⟨T, hT, rfl, hpos⟩ := exists_ofNat_of_one_le hone
  have hlen := length_createMultiplyValue itemNmb dataSize distr
  refine ⟨(threadedSearch s (Int32.ofNat T) (createMultiplyValue itemNmb dataSize distr)).work
    (Task.left s.treeHierarchy.rootOr), fun n p hrun => ?_⟩
  obtain ⟨hbound, hshared, _⟩ := run_bounded s (Int32.ofNat T) _ hrun
  exact ⟨hbound, hshared, lookups_sequential hroot hlen hfiles hT hpos hrun⟩

/-! ## The text of a value -/

/-- The value that `DbCreation` puts under the key of `i`. -/
def valueText (i : Nat) : Bytes :=
  ascii ['V', 'a', 'l', 'u', 'e'] ++ toDecimal i

theorem toDecimal_injective : Function.Injective toDecimal :=
  Function.LeftInverse.injective digitsValue_toDecimal

theorem valueText_injective : Function.Injective valueText :=
  fun _ _ h => toDecimal_injective (List.append_cancel_left h)

theorem intToString_ofNat {i : Nat} (hi : i < 2 ^ 31) :
    intToString (Int32.ofNat i) = toDecimal i := by
  have hpos : ¬ Int32.ofNat i < 0 := Int32.not_lt.mpr (Int32.zero_le_ofNat_of_lt hi)
  rw [intToString, if_neg hpos, List.nil_append, Int32.toInt_ofNat_of_lt hi, Int.natAbs_natCast]

theorem one_le_toNatClampNeg {n : Int32} (h : 1 ≤ n) : 1 ≤ n.toNatClampNeg := by
  obtain ⟨i, hi, rfl, hpos⟩ := exists_ofNat_of_one_le h
  rwa [Int32.toNatClampNeg_ofNat_of_lt hi]

/-- Where something is drawn the range is not empty. -/
theorem Draws.one_le {itemNmb : Int32} (distr : Draws 1 itemNmb) : 1 ≤ itemNmb :=
  Int32.le_trans (distr.min_le 0) (distr.le_max 0)

/-- A draw is a number from 1 to the number of items. -/
theorem Draws.exists_nat {itemNmb : Int32} (distr : Draws 1 itemNmb) (k : Nat) :
    ∃ i ∈ Set.Icc 1 itemNmb.toNatClampNeg, distr.draw k = Int32.ofNat i := by
  obtain ⟨n, hn, rfl, _⟩ := exists_ofNat_of_one_le distr.one_le
  obtain ⟨i, hi, hdraw, hpos⟩ := exists_ofNat_of_one_le (distr.min_le k)
  have hle := distr.le_max k
  rw [hdraw, Int32.ofNat_le_iff_le hi hn] at hle
  refine ⟨i, ⟨hpos, ?_⟩, hdraw⟩
  rw [Int32.toNatClampNeg_ofNat_of_lt hn]
  exact hle

/-- The distribution that returns `i` each time. -/
def Draws.const {itemNmb : Int32} {i : Nat} (hpos : 1 ≤ i) (hle : i ≤ itemNmb.toNatClampNeg) :
    Draws 1 itemNmb where
  draw _ := Int32.ofNat i
  min_le _ := by
    have hlt := itemNmb.toNatClampNeg_lt
    exact (Int32.ofNat_le_iff_le (by decide) (by omega)).mpr hpos
  le_max _ := by
    have hlt := itemNmb.toNatClampNeg_lt
    rw [Int32.le_iff_toInt_le, Int32.toInt_ofNat_of_lt (by omega)]
    rw [← Int32.toNat_toInt] at hle
    omega

/-! ## What is put and what is drawn -/

/-- The values that a run puts. -/
def DbRun.values (run : DbRun) : Set Bytes :=
  {v | ∃ key, (key, v) ∈ run.puts}

/-- The values that the experiment can look up. -/
def drawable (itemNmb dataSize : Int32) : Set Bytes :=
  {v | ∃ distr, v ∈ createMultiplyValue itemNmb dataSize distr}

theorem DbRun.values_eq {run : DbRun} (hp : run.percentageRandom = 0) :
    run.values = valueText '' Set.Ico 1 run.itemNumber.toNatClampNeg := by
  have hval : ∀ i, run.val i = valueText i := fun i => by rw [DbRun.val, if_pos hp, valueText]
  ext v
  constructor
  · rintro ⟨key, hmem⟩
    obtain ⟨i, hi, heq⟩ := List.mem_map.mp hmem
    obtain ⟨hlow, hhigh⟩ := List.mem_range'_1.mp hi
    cases heq
    exact ⟨i, ⟨hlow, by omega⟩, (hval i).symm⟩
  · rintro ⟨i, ⟨hlow, hhigh⟩, rfl⟩
    refine ⟨DbRun.key i, List.mem_map.mpr ⟨i, List.mem_range'_1.mpr ⟨hlow, by omega⟩, ?_⟩⟩
    rw [hval]

theorem mem_createMultiplyValue {itemNmb dataSize : Int32} {distr : Draws 1 itemNmb} {v : Bytes} :
    v ∈ createMultiplyValue itemNmb dataSize distr ↔
      ∃ k < dataSize.toNatClampNeg, ∃ i ∈ Set.Icc 1 itemNmb.toNatClampNeg,
        distr.draw k = Int32.ofNat i ∧ v = valueText i := by
  rw [createMultiplyValue, List.mem_map]
  constructor
  · rintro ⟨k, hk, rfl⟩
    obtain ⟨i, hi, hdraw⟩ := distr.exists_nat k
    have hlt := itemNmb.toNatClampNeg_lt
    refine ⟨k, List.mem_range.mp hk, i, hi, hdraw, ?_⟩
    rw [hdraw, intToString_ofNat (hi.2.trans_lt hlt), valueText]
  · rintro ⟨k, hk, i, hi, hdraw, rfl⟩
    have hlt := itemNmb.toNatClampNeg_lt
    refine ⟨k, List.mem_range.mpr hk, ?_⟩
    rw [hdraw, intToString_ofNat (hi.2.trans_lt hlt), valueText]

theorem drawable_eq {itemNmb dataSize : Int32} (hd : 0 < dataSize.toNatClampNeg) :
    drawable itemNmb dataSize = valueText '' Set.Icc 1 itemNmb.toNatClampNeg := by
  ext v
  constructor
  · rintro ⟨distr, hv⟩
    obtain ⟨_, _, i, hi, _, rfl⟩ := mem_createMultiplyValue.mp hv
    exact ⟨i, hi, rfl⟩
  · rintro ⟨i, hi, rfl⟩
    exact ⟨.const hi.1 hi.2, mem_createMultiplyValue.mpr ⟨0, hd, i, hi, rfl, rfl⟩⟩

/-! ## The database -/

theorem DbRun.key_injective : Function.Injective DbRun.key :=
  fun _ _ h => toDecimal_injective (List.append_cancel_left h)

theorem mem_of_lastPut {puts : List (Bytes × Bytes)} {key v : Bytes}
    (h : lastPut puts key = some v) : (key, v) ∈ puts := by
  obtain ⟨p, hfind, rfl⟩ := Option.map_eq_some_iff.mp h
  have hkey := List.find?_some hfind
  obtain rfl := of_decide_eq_true hkey
  exact List.mem_reverse.mp (List.mem_of_find?_eq_some hfind)

theorem exists_lastPut {puts : List (Bytes × Bytes)} {key v : Bytes} (h : (key, v) ∈ puts) :
    ∃ v', lastPut puts key = some v' := by
  refine Option.isSome_iff_exists.mp ?_
  rw [lastPut, Option.isSome_map, List.find?_isSome]
  exact ⟨(key, v), List.mem_reverse.mpr h, decide_eq_true rfl⟩

/-- Every key is put once, so what is put last under it is all that is put under it. -/
theorem DbRun.lastPut_puts {run : DbRun} {key v : Bytes} :
    lastPut run.puts key = some v ↔ (key, v) ∈ run.puts := by
  refine ⟨mem_of_lastPut, fun h => ?_⟩
  obtain ⟨v', hlast⟩ := exists_lastPut h
  obtain ⟨i, _, hi⟩ := List.mem_map.mp (mem_of_lastPut hlast)
  obtain ⟨j, _, hj⟩ := List.mem_map.mp h
  have hindex : i = j :=
    DbRun.key_injective ((congrArg Prod.fst hi).trans (congrArg Prod.fst hj).symm)
  rw [hlast]
  subst hindex
  rw [hi] at hj
  cases hj
  rfl

/-- After one run in an empty directory `get` returns the values that the run put,
wherever LevelDB keeps them. -/
theorem Reached.values {usage : List Entry → Nat} {run : DbRun} {s : Store}
    (h : Reached usage [run] s) : {v | ∃ key, s.get key = some v} = run.values := by
  have hputs : allPuts [run] = run.puts := List.flatMap_singleton _ _
  have hmax : (allPuts [run]).length < kMaxSequenceNumber.toNat := by
    have hitems := run.itemNumber.toNatClampNeg_lt
    have hbound : 2 ^ 31 < kMaxSequenceNumber.toNat := by decide
    rw [hputs, DbRun.puts, List.length_map, List.length_range']
    omega
  obtain ⟨hist, hinv, hhist⟩ := h.inv hmax
  ext v
  refine exists_congr fun key => ?_
  rw [hinv.get_eq, hhist, hputs, DbRun.lastPut_puts]

/-! ## The ranges -/

/-- The values that a run puts and those that the experiment can draw are both
`Value1` to `Value` with the number of items, so that every value that is looked up
was inserted. -/
structure SameRange (run : DbRun) (dataSize : Int32) : Prop where
  stored : run.values = valueText '' Set.Icc 1 run.itemNumber.toNatClampNeg
  drawn : drawable run.itemNumber dataSize = valueText '' Set.Icc 1 run.itemNumber.toNatClampNeg
  inserted : drawable run.itemNumber dataSize ⊆ run.values

theorem DbRun.last_not_stored {run : DbRun} (hp : run.percentageRandom = 0) :
    valueText run.itemNumber.toNatClampNeg ∉ run.values := by
  rw [DbRun.values_eq hp]
  rintro ⟨i, hi, heq⟩
  exact Nat.lt_irrefl _ (valueText_injective heq ▸ hi.2)

/-- The queries of one experiment were all inserted exactly if the number of items is
not among the draws. -/
theorem queries_stored_iff {run : DbRun} (hp : run.percentageRandom = 0) (dataSize : Int32)
    (distr : Draws 1 run.itemNumber) :
    (∀ v ∈ createMultiplyValue run.itemNumber dataSize distr, v ∈ run.values) ↔
      ∀ k < dataSize.toNatClampNeg, distr.draw k ≠ run.itemNumber := by
  constructor
  · intro h k hk hdraw
    obtain ⟨i, hi, heq⟩ := distr.exists_nat k
    have hlast : i = run.itemNumber.toNatClampNeg := by
      rw [← hdraw, heq, Int32.toNatClampNeg_ofNat_of_lt]
      exact hi.2.trans_lt run.itemNumber.toNatClampNeg_lt
    refine DbRun.last_not_stored hp (h _ ?_)
    exact mem_createMultiplyValue.mpr ⟨k, hk, i, hi, heq, by rw [hlast]⟩
  · intro h v hv
    obtain ⟨k, hk, i, hi, heq, rfl⟩ := mem_createMultiplyValue.mp hv
    have hne : i ≠ run.itemNumber.toNatClampNeg := by
      rintro rfl
      exact h k hk (heq.trans (Int32.ofNat_toNatClampNeg _ (Int32.le_of_lt distr.one_le)))
    rw [DbRun.values_eq hp]
    exact ⟨i, ⟨hi.1, lt_of_le_of_ne hi.2 hne⟩, rfl⟩

/-- With the values in order, `DbCreation` puts all but the last of those that can be
drawn, for every number of items, so the ranges never agree. The database that it
creates has the values it puts. The queries of one experiment were all inserted
exactly if the number of items is not among its draws. -/
theorem queries_not_stored {run : DbRun} (hp : run.percentageRandom = 0)
    (hn : 1 ≤ run.itemNumber) (dataSize : Int32) :
    ¬ SameRange run dataSize ∧
    run.values = valueText '' Set.Ico 1 run.itemNumber.toNatClampNeg ∧
    (∀ usage s, Reached usage [run] s → {v | ∃ key, s.get key = some v} = run.values) ∧
    (1 ≤ dataSize →
      drawable run.itemNumber dataSize =
        valueText '' Set.Icc 1 run.itemNumber.toNatClampNeg) ∧
    ∀ distr, (∀ v ∈ createMultiplyValue run.itemNumber dataSize distr, v ∈ run.values) ↔
      ∀ k < dataSize.toNatClampNeg, distr.draw k ≠ run.itemNumber := by
  refine ⟨fun h => ?_, DbRun.values_eq hp, fun usage s hreached => hreached.values, fun hd => ?_,
    queries_stored_iff hp dataSize⟩
  · have hlast : valueText run.itemNumber.toNatClampNeg ∈ run.values := by
      rw [h.stored]
      exact ⟨_, ⟨one_le_toNatClampNeg hn, Nat.le_refl _⟩, rfl⟩
    exact DbRun.last_not_stored hp hlast
  · exact drawable_eq (one_le_toNatClampNeg hd)

theorem queries_not_stored_oneItem :
    OneItem.run.percentageRandom = 0 ∧ 1 ≤ OneItem.run.itemNumber ∧
    ¬ SameRange OneItem.run 3 ∧
    OneItem.run.values = valueText '' Set.Ico 1 OneItem.run.itemNumber.toNatClampNeg ∧
    (∀ usage s, Reached usage [OneItem.run] s →
      {v | ∃ key, s.get key = some v} = OneItem.run.values) ∧
    (1 ≤ (3 : Int32) →
      drawable OneItem.run.itemNumber 3 =
        valueText '' Set.Icc 1 OneItem.run.itemNumber.toNatClampNeg) ∧
    ∀ distr, (∀ v ∈ createMultiplyValue OneItem.run.itemNumber 3 distr,
        v ∈ OneItem.run.values) ↔
      ∀ k < Int32.toNatClampNeg 3, distr.draw k ≠ OneItem.run.itemNumber :=
  ⟨rfl, by decide, queries_not_stored rfl (by decide) 3⟩

/-- With two items only `Value1` is put, and `Value2` can be drawn. -/
theorem secondValue_not_stored :
    valueText 2 ∈ drawable OneItem.run.itemNumber 1 ∧ valueText 2 ∉ OneItem.run.values ∧
      ¬ SameRange OneItem.run 1 := by
  have hnot : valueText 2 ∉ OneItem.run.values := DbRun.last_not_stored rfl
  have hdrawn : valueText 2 ∈ drawable OneItem.run.itemNumber 1 := by
    rw [drawable_eq (by decide)]
    exact ⟨2, ⟨by decide, by decide⟩, rfl⟩
  exact ⟨hdrawn, hnot, fun h => hnot (h.inserted hdrawn)⟩

end BloomHierarchy
