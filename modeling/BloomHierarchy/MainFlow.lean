import BloomHierarchy.DBOperation
import BloomHierarchy.TreeSearch

/-!
# The three search paths of `MainFlow`

`MainFlow` looks one value up three times: in the tables behind every
accepting filter file, in all tables, and in the tables behind the filter files
that the hierarchy names. Each pass lists the directory anew.

Results:
1. `sum_matchesBehind`: the tables behind the accepting filter files hold every
   match, whatever filter files are left over from tables that are gone.
2. `checkInHierarchy_fresh`: on a freshly built hierarchy the scan sees exactly
   the accepting filter files, unless the hierarchy names no file at all, and
   then the counters keep their old values.
3. `checkInHierarchy_result_iff`: when the two counters describe the lookup that
   was made.
4. `mainFlow_paths_agree`: the three paths agree, and what they count.
-/

namespace BloomHierarchy

/-! ## MainFlow -/

/-- The orders of the four listings `MainFlow` makes. -/
structure Listings where
  createBloomValue : ReaddirOrder
  scanningWithBloom : ReaddirOrder
  scanningWithoutBloom : ReaddirOrder
  createLeafHierarchyLevel : ReaddirOrder

/-- `MainFlow` copies the two counters after the scan of the filter files. -/
def Result.noHierarchy (res : Result) : Result :=
  { res with
    foundInLeafBloomNoHierarchy := res.foundInLeafBloom
    foundInSSTableNoHierarchy := res.foundInSSTable }

/-- It copies them again after the search in the hierarchy. -/
def Result.withHierarchy (res : Result) : Result :=
  { res with
    foundInLeafBloomWithHierarchy := res.foundInLeafBloom
    foundInSSTableWithHierarchy := res.foundInSSTable }

/-- `MainFlow` on the directory `d` that `DbCreation` leaves: the result, and the
sum that `ScanningWithoutBloom` keeps to itself. -/
def mainFlow (dump : Bytes → Bytes → List DBRecord) (hash : Bytes → UInt64) (N calls : Nat)
    (d : Directory) (orders : Listings) (treeRatio : Nat) (valuetofind : Bytes) (res : Result) :
    Except Stop (Result × Nat) := do
  let treeHierarchy : BloomTree N := { ratio := treeRatio }
  let d := createBloomValue dump hash N d orders.createBloomValue
  let res ← scanningWithBloom dump hash N d orders.scanningWithBloom valuetofind res
  let res := res.noHierarchy
  let foundInSSTable := scanningWithoutBloom dump d orders.scanningWithoutBloom valuetofind
  let treeHierarchy ← createLeafHierarchyLevel d orders.createLeafHierarchyLevel treeHierarchy
  let treeHierarchy ← createHierarchy calls treeHierarchy
  let (_, res) ← checkInHierarchy dump hash d treeHierarchy valuetofind res
  return (res.withHierarchy, foundInSSTable)

/-! ## The tables behind the filter files -/

section Behind
variable {dump : Bytes → Bytes → List DBRecord} {hash : Bytes → UInt64} {N : Nat}
  {d d' : Directory}

theorem sum_map_filter {α : Type} {p : α → Bool} {f : α → Nat} {l : List α}
    (h : ∀ a ∈ l, p a = false → f a = 0) : ((l.filter p).map f).sum = (l.map f).sum := by
  induction l with
  | nil => rfl
  | cons a l ih =>
    obtain ⟨ha, hl⟩ := List.forall_mem_cons.mp h
    rw [List.map_cons, List.sum_cons, ← ih hl, List.filter_cons]
    cases hp : p a with
    | true => rfl
    | false =>
      rw [ha hp, Nat.zero_add]
      rfl

theorem isSome_read?_pathOf (hd : d.Accessible) {name : Bytes} :
    (d.read? (d.pathOf name)).isSome = true ↔ name ∈ d.names := by
  rw [Directory.read?_pathOf hd, Option.isSome_iff_ne_none, ne_eq, Directory.contents?_eq_none,
    not_not]

theorem retrieveFromSStable_of_unreadable {file : Bytes} (h : ¬ (d.read? file).isSome = true)
    (value : Bytes) : retrieveFromSStable dump d file value = 0 := by
  have hnone : d.read? file = none := by simpa using h
  rw [retrieveFromSStable_eq, ssTableRecords, hnone]
  rfl

/-- The directory `d'` after `createBloomValue` has been run on `d`. -/
abbrev AfterCreate (dump : Bytes → Bytes → List DBRecord) (hash : Bytes → UInt64) (N : Nat)
    (d d' : Directory) : Prop :=
  FiltersBuilt dump hash N (fun stem => stem ++ dataExt ∈ d.names) d d'

/-- The filter file of a table holds the filter of its values. -/
theorem loadedFilter_of_table (hd : d.Accessible) (hb : AfterCreate dump hash N d d')
    {stem : Bytes} (h : stem ++ dataExt ∈ d'.names) :
    loadedFilter N d' (d'.pathOf (stem ++ bloomExt)) =
      tableFilter dump hash N d' (d'.pathOf (stem ++ dataExt)) := by
  have hrecords := hb.ssTableRecords hd stem
  apply BloomValue.ext
  rw [loadedFilter, Directory.read?_pathOf hb.accessible,
    hb.filter stem (hb.mem_names_table.mp h), Option.getD_some, loadedBits_savedBytes,
    tableFilter, tableFilter, hb.pathOf, hrecords]

/-- Behind a filter file that rejects the value there is no match: either its
table is gone, or the value is none of those inserted into the filter. -/
theorem matchesBehind_of_rejecting (hN : 0 < N) (hd : d.Accessible)
    (hb : AfterCreate dump hash N d d') {stem value : Bytes}
    (hreject : (loadedFilter N d' (d'.pathOf (stem ++ bloomExt))).existsKey hash value = false) :
    matchesBehind dump d' value (d'.pathOf (stem ++ bloomExt)) = 0 := by
  rw [matchesBehind, transformFileName_pathOf]
  by_cases htable : stem ++ dataExt ∈ d'.names
  · rw [loadedFilter_of_table hd hb htable] at hreject
    rw [retrieveFromSStable_eq, List.countP_eq_zero]
    intro r hr hvalue
    have haccept : (tableFilter dump hash N d' (d'.pathOf (stem ++ dataExt))).existsKey hash
        r.valData = true := BloomValue.existsKey_insertAll hN (List.mem_map_of_mem hr)
    rw [of_decide_eq_true hvalue, hreject] at haccept
    cases haccept
  · refine retrieveFromSStable_of_unreadable (fun hread => ?_) value
    exact htable ((isSome_read?_pathOf hb.accessible).mp hread)

/-- The tables behind the filter files are the tables, and paths that cannot be
read. -/
theorem perm_tables_behind (hb : AfterCreate dump hash N d d') (order order' : ReaddirOrder) :
    (((listFilesWithExtension d' order bloomExt).map
        fun file => transformFileName file bloomExt dataExt).filter
          fun file => (d'.read? file).isSome).Perm
      (listFilesWithExtension d' order' dataExt) := by
  have hd' := hb.accessible
  refine (List.perm_ext_iff_of_nodup ?_ (listFilesWithExtension_nodup hd' order' dataExt)).mpr
    fun p => ?_
  · exact (map_transformFileName_nodup hd' order bloomExt dataExt).filter _
  · rw [List.mem_filter, List.mem_map, mem_listFilesWithExtension hd']
    constructor
    · rintro ⟨⟨file, hfile, rfl⟩, hread⟩
      obtain ⟨stem, _, rfl⟩ := (mem_listFilesWithExtension hd').mp hfile
      rw [transformFileName_pathOf] at hread ⊢
      exact ⟨stem, (isSome_read?_pathOf hd').mp hread, rfl⟩
    · rintro ⟨stem, hstem, rfl⟩
      refine ⟨⟨d'.pathOf (stem ++ bloomExt), ?_, transformFileName_pathOf _ _ _ _⟩,
        (isSome_read?_pathOf hd').mpr hstem⟩
      have hbloom := hb.mem_names_bloom (hb.mem_names_table.mp hstem)
      exact (mem_listFilesWithExtension hd').mpr ⟨stem, hbloom, rfl⟩

/-- The tables behind the accepting filter files hold every match. -/
theorem sum_matchesBehind (hN : 0 < N) (hd : d.Accessible) (hb : AfterCreate dump hash N d d')
    (order order' : ReaddirOrder) (value : Bytes) :
    ((acceptingFiles hash N d' value (listFilesWithExtension d' order bloomExt)).map
      (matchesBehind dump d' value)).sum = scanningWithoutBloom dump d' order' value := by
  calc ((acceptingFiles hash N d' value (listFilesWithExtension d' order bloomExt)).map
        (matchesBehind dump d' value)).sum
      = ((listFilesWithExtension d' order bloomExt).map (matchesBehind dump d' value)).sum := by
        refine sum_map_filter fun file hfile hreject => ?_
        obtain ⟨stem, _, rfl⟩ := (mem_listFilesWithExtension hb.accessible).mp hfile
        exact matchesBehind_of_rejecting hN hd hb hreject
    _ = (((listFilesWithExtension d' order bloomExt).map
          fun file => transformFileName file bloomExt dataExt).map
            fun file => retrieveFromSStable dump d' file value).sum := by
        rw [List.map_map]
        rfl
    _ = ((((listFilesWithExtension d' order bloomExt).map
          fun file => transformFileName file bloomExt dataExt).filter
            fun file => (d'.read? file).isSome).map
              fun file => retrieveFromSStable dump d' file value).sum := by
        refine (sum_map_filter fun file _ hread => ?_).symm
        exact retrieveFromSStable_of_unreadable (by simp [hread]) value
    _ = scanningWithoutBloom dump d' order' value := by
        rw [scanningWithoutBloom_eq]
        exact ((perm_tables_behind hb order order').map _).sum_nat

/-- The scan of all tables counts the matching records of the tables that the directory
had before the filter files were built. -/
theorem scanningWithoutBloom_afterCreate (hd : d.Accessible) (hb : AfterCreate dump hash N d d')
    (order : ReaddirOrder) (value : Bytes) :
    scanningWithoutBloom dump d' order value =
      ((d.names.filter fun name => hasExtension name dataExt).map fun name =>
        (ssTableRecords dump d (d.pathOf name)).countP fun record => record.valData = value).sum := by
  have hperm : (listFilesWithExtension d' order dataExt).Perm
      ((d.names.filter fun name => hasExtension name dataExt).map d.pathOf) := by
    have hnodup : ((d.names.filter fun name => hasExtension name dataExt).map d.pathOf).Nodup :=
      (d.nodup.filter _).map fun _ _ h => d.pathOf_injective h
    refine (List.perm_ext_iff_of_nodup (listFilesWithExtension_nodup hb.accessible order dataExt)
      hnodup).mpr fun p => ?_
    rw [mem_listFilesWithExtension hb.accessible, List.mem_map]
    constructor
    · rintro ⟨stem, hstem, rfl⟩
      refine ⟨stem ++ dataExt, List.mem_filter.mpr ⟨hb.mem_names_table.mp hstem, ?_⟩,
        (hb.pathOf _).symm⟩
      exact hasExtension_iff.mpr ⟨stem, rfl⟩
    · rintro ⟨name, hname, rfl⟩
      obtain ⟨hmem, hext⟩ := List.mem_filter.mp hname
      obtain ⟨stem, rfl⟩ := hasExtension_iff.mp hext
      exact ⟨stem, hb.mem_names_table.mpr hmem, (hb.pathOf _).symm⟩
  rw [scanningWithoutBloom_eq, (hperm.map _).sum_nat, List.map_map]
  refine congrArg List.sum (List.map_congr_left fun name hname => ?_)
  obtain ⟨stem, rfl⟩ := hasExtension_iff.mp (List.mem_filter.mp hname).2
  show retrieveFromSStable dump d' (d.pathOf (stem ++ dataExt)) value = _
  rw [retrieveFromSStable_eq, hb.ssTableRecords hd]

/-- The filter files that accept the value, whatever order they are listed in. -/
theorem length_acceptingFiles (hb : AfterCreate dump hash N d d') (order : ReaddirOrder)
    (value : Bytes) :
    (acceptingFiles hash N d' value (listFilesWithExtension d' order bloomExt)).length =
      (d'.names.filter fun name => hasExtension name bloomExt).countP fun name =>
        (loadedFilter N d' (d.pathOf name)).existsKey hash value := by
  have hpaths : d'.pathOf = d.pathOf := funext fun name => hb.pathOf name
  rw [acceptingFiles, ← List.countP_eq_length_filter, listFilesWithExtension_eq hb.accessible,
    List.countP_map, hpaths]
  exact ((order.perm d'.names).filter _).countP_eq _

end Behind

/-! ## The hierarchy of a directory -/

section Hierarchy
variable {dump : Bytes → Bytes → List DBRecord} {hash : Bytes → UInt64} {N : Nat} {d : Directory}

/-- The leaves that `createLeafHierarchyLevel` makes of a list of files. -/
def leavesOf (N : Nat) (d : Directory) (files : List Bytes) : List (BloomValue N × Bytes) :=
  files.map fun file => (loadedFilter N d file, file)

/-- The hierarchy names every file whose own filter accepts the value. -/
theorem acceptingFiles_acceptedNames (hash : Bytes → UInt64) (N : Nat) (d : Directory) (r : Nat)
    (value : Bytes) (files : List Bytes) :
    acceptingFiles hash N d value (acceptedNames hash r (leavesOf N d files) value) =
      acceptingFiles hash N d value files := by
  have hloaded : ∀ e ∈ (leavesOf N d files).zipIdx, loadedFilter N d e.1.2 = e.1.1 := by
    intro e he
    obtain ⟨file, _, hfile⟩ := List.mem_map.mp (List.fst_mem_of_mem_zipIdx he)
    rw [← hfile]
  -- a leaf's own filter accepts only what its group accepts, so one test is enough
  have hfilter : ((leavesOf N d files).zipIdx.filter fun e =>
        (loadedFilter N d e.1.2).existsKey hash value &&
          (groupFilter r e.2 (leavesOf N d files)).existsKey hash value) =
      (leavesOf N d files).zipIdx.filter fun e =>
        (loadedFilter N d e.1.2).existsKey hash value := by
    refine List.filter_congr fun e he => ?_
    rw [hloaded e he]
    cases hleaf : e.1.1.existsKey hash value with
    | true => exact groupFilter_of_leaf he hleaf
    | false => rfl
  have hfst : (leavesOf N d files).zipIdx.map (fun e => e.1.2) = files := by
    have hmap : (leavesOf N d files).map Prod.snd = files := by
      rw [leavesOf, List.map_map]
      exact List.map_id files
    conv_rhs => rw [← hmap, ← List.zipIdx_map_fst 0 (leavesOf N d files), List.map_map]
    rfl
  unfold acceptingFiles acceptedNames
  rw [List.filter_map, List.filter_filter]
  conv_rhs => rw [← hfst, List.filter_map]
  exact congrArg _ hfilter

/-- The result after a scan of the files the hierarchy names: without any, it is
the result of before. -/
def scannedResult (dump : Bytes → Bytes → List DBRecord) (hash : Bytes → UInt64) (N : Nat)
    (d : Directory) (value : Bytes) (files named : List Bytes) (res : Result) : Result :=
  if named.isEmpty then res else countedIn dump hash N d value files res

/-- A lookup in a freshly built hierarchy of the files `files`. -/
theorem checkInHierarchy_fresh (dump : Bytes → Bytes → List DBRecord) (hash : Bytes → UInt64)
    {r : Nat} (hr : 3 ≤ r) {files : List Bytes}
    (hread : ∀ file ∈ files, (d.read? file).isSome = true)
    (hname : ∀ file ∈ files, file ≠ Node.memory) {calls : Nat} (hc : files.length < calls)
    (value : Bytes) (res : Result) :
    ∃ (t t' : BloomTree N) (res' : Result),
      createHierarchy calls (BloomTree.ofLeaves r (leavesOf N d files)) = .ok t ∧
      checkInHierarchy dump hash d t value res = .ok (t', res') ∧
      res' = { scannedResult dump hash N d value files
          (acceptedNames hash r (leavesOf N d files) value) res with
        hierarchyFilterNumber := t'.getScannedHierarchyFilters
        accessedBloomFilter := (acceptedNames hash r (leavesOf N d files) value).length } := by
  have hleaves : ∀ leaf ∈ leavesOf N d files, leaf.2 ≠ Node.memory := by
    intro leaf hleaf
    obtain ⟨file, hfile, rfl⟩ := List.mem_map.mp hleaf
    exact hname file hfile
  have hnamed : ∀ file ∈ acceptedNames hash r (leavesOf N d files) value,
      (d.read? file).isSome = true := by
    intro file hfile
    obtain ⟨e, he, rfl⟩ := List.mem_map.mp hfile
    have hleaf := List.fst_mem_of_mem_zipIdx (List.mem_filter.mp he).1
    obtain ⟨file, hmem, hfile⟩ := List.mem_map.mp hleaf
    rw [← hfile]
    exact hread file hmem
  obtain ⟨root, htree, hnames⟩ := createTree_names hash hr (leavesOf N d files) hleaves
    (by rwa [leavesOf, List.length_map])
  obtain ⟨t', hcall, _, _⟩ := checkExistance_eq hash
    (t := { BloomTree.ofLeaves r (leavesOf N d files) with root := some root }) rfl value
  rw [BloomTree.ofLeaves_search, hnames, List.nil_append] at hcall
  refine ⟨_, t', _, by rw [createHierarchy, htree], ?_, rfl⟩
  rw [checkInHierarchy, hcall, scannedResult]
  cases hempty : (acceptedNames hash r (leavesOf N d files) value).isEmpty with
  | true =>
    simp only [hempty, if_true]
    rfl
  | false =>
    simp only [hempty, scanningInBloomFiles_eq dump hash hnamed, countedIn,
      acceptingFiles_acceptedNames]
    rfl

/-! ## The result of one lookup -/

theorem append_bloomExt_ne_memory (stem : Bytes) : stem ++ bloomExt ≠ Node.memory := by
  intro h
  have hlast := congrArg (fun s => s.getLast?) h
  simp [bloomExt, Node.memory, ascii] at hlast

/-- The leaves whose filter accepts the value, without their extension. -/
def acceptingStems (hash : Bytes → UInt64) (N : Nat) (d : Directory) (value : Bytes)
    (stems : List Bytes) : List Bytes :=
  stems.filter fun stem => (loadedFilter N d (stem ++ bloomExt)).existsKey hash value

/-- The two counters describe a lookup of `value` in a hierarchy over the filter
files of `stems`: the number of leaf filters that accept it, and the number of
matching records in the tables of these leaves. -/
structure DescribesQuery (dump : Bytes → Bytes → List DBRecord) (hash : Bytes → UInt64) (N : Nat)
    (d : Directory) (value : Bytes) (stems : List Bytes) (res : Result) : Prop where
  leafBloom : res.foundInLeafBloom = (acceptingStems hash N d value stems).length
  ssTable : res.foundInSSTable = ((acceptingStems hash N d value stems).map fun stem =>
    (ssTableRecords dump d (stem ++ dataExt)).countP fun r => r.valData = value).sum

theorem acceptingFiles_stems (hash : Bytes → UInt64) (N : Nat) (d : Directory) (value : Bytes)
    (stems : List Bytes) :
    acceptingFiles hash N d value (stems.map fun stem => stem ++ bloomExt) =
      (acceptingStems hash N d value stems).map fun stem => stem ++ bloomExt := by
  rw [acceptingFiles, List.filter_map]
  rfl

/-- The scan of the filter files counts what describes the lookup. -/
theorem describesQuery_countedIn (dump : Bytes → Bytes → List DBRecord) (hash : Bytes → UInt64)
    (N : Nat) (d : Directory) (value : Bytes) (stems : List Bytes) (res : Result) :
    DescribesQuery dump hash N d value stems
      (countedIn dump hash N d value (stems.map fun stem => stem ++ bloomExt) res) := by
  constructor
  · rw [countedIn, acceptingFiles_stems, List.length_map]
  · rw [countedIn, acceptingFiles_stems, List.map_map]
    refine congrArg (fun counts => ((List.sum counts : Nat) : Int)) ?_
    refine List.map_congr_left fun stem _ => ?_
    show matchesBehind dump d value (stem ++ bloomExt) = _
    rw [matchesBehind, transformFileName_append, retrieveFromSStable_eq]

/-- Where no leaf accepts the value, both counters are to be 0. -/
theorem describesQuery_of_none {dump : Bytes → Bytes → List DBRecord} {hash : Bytes → UInt64}
    {N : Nat} {d : Directory} {value : Bytes} {stems : List Bytes}
    (hnone : acceptingStems hash N d value stems = []) (res : Result) :
    DescribesQuery dump hash N d value stems res ↔
      res.foundInLeafBloom = 0 ∧ res.foundInSSTable = 0 := by
  constructor
  · rintro ⟨hleaf, htable⟩
    rw [hnone] at hleaf htable
    exact ⟨hleaf, htable⟩
  · rintro ⟨hleaf, htable⟩
    refine ⟨?_, ?_⟩
    · rw [hnone]
      exact hleaf
    · rw [hnone]
      exact htable

theorem acceptedNames_leavesOf_eq_nil (hash : Bytes → UInt64) (N : Nat) (d : Directory) (r : Nat)
    (files : List Bytes) (value : Bytes) :
    acceptedNames hash r (leavesOf N d files) value = [] ↔
      ¬ ∃ k < files.length, (groupFilter r k (leavesOf N d files)).existsKey hash value = true := by
  rw [acceptedNames_eq_nil, leavesOf, List.length_map]
  constructor
  · rintro hquiet ⟨k, hk, haccept⟩
    rw [hquiet k hk] at haccept
    cases haccept
  · intro hgroup k hk
    exact Bool.eq_false_iff.mpr fun haccept => hgroup ⟨k, hk, haccept⟩

/-- A lookup in a freshly built hierarchy leaves counters that describe it, exactly
if some group of `r` consecutive leaves accepts the value or the counters were 0
before. If no group does, they keep the values that they had. -/
theorem checkInHierarchy_result_iff (dump : Bytes → Bytes → List DBRecord)
    (hash : Bytes → UInt64) {r : Nat} (hr : 3 ≤ r) {stems : List Bytes}
    (hread : ∀ stem ∈ stems, (d.read? (stem ++ bloomExt)).isSome = true) {calls : Nat}
    (hc : stems.length < calls) (value : Bytes) (res : Result) :
    ∃ (t t' : BloomTree N) (res' : Result),
      createHierarchy calls
        (BloomTree.ofLeaves r (leavesOf N d (stems.map fun stem => stem ++ bloomExt))) = .ok t ∧
      checkInHierarchy dump hash d t value res = .ok (t', res') ∧
      (DescribesQuery dump hash N d value stems res' ↔
        (∃ k < stems.length, (groupFilter r k (leavesOf N d (stems.map fun stem =>
          stem ++ bloomExt))).existsKey hash value = true) ∨
        (res.foundInLeafBloom = 0 ∧ res.foundInSSTable = 0)) := by
  have hfiles : ∀ file ∈ stems.map fun stem => stem ++ bloomExt,
      (d.read? file).isSome = true ∧ file ≠ Node.memory := by
    intro file hfile
    obtain ⟨stem, hstem, rfl⟩ := List.mem_map.mp hfile
    exact ⟨hread stem hstem, append_bloomExt_ne_memory stem⟩
  obtain ⟨t, t', res', hcreate, hcheck, hres⟩ := checkInHierarchy_fresh (N := N) dump hash hr
    (fun file hfile => (hfiles file hfile).1) (fun file hfile => (hfiles file hfile).2)
    (by rwa [List.length_map]) value res
  refine ⟨t, t', res', hcreate, hcheck, ?_⟩
  have hgroups := acceptedNames_leavesOf_eq_nil hash N d r
    (stems.map fun stem => stem ++ bloomExt) value
  rw [List.length_map] at hgroups
  rw [hres, scannedResult]
  cases hempty : acceptedNames hash r (leavesOf N d (stems.map fun stem => stem ++ bloomExt))
      value with
  | nil =>
    -- no group accepts the value, so no leaf does
    have hnamed := acceptingFiles_acceptedNames hash N d r value
      (stems.map fun stem => stem ++ bloomExt)
    rw [hempty, acceptingFiles_stems] at hnamed
    rw [or_iff_right (hgroups.mp hempty)]
    exact describesQuery_of_none (List.map_eq_nil_iff.mp hnamed.symm) _
  | cons name names =>
    have hcount := describesQuery_countedIn dump hash N d value stems res
    refine iff_of_true ⟨hcount.leafBloom, hcount.ssTable⟩ (.inl (not_not.mp fun hnone => ?_))
    rw [hgroups.mpr hnone] at hempty
    cases hempty

/-- A filter file without a bit. -/
def emptyFilterDir : Directory where
  path := ascii ['d']
  files := [(ascii ['1', '.', 'b', 'l', 'o', 'o', 'm'], [3, 0, 0, 0, 0])]
  nodup := by decide

theorem checkInHierarchy_result_iff_emptyFilter :
    3 ≤ 3 ∧ (∀ stem ∈ [ascii ['d', '/', '1']],
      (emptyFilterDir.read? (stem ++ bloomExt)).isSome = true) ∧
    [ascii ['d', '/', '1']].length < 2 ∧
    ∃ (t t' : BloomTree 8) (res' : Result),
      createHierarchy 2 (BloomTree.ofLeaves 3 (leavesOf 8 emptyFilterDir
        ([ascii ['d', '/', '1']].map fun stem => stem ++ bloomExt))) = .ok t ∧
      checkInHierarchy (fun _ _ => []) polyHash emptyFilterDir t (ascii ['x'])
        { foundInLeafBloom := 7 } = .ok (t', res') ∧
      (DescribesQuery (fun _ _ => []) polyHash 8 emptyFilterDir (ascii ['x'])
          [ascii ['d', '/', '1']] res' ↔
        (∃ k < [ascii ['d', '/', '1']].length, (groupFilter 3 k (leavesOf 8 emptyFilterDir
          ([ascii ['d', '/', '1']].map fun stem => stem ++ bloomExt))).existsKey polyHash
            (ascii ['x']) = true) ∨
        (({ foundInLeafBloom := 7 } : Result).foundInLeafBloom = 0 ∧
          ({ foundInLeafBloom := 7 } : Result).foundInSSTable = 0)) := by
  have hread : ∀ stem ∈ [ascii ['d', '/', '1']],
      (emptyFilterDir.read? (stem ++ bloomExt)).isSome = true := by decide
  exact ⟨by decide, hread, by decide, checkInHierarchy_result_iff (fun _ _ => []) polyHash
    (by decide) hread (by decide) (ascii ['x']) { foundInLeafBloom := 7 }⟩

/-- The filter rejects the value, and the counter is still the 7 that an earlier
operation left. -/
theorem checkInHierarchy_keeps_old_counter :
    (loadedFilter 8 emptyFilterDir (ascii ['d', '/', '1'] ++ bloomExt)).existsKey polyHash
      (ascii ['x']) = false ∧
    ∃ (t t' : BloomTree 8) (res' : Result),
      createHierarchy 2 (BloomTree.ofLeaves 3 (leavesOf 8 emptyFilterDir
        ([ascii ['d', '/', '1']].map fun stem => stem ++ bloomExt))) = .ok t ∧
      checkInHierarchy (fun _ _ => []) polyHash emptyFilterDir t (ascii ['x'])
        { foundInLeafBloom := 7 } = .ok (t', res') ∧
      res'.foundInLeafBloom = 7 ∧
      ¬ DescribesQuery (fun _ _ => []) polyHash 8 emptyFilterDir (ascii ['x'])
        [ascii ['d', '/', '1']] res' := by
  refine ⟨by decide, _, _, _, rfl, rfl, rfl, fun h => ?_⟩
  exact absurd h.leafBloom (by decide)

end Hierarchy

/-! ## Agreement -/

section Agreement
variable (dump : Bytes → Bytes → List DBRecord) (hash : Bytes → UInt64) {N : Nat} {d : Directory}

/-- The three search paths of `MainFlow` agree, for every directory, ratio and
value and whatever order each listing has: all of them count the matching records
of the tables. The two leaf counters are the number of filter files, left over ones
included, that accept the value. -/
theorem mainFlow_paths_agree (hN : 0 < N) (hd : d.Accessible) (orders : Listings) {r : Nat}
    (hr : 3 ≤ r) {calls : Nat}
    (hc : (createBloomValue dump hash N d orders.createBloomValue).names.length < calls)
    (value : Bytes) (res : Result) :
    ∃ res' scanned,
      mainFlow dump hash N calls d orders r value res = .ok (res', scanned) ∧
      scanned = scanningWithoutBloom dump (createBloomValue dump hash N d orders.createBloomValue)
        orders.scanningWithoutBloom value ∧
      scanned = ((d.names.filter fun name => hasExtension name dataExt).map fun name =>
        (ssTableRecords dump d (d.pathOf name)).countP fun record => record.valData = value).sum ∧
      res'.foundInSSTableWithHierarchy = res'.foundInSSTableNoHierarchy ∧
      res'.foundInSSTableNoHierarchy = scanned ∧
      res'.foundInLeafBloomWithHierarchy = res'.foundInLeafBloomNoHierarchy ∧
      res'.foundInLeafBloomNoHierarchy =
        ((createBloomValue dump hash N d orders.createBloomValue).names.filter fun name =>
          hasExtension name bloomExt).countP fun name =>
            (loadedFilter N (createBloomValue dump hash N d orders.createBloomValue)
              (d.pathOf name)).existsKey hash value := by
  have hb := createBloomValue_built dump hash N hd orders.createBloomValue
  generalize hcreated : createBloomValue dump hash N d orders.createBloomValue = d' at hb hc ⊢
  have hread : ∀ order, ∀ file ∈ listFilesWithExtension d' order bloomExt,
      (d'.read? file).isSome = true := fun order file hfile =>
    read?_isSome_of_mem_list hb.accessible hfile
  have hname : ∀ file ∈ listFilesWithExtension d' orders.createLeafHierarchyLevel bloomExt,
      file ≠ Node.memory := by
    intro file hfile
    obtain ⟨stem, _, rfl⟩ := (mem_listFilesWithExtension hb.accessible).mp hfile
    rw [pathOf_append]
    exact append_bloomExt_ne_memory _
  have hlen : (listFilesWithExtension d' orders.createLeafHierarchyLevel bloomExt).length <
      calls := by
    rw [listFilesWithExtension_eq hb.accessible, List.length_map]
    refine Nat.lt_of_le_of_lt (List.length_filter_le _ _) ?_
    rwa [(orders.createLeafHierarchyLevel.perm d'.names).length_eq]
  -- the listings of the two filter scans differ in their order at most
  have hperm : (acceptingFiles hash N d' value _).Perm (acceptingFiles hash N d' value _) :=
    (listFilesWithExtension_perm hb.accessible orders.scanningWithBloom
      orders.createLeafHierarchyLevel bloomExt).filter _
  have hscan := sum_matchesBehind hN hd hb orders.scanningWithBloom orders.scanningWithoutBloom
    value
  have htables := scanningWithoutBloom_afterCreate hd hb orders.scanningWithoutBloom value
  have hleaves := length_acceptingFiles hb orders.scanningWithBloom value
  obtain ⟨t, t', res', hcreate, hcheck, hres⟩ := checkInHierarchy_fresh (N := N) dump hash hr
    (hread _) hname hlen value (countedIn dump hash N d' value
      (listFilesWithExtension d' orders.scanningWithBloom bloomExt) res).noHierarchy
  have hflow : mainFlow dump hash N calls d orders r value res =
      .ok (res'.withHierarchy, scanningWithoutBloom dump d' orders.scanningWithoutBloom value) := by
    simp only [mainFlow, hcreated, scanningWithBloom, scanningInBloomFiles_eq dump hash (hread _),
      createLeafHierarchyLevel_eq N r (hread _), bind, Except.bind]
    rw [← leavesOf, hcreate]
    simp only [hcheck]
    rfl
  refine ⟨_, _, hflow, rfl, htables, ?_⟩
  rw [hres, scannedResult, Result.withHierarchy]
  cases (acceptedNames hash r (leavesOf N d' _) value).isEmpty with
  | true => exact ⟨rfl, congrArg Nat.cast hscan, rfl, congrArg Nat.cast hleaves⟩
  | false =>
    exact ⟨congrArg Nat.cast (hperm.map _).sum_nat.symm, congrArg Nat.cast hscan,
      congrArg Nat.cast hperm.length_eq.symm, congrArg Nat.cast hleaves⟩

/-- A table with the values `x` and `y`, and a filter file that was left over. -/
def leftoverDir : Directory where
  path := ascii ['d']
  files := [(ascii ['1', '.', 'l', 'd', 'b'], ascii ['x', 'y']),
    (ascii ['2', '.', 'b', 'l', 'o', 'o', 'm'], [3, 0, 0, 0, 0xff])]
  nodup := by decide

/-- One record for each byte of a table. -/
def byteRecords (_ contents : Bytes) : List DBRecord :=
  contents.map fun c => ⟨[], [c]⟩

theorem mainFlow_paths_agree_leftoverDir :
    0 < 8 ∧ leftoverDir.Accessible ∧ 3 ≤ 3 ∧
    (createBloomValue byteRecords polyHash 8 leftoverDir .reversed).names.length < 4 ∧
    ∃ res' scanned,
      mainFlow byteRecords polyHash 8 4 leftoverDir ⟨.reversed, .stored, .stored, .reversed⟩ 3
        (ascii ['x']) {} = .ok (res', scanned) ∧
      scanned = scanningWithoutBloom byteRecords
        (createBloomValue byteRecords polyHash 8 leftoverDir .reversed) .stored (ascii ['x']) ∧
      scanned = ((leftoverDir.names.filter fun name => hasExtension name dataExt).map fun name =>
        (ssTableRecords byteRecords leftoverDir (leftoverDir.pathOf name)).countP fun record =>
          record.valData = ascii ['x']).sum ∧
      res'.foundInSSTableWithHierarchy = res'.foundInSSTableNoHierarchy ∧
      res'.foundInSSTableNoHierarchy = scanned ∧
      res'.foundInLeafBloomWithHierarchy = res'.foundInLeafBloomNoHierarchy ∧
      res'.foundInLeafBloomNoHierarchy =
        ((createBloomValue byteRecords polyHash 8 leftoverDir .reversed).names.filter fun name =>
          hasExtension name bloomExt).countP fun name =>
            (loadedFilter 8 (createBloomValue byteRecords polyHash 8 leftoverDir .reversed)
              (leftoverDir.pathOf name)).existsKey polyHash (ascii ['x']) := by
  have hd : leftoverDir.Accessible := ⟨rfl, fun _ => rfl, fun _ => rfl⟩
  have hc : (createBloomValue byteRecords polyHash 8 leftoverDir .reversed).names.length < 4 := by
    decide
  exact ⟨by decide, hd, by decide, hc, mainFlow_paths_agree byteRecords polyHash (by decide) hd
    ⟨.reversed, .stored, .stored, .reversed⟩ (by decide) hc (ascii ['x']) {}⟩

end Agreement

end BloomHierarchy
