import BloomHierarchy.BloomTree
import Mathlib.Data.List.Nodup

/-!
# The operations on a database directory

The member functions of `DBOperation` that list the directory, build the filter
files and search with and without them. Time measurements and log lines are
left out. What the loops count are natural numbers.

`dump` is the dump of a table file as a function of its path and contents, so
a path that cannot be read has no records. Each function that lists the
directory takes the order in which `readdir` happens to list it.

Results:
1. `createBloomValue_built`: afterwards every table has its filter file, with
   the filter of its values, and every other file is as it was.
2. `scanningInBloomFiles_eq`: the two counters are the number of files whose
   filter accepts the value and the number of matching records in their tables.
-/

namespace BloomHierarchy

/-! ## File names -/

/-- `DBOperation::bloomExt`. -/
def bloomExt : Bytes := ascii ['.', 'b', 'l', 'o', 'o', 'm']

/-- `DBOperation::dataExt`. -/
def dataExt : Bytes := ascii ['.', 'l', 'd', 'b']

/-- The test `listFilesWithExtension` makes on a name. -/
def hasExtension (filename extension : Bytes) : Bool :=
  extension.length ≤ filename.length &&
    filename.drop (filename.length - extension.length) == extension

def listFilesWithExtension (d : Directory) (order : ReaddirOrder) (extension : Bytes) :
    List Bytes :=
  if d.canList then
    ((order.list d.names).filter fun filename => hasExtension filename extension).map d.pathOf
  else []

/-- The length of the part that is kept is a `size_t`: for a name shorter than
`fromExt` it wraps around to more than the name has, and the whole name is
kept. -/
def transformFileName (filename fromExt toExt : Bytes) : Bytes :=
  let s := if fromExt.length ≤ filename.length then filename.take (filename.length - fromExt.length)
    else filename
  s ++ toExt

/-! ## Searching -/

/-- The counters of `Result`. Its members are not initialised, so a `Result` may hold
any integers before the first operation writes to it. -/
structure Result where
  hierarchyFilterNumber : Int := 0
  foundInLeafBloomNoHierarchy : Int := 0
  foundInSSTableNoHierarchy : Int := 0
  foundInLeafBloomWithHierarchy : Int := 0
  foundInSSTableWithHierarchy : Int := 0
  foundInLeafBloom : Int := 0
  foundInSSTable : Int := 0
  accessedBloomFilter : Int := 0
deriving DecidableEq, Repr

/-- Why an operation does not return. -/
inductive Stop
  /-- An exception of `loadFromFile`. -/
  | thrown (message : Bytes)
  /-- A search in a tree that has no root. -/
  | undefined
  /-- The calls of `createLevel` that were granted are used up. -/
  | calls
deriving DecidableEq, Repr

section Operations
variable (dump : Bytes → Bytes → List DBRecord) (hash : Bytes → UInt64) {N : Nat}

/-- The records `DBDumper::dumpSSTable` returns for a path. -/
def ssTableRecords (d : Directory) (file : Bytes) : List DBRecord :=
  match d.read? file with
  | none => []
  | some contents => dump file contents

def retrieveFromSStable (d : Directory) (file valueToFind : Bytes) : Nat :=
  (ssTableRecords dump d file).foldl
    (fun foundValues r => if r.valData = valueToFind then foundValues + 1 else foundValues) 0

/-- The number of matches the scan of all tables counts. -/
def scanningWithoutBloom (d : Directory) (order : ReaddirOrder) (valuetofind : Bytes) : Nat :=
  (listFilesWithExtension d order dataExt).foldl
    (fun foundInSSTable file => foundInSSTable + retrieveFromSStable dump d file valuetofind) 0

/-- `filter.loadFromFile(file)`. -/
def loadFilter (N : Nat) (d : Directory) (file : Bytes) : Except Stop (BloomValue N) :=
  (BloomValue.loadFromFile N d file).mapError Stop.thrown

/-- One round of the loop of `ScanningInBloomFiles`, on its two counters. -/
def scanBloomFile (N : Nat) (d : Directory) (valuetofind : Bytes) (found : Nat × Nat)
    (file : Bytes) : Except Stop (Nat × Nat) := do
  let filter ← loadFilter N d file
  if filter.existsKey hash valuetofind then
    let datafile := transformFileName file bloomExt dataExt
    return (found.1 + 1, found.2 + retrieveFromSStable dump d datafile valuetofind)
  else return found

def scanningInBloomFiles (N : Nat) (d : Directory) (bloomfiles : List Bytes) (valuetofind : Bytes)
    (res : Result) : Except Stop Result := do
  let found ← bloomfiles.foldlM (scanBloomFile dump hash N d valuetofind) (0, 0)
  return { res with foundInLeafBloom := found.1, foundInSSTable := found.2 }

def scanningWithBloom (N : Nat) (d : Directory) (order : ReaddirOrder) (valuetofind : Bytes)
    (res : Result) : Except Stop Result :=
  scanningInBloomFiles dump hash N d (listFilesWithExtension d order bloomExt) valuetofind res

/-! ## The hierarchy -/

def createLeafHierarchyLevel (d : Directory) (order : ReaddirOrder) (treeHierarchy : BloomTree N) :
    Except Stop (BloomTree N) :=
  (listFilesWithExtension d order bloomExt).foldlM (fun tree file => do
    let filter ← loadFilter N d file
    return tree.createLeafLevel filter file) treeHierarchy

def createHierarchy (calls : Nat) (treeHierarchy : BloomTree N) : Except Stop (BloomTree N) :=
  match treeHierarchy.createTree calls with
  | none => .error .calls
  | some tree => .ok tree

def checkInHierarchy (d : Directory) (treeHierarchy : BloomTree N) (valuetofind : Bytes)
    (res : Result) : Except Stop (BloomTree N × Result) :=
  match treeHierarchy.checkExistance hash valuetofind with
  | none => .error .undefined
  | some (bloomFiles, tree) => do
    let res ← if bloomFiles.isEmpty then pure res
      else scanningInBloomFiles dump hash N d bloomFiles valuetofind res
    let c := tree.getScannedHierarchyFilters
    return (tree, { res with hierarchyFilterNumber := c, accessedBloomFilter := bloomFiles.length })

/-! ## Building the filter files -/

/-- One round of the loop of `CreateBloomValue`. -/
def createBloomFile (N : Nat) (d : Directory) (file : Bytes) : Directory :=
  let bloomFile := transformFileName file dataExt bloomExt
  let d := BloomValue.createFile d bloomFile
  let filter := (ssTableRecords dump d file).foldl
    (fun (filter : BloomValue N) r => filter.insert hash r.valData) {}
  filter.saveToFile d bloomFile

def createBloomValue (N : Nat) (d : Directory) (order : ReaddirOrder) : Directory :=
  (listFilesWithExtension d order dataExt).foldl (createBloomFile dump hash N) d

end Operations

/-! ## What the name functions compute -/

theorem hasExtension_iff {filename extension : Bytes} :
    hasExtension filename extension = true ↔ ∃ stem, filename = stem ++ extension := by
  rw [hasExtension, Bool.and_eq_true, decide_eq_true_eq, beq_iff_eq]
  constructor
  · rintro ⟨_, hdrop⟩
    refine ⟨filename.take (filename.length - extension.length), ?_⟩
    conv_lhs => rw [← List.take_append_drop (filename.length - extension.length) filename, hdrop]
  · rintro ⟨stem, rfl⟩
    rw [List.length_append, Nat.add_sub_cancel, List.drop_left]
    exact ⟨Nat.le_add_left _ _, rfl⟩

theorem transformFileName_append (stem fromExt toExt : Bytes) :
    transformFileName (stem ++ fromExt) fromExt toExt = stem ++ toExt := by
  rw [transformFileName, if_pos (by simp), List.length_append, Nat.add_sub_cancel, List.take_left]

/-- A name that ends in the one extension does not end in the other. -/
theorem append_bloomExt_ne_append_dataExt (a b : Bytes) : a ++ bloomExt ≠ b ++ dataExt := by
  intro h
  have hlast := congrArg (fun s => s.getLast?) h
  simp [bloomExt, dataExt, ascii] at hlast

theorem pathOf_append (d : Directory) (a b : Bytes) : d.pathOf (a ++ b) = d.pathOf a ++ b := by
  rw [Directory.pathOf, Directory.pathOf, List.append_assoc _ a b]

theorem transformFileName_pathOf (d : Directory) (stem fromExt toExt : Bytes) :
    transformFileName (d.pathOf (stem ++ fromExt)) fromExt toExt = d.pathOf (stem ++ toExt) := by
  rw [pathOf_append, transformFileName_append, pathOf_append]

section Listing
variable {d : Directory}

theorem listFilesWithExtension_eq (hd : d.Accessible) (order : ReaddirOrder) (extension : Bytes) :
    listFilesWithExtension d order extension =
      ((order.list d.names).filter fun filename => hasExtension filename extension).map
        d.pathOf := by
  rw [listFilesWithExtension, if_pos hd.list]

theorem mem_listFilesWithExtension (hd : d.Accessible) {order : ReaddirOrder}
    {extension p : Bytes} :
    p ∈ listFilesWithExtension d order extension ↔
      ∃ stem, stem ++ extension ∈ d.names ∧ p = d.pathOf (stem ++ extension) := by
  rw [listFilesWithExtension_eq hd, List.mem_map]
  constructor
  · rintro ⟨name, hname, rfl⟩
    obtain ⟨hmem, hext⟩ := List.mem_filter.mp hname
    obtain ⟨stem, rfl⟩ := hasExtension_iff.mp hext
    exact ⟨stem, (order.perm d.names).mem_iff.mp hmem, rfl⟩
  · rintro ⟨stem, hmem, rfl⟩
    exact ⟨stem ++ extension, List.mem_filter.mpr ⟨(order.perm d.names).mem_iff.mpr hmem,
      hasExtension_iff.mpr ⟨stem, rfl⟩⟩, rfl⟩

/-- Each file is listed once. -/
theorem listFilesWithExtension_nodup (hd : d.Accessible) (order : ReaddirOrder)
    (extension : Bytes) : (listFilesWithExtension d order extension).Nodup := by
  rw [listFilesWithExtension_eq hd]
  refine List.Nodup.map (fun _ _ h => d.pathOf_injective h) (List.Nodup.filter _ ?_)
  exact (order.perm d.names).nodup_iff.mpr d.nodup

/-- Files with one extension are still different after it is replaced. -/
theorem map_transformFileName_nodup (hd : d.Accessible) (order : ReaddirOrder)
    (fromExt toExt : Bytes) :
    ((listFilesWithExtension d order fromExt).map
      fun file => transformFileName file fromExt toExt).Nodup := by
  refine List.Nodup.map_on ?_ (listFilesWithExtension_nodup hd order fromExt)
  intro a ha b hb heq
  obtain ⟨s, _, rfl⟩ := (mem_listFilesWithExtension hd).mp ha
  obtain ⟨t, _, rfl⟩ := (mem_listFilesWithExtension hd).mp hb
  rw [transformFileName_pathOf, transformFileName_pathOf] at heq
  rw [List.append_cancel_right (d.pathOf_injective heq)]

/-- Two listings of one directory differ in their order at most. -/
theorem listFilesWithExtension_perm (hd : d.Accessible) (order order' : ReaddirOrder)
    (extension : Bytes) :
    (listFilesWithExtension d order extension).Perm
      (listFilesWithExtension d order' extension) := by
  rw [listFilesWithExtension_eq hd, listFilesWithExtension_eq hd]
  exact (((order.perm d.names).trans (order'.perm d.names).symm).filter _).map _

theorem read?_isSome_of_mem_list (hd : d.Accessible) {order : ReaddirOrder}
    {extension p : Bytes} (hp : p ∈ listFilesWithExtension d order extension) :
    (d.read? p).isSome = true := by
  obtain ⟨stem, hstem, rfl⟩ := (mem_listFilesWithExtension hd).mp hp
  rw [Directory.read?_pathOf hd, Option.isSome_iff_ne_none]
  exact fun hnone => Directory.contents?_eq_none.mp hnone hstem

end Listing

/-! ## What the searches compute -/

section Searches
variable {dump : Bytes → Bytes → List DBRecord} {hash : Bytes → UInt64} {N : Nat} {d : Directory}

theorem retrieveFromSStable_eq (dump : Bytes → Bytes → List DBRecord) (d : Directory)
    (file value : Bytes) :
    retrieveFromSStable dump d file value =
      (ssTableRecords dump d file).countP fun r => r.valData = value := by
  have hloop : ∀ (records : List DBRecord) (n : Nat),
      records.foldl (fun found r => if r.valData = value then found + 1 else found) n =
        n + records.countP fun r => r.valData = value := by
    intro records
    induction records with
    | nil => exact fun n => rfl
    | cons r records ih =>
      intro n
      rw [List.foldl_cons, ih, List.countP_cons]
      by_cases hr : r.valData = value
      · simp only [hr, if_pos, decide_true]
        omega
      · simp [hr]
  rw [retrieveFromSStable, hloop, Nat.zero_add]

theorem scanningWithoutBloom_eq (dump : Bytes → Bytes → List DBRecord) (d : Directory)
    (order : ReaddirOrder) (value : Bytes) :
    scanningWithoutBloom dump d order value =
      ((listFilesWithExtension d order dataExt).map
        fun file => retrieveFromSStable dump d file value).sum := by
  rw [scanningWithoutBloom, List.sum_eq_foldl, List.foldl_map]

/-- The filter in a file that can be read. -/
def loadedFilter (N : Nat) (d : Directory) (file : Bytes) : BloomValue N :=
  { bitArray := loadedBits N ((d.read? file).getD []) }

theorem loadFromFile_eq {file : Bytes} (h : (d.read? file).isSome = true) :
    BloomValue.loadFromFile N d file = .ok (loadedFilter N d file) := by
  obtain ⟨contents, hread⟩ := Option.isSome_iff_exists.mp h
  rw [BloomValue.loadFromFile, loadedFilter, hread]
  rfl

theorem loadFilter_eq {file : Bytes} (h : (d.read? file).isSome = true) :
    loadFilter N d file = .ok (loadedFilter N d file) := by
  rw [loadFilter, loadFromFile_eq h]
  rfl

/-- The files whose filter accepts the value. -/
def acceptingFiles (hash : Bytes → UInt64) (N : Nat) (d : Directory) (value : Bytes)
    (files : List Bytes) : List Bytes :=
  files.filter fun file => (loadedFilter N d file).existsKey hash value

/-- The matching records in the table that belongs to a filter file. -/
def matchesBehind (dump : Bytes → Bytes → List DBRecord) (d : Directory) (value file : Bytes) :
    Nat :=
  retrieveFromSStable dump d (transformFileName file bloomExt dataExt) value

/-- The result after a scan of the filter files `files`: the number of accepting
ones, and the number of matching records behind them. -/
def countedIn (dump : Bytes → Bytes → List DBRecord) (hash : Bytes → UInt64) (N : Nat)
    (d : Directory) (value : Bytes) (files : List Bytes) (res : Result) : Result :=
  { res with
    foundInLeafBloom := (acceptingFiles hash N d value files).length
    foundInSSTable :=
      ((acceptingFiles hash N d value files).map (matchesBehind dump d value)).sum }

/-- A loop whose rounds all succeed is a loop without errors. -/
theorem foldlM_ok {ε σ α : Type} {f : σ → α → Except ε σ} {g : σ → α → σ} {l : List α}
    (h : ∀ a ∈ l, ∀ s, f s a = .ok (g s a)) (s : σ) : l.foldlM f s = .ok (l.foldl g s) := by
  induction l generalizing s with
  | nil => rfl
  | cons a l ih =>
    obtain ⟨ha, hl⟩ := List.forall_mem_cons.mp h
    rw [List.foldlM_cons, ha, List.foldl_cons]
    exact ih hl (g s a)

theorem scanBloomFile_eq (dump : Bytes → Bytes → List DBRecord) (hash : Bytes → UInt64)
    {file : Bytes} (hread : (d.read? file).isSome = true) (value : Bytes) (found : Nat × Nat) :
    scanBloomFile dump hash N d value found file =
      .ok (found.1 + (acceptingFiles hash N d value [file]).length,
        found.2 +
          ((acceptingFiles hash N d value [file]).map (matchesBehind dump d value)).sum) := by
  rw [scanBloomFile, loadFilter_eq hread]
  cases haccept : (loadedFilter N d file).existsKey hash value with
  | true =>
    simp [acceptingFiles, haccept, matchesBehind, bind, Except.bind, pure, Except.pure]
  | false =>
    simp [acceptingFiles, haccept, bind, Except.bind, pure, Except.pure]

theorem foldl_acceptingFiles (dump : Bytes → Bytes → List DBRecord) (hash : Bytes → UInt64)
    (N : Nat) (d : Directory) (value : Bytes) (files : List Bytes) (found : Nat × Nat) :
    files.foldl (fun found file => (found.1 + (acceptingFiles hash N d value [file]).length,
        found.2 + ((acceptingFiles hash N d value [file]).map (matchesBehind dump d value)).sum))
        found =
      (found.1 + (acceptingFiles hash N d value files).length,
        found.2 +
          ((acceptingFiles hash N d value files).map (matchesBehind dump d value)).sum) := by
  induction files generalizing found with
  | nil => rfl
  | cons file files ih =>
    have hsplit : acceptingFiles hash N d value (file :: files) =
        acceptingFiles hash N d value [file] ++ acceptingFiles hash N d value files :=
      List.filter_append [file] files
    rw [List.foldl_cons, ih, hsplit, List.length_append, List.map_append, List.sum_append,
      Nat.add_assoc, Nat.add_assoc]

/-- The scan of a list of filter files counts the accepting ones and the
matching records behind them. -/
theorem scanningInBloomFiles_eq (dump : Bytes → Bytes → List DBRecord) (hash : Bytes → UInt64)
    {files : List Bytes} (hread : ∀ file ∈ files, (d.read? file).isSome = true) (value : Bytes)
    (res : Result) :
    scanningInBloomFiles dump hash N d files value res =
      .ok (countedIn dump hash N d value files res) := by
  rw [scanningInBloomFiles,
    foldlM_ok fun file hfile found => scanBloomFile_eq dump hash (hread file hfile) value found,
    foldl_acceptingFiles, Nat.zero_add, Nat.zero_add]
  rfl

theorem createLeafHierarchyLevel_eq (N r : Nat) {order : ReaddirOrder}
    (hread : ∀ file ∈ listFilesWithExtension d order bloomExt, (d.read? file).isSome = true) :
    createLeafHierarchyLevel d order { ratio := r } =
      .ok (BloomTree.ofLeaves r ((listFilesWithExtension d order bloomExt).map
        fun file => (loadedFilter N d file, file))) := by
  have hround : ∀ file ∈ listFilesWithExtension d order bloomExt, ∀ tree : BloomTree N,
      (do return tree.createLeafLevel (← loadFilter N d file) file : Except Stop (BloomTree N)) =
        .ok (tree.createLeafLevel (loadedFilter N d file) file) := by
    intro file hfile tree
    rw [loadFilter_eq (hread file hfile)]
    rfl
  rw [createLeafHierarchyLevel, foldlM_ok hround, BloomTree.ofLeaves, List.foldl_map]

end Searches

/-! ## What `createBloomValue` leaves in the directory -/

section Building
variable {dump : Bytes → Bytes → List DBRecord} {hash : Bytes → UInt64} {N : Nat}

/-- The filter of the values of a table. -/
def tableFilter (dump : Bytes → Bytes → List DBRecord) (hash : Bytes → UInt64) (N : Nat)
    (d : Directory) (file : Bytes) : BloomValue N :=
  BloomValue.insertAll hash {} ((ssTableRecords dump d file).map DBRecord.valData)

/-- `d'` is `d` with the filter files of the tables for which `P` holds of the
name without its extension. -/
structure FiltersBuilt (dump : Bytes → Bytes → List DBRecord) (hash : Bytes → UInt64) (N : Nat)
    (P : Bytes → Prop) (d d' : Directory) : Prop where
  path : d'.path = d.path
  accessible : d'.Accessible
  filter : ∀ stem, P stem → d'.contents? (stem ++ bloomExt) =
    some (savedBytes 3 (tableFilter dump hash N d (d.pathOf (stem ++ dataExt))).bitArray)
  other : ∀ name, (∀ stem, P stem → name ≠ stem ++ bloomExt) → d'.contents? name = d.contents? name

namespace FiltersBuilt
variable {P Q : Bytes → Prop} {d d' d'' : Directory}

theorem congr (h : FiltersBuilt dump hash N P d d') (hPQ : ∀ stem, P stem ↔ Q stem) :
    FiltersBuilt dump hash N Q d d' :=
  ⟨h.path, h.accessible, fun stem hstem => h.filter stem ((hPQ stem).mpr hstem),
    fun name hname => h.other name fun stem hstem => hname stem ((hPQ stem).mp hstem)⟩

theorem pathOf (h : FiltersBuilt dump hash N P d d') (name : Bytes) :
    d'.pathOf name = d.pathOf name := by
  rw [Directory.pathOf, Directory.pathOf, h.path]

/-- Filter files are no tables, so the tables stay as they were. -/
theorem table (h : FiltersBuilt dump hash N P d d') (stem : Bytes) :
    d'.contents? (stem ++ dataExt) = d.contents? (stem ++ dataExt) :=
  h.other _ fun s _ heq => append_bloomExt_ne_append_dataExt s stem heq.symm

theorem mem_names_table (h : FiltersBuilt dump hash N P d d') {stem : Bytes} :
    stem ++ dataExt ∈ d'.names ↔ stem ++ dataExt ∈ d.names :=
  Directory.mem_names_congr (h.table stem)

theorem mem_names_bloom (h : FiltersBuilt dump hash N P d d') {stem : Bytes} (hstem : P stem) :
    stem ++ bloomExt ∈ d'.names :=
  Directory.mem_names_of_contents? (h.filter stem hstem)

theorem ssTableRecords (h : FiltersBuilt dump hash N P d d') (hd : d.Accessible) (stem : Bytes) :
    ssTableRecords dump d' (d.pathOf (stem ++ dataExt)) =
      ssTableRecords dump d (d.pathOf (stem ++ dataExt)) := by
  have hread : d'.read? (d.pathOf (stem ++ dataExt)) = d.read? (d.pathOf (stem ++ dataExt)) := by
    rw [← h.pathOf, Directory.read?_pathOf h.accessible, h.pathOf, Directory.read?_pathOf hd,
      h.table]
  rw [BloomHierarchy.ssTableRecords, BloomHierarchy.ssTableRecords, hread]

theorem trans (hd : d.Accessible) (h : FiltersBuilt dump hash N P d d')
    (h' : FiltersBuilt dump hash N Q d' d'') :
    FiltersBuilt dump hash N (fun stem => P stem ∨ Q stem) d d'' := by
  refine ⟨h'.path.trans h.path, h'.accessible, fun stem hstem => ?_, fun name hname => ?_⟩
  · by_cases hQ : Q stem
    · rw [h'.filter stem hQ, tableFilter, tableFilter, h.pathOf, h.ssTableRecords hd]
    · have hP : P stem := hstem.resolve_right hQ
      rw [h'.other, h.filter stem hP]
      intro s hs heq
      exact hQ (List.append_cancel_right heq ▸ hs)
  · rw [h'.other name fun s hs => hname s (.inr hs), h.other name fun s hs => hname s (.inl hs)]

end FiltersBuilt

theorem createBloomFile_eq {d : Directory} (hd : d.Accessible) (stem : Bytes) :
    createBloomFile dump hash N d (d.pathOf (stem ++ dataExt)) =
      (d.write (d.pathOf (stem ++ bloomExt)) []).write (d.pathOf (stem ++ bloomExt))
        (savedBytes 3 (tableFilter dump hash N d (d.pathOf (stem ++ dataExt))).bitArray) := by
  have hne : stem ++ dataExt ≠ stem ++ bloomExt := fun h =>
    append_bloomExt_ne_append_dataExt stem stem h.symm
  have hrecords : ssTableRecords dump (d.write (d.pathOf (stem ++ bloomExt)) [])
      (d.pathOf (stem ++ dataExt)) = ssTableRecords dump d (d.pathOf (stem ++ dataExt)) := by
    rw [ssTableRecords, ssTableRecords, Directory.read?_write hd, if_neg hne,
      Directory.read?_pathOf hd]
  have hfilter : (ssTableRecords dump d (d.pathOf (stem ++ dataExt))).foldl
      (fun (filter : BloomValue N) r => filter.insert hash r.valData) {} =
      tableFilter dump hash N d (d.pathOf (stem ++ dataExt)) := by
    rw [tableFilter, BloomValue.insertAll, List.foldl_map]
  simp only [createBloomFile, transformFileName_pathOf, BloomValue.createFile, hrecords, hfilter,
    BloomValue.saveToFile, BloomValue.fixed]

variable (dump hash N) in
theorem createBloomFile_built {d : Directory} (hd : d.Accessible) (stem : Bytes) :
    FiltersBuilt dump hash N (· = stem) d
      (createBloomFile dump hash N d (d.pathOf (stem ++ dataExt))) := by
  have hd' := Directory.write_accessible hd (d.pathOf (stem ++ bloomExt)) []
  have hcontents := Directory.contents?_write hd' (stem ++ bloomExt)
    (savedBytes 3 (tableFilter dump hash N d (d.pathOf (stem ++ dataExt))).bitArray)
  rw [Directory.write_pathOf] at hcontents
  rw [createBloomFile_eq hd]
  refine ⟨?_, Directory.write_accessible hd' _ _, ?_, fun name hname => ?_⟩
  · rw [Directory.write_path, Directory.write_path]
  · rintro stem rfl
    rw [hcontents, if_pos rfl]
  · have hne := hname stem rfl
    rw [hcontents, if_neg hne, Directory.contents?_write hd, if_neg hne]

theorem foldl_createBloomFile {d₀ d : Directory} (hd : d.Accessible) (hpath : d.path = d₀.path)
    {files : List Bytes} (hfiles : ∀ file ∈ files, ∃ stem, file = d₀.pathOf (stem ++ dataExt)) :
    FiltersBuilt dump hash N (fun stem => d₀.pathOf (stem ++ dataExt) ∈ files) d
      (files.foldl (createBloomFile dump hash N) d) := by
  induction files generalizing d with
  | nil =>
    exact ⟨rfl, hd, fun _ h => absurd h List.not_mem_nil, fun _ _ => rfl⟩
  | cons file files ih =>
    obtain ⟨⟨stem, rfl⟩, hrest⟩ := List.forall_mem_cons.mp hfiles
    have hpathOf : d₀.pathOf (stem ++ dataExt) = d.pathOf (stem ++ dataExt) := by
      rw [Directory.pathOf, Directory.pathOf, hpath]
    have hfirst := createBloomFile_built dump hash N hd stem
    rw [List.foldl_cons, hpathOf]
    refine (hfirst.trans hd (ih hfirst.accessible (hfirst.path.trans hpath) hrest)).congr ?_
    intro s
    rw [List.mem_cons, ← hpathOf]
    refine or_congr_left ⟨?_, fun h => ?_⟩
    · rintro rfl
      rfl
    · exact List.append_cancel_right (d₀.pathOf_injective h)

/-- `createBloomValue` gives every table its filter file and changes nothing
else. -/
theorem createBloomValue_built (dump : Bytes → Bytes → List DBRecord) (hash : Bytes → UInt64)
    (N : Nat) {d : Directory} (hd : d.Accessible) (order : ReaddirOrder) :
    FiltersBuilt dump hash N (fun stem => stem ++ dataExt ∈ d.names) d
      (createBloomValue dump hash N d order) := by
  have hlisted : ∀ stem, d.pathOf (stem ++ dataExt) ∈ listFilesWithExtension d order dataExt ↔
      stem ++ dataExt ∈ d.names := by
    intro stem
    rw [mem_listFilesWithExtension hd]
    constructor
    · rintro ⟨s, hs, heq⟩
      exact d.pathOf_injective heq ▸ hs
    · intro h
      exact ⟨stem, h, rfl⟩
  refine (foldl_createBloomFile hd rfl fun file hfile => ?_).congr hlisted
  obtain ⟨stem, _, hstem⟩ := (mem_listFilesWithExtension hd).mp hfile
  exact ⟨stem, hstem⟩

end Building

end BloomHierarchy
