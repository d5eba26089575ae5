import BloomHierarchy.DBFiles

/-!
# Filter files over whole runs

A database directory lives through any sequence of `DbCreation` runs, in which
LevelDB adds and removes tables, and `CreateBloomValue` runs, which write a
filter file for every table present and remove none.

Results:
1. `FilterRun.bloom_iff`: at any time there is a filter file for exactly the tables
   that were present at some `CreateBloomValue` so far.
2. `createBloomValue_run_filters`: what the listing of the filter files returns
   after a `CreateBloomValue`, and when these are the images of the tables.
-/

namespace BloomHierarchy

section Runs
variable (dump : Bytes → Bytes → List DBRecord) (hash : Bytes → UInt64) (N : Nat)

/-- The names of the tables. -/
def tableNames (d : Directory) : List Bytes :=
  d.names.filter fun name => hasExtension name dataExt

/-- `FilterRun path seen d`: a run on the directory `path`, from an empty one, leads to
`d`, and `seen` are the tables that were present at its `CreateBloomValue`
steps. -/
inductive FilterRun (path : Bytes) : List Bytes → Directory → Prop
  | start : FilterRun path [] (Directory.empty path)
  | dbCreation {seen : List Bytes} {d d' : Directory} :
      FilterRun path seen d → FileSteps d d' → FilterRun path seen d'
  | createBloomValue {seen : List Bytes} {d : Directory} (order : ReaddirOrder) :
      FilterRun path seen d →
      FilterRun path (tableNames d ++ seen) (createBloomValue dump hash N d order)

end Runs

variable {dump : Bytes → Bytes → List DBRecord} {hash : Bytes → UInt64} {N : Nat}

theorem mem_tableNames {d : Directory} {stem : Bytes} :
    stem ++ dataExt ∈ tableNames d ↔ stem ++ dataExt ∈ d.names := by
  rw [tableNames, List.mem_filter, and_iff_left (hasExtension_iff.mpr ⟨stem, rfl⟩)]

/-- `createBloomValue` adds the filter files of the present tables. -/
theorem mem_names_createBloomValue {d : Directory} (hd : d.Accessible) (order : ReaddirOrder)
    {stem : Bytes} :
    stem ++ bloomExt ∈ (createBloomValue dump hash N d order).names ↔
      stem ++ dataExt ∈ d.names ∨ stem ++ bloomExt ∈ d.names := by
  have hb := createBloomValue_built dump hash N hd order
  by_cases htable : stem ++ dataExt ∈ d.names
  · exact iff_of_true (hb.mem_names_bloom htable) (.inl htable)
  · rw [or_iff_right htable]
    refine Directory.mem_names_congr (hb.other _ fun s hs heq => htable ?_)
    rwa [List.append_cancel_right heq]

namespace FilterRun
variable {path : Bytes} {seen : List Bytes} {d : Directory}

theorem accessible (h : FilterRun dump hash N path seen d) : d.Accessible := by
  induction h with
  | start => exact Directory.accessible_empty path
  | dbCreation _ hsteps ih => exact hsteps.keepsFilters.accessible ih
  | createBloomValue order _ ih => exact (createBloomValue_built dump hash N ih order).accessible

/-- There is a filter file for exactly the tables that some `CreateBloomValue`
has seen. -/
theorem bloom_iff (h : FilterRun dump hash N path seen d) (stem : Bytes) :
    stem ++ bloomExt ∈ d.names ↔ stem ++ dataExt ∈ seen := by
  induction h with
  | start => exact iff_of_false List.not_mem_nil List.not_mem_nil
  | dbCreation hrun hsteps ih =>
    rw [← ih]
    exact Directory.mem_names_congr (hsteps.keepsFilters.filter hrun.accessible stem)
  | createBloomValue order hrun ih =>
    rw [mem_names_createBloomValue hrun.accessible, List.mem_append, mem_tableNames, ih]

/-- Every table that was seen has the extension of a table. -/
theorem seen_table (h : FilterRun dump hash N path seen d) {name : Bytes} (hname : name ∈ seen) :
    ∃ stem, name = stem ++ dataExt := by
  induction h with
  | start => cases hname
  | dbCreation _ _ ih => exact ih hname
  | createBloomValue order _ ih =>
    rcases List.mem_append.mp hname with hname | hname
    · exact hasExtension_iff.mp (List.mem_filter.mp hname).2
    · exact ih hname

end FilterRun

/-! ## The images of the tables -/

/-- The images of the tables under `transformFileName`. -/
def tableImages (d : Directory) (order : ReaddirOrder) : List Bytes :=
  (listFilesWithExtension d order dataExt).map fun file => transformFileName file dataExt bloomExt

theorem mem_tableImages {d : Directory} (hd : d.Accessible) {order : ReaddirOrder} {p : Bytes} :
    p ∈ tableImages d order ↔
      ∃ stem, stem ++ dataExt ∈ d.names ∧ p = d.pathOf (stem ++ bloomExt) := by
  rw [tableImages, List.mem_map]
  constructor
  · rintro ⟨file, hfile, rfl⟩
    obtain ⟨stem, hstem, rfl⟩ := (mem_listFilesWithExtension hd).mp hfile
    exact ⟨stem, hstem, transformFileName_pathOf _ _ _ _⟩
  · rintro ⟨stem, hstem, rfl⟩
    exact ⟨_, (mem_listFilesWithExtension hd).mpr ⟨stem, hstem, rfl⟩,
      transformFileName_pathOf _ _ _ _⟩

theorem tableImages_nodup {d : Directory} (hd : d.Accessible) (order : ReaddirOrder) :
    (tableImages d order).Nodup :=
  map_transformFileName_nodup hd order dataExt bloomExt

/-- The listed filter files of a directory that a run leads to. -/
theorem FilterRun.mem_filters {path : Bytes} {seen : List Bytes} {d : Directory}
    (h : FilterRun dump hash N path seen d) {order : ReaddirOrder} {p : Bytes} :
    p ∈ listFilesWithExtension d order bloomExt ↔
      ∃ stem, stem ++ dataExt ∈ seen ∧ p = d.pathOf (stem ++ bloomExt) := by
  rw [mem_listFilesWithExtension h.accessible]
  exact exists_congr fun stem => and_congr_left fun _ => h.bloom_iff stem

/-- After every `CreateBloomValue` of a run, the listed filter files are the
images of the tables present at this or an earlier one, each listed once. They
are the images of the present tables, one for each, exactly if every table that
an earlier one has seen is still there. -/
theorem createBloomValue_run_filters {path : Bytes} {seen : List Bytes} {d d' : Directory}
    (h : FilterRun dump hash N path seen d) (order order' order'' : ReaddirOrder)
    (hd' : d' = createBloomValue dump hash N d order) :
    (listFilesWithExtension d' order' bloomExt).Nodup ∧
    (∀ p, p ∈ listFilesWithExtension d' order' bloomExt ↔
      ∃ name ∈ tableNames d ++ seen, p = transformFileName (d'.pathOf name) dataExt bloomExt) ∧
    ((listFilesWithExtension d' order' bloomExt).Perm (tableImages d' order'') ↔
      ∀ name ∈ seen, name ∈ tableNames d) := by
  subst hd'
  have hrun := FilterRun.createBloomValue order h
  have hb := createBloomValue_built dump hash N h.accessible order
  have hnodup := listFilesWithExtension_nodup hrun.accessible order' bloomExt
  refine ⟨hnodup, fun p => ?_, ?_⟩
  · rw [hrun.mem_filters]
    constructor
    · rintro ⟨stem, hstem, rfl⟩
      exact ⟨_, hstem, (transformFileName_pathOf _ _ _ _).symm⟩
    · rintro ⟨name, hname, rfl⟩
      obtain ⟨stem, rfl⟩ := hrun.seen_table hname
      exact ⟨stem, hname, transformFileName_pathOf _ _ _ _⟩
  · -- both lists are without repetition, so what counts is which paths they hold
    rw [List.perm_ext_iff_of_nodup hnodup (tableImages_nodup hrun.accessible order'')]
    have htable : ∀ stem, stem ++ dataExt ∈ (createBloomValue dump hash N d order).names ↔
        stem ++ dataExt ∈ tableNames d := fun stem =>
      hb.mem_names_table.trans mem_tableNames.symm
    constructor
    · intro hsame name hname
      obtain ⟨stem, rfl⟩ := h.seen_table hname
      obtain ⟨s, hs, heq⟩ := (mem_tableImages hrun.accessible).mp
        ((hsame _).mp (hrun.mem_filters.mpr ⟨stem, List.mem_append_right _ hname, rfl⟩))
      rw [List.append_cancel_right (Directory.pathOf_injective _ heq)]
      exact (htable s).mp hs
    · intro hstill p
      rw [hrun.mem_filters, mem_tableImages hrun.accessible]
      refine exists_congr fun stem => and_congr_left fun _ => ?_
      rw [htable, List.mem_append, or_iff_left_of_imp (hstill _)]

/-! ## A filter file that outlives its table -/

namespace Compacted

/-- Every table holds one record. -/
def oneRecord (_ _ : Bytes) : List DBRecord :=
  [⟨ascii ['K', 'e', 'y', '1'], ascii ['V', 'a', 'l', 'u', 'e', '1']⟩]

/-- The first `DbCreation` leaves the table 5. -/
def created : Directory :=
  (Directory.empty (ascii ['d'])).write
    ((Directory.empty (ascii ['d'])).pathOf (DBFile.table 5).fileName) [1]

def filtered : Directory :=
  createBloomValue oneRecord polyHash 8 created .stored

/-- In the second one a compaction writes the table 9 in its place. -/
def compacted : Directory :=
  removeObsoleteFiles { live := [9], logNumber := 8, manifestFileNumber := 7 }
    (filtered.write (filtered.pathOf (DBFile.table 9).fileName) [1])

theorem run : FilterRun oneRecord polyHash 8 (ascii ['d']) [tableFileName 5] compacted := by
  have hcreated : FilterRun oneRecord polyHash 8 (ascii ['d']) [] created :=
    .dbCreation .start (.single (.write (.table 5) [1]))
  have hfiltered : FilterRun oneRecord polyHash 8 (ascii ['d']) [tableFileName 5] filtered :=
    .createBloomValue .stored hcreated
  exact .dbCreation hfiltered (.tail (.single (.write (.table 9) [1])) (.removeObsoleteFiles _))

end Compacted

theorem createBloomValue_run_filters_compacted :
    FilterRun Compacted.oneRecord polyHash 8 (ascii ['d']) [tableFileName 5] Compacted.compacted ∧
    let d' := createBloomValue Compacted.oneRecord polyHash 8 Compacted.compacted .stored
    (listFilesWithExtension d' .reversed bloomExt).Nodup ∧
    (∀ p, p ∈ listFilesWithExtension d' .reversed bloomExt ↔
      ∃ name ∈ tableNames Compacted.compacted ++ [tableFileName 5],
        p = transformFileName (d'.pathOf name) dataExt bloomExt) ∧
    ((listFilesWithExtension d' .reversed bloomExt).Perm (tableImages d' .stored) ↔
      ∀ name ∈ [tableFileName 5], name ∈ tableNames Compacted.compacted) :=
  ⟨Compacted.run, createBloomValue_run_filters Compacted.run .stored .reversed .stored rfl⟩

/-- The filter file of the table 5 is listed after the table is gone. -/
theorem createBloomValue_lists_stale_filter :
    FilterRun Compacted.oneRecord polyHash 8 (ascii ['d']) [tableFileName 5] Compacted.compacted ∧
    let d' := createBloomValue Compacted.oneRecord polyHash 8 Compacted.compacted .stored
    ¬ (listFilesWithExtension d' .stored bloomExt).Perm (tableImages d' .stored) :=
  ⟨Compacted.run, by decide⟩

end BloomHierarchy
