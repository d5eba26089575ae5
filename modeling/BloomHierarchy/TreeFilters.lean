import BloomHierarchy.TreeSearch
import BloomHierarchy.TreeShape

/-!
# What the inner filters hold, and how many of them a search scans

Results:
1. `below_eq_block`: the leaves below an inner node are those of one block of
   consecutive leaves.
2. `createTree_insertAll`: over leaves that were filled by inserting values, every
   inner filter is the one that all the values below it build, and which keys such a
   filter accepts.
3. `scannedFilters_exact`: the counter of `checkExistance` is the number of all
   inner nodes that accept the value, although the search never goes below a node
   that does not.
-/

namespace BloomHierarchy

open Blocks PositionFilter

/-! ## The leaves below a node -/

section Below
variable {N : Nat}

/-- Below node `j` of level `k` lies block `j` of size `r ^ k`. The induction is on
the levels; a node's children are a block of blocks. -/
theorem below_eq_block {r : Nat} (hr : 0 < r) {k j : Nat} {nodes : List (Node N)} {n : Node N}
    (h : ((levelNodes r)^[k] nodes)[j]? = some n) : below k [n] = block (r ^ k) j nodes := by
  induction k generalizing j n with
  | zero =>
    obtain ⟨hlt, rfl⟩ := List.getElem?_eq_some_iff.mp h
    rw [below_zero, block, Nat.pow_zero, Nat.mul_one]
    exact (List.take_one_drop_eq_of_lt_length hlt).symm
  | succ k ih =>
    have hcover : nodes.length ≤ ((levelNodes r)^[k] nodes).length * r ^ k := by
      rw [length_iterate_levelNodes]
      exact le_mul_iterate_blockCount hr k nodes.length
    have hchildren : n.children = block r j ((levelNodes r)^[k] nodes) := by
      rw [Function.iterate_succ_apply', levelNodes, List.getElem?_map, Option.map_eq_some_iff] at h
      obtain ⟨i, hi, rfl⟩ := h
      obtain ⟨hlt, rfl⟩ := List.getElem?_eq_some_iff.mp hi
      rw [List.getElem_range, levelNode_eq, Node.children_mk]
    rw [below_succ, List.flatMap_singleton, hchildren, below_flatMap,
      flatMap_block (fun i b hb => ih hb) hcover, Nat.pow_succ']

end Below

/-! ## Filters built from values -/

section Values
variable (hash : Bytes → UInt64) {N : Nat}

/-- Leaves whose filters hold the values of `lists`, each under its file name. -/
def filledLeaves (N : Nat) (lists : List (List Bytes × Bytes)) : List (BloomValue N × Bytes) :=
  lists.map fun e => (BloomValue.insertAll hash {} e.1, e.2)

variable {hash}

theorem positions_insertAll_empty (hN : 0 < N) (keys : List Bytes) :
    positions (BloomValue.insertAll hash ({} : BloomValue N) keys).bitArray =
      built (probes hash N 3) keys := by
  rw [BloomValue.insertAll_positions hN, positions_zero, Set.empty_union]

/-- The or of filled filters is the filter that all the values fill. -/
theorem orBits_filled (hN : 0 < N) (groups : List (List Bytes)) {keys : List Bytes}
    (hkeys : ∀ key, key ∈ keys ↔ ∃ values ∈ groups, key ∈ values) :
    orBits (groups.map fun values =>
      (BloomValue.insertAll hash ({} : BloomValue N) values).bitArray) =
      (BloomValue.insertAll hash ({} : BloomValue N) keys).bitArray := by
  apply positions_injective
  have hflat : ∀ key, key ∈ keys ↔ key ∈ groups.flatten := by
    intro key
    rw [hkeys, List.mem_flatten]
  rw [positions_orBits, positions_insertAll_empty hN, built_congr hflat, built_flatten]
  ext p
  constructor
  · rintro ⟨bits, hbits, hp⟩
    obtain ⟨values, hvalues, rfl⟩ := List.mem_map.mp hbits
    rw [positions_insertAll_empty hN] at hp
    exact ⟨values, hvalues, hp⟩
  · rintro ⟨values, hvalues, hp⟩
    refine ⟨_, List.mem_map_of_mem hvalues, ?_⟩
    rw [positions_insertAll_empty hN]
    exact hp

/-- A filled filter accepts a key exactly if each probe of the key is a probe of
some inserted value. -/
theorem existsKey_insertAll_iff (hN : 0 < N) (keys : List Bytes) (key : Bytes) :
    (BloomValue.insertAll hash ({} : BloomValue N) keys).existsKey hash key = true ↔
      ∀ i < 3, ∃ value ∈ keys, ∃ i' < 3, probe hash N key i = probe hash N value i' := by
  rw [BloomValue.existsKey_iff_accepts, positions_insertAll_empty hN]
  constructor
  · intro h i hi
    exact h ⟨i, hi, rfl⟩
  · rintro h p ⟨i, hi, rfl⟩
    exact h i hi

variable (hash) in
/-- Inserting is a homomorphism, up through the tree. Over leaves that were filled
with the values of `lists`, node `j` at depth `d` lies over block `j` of the lists,
and its bits are those that all the values of these lists give one empty filter, in
any order and with any repetitions. A filter that was filled like that accepts a key
exactly if each of its positions `hash(key + i) % N` is one of an inserted value. -/
theorem createTree_insertAll {r : Nat} (hr : 3 ≤ r) (hN : 0 < N)
    (lists : List (List Bytes × Bytes)) {calls : Nat} (hc : lists.length < calls) :
    ∃ t root h, (BloomTree.ofLeaves r (filledLeaves hash N lists)).createTree calls = some t ∧
      t.root = some root ∧ Invariant r h t.leafNodes root ∧
      (∀ d < h, ∀ j n, (below d [root])[j]? = some n →
        below (h - d) [n] = (filledLeaves hash N (block (r ^ (h - d)) j lists)).map
          (fun leaf => Node.leaf leaf.1 leaf.2) ∧
        ∀ keys : List Bytes,
          (∀ key, key ∈ keys ↔ ∃ e ∈ block (r ^ (h - d)) j lists, key ∈ e.1) →
          n.blValue.bitArray = (BloomValue.insertAll hash ({} : BloomValue N) keys).bitArray) ∧
      ∀ keys key, (BloomValue.insertAll hash ({} : BloomValue N) keys).existsKey hash key = true ↔
        ∀ i < initialHashFunctions, ∃ value ∈ keys, ∃ i' < initialHashFunctions,
          (hash (key ++ toDecimal i)).toNat % N = (hash (value ++ toDecimal i')).toNat % N := by
  have hlen : (filledLeaves hash N lists).length < calls := by
    rw [filledLeaves, List.length_map]
    exact hc
  have hpos : 0 < r := by omega
  obtain ⟨root, h, ht, hfirst⟩ := BloomTree.createTree_ofLeaves hr (filledLeaves hash N lists) hlen
  have hinv := hfirst.built.invariant_ofLeaves hpos
  refine ⟨_, root, h, ht, rfl, hinv, fun d hd j n hn => ?_, existsKey_insertAll_iff hN⟩
  have hbits := hinv.bitArray_eq hd (List.mem_of_getElem? hn)
  rw [hfirst.built.below_eq_iterate hpos (Nat.le_of_lt hd)] at hn
  have hbelow := below_eq_block hpos hn
  rw [block_map, filledLeaves, block_map] at hbelow
  refine ⟨hbelow, fun keys hkeys => ?_⟩
  have hgroups : ∀ key, key ∈ keys ↔
      ∃ values ∈ (block (r ^ (h - d)) j lists).map Prod.fst, key ∈ values := by
    intro key
    rw [hkeys]
    constructor
    · rintro ⟨e, he, hkey⟩
      exact ⟨e.1, List.mem_map_of_mem he, hkey⟩
    · rintro ⟨values, hvalues, hkey⟩
      obtain ⟨e, he, rfl⟩ := List.mem_map.mp hvalues
      exact ⟨e, he, hkey⟩
  rw [hbits, hbelow, ← orBits_filled hN _ hgroups]
  simp only [List.map_map]
  rfl

/-- Three lists for three leaves, one of them with a repetition. -/
def threeLists : List (List Bytes × Bytes) :=
  [([ascii ['x'], ascii ['x']], ascii ['a']), ([], ascii ['b']), ([ascii ['y']], ascii ['c'])]

theorem createTree_insertAll_threeLists :
    3 ≤ 3 ∧ 0 < 64 ∧ threeLists.length < 4 ∧
    ∃ t root h, (BloomTree.ofLeaves 3 (filledLeaves polyHash 64 threeLists)).createTree 4 =
        some t ∧
      t.root = some root ∧ Invariant 3 h t.leafNodes root ∧
      (∀ d < h, ∀ j n, (below d [root])[j]? = some n →
        below (h - d) [n] = (filledLeaves polyHash 64 (block (3 ^ (h - d)) j threeLists)).map
          (fun leaf => Node.leaf leaf.1 leaf.2) ∧
        ∀ keys : List Bytes,
          (∀ key, key ∈ keys ↔ ∃ e ∈ block (3 ^ (h - d)) j threeLists, key ∈ e.1) →
          n.blValue.bitArray =
            (BloomValue.insertAll polyHash ({} : BloomValue 64) keys).bitArray) ∧
      ∀ keys key,
        (BloomValue.insertAll polyHash ({} : BloomValue 64) keys).existsKey polyHash key = true ↔
        ∀ i < initialHashFunctions, ∃ value ∈ keys, ∃ i' < initialHashFunctions,
          (polyHash (key ++ toDecimal i)).toNat % 64 =
            (polyHash (value ++ toDecimal i')).toNat % 64 :=
  ⟨by decide, by decide, by decide,
    createTree_insertAll polyHash (by decide) (by decide) threeLists (by decide)⟩

end Values

/-! ## Scanned filters -/

section Scanned
variable (hash : Bytes → UInt64) {N : Nat} (value : Bytes)

/-- The nodes above the leaves of a tree of height `h`. -/
def innerNodes (h : Nat) (nodes : List (Node N)) : List (Node N) :=
  (List.range h).flatMap fun d => below d nodes

theorem innerNodes_succ (h : Nat) (nodes : List (Node N)) :
    innerNodes (h + 1) nodes = nodes ++ innerNodes h (nodes.flatMap Node.children) := by
  rw [innerNodes, List.range_succ_eq_map, List.flatMap_cons, List.flatMap_map]
  rfl

/-- How many filters a search below `n` scans. -/
def Node.scanned (n : Node N) : Nat :=
  (n.checkExistance hash value {}).foundInHierarchy

mutual
/-- The search adds what it scans to the counter. -/
theorem checkExistance_foundInHierarchy (n : Node N) (s : SearchState) :
    (n.checkExistance hash value s).foundInHierarchy =
      s.foundInHierarchy + n.scanned hash value := by
  cases n with
  | mk children blValue filename =>
    unfold Node.scanned
    rw [Node.checkExistance, Node.checkExistance]
    split
    · rfl
    · split
      · rw [checkChildren_foundInHierarchy children, checkChildren_foundInHierarchy children]
        exact Nat.add_assoc _ _ _
      · rfl

theorem checkChildren_foundInHierarchy (nodes : List (Node N)) (s : SearchState) :
    (Node.checkChildren hash value nodes s).foundInHierarchy =
      s.foundInHierarchy + (nodes.map fun n => n.scanned hash value).sum := by
  cases nodes with
  | nil =>
    rw [Node.checkChildren]
    rfl
  | cons n rest =>
    rw [Node.checkChildren, checkChildren_foundInHierarchy rest, checkExistance_foundInHierarchy n,
      List.map_cons, List.sum_cons, Nat.add_assoc]
end

theorem scanned_of_ne_memory {n : Node N} (h : n.filename ≠ Node.memory) :
    n.scanned hash value = 0 := by
  cases n with
  | mk children blValue filename =>
    rw [Node.filename_mk] at h
    rw [Node.scanned, Node.checkExistance, if_pos h]

theorem scanned_of_accepting {n : Node N} (h : n.filename = Node.memory)
    (haccept : n.blValue.existsKey hash value = true) :
    n.scanned hash value = 1 + (n.children.map fun c => c.scanned hash value).sum := by
  cases n with
  | mk children blValue filename =>
    rw [Node.filename_mk] at h
    rw [Node.blValue_mk] at haccept
    rw [Node.scanned, Node.checkExistance, if_neg (not_not_intro h), if_pos haccept,
      checkChildren_foundInHierarchy]
    rfl

/-- Below a node that does not accept the value nothing is scanned, leaf or not. -/
theorem scanned_of_rejecting {n : Node N} (hreject : ¬ n.blValue.existsKey hash value = true) :
    n.scanned hash value = 0 := by
  by_cases h : n.filename = Node.memory
  · cases n with
    | mk children blValue filename =>
      rw [Node.filename_mk] at h
      rw [Node.blValue_mk] at hreject
      rw [Node.scanned, Node.checkExistance, if_neg (not_not_intro h), if_neg hreject]
  · exact scanned_of_ne_memory hash value h

/-- A node of a level counts itself if it accepts the value, and in either case what
its children count: where it does not accept the value, none of them does. -/
theorem scanned_of_mem_levelNodes {r : Nat} {nodes : List (Node N)} {n : Node N}
    (hn : n ∈ levelNodes r nodes) :
    n.scanned hash value = (if n.blValue.existsKey hash value = true then 1 else 0) +
      (n.children.map fun c => c.scanned hash value).sum := by
  split
  · next haccept => exact scanned_of_accepting hash value (mem_levelNodes hn).1 haccept
  · next hreject =>
    rw [scanned_of_rejecting hash value hreject, Nat.zero_add]
    refine (List.sum_eq_zero fun x hx => ?_).symm
    obtain ⟨c, hc, rfl⟩ := List.mem_map.mp hx
    exact scanned_of_rejecting hash value fun haccept =>
      hreject (existsKey_of_mem_children hn hc haccept)

/-- A sum over nodes that each add one for themselves, if they pass a test, and what
their children add. -/
theorem sum_map_eq_countP {p : Node N → Bool} {f : Node N → Nat} {level : List (Node N)}
    (h : ∀ n ∈ level, f n = (if p n = true then 1 else 0) + (n.children.map f).sum) :
    (level.map f).sum = level.countP p + ((level.flatMap Node.children).map f).sum := by
  induction level with
  | nil => rfl
  | cons n level ih =>
    obtain ⟨hn, hrest⟩ := List.forall_mem_cons.mp h
    rw [List.map_cons, List.sum_cons, hn, ih hrest, List.countP_cons, List.flatMap_cons,
      List.map_append, List.sum_append]
    omega

theorem sum_scanned_levelNodes {r : Nat} (hr : 0 < r) (nodes : List (Node N)) :
    ((levelNodes r nodes).map fun n => n.scanned hash value).sum =
      (levelNodes r nodes).countP (fun n => n.blValue.existsKey hash value) +
        (nodes.map fun n => n.scanned hash value).sum := by
  rw [sum_map_eq_countP fun n hn => scanned_of_mem_levelNodes hash value hn,
    levelNodes_flatMap_children hr]

/-- Every level adds its accepting nodes to what the leaves count. -/
theorem sum_scanned_iterate {r : Nat} (hr : 0 < r) (k : Nat) (nodes : List (Node N)) :
    (((levelNodes r)^[k] nodes).map fun n => n.scanned hash value).sum =
      (innerNodes k ((levelNodes r)^[k] nodes)).countP (fun n => n.blValue.existsKey hash value) +
        (nodes.map fun n => n.scanned hash value).sum := by
  induction k with
  | zero =>
    rw [innerNodes, List.range_zero, List.flatMap_nil, List.countP_nil, Nat.zero_add]
    rfl
  | succ k ih =>
    rw [Function.iterate_succ_apply', sum_scanned_levelNodes hash value hr, innerNodes_succ,
      levelNodes_flatMap_children hr, List.countP_append, ih, Nat.add_assoc]

/-- After one query of a freshly built tree the counter is the number of all inner
nodes whose filter accepts the value. -/
theorem scannedFilters_exact {r : Nat} (hr : 3 ≤ r) (leaves : List (BloomValue N × Bytes))
    (hname : ∀ leaf ∈ leaves, leaf.2 ≠ Node.memory) {calls : Nat} (hc : leaves.length < calls) :
    ∃ t root h names t', (BloomTree.ofLeaves r leaves).createTree calls = some t ∧
      t.root = some root ∧ Invariant r h t.leafNodes root ∧
      t.checkExistance hash value = some (names, t') ∧
      t'.getScannedHierarchyFilters =
        (innerNodes h [root]).countP fun n => n.blValue.existsKey hash value := by
  have hpos : 0 < r := by omega
  obtain ⟨root, h, ht, hfirst⟩ := BloomTree.createTree_ofLeaves hr leaves hc
  have hleaves : ((leaves.map fun leaf => Node.leaf leaf.1 leaf.2).map
      fun n => n.scanned hash value).sum = 0 := by
    refine List.sum_eq_zero fun x hx => ?_
    rw [List.map_map] at hx
    obtain ⟨leaf, hleaf, rfl⟩ := List.mem_map.mp hx
    exact scanned_of_ne_memory hash value (hname leaf hleaf)
  have hsum := sum_scanned_iterate hash value hpos h
    (leaves.map fun leaf => Node.leaf leaf.1 leaf.2)
  rw [hfirst.built.2, hleaves, Nat.add_zero, List.map_singleton, List.sum_singleton] at hsum
  refine ⟨_, root, h, _, _, ht, rfl, hfirst.built.invariant_ofLeaves hpos, rfl, ?_⟩
  rw [← hsum, BloomTree.getScannedHierarchyFilters, BloomTree.ofLeaves_search]
  rfl

theorem scannedFilters_exact_fourLeaves :
    3 ≤ 3 ∧ (∀ leaf ∈ fourLeaves, leaf.2 ≠ Node.memory) ∧ fourLeaves.length < 5 ∧
    ∃ t root h names t', (BloomTree.ofLeaves 3 fourLeaves).createTree 5 = some t ∧
      t.root = some root ∧ Invariant 3 h t.leafNodes root ∧
      t.checkExistance polyHash (ascii ['x']) = some (names, t') ∧
      t'.getScannedHierarchyFilters =
        (innerNodes h [root]).countP fun n => n.blValue.existsKey polyHash (ascii ['x']) :=
  ⟨by decide, by decide, by decide,
    scannedFilters_exact polyHash (ascii ['x']) (by decide) fourLeaves (by decide) (by decide)⟩

end Scanned

end BloomHierarchy
