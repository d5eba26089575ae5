import BloomHierarchy.BloomTree
import Mathlib.Logic.Function.Iterate

/-!
# The levels of a built tree

`createLevel` iterates `levelNodes` until a level has one node
(`createLevel_eq_some`), so a built tree is a number of iterations `h ≥ 1`
with `(levelNodes r)^[h] leafNodes = [root]` (`Built`). Everything about the
shape of the tree follows from that and from what one iteration does.

Results:
1. `createTree_ends_iff`: with a ratio of at least 2 the recursion ends
   exactly when the ratio is at least 3 or there is at most one leaf. A level
   of `m` nodes gets `m / r + 1` parents, and for `r = 2` and `m = 2` these
   are two nodes again.
2. `createTree_levels`: the representation invariant of a tree with ratio at
   least 3.
-/

namespace BloomHierarchy

variable {N : Nat}

/-! ## Iterated levels -/

/-- The node `root` is what `h` levels over `nodes` end in. -/
def Built (r h : Nat) (nodes : List (Node N)) (root : Node N) : Prop :=
  1 ≤ h ∧ (levelNodes r)^[h] nodes = [root]

/-- `createLevel` builds `h` levels over `nodes`: the first level with a single
node is the one that `root` is in. -/
structure FirstBuilt (r h : Nat) (nodes : List (Node N)) (root : Node N) : Prop where
  built : Built r h nodes root
  /-- `levelsize > 1` for every level before the last one. -/
  earlier : ∀ k, 1 ≤ k → k < h → 1 < ((levelNodes r)^[k] nodes).length

/-- `createLevel` returns the root of the first level with a single node. -/
theorem createLevel_eq_some {calls r : Nat} {nodes : List (Node N)} {root : Node N}
    (h : createLevel calls r nodes = some root) : ∃ k, FirstBuilt r k nodes root := by
  induction calls generalizing nodes with
  | zero => cases h
  | succ calls ih =>
    simp only [createLevel] at h
    split at h
    · next hlen =>
      obtain ⟨k, ⟨_, hroot⟩, hearlier⟩ := ih h
      refine ⟨k + 1, ⟨by omega, by rw [Function.iterate_succ_apply, hroot]⟩, fun j hj hlt => ?_⟩
      obtain ⟨j, rfl⟩ : ∃ j', j = j' + 1 := ⟨j - 1, by omega⟩
      rw [Function.iterate_succ_apply]
      rcases Nat.eq_zero_or_pos j with rfl | hpos
      · exact hlen
      · exact hearlier j hpos (Nat.lt_of_succ_lt_succ hlt)
    · next hlen =>
      refine ⟨1, ⟨Nat.le_refl 1, ?_⟩, fun k hk hlt => by omega⟩
      have hone : (levelNodes r nodes).length = 1 :=
        Nat.le_antisymm (Nat.le_of_not_lt hlen) (length_levelNodes_pos r nodes)
      obtain ⟨n, hn⟩ := List.length_eq_one_iff.mp hone
      rw [hn] at h
      cases h
      exact hn

/-- A level over at least two nodes is smaller when the ratio is at least 3. -/
theorem length_levelNodes_lt {r : Nat} (hr : 3 ≤ r) {nodes : List (Node N)}
    (hn : 2 ≤ nodes.length) : (levelNodes r nodes).length < nodes.length := by
  rw [length_levelNodes]
  have hdiv : nodes.length / r ≤ nodes.length / 3 := Nat.div_le_div_left hr (by decide)
  omega

/-- With a ratio of at least 3 one call for each node and one more suffice. The
induction is on the calls; the measure is the size of the level. -/
theorem createLevel_of_three_le {r : Nat} (hr : 3 ≤ r) {calls : Nat} {nodes : List (Node N)}
    (hc : nodes.length < calls) : ∃ root, createLevel calls r nodes = some root := by
  induction calls generalizing nodes with
  | zero => exact absurd hc (Nat.not_lt_zero _)
  | succ calls ih =>
    simp only [createLevel]
    split
    · next hlen =>
      refine ih ?_
      by_cases hn : 2 ≤ nodes.length
      · exact Nat.lt_of_lt_of_le (length_levelNodes_lt hr hn) (Nat.le_of_lt_succ hc)
      · -- over no node or one node the level has a single node
        have hdiv : nodes.length / r = 0 := Nat.div_eq_of_lt (by omega)
        rw [length_levelNodes, hdiv] at hlen
        exact absurd hlen (Nat.lt_irrefl 1)
    · exact ⟨_, List.getElem?_eq_getElem (length_levelNodes_pos r nodes)⟩

/-- With a ratio of 2 a level of at least two nodes never shrinks to one. -/
theorem createLevel_two {calls : Nat} {nodes : List (Node N)} (hn : 2 ≤ nodes.length) :
    createLevel calls 2 nodes = none := by
  induction calls generalizing nodes with
  | zero => rfl
  | succ calls ih =>
    have hlen : (levelNodes 2 nodes).length > 1 := by
      rw [length_levelNodes]
      omega
    simp only [createLevel, if_pos hlen]
    exact ih hlen

/-- At most one node gets its single parent at once. -/
theorem createLevel_of_le_one {r : Nat} (hr : 2 ≤ r) {nodes : List (Node N)}
    (hn : nodes.length ≤ 1) : ∃ root, createLevel 1 r nodes = some root := by
  have hdiv : nodes.length / r = 0 := Nat.div_eq_of_lt (by omega)
  have hlen : ¬ (levelNodes r nodes).length > 1 := by
    rw [length_levelNodes, hdiv]
    exact Nat.lt_irrefl 1
  simp only [createLevel, if_neg hlen]
  exact ⟨_, List.getElem?_eq_getElem (length_levelNodes_pos r nodes)⟩

/-! ## When building ends -/

namespace BloomTree

theorem createTree_eq_some {calls : Nat} {t t' : BloomTree N} (h : t.createTree calls = some t') :
    ∃ root, createLevel calls t.ratio t.leafNodes = some root ∧
      t' = { t with root := some root } := by
  rw [createTree, Option.map_eq_some_iff] at h
  obtain ⟨root, hroot, rfl⟩ := h
  exact ⟨root, hroot, rfl⟩

theorem createTree_of_createLevel {calls : Nat} {t : BloomTree N} {root : Node N}
    (h : createLevel calls t.ratio t.leafNodes = some root) :
    t.createTree calls = some { t with root := some root } := by
  rw [createTree, h]
  rfl

/-- Building ends: some number of calls suffices, and what they put into `root`
is the single node of some level. -/
def Ends (t : BloomTree N) : Prop :=
  ∃ calls t' root h, t.createTree calls = some t' ∧ t'.root = some root ∧
    Built t.ratio h t.leafNodes root

theorem ends_iff_createLevel {t : BloomTree N} :
    t.Ends ↔ ∃ calls root, createLevel calls t.ratio t.leafNodes = some root := by
  constructor
  · rintro ⟨calls, t', root, h, ht, _, _⟩
    obtain ⟨root', hroot', _⟩ := createTree_eq_some ht
    exact ⟨calls, root', hroot'⟩
  · rintro ⟨calls, root, hroot⟩
    obtain ⟨h, hfirst⟩ := createLevel_eq_some hroot
    exact ⟨calls, _, root, h, createTree_of_createLevel hroot, rfl, hfirst.built⟩

/-- For a ratio of at least 2 the recursion ends exactly when the ratio is at
least 3 or there is at most one leaf. -/
theorem createTree_ends_iff (t : BloomTree N) (hr : 2 ≤ t.ratio) :
    t.Ends ↔ 3 ≤ t.ratio ∨ t.leafNodes.length ≤ 1 := by
  rw [ends_iff_createLevel]
  constructor
  · rintro ⟨calls, root, hroot⟩
    by_cases h3 : 3 ≤ t.ratio
    · exact .inl h3
    · refine .inr (Nat.le_of_not_lt fun hn => ?_)
      have h2 : t.ratio = 2 := by omega
      rw [h2, createLevel_two hn] at hroot
      cases hroot
  · rintro (h3 | hn)
    · exact ⟨_, createLevel_of_three_le h3 (Nat.lt_succ_self _)⟩
    · exact ⟨1, createLevel_of_le_one hr hn⟩

/-- Two leaves under a ratio of 2: every level has two nodes again. -/
def twoLeaves : BloomTree 8 :=
  ofLeaves 2 [({ }, ascii ['a']), ({ }, ascii ['b'])]

theorem createTree_ends_iff_twoLeaves :
    2 ≤ twoLeaves.ratio ∧
      (twoLeaves.Ends ↔ 3 ≤ twoLeaves.ratio ∨ twoLeaves.leafNodes.length ≤ 1) :=
  ⟨by decide, createTree_ends_iff twoLeaves (by decide)⟩

/-- A ratio of 2 is accepted, and with two leaves the recursion does not end. -/
theorem createTree_twoLeaves_runs_on : 2 ≤ twoLeaves.ratio ∧ ¬ twoLeaves.Ends := by
  refine ⟨by decide, fun h => ?_⟩
  obtain ⟨calls, root, hroot⟩ := ends_iff_createLevel.mp h
  have hnone : createLevel calls 2 twoLeaves.leafNodes = none := createLevel_two (by decide)
  have hratio : twoLeaves.ratio = 2 := rfl
  rw [hratio, hnone] at hroot
  cases hroot

/-- With a ratio of at least 3, more calls than there are leaves build the tree. -/
theorem createTree_ofLeaves {r : Nat} (hr : 3 ≤ r) (leaves : List (BloomValue N × Bytes))
    {calls : Nat} (hc : leaves.length < calls) :
    ∃ root h, (ofLeaves r leaves).createTree calls =
        some { ofLeaves r leaves with root := some root } ∧
      FirstBuilt r h (leaves.map fun leaf => Node.leaf leaf.1 leaf.2) root := by
  have hlen : (leaves.map fun leaf => Node.leaf leaf.1 leaf.2).length < calls := by
    rw [List.length_map]
    exact hc
  obtain ⟨root, hroot⟩ := createLevel_of_three_le hr hlen
  obtain ⟨h, hfirst⟩ := createLevel_eq_some hroot
  refine ⟨root, h, createTree_of_createLevel ?_, hfirst⟩
  rw [ofLeaves_ratio, ofLeaves_leafNodes]
  exact hroot

end BloomTree

/-! ## The representation invariant -/

/-- The nodes `d` edges below the nodes `nodes`, in child order. -/
def below (d : Nat) (nodes : List (Node N)) : List (Node N) :=
  (fun level => level.flatMap Node.children)^[d] nodes

@[simp] theorem below_zero (nodes : List (Node N)) : below 0 nodes = nodes := rfl

theorem below_succ (d : Nat) (nodes : List (Node N)) :
    below (d + 1) nodes = below d (nodes.flatMap Node.children) := rfl

theorem below_append (d : Nat) (a b : List (Node N)) :
    below d (a ++ b) = below d a ++ below d b := by
  induction d generalizing a b with
  | zero => rfl
  | succ d ih => rw [below_succ, List.flatMap_append, ih, below_succ, below_succ]

theorem below_flatMap (d : Nat) (nodes : List (Node N)) :
    below d nodes = nodes.flatMap fun n => below d [n] := by
  induction nodes with
  | nil =>
    induction d with
    | zero => rfl
    | succ d ih => exact ih
  | cons n nodes ih =>
    rw [← List.singleton_append, below_append, ih]
    rfl

/-- Going down `d` of `k` levels comes to the level that was built `k - d` th. -/
theorem below_iterate {r : Nat} (hr : 0 < r) {d k : Nat} (hdk : d ≤ k) (nodes : List (Node N)) :
    below d ((levelNodes r)^[k] nodes) = (levelNodes r)^[k - d] nodes := by
  induction d generalizing k with
  | zero => rfl
  | succ d ih =>
    obtain ⟨k, rfl⟩ : ∃ k', k = k' + 1 := ⟨k - 1, by omega⟩
    rw [below_succ, Function.iterate_succ_apply', levelNodes_flatMap_children hr,
      ih (Nat.le_of_succ_le_succ hdk), Nat.add_sub_add_right]

/-- The or composes through the levels: a node `k` levels up holds the or of
what is `k` levels below it. The induction is on the levels, and the step joins
the ors of the children. -/
theorem bitArray_eq_orBits_below {r k : Nat} {nodes : List (Node N)} {n : Node N}
    (h : n ∈ (levelNodes r)^[k + 1] nodes) :
    n.blValue.bitArray = orBits ((below (k + 1) [n]).map fun c => c.blValue.bitArray) := by
  induction k generalizing n with
  | zero =>
    have hbits := (mem_levelNodes h).2.1
    rw [below_succ, below_zero, List.flatMap_singleton]
    exact hbits
  | succ k ih =>
    rw [Function.iterate_succ_apply'] at h
    obtain ⟨_, hbits, _, hchildren⟩ := mem_levelNodes h
    have hsub : ∀ c ∈ n.children, c.blValue.bitArray =
        orBits ((below (k + 1) [c]).map fun c => c.blValue.bitArray) :=
      fun c hc => ih (hchildren c hc)
    rw [hbits, List.map_congr_left hsub, below_succ, List.flatMap_singleton, below_flatMap,
      List.map_flatMap, orBits_flatMap]

/-- All nodes of a level but the last one have `r` children. -/
theorem length_children_of_mem_dropLast {r : Nat} {nodes : List (Node N)} {n : Node N}
    (h : n ∈ (levelNodes r nodes).dropLast) : n.children.length = r := by
  rw [levelNodes, List.range_succ, List.map_append, List.map_singleton, List.dropLast_concat,
    List.mem_map] at h
  obtain ⟨i, hi, rfl⟩ := h
  rw [levelNode_eq, Node.children_mk]
  exact Blocks.length_block_of_lt (List.mem_range.mp hi)

/-- The representation invariant of a tree of height `h` over `leafNodes`. -/
structure Invariant (r h : Nat) (leafNodes : List (Node N)) (root : Node N) : Prop where
  /-- The nodes at depth `h`, in child order, are the leaves, none lost or
  repeated; so every leaf is at depth `h`. -/
  leaves : below h [root] = leafNodes
  /-- Below the leaves there is nothing. -/
  bottom : below (h + 1) [root] = []
  /-- The nodes at every smaller depth are those that `createLevel` made. -/
  inner : ∀ d < h, ∀ n ∈ below d [root], n.filename = Node.memory
  /-- No inner node has more than `r` children. -/
  atMost : ∀ d < h, ∀ n ∈ below d [root], n.children.length ≤ r
  /-- In every level all nodes except the last have exactly `r`. -/
  full : ∀ d < h, ∀ n ∈ (below d [root]).dropLast, n.children.length = r
  /-- An inner node's filter is the or of those of the leaves below it: a bit is set
  exactly if it is set in one of them. -/
  bits : ∀ d < h, ∀ n ∈ below d [root], ∀ p,
    n.blValue.bitArray.getLsbD p = true ↔
      ∃ leaf ∈ below (h - d) [n], leaf.blValue.bitArray.getLsbD p = true

theorem Invariant.bitArray_eq {r h : Nat} {leafNodes : List (Node N)} {root n : Node N}
    (hinv : Invariant r h leafNodes root) {d : Nat} (hd : d < h) (hn : n ∈ below d [root]) :
    n.blValue.bitArray = orBits ((below (h - d) [n]).map fun leaf => leaf.blValue.bitArray) := by
  refine positions_injective (Set.ext fun p => ?_)
  exact (hinv.bits d hd n hn p).trans getLsbD_orBits_map.symm

/-- The nodes at depth `d` are the level that was built `h - d` th. -/
theorem Built.below_eq_iterate {r h : Nat} {nodes : List (Node N)} {root : Node N} (hr : 0 < r)
    (hb : Built r h nodes root) {d : Nat} (hd : d ≤ h) :
    below d [root] = (levelNodes r)^[h - d] nodes := by
  rw [← hb.2, below_iterate hr hd]

theorem Built.below_eq_levelNodes {r h : Nat} {nodes : List (Node N)} {root : Node N} (hr : 0 < r)
    (hb : Built r h nodes root) {d : Nat} (hd : d < h) :
    below d [root] = levelNodes r ((levelNodes r)^[h - d - 1] nodes) := by
  rw [hb.below_eq_iterate hr (Nat.le_of_lt hd), ← Function.iterate_succ_apply' (levelNodes r)]
  congr 2
  omega

theorem Built.invariant {r h : Nat} {leafNodes : List (Node N)} {root : Node N} (hr : 0 < r)
    (hleaf : ∀ n ∈ leafNodes, n.children = []) (hb : Built r h leafNodes root) :
    Invariant r h leafNodes root := by
  have hlevel : ∀ d, d < h →
      below d [root] = levelNodes r ((levelNodes r)^[h - d - 1] leafNodes) := fun d hd =>
    hb.below_eq_levelNodes hr hd
  have hleaves : below h [root] = leafNodes := by
    rw [hb.below_eq_iterate hr (Nat.le_refl h), Nat.sub_self]
    rfl
  refine ⟨hleaves, ?_, ?_, ?_, ?_, ?_⟩
  · have hstep : below (h + 1) [root] = (below h [root]).flatMap Node.children :=
      Function.iterate_succ_apply' _ _ _
    rw [hstep, hleaves]
    exact List.flatMap_eq_nil_iff.mpr hleaf
  · intro d hd n hn
    rw [hlevel d hd] at hn
    exact (mem_levelNodes hn).1
  · intro d hd n hn
    rw [hlevel d hd] at hn
    exact (mem_levelNodes hn).2.2.1
  · intro d hd n hn
    rw [hlevel d hd] at hn
    exact length_children_of_mem_dropLast hn
  · intro d hd n hn p
    obtain ⟨k, hk⟩ : ∃ k, h - d = k + 1 := ⟨h - d - 1, by omega⟩
    rw [hb.below_eq_iterate hr (Nat.le_of_lt hd), hk] at hn
    rw [hk, bitArray_eq_orBits_below hn]
    exact getLsbD_orBits_map

/-- What is built over leaves has the invariant, since a leaf has no child. -/
theorem Built.invariant_ofLeaves {r h : Nat} {leaves : List (BloomValue N × Bytes)}
    {root : Node N} (hr : 0 < r)
    (hb : Built r h (leaves.map fun leaf => Node.leaf leaf.1 leaf.2) root) :
    Invariant r h (BloomTree.ofLeaves r leaves).leafNodes root := by
  rw [BloomTree.ofLeaves_leafNodes]
  refine hb.invariant hr fun n hn => ?_
  obtain ⟨leaf, _, rfl⟩ := List.mem_map.mp hn
  rfl

/-- After `createTree` on any list of leaves with a ratio of at least 3, the
tree has the representation invariant at some height. -/
theorem createTree_levels {r : Nat} (hr : 3 ≤ r) (leaves : List (BloomValue N × Bytes))
    {calls : Nat} (hc : leaves.length < calls) :
    ∃ t root h, (BloomTree.ofLeaves r leaves).createTree calls = some t ∧ t.root = some root ∧
      t.leafNodes = leaves.map (fun leaf => Node.leaf leaf.1 leaf.2) ∧
      1 ≤ h ∧ Invariant r h t.leafNodes root := by
  obtain ⟨root, h, ht, hbuilt, _⟩ := BloomTree.createTree_ofLeaves hr leaves hc
  exact ⟨_, root, h, ht, rfl, BloomTree.ofLeaves_leafNodes r leaves, hbuilt.1,
    hbuilt.invariant_ofLeaves (by omega)⟩

/-- Four leaves under a ratio of 3: two levels, with a last node that has one
child. -/
def fourLeaves : List (BloomValue 8 × Bytes) :=
  [({ bitArray := 0x01#8 }, ascii ['a']), ({ bitArray := 0x80#8 }, ascii ['b']),
    ({ }, ascii ['c']), ({ bitArray := 0x10#8 }, ascii ['d'])]

theorem createTree_levels_fourLeaves :
    3 ≤ 3 ∧ fourLeaves.length < 5 ∧
    ∃ t root h, (BloomTree.ofLeaves 3 fourLeaves).createTree 5 = some t ∧ t.root = some root ∧
      t.leafNodes = fourLeaves.map (fun leaf => Node.leaf leaf.1 leaf.2) ∧
      1 ≤ h ∧ Invariant 3 h t.leafNodes root :=
  ⟨by decide, by decide, createTree_levels (by decide) fourLeaves (by decide)⟩

end BloomHierarchy
