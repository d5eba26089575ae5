import BloomHierarchy.TreeLevels

/-!
# The shape of a built tree

A level over `m` nodes has `m / r + 1` nodes: `ceil` is applied to a quotient that
is rounded down already, and the loop runs once more. When `r` divides `m`, that is
one node more than the children need, and the last node has none.

Results:
1. `createTree_height`: the tree is at most one level higher than a tree with `r`
   children at every node has to be.
2. `createTree_full_iff`: for which numbers of leaves every level is as small as it
   can be and every inner node has a child.
-/

namespace BloomHierarchy

open Blocks

variable {N : Nat}

/-! ## Sizes of levels -/

theorem length_iterate_levelNodes (r k : Nat) (nodes : List (Node N)) :
    ((levelNodes r)^[k] nodes).length = (blockCount r)^[k] nodes.length := by
  induction k generalizing nodes with
  | zero => rfl
  | succ k ih =>
    rw [Function.iterate_succ_apply, ih, length_levelNodes, Function.iterate_succ_apply,
      blockCount]

/-- A level of one node gets levels of one node. -/
theorem iterate_blockCount_one {r : Nat} (hr : 2 ≤ r) (k : Nat) : (blockCount r)^[k] 1 = 1 := by
  refine Function.iterate_fixed ?_ k
  rw [blockCount, Nat.div_eq_of_lt hr]

namespace FirstBuilt
variable {r h : Nat} {nodes : List (Node N)} {root : Node N}

theorem blockCount_eq_one (hf : FirstBuilt r h nodes root) :
    (blockCount r)^[h] nodes.length = 1 := by
  rw [← length_iterate_levelNodes, hf.built.2]
  rfl

/-- No level after the first one that has a single node is built. -/
theorem height_le (hf : FirstBuilt r h nodes root) {k : Nat} (hk : 1 ≤ k)
    (hone : (blockCount r)^[k] nodes.length = 1) : h ≤ k := by
  refine Nat.le_of_not_lt fun hlt => ?_
  have hmore := hf.earlier k hk hlt
  rw [length_iterate_levelNodes, hone] at hmore
  exact Nat.lt_irrefl 1 hmore

/-- Every node has at most `r` children, so `h` levels hold at most `r ^ h` leaves. -/
theorem length_le_pow (hf : FirstBuilt r h nodes root) (hr : 0 < r) : nodes.length ≤ r ^ h := by
  have hle := le_mul_iterate_blockCount hr h nodes.length
  rwa [hf.blockCount_eq_one, Nat.one_mul] at hle

/-- After `g` levels over at most `r ^ g` nodes there are at most two, and they get
one parent. -/
theorem height_le_succ (hf : FirstBuilt r h nodes root) (hr : 3 ≤ r) {g : Nat}
    (hg : nodes.length ≤ r ^ g) : h ≤ g + 1 := by
  have htwo : (blockCount r)^[g] nodes.length ≤ r ^ 0 + 1 :=
    iterate_blockCount_le (by omega) (by rw [Nat.zero_add]; omega)
  refine hf.height_le (Nat.succ_le_succ (Nat.zero_le g)) ?_
  rw [Nat.pow_zero] at htwo
  rw [Function.iterate_succ_apply', blockCount, Nat.div_eq_of_lt (by omega)]

end FirstBuilt

/-! ## The height -/

/-- The height is at most one above the least `g` for which `r ^ g` leaves fit. The
height is the number of levels that `createLevel` builds, and the depth of every
leaf. -/
theorem createTree_height {r : Nat} (hr : 3 ≤ r) (leaves : List (BloomValue N × Bytes))
    {calls : Nat} (hc : leaves.length < calls) {g : Nat}
    (hg : IsLeast {g | 1 ≤ g ∧ leaves.length ≤ r ^ g} g) :
    ∃ t root h, (BloomTree.ofLeaves r leaves).createTree calls = some t ∧ t.root = some root ∧
      FirstBuilt r h t.leafNodes root ∧ Invariant r h t.leafNodes root ∧ g ≤ h ∧ h ≤ g + 1 := by
  obtain ⟨root, h, ht, hfirst⟩ := BloomTree.createTree_ofLeaves hr leaves hc
  have hinv := hfirst.built.invariant_ofLeaves (by omega)
  have hfit := hfirst.length_le_pow (by omega)
  rw [List.length_map] at hfit
  refine ⟨_, root, h, ht, rfl, ?_, hinv, hg.2 ⟨hfirst.built.1, hfit⟩, ?_⟩
  · rw [BloomTree.ofLeaves_leafNodes]
    exact hfirst
  · exact hfirst.height_le_succ hr (by rw [List.length_map]; exact hg.1.2)

theorem isLeast_two_fourLeaves : IsLeast {g | 1 ≤ g ∧ fourLeaves.length ≤ 3 ^ g} 2 := by
  refine ⟨⟨by decide, by decide⟩, ?_⟩
  rintro g ⟨hg, hfit⟩
  refine Nat.le_of_not_lt fun hlt => ?_
  obtain rfl : g = 1 := by omega
  exact absurd hfit (by decide)

theorem createTree_height_fourLeaves :
    3 ≤ 3 ∧ fourLeaves.length < 5 ∧ IsLeast {g | 1 ≤ g ∧ fourLeaves.length ≤ 3 ^ g} 2 ∧
    ∃ t root h, (BloomTree.ofLeaves 3 fourLeaves).createTree 5 = some t ∧ t.root = some root ∧
      FirstBuilt 3 h t.leafNodes root ∧ Invariant 3 h t.leafNodes root ∧ 2 ≤ h ∧ h ≤ 2 + 1 :=
  ⟨by decide, by decide, isLeast_two_fourLeaves,
    createTree_height (by decide) fourLeaves (by decide) isLeast_two_fourLeaves⟩

/-! ## Nodes without children -/

/-- If the level below does not come out even, no node of a level is left without a
child. -/
theorem children_ne_nil {r : Nat} (hr : 0 < r) {nodes : List (Node N)}
    (hdvd : ¬ r ∣ nodes.length) {n : Node N} (hn : n ∈ levelNodes r nodes) :
    n.children ≠ [] := by
  rw [levelNodes, List.mem_map] at hn
  obtain ⟨i, hi, rfl⟩ := hn
  rw [levelNode_eq, Node.children_mk]
  apply List.ne_nil_of_length_pos
  have hlast : i * r ≤ nodes.length / r * r :=
    Nat.mul_le_mul_right r (Nat.le_of_lt_succ (List.mem_range.mp hi))
  have hrest : nodes.length / r * r < nodes.length := (div_mul_lt_iff _).mpr hdvd
  rw [length_block]
  omega

/-- Every level has as few nodes as the level below it needs, and every inner node
has a child. -/
structure NoDeadNode (r h : Nat) (leafNodes : List (Node N)) (root : Node N) : Prop where
  sizes : ∀ k < h, ((levelNodes r)^[k + 1] leafNodes).length =
    ⌈(((levelNodes r)^[k] leafNodes).length / r : ℚ)⌉₊
  children : ∀ d < h, ∀ n ∈ below d [root], n.children ≠ []

/-- There is no dead node exactly if no level comes out even. From the root on the
levels would all have one node, so the condition needs no bound. -/
theorem FirstBuilt.noDeadNode_iff {r h : Nat} {nodes : List (Node N)} {root : Node N} (hr : 3 ≤ r)
    (hf : FirstBuilt r h nodes root) :
    NoDeadNode r h nodes root ↔ ∀ k, ¬ r ∣ (blockCount r)^[k] nodes.length := by
  have hpos : 0 < r := by omega
  have hsize : ∀ k, ((levelNodes r)^[k + 1] nodes).length =
      ⌈(((levelNodes r)^[k] nodes).length / r : ℚ)⌉₊ ↔ ¬ r ∣ (blockCount r)^[k] nodes.length := by
    intro k
    rw [length_iterate_levelNodes, length_iterate_levelNodes, Function.iterate_succ_apply']
    exact blockCount_eq_ceil_iff hpos _
  constructor
  · intro hdead k
    by_cases hk : k < h
    · exact (hsize k).mp (hdead.sizes k hk)
    · obtain ⟨j, rfl⟩ : ∃ j, k = j + h := ⟨k - h, by omega⟩
      rw [Function.iterate_add_apply, hf.blockCount_eq_one, iterate_blockCount_one (by omega)]
      exact fun hdvd => absurd (Nat.le_of_dvd Nat.one_pos hdvd) (by omega)
  · intro hodd
    refine ⟨fun k _ => (hsize k).mpr (hodd k), fun d hd n hn => ?_⟩
    rw [hf.built.below_eq_levelNodes hpos hd] at hn
    refine children_ne_nil hpos ?_ hn
    rw [length_iterate_levelNodes]
    exact hodd _

/-- Every level has exactly as many nodes as needed and no inner node is without a
child, exactly if the last digit of the number of leaves in base `r` is not 0 and no
other digit is `r - 1`. -/
theorem createTree_full_iff {r : Nat} (hr : 3 ≤ r) (leaves : List (BloomValue N × Bytes))
    {calls : Nat} (hc : leaves.length < calls) :
    ∃ t root h, (BloomTree.ofLeaves r leaves).createTree calls = some t ∧ t.root = some root ∧
      FirstBuilt r h t.leafNodes root ∧
      (NoDeadNode r h t.leafNodes root ↔
        leaves.length % r ≠ 0 ∧ ∀ k, 1 ≤ k → leaves.length / r ^ k % r ≠ r - 1) := by
  obtain ⟨root, h, ht, hfirst⟩ := BloomTree.createTree_ofLeaves hr leaves hc
  have hiff := hfirst.noDeadNode_iff hr
  rw [List.length_map, not_dvd_iterate_iff (by omega)] at hiff
  refine ⟨_, root, h, ht, rfl, ?_, ?_⟩
  · rw [BloomTree.ofLeaves_leafNodes]
    exact hfirst
  · rw [BloomTree.ofLeaves_leafNodes]
    exact hiff

theorem createTree_full_iff_fourLeaves :
    3 ≤ 3 ∧ fourLeaves.length < 5 ∧
    ∃ t root h, (BloomTree.ofLeaves 3 fourLeaves).createTree 5 = some t ∧ t.root = some root ∧
      FirstBuilt 3 h t.leafNodes root ∧
      (NoDeadNode 3 h t.leafNodes root ↔
        fourLeaves.length % 3 ≠ 0 ∧ ∀ k, 1 ≤ k → fourLeaves.length / 3 ^ k % 3 ≠ 3 - 1) :=
  ⟨by decide, by decide, createTree_full_iff (by decide) fourLeaves (by decide)⟩

/-- Three leaves under a ratio of 3 get two parents, and the second one has no
child. -/
theorem createTree_threeLeaves_dead :
    ∃ t root h, (BloomTree.ofLeaves 3 (fourLeaves.take 3)).createTree 4 = some t ∧
      t.root = some root ∧ FirstBuilt 3 h t.leafNodes root ∧
      (levelNodes 3 t.leafNodes).length = 2 ∧ ¬ NoDeadNode 3 h t.leafNodes root := by
  obtain ⟨root, h, ht, hfirst⟩ :=
    BloomTree.createTree_ofLeaves (by decide : 3 ≤ 3) (fourLeaves.take 3) (by decide : 3 < 4)
  refine ⟨_, root, h, ht, rfl, hfirst, ?_, fun hdead => ?_⟩
  · rw [length_levelNodes, BloomTree.ofLeaves_leafNodes]
    rfl
  · exact (hfirst.noDeadNode_iff (by decide)).mp hdead 0 (by decide)

end BloomHierarchy
