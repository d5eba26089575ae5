import BloomHierarchy.TreeLevels

/-!
# Searching a built tree

`checkExistanceThread` collects the names below a node in a list of its own,
`checkExistance` in a member of the tree. Both visit a node's children only
when the node's filter accepts the value.

A parent accepts whatever a child accepts, so the levels above the first one
never drop anything (`flatMap_names_levelNodes`), and the answer is that of
the first level: the groups of `r` consecutive leaves whose or accepts the
value (`checkExistanceThread_exact`).

`checkExistance` never clears the list it collects into. Its answers are those
of `checkExistanceThread` put one after the other (`checkExistanceAll_eq`), so
the two agree over a run exactly when every query before the last one finds
nothing (`checkExistance_run_iff`).
-/

namespace BloomHierarchy

section Names
variable (hash : Bytes → UInt64) {N : Nat} (value : Bytes)

/-- The names that a search below `n` finds. -/
def Node.names (n : Node N) : List Bytes :=
  n.checkExistanceThread hash value []

mutual
/-- The list a search is given is kept in front of what it finds. -/
theorem checkExistanceThread_append (n : Node N) (blNames : List Bytes) :
    n.checkExistanceThread hash value blNames = blNames ++ n.names hash value := by
  cases n with
  | mk children blValue filename =>
    unfold Node.names
    rw [Node.checkExistanceThread, Node.checkExistanceThread]
    split
    · rfl
    · split
      · rw [checkChildrenThread_append children, checkChildrenThread_append children []]
        rfl
      · rw [List.append_nil]

theorem checkChildrenThread_append (nodes : List (Node N)) (blNames : List Bytes) :
    Node.checkChildrenThread hash value nodes blNames =
      blNames ++ nodes.flatMap fun n => n.names hash value := by
  cases nodes with
  | nil => rw [Node.checkChildrenThread, List.flatMap_nil, List.append_nil]
  | cons n rest =>
    rw [Node.checkChildrenThread, checkExistanceThread_append n, checkChildrenThread_append rest,
      List.flatMap_cons, List.append_assoc]
end

theorem names_of_ne_memory {n : Node N} (h : n.filename ≠ Node.memory) :
    n.names hash value = [n.filename] := by
  cases n with
  | mk children blValue filename =>
    rw [Node.filename_mk] at h
    rw [Node.names, Node.checkExistanceThread, if_pos h]
    rfl

theorem names_of_memory {n : Node N} (h : n.filename = Node.memory) :
    n.names hash value =
      if n.blValue.existsKey hash value then n.children.flatMap fun c => c.names hash value
      else [] := by
  cases n with
  | mk children blValue filename =>
    rw [Node.filename_mk] at h
    rw [Node.names, Node.checkExistanceThread, if_neg (not_not_intro h),
      checkChildrenThread_append]
    rfl

theorem names_of_accepting {n : Node N} (h : n.filename = Node.memory)
    (haccept : n.blValue.existsKey hash value = true) :
    n.names hash value = n.children.flatMap fun c => c.names hash value := by
  rw [names_of_memory hash value h, if_pos haccept]

theorem names_of_rejecting {n : Node N} (h : n.filename = Node.memory)
    (hreject : ¬ n.blValue.existsKey hash value = true) : n.names hash value = [] := by
  rw [names_of_memory hash value h, if_neg hreject]

mutual
/-- `checkExistance` appends the same names to the member `bloomNames`. -/
theorem checkExistance_bloomNames (n : Node N) (s : SearchState) :
    (n.checkExistance hash value s).bloomNames = s.bloomNames ++ n.names hash value := by
  cases n with
  | mk children blValue filename =>
    rw [Node.checkExistance]
    split
    · next hname =>
      rw [names_of_ne_memory hash value (n := .mk children blValue filename) hname]
      rfl
    · next hname =>
      have hmemory : (Node.mk children blValue filename).filename = Node.memory := not_not.mp hname
      split
      · next haccept =>
        rw [names_of_accepting hash value hmemory haccept]
        exact checkChildren_bloomNames children _
      · next hreject =>
        rw [names_of_rejecting hash value hmemory hreject, List.append_nil]

theorem checkChildren_bloomNames (nodes : List (Node N)) (s : SearchState) :
    (Node.checkChildren hash value nodes s).bloomNames =
      s.bloomNames ++ nodes.flatMap fun n => n.names hash value := by
  cases nodes with
  | nil => rw [Node.checkChildren, List.flatMap_nil, List.append_nil]
  | cons n rest =>
    rw [Node.checkChildren, checkChildren_bloomNames rest, checkExistance_bloomNames n,
      List.flatMap_cons, List.append_assoc]
end

end Names

/-! ## The levels above the first -/

section Levels
variable (hash : Bytes → UInt64) {N : Nat} (value : Bytes)

/-- A level over inner nodes finds what they find: where a parent does not
accept the value, none of its children does. -/
theorem flatMap_names_levelNodes {r : Nat} (hr : 0 < r) {nodes : List (Node N)}
    (hinner : ∀ n ∈ nodes, n.filename = Node.memory) :
    (levelNodes r nodes).flatMap (fun n => n.names hash value) =
      nodes.flatMap fun n => n.names hash value := by
  have hparent : ∀ n ∈ levelNodes r nodes,
      n.names hash value = n.children.flatMap fun c => c.names hash value := by
    intro n hn
    obtain ⟨hname, _, _, hsub⟩ := mem_levelNodes hn
    by_cases haccept : n.blValue.existsKey hash value = true
    · exact names_of_accepting hash value hname haccept
    · rw [names_of_rejecting hash value hname haccept]
      refine (List.flatMap_eq_nil_iff.mpr fun c hc => ?_).symm
      exact names_of_rejecting hash value (hinner c (hsub c hc))
        fun hc' => haccept (existsKey_of_mem_children hn hc hc')
  rw [List.flatMap_congr hparent, ← List.flatMap_assoc, levelNodes_flatMap_children hr]

theorem iterate_levelNodes_inner {r k : Nat} {nodes : List (Node N)} :
    ∀ n ∈ (levelNodes r)^[k + 1] nodes, n.filename = Node.memory := by
  intro n hn
  rw [Function.iterate_succ_apply'] at hn
  exact (mem_levelNodes hn).1

/-- Any number of further levels finds what the first one finds. -/
theorem flatMap_names_iterate {r : Nat} (hr : 0 < r) (k : Nat) (nodes : List (Node N)) :
    ((levelNodes r)^[k + 1] nodes).flatMap (fun n => n.names hash value) =
      (levelNodes r nodes).flatMap fun n => n.names hash value := by
  induction k with
  | zero => rfl
  | succ k ih =>
    rw [Function.iterate_succ_apply', flatMap_names_levelNodes hash value hr
      iterate_levelNodes_inner, ih]

theorem Built.names_eq {r h : Nat} (hr : 0 < r) {nodes : List (Node N)} {root : Node N}
    (hb : Built r h nodes root) :
    root.names hash value = (levelNodes r nodes).flatMap fun n => n.names hash value := by
  obtain ⟨hh, hroot⟩ := hb
  obtain ⟨k, rfl⟩ : ∃ k, h = k + 1 := ⟨h - 1, by omega⟩
  have h := flatMap_names_iterate hash value hr k nodes
  rw [hroot, List.flatMap_singleton] at h
  exact h

end Levels

/-! ## The exact answer -/

section Exact
variable (hash : Bytes → UInt64) {N : Nat}

/-- The leaves `j` with `j / r = k / r`. -/
def groupOf (r k : Nat) (leaves : List (BloomValue N × Bytes)) : List (BloomValue N × Bytes) :=
  (leaves.zipIdx.filter fun e => e.2 / r == k / r).map fun e => e.1

/-- A filter with the bitwise or of the filters in the group of leaf `k`. -/
def groupFilter (r k : Nat) (leaves : List (BloomValue N × Bytes)) : BloomValue N :=
  { bitArray := orBits ((groupOf r k leaves).map fun leaf => leaf.1.bitArray) }

/-- The names of the leaves whose group accepts the value, in leaf order. -/
def acceptedNames (r : Nat) (leaves : List (BloomValue N × Bytes)) (value : Bytes) : List Bytes :=
  (leaves.zipIdx.filter fun e => (groupFilter r e.2 leaves).existsKey hash value).map
    fun e => e.1.2

theorem groupOf_eq_block {r : Nat} (hr : 0 < r) (k : Nat) (leaves : List (BloomValue N × Bytes)) :
    groupOf r k leaves = Blocks.block r (k / r) leaves := by
  rw [groupOf, Blocks.block_eq_filter hr]

variable {hash}

/-- A leaf's own group accepts what the leaf accepts. -/
theorem groupFilter_of_leaf {r : Nat} {leaves : List (BloomValue N × Bytes)} {value : Bytes}
    {e : (BloomValue N × Bytes) × Nat} (he : e ∈ leaves.zipIdx)
    (h : e.1.1.existsKey hash value = true) :
    (groupFilter r e.2 leaves).existsKey hash value = true := by
  have hmem : e.1 ∈ groupOf r e.2 leaves :=
    List.mem_map.mpr ⟨e, List.mem_filter.mpr ⟨he, by simp⟩, rfl⟩
  exact BloomValue.existsKey_mono (positions_subset_orBits (List.mem_map_of_mem hmem)) h

variable (hash) in
/-- The first level finds exactly the leaves whose group accepts the value. -/
theorem flatMap_names_first_level {r : Nat} (hr : 0 < r) {leaves : List (BloomValue N × Bytes)}
    (hname : ∀ leaf ∈ leaves, leaf.2 ≠ Node.memory) (value : Bytes) :
    (levelNodes r (leaves.map fun leaf => Node.leaf leaf.1 leaf.2)).flatMap
      (fun n => n.names hash value) = acceptedNames hash r leaves value := by
  -- the test a first-level node makes, on the block of leaves it was built over
  let accepts : List (BloomValue N × Bytes) → Bool := fun block =>
    BloomValue.existsKey hash { bitArray := orBits (block.map fun leaf => leaf.1.bitArray) } value
  have hnode : ∀ i,
      (levelNode r i (leaves.map fun leaf => Node.leaf leaf.1 leaf.2)).names hash value =
      if accepts (Blocks.block r i leaves) then (Blocks.block r i leaves).map Prod.snd else [] := by
    intro i
    rw [levelNode_eq, names_of_memory hash value rfl]
    simp only [Node.blValue_mk, Node.children_mk, Blocks.block_map, List.map_map, List.flatMap_map]
    have hleaf : (Blocks.block r i leaves).flatMap
        (fun leaf => (Node.leaf leaf.1 leaf.2).names hash value) =
          (Blocks.block r i leaves).map Prod.snd := by
      rw [List.map_eq_flatMap]
      refine List.flatMap_congr fun leaf hleaf => ?_
      exact names_of_ne_memory hash value (hname leaf (Blocks.block_subset hleaf))
    rw [hleaf]
    rfl
  have hsel := Blocks.flatMap_blocks_select hr accepts Prod.snd leaves
  rw [Blocks.blocks, List.flatMap_map] at hsel
  rw [levelNodes, List.flatMap_map, List.length_map, List.flatMap_congr fun i _ => hnode i, hsel]
  unfold acceptedNames groupFilter
  simp only [groupOf_eq_block hr]
  rfl

variable (hash) in
/-- The names a built tree finds. -/
theorem createTree_names {r : Nat} (hr : 3 ≤ r) (leaves : List (BloomValue N × Bytes))
    (hname : ∀ leaf ∈ leaves, leaf.2 ≠ Node.memory) {calls : Nat} (hc : leaves.length < calls) :
    ∃ root : Node N, (BloomTree.ofLeaves r leaves).createTree calls =
        some { BloomTree.ofLeaves r leaves with root := some root } ∧
      ∀ value, root.names hash value = acceptedNames hash r leaves value := by
  obtain ⟨root, h, ht, hbuilt, _⟩ := BloomTree.createTree_ofLeaves hr leaves hc
  have hpos : 0 < r := by omega
  refine ⟨root, ht, fun value => ?_⟩
  rw [hbuilt.names_eq hash value hpos, flatMap_names_first_level hash hpos hname value]

/-- The exact result of the hierarchical search, for every list of leaves and
every value: the leaves whose group of `r` consecutive leaves accepts it, in
leaf order. Every leaf that accepts the value is among them, and searching the
nodes of the first level one by one gives the same answer. -/
theorem checkExistanceThread_exact {r : Nat} (hr : 3 ≤ r) (leaves : List (BloomValue N × Bytes))
    (hname : ∀ leaf ∈ leaves, leaf.2 ≠ Node.memory) (value : Bytes) {calls : Nat}
    (hc : leaves.length < calls) :
    ∃ t, (BloomTree.ofLeaves r leaves).createTree calls = some t ∧
      t.checkExistanceThread hash value = some (acceptedNames hash r leaves value) ∧
      (∀ e ∈ leaves.zipIdx, e.1.1.existsKey hash value = true →
        (groupFilter r e.2 leaves).existsKey hash value = true) ∧
      t.checkExistanceThread hash value =
        some ((levelNodes r t.leafNodes).flatMap fun n =>
          n.checkExistanceThread hash value []) := by
  obtain ⟨root, h, ht, hbuilt, _⟩ := BloomTree.createTree_ofLeaves hr leaves hc
  have hpos : 0 < r := by omega
  have hnames := hbuilt.names_eq hash value hpos
  have hfirst := flatMap_names_first_level hash hpos hname value
  refine ⟨_, ht, ?_, fun e he => groupFilter_of_leaf he, ?_⟩
  · rw [← hfirst, ← hnames]
    rfl
  · rw [BloomTree.ofLeaves_leafNodes]
    exact congrArg some hnames

theorem checkExistanceThread_exact_fourLeaves :
    3 ≤ 3 ∧ (∀ leaf ∈ fourLeaves, leaf.2 ≠ Node.memory) ∧ fourLeaves.length < 5 ∧
    ∃ t, (BloomTree.ofLeaves 3 fourLeaves).createTree 5 = some t ∧
      t.checkExistanceThread polyHash (ascii ['x']) =
        some (acceptedNames polyHash 3 fourLeaves (ascii ['x'])) ∧
      (∀ e ∈ fourLeaves.zipIdx, e.1.1.existsKey polyHash (ascii ['x']) = true →
        (groupFilter 3 e.2 fourLeaves).existsKey polyHash (ascii ['x']) = true) ∧
      t.checkExistanceThread polyHash (ascii ['x']) =
        some ((levelNodes 3 t.leafNodes).flatMap fun n =>
          n.checkExistanceThread polyHash (ascii ['x']) []) :=
  ⟨by decide, by decide, by decide,
    checkExistanceThread_exact (by decide) fourLeaves (by decide) (ascii ['x']) (by decide)⟩

theorem acceptedNames_eq_nil {r : Nat} {leaves : List (BloomValue N × Bytes)} {value : Bytes} :
    acceptedNames hash r leaves value = [] ↔
      ∀ k < leaves.length, (groupFilter r k leaves).existsKey hash value = false := by
  rw [acceptedNames, List.map_eq_nil_iff, List.filter_eq_nil_iff]
  constructor
  · intro h k hk
    have hmem : (leaves[k], k) ∈ leaves.zipIdx :=
      List.mk_mem_zipIdx_iff_getElem?.mpr (List.getElem?_eq_getElem hk)
    exact Bool.eq_false_iff.mpr (h (leaves[k], k) hmem)
  · intro h e he
    have hk : e.2 < leaves.length := by
      have hlt := List.snd_lt_add_of_mem_zipIdx he
      rwa [Nat.zero_add] at hlt
    exact Bool.eq_false_iff.mp (h e.2 hk)

end Exact

/-! ## Runs of queries -/

section Runs
variable (hash : Bytes → UInt64) {N : Nat}

/-- A run of `checkExistance` calls on one tree: what each of them returned,
and the tree afterwards. -/
def BloomTree.checkExistanceAll (t : BloomTree N) :
    List Bytes → Option (List (List Bytes) × BloomTree N)
  | [] => some ([], t)
  | value :: values => do
    let (answer, t) ← t.checkExistance hash value
    let (answers, t) ← t.checkExistanceAll values
    some (answer :: answers, t)

/-- The answers put one after the other, each with all earlier ones in front. -/
def accumulated (acc : List Bytes) : List (List Bytes) → List (List Bytes)
  | [] => []
  | answer :: answers => (acc ++ answer) :: accumulated (acc ++ answer) answers

theorem accumulated_eq_self_iff (acc : List Bytes) (answers : List (List Bytes)) :
    accumulated acc answers = answers ↔
      (answers ≠ [] → acc = []) ∧ ∀ answer ∈ answers.dropLast, answer = [] := by
  induction answers generalizing acc with
  | nil => simp [accumulated]
  | cons answer answers ih =>
    rw [accumulated, List.cons.injEq, ih, List.append_left_eq_self]
    cases answers with
    | nil => simp
    | cons next rest =>
      rw [List.dropLast_cons_cons, List.forall_mem_cons]
      constructor
      · rintro ⟨hacc, hnil, hrest⟩
        refine ⟨fun _ => hacc, ?_, hrest⟩
        rw [hacc, List.nil_append] at hnil
        exact hnil (List.cons_ne_nil _ _)
      · rintro ⟨hacc, hanswer, hrest⟩
        have hnil := hacc (List.cons_ne_nil _ _)
        exact ⟨hnil, fun _ => by rw [hnil, hanswer]; rfl, hrest⟩

/-- One query appends to the names collected so far and leaves the root. -/
theorem checkExistance_eq {t : BloomTree N} {root : Node N} (hroot : t.root = some root)
    (value : Bytes) :
    ∃ t', t.checkExistance hash value =
        some (t.search.bloomNames ++ root.names hash value, t') ∧
      t'.root = some root ∧
      t'.search.bloomNames = t.search.bloomNames ++ root.names hash value := by
  refine ⟨{ t with search := root.checkExistance hash value t.search }, ?_, hroot, ?_⟩
  · rw [BloomTree.checkExistance, hroot, Option.map_some]
    simp only [checkExistance_bloomNames]
  · exact checkExistance_bloomNames hash value root t.search

/-- A run returns the accumulated answers of its queries. -/
theorem checkExistanceAll_eq {t : BloomTree N} {root : Node N} (hroot : t.root = some root)
    (values : List Bytes) :
    ∃ t', t.checkExistanceAll hash values =
      some (accumulated t.search.bloomNames (values.map fun v => root.names hash v), t') := by
  induction values generalizing t with
  | nil => exact ⟨t, rfl⟩
  | cons value values ih =>
    obtain ⟨t₁, hcall, hroot₁, hnames₁⟩ := checkExistance_eq hash hroot value
    obtain ⟨t₂, hrest⟩ := ih hroot₁
    refine ⟨t₂, ?_⟩
    rw [BloomTree.checkExistanceAll, hcall, List.map_cons, accumulated, ← hnames₁]
    simp [hrest]

/-- Over a run of queries on a freshly built tree, `checkExistance` returns what
`checkExistanceThread` returns exactly when no query before the last one is
accepted by any group of leaves. -/
theorem checkExistance_run_iff {r : Nat} (hr : 3 ≤ r) (leaves : List (BloomValue N × Bytes))
    (hname : ∀ leaf ∈ leaves, leaf.2 ≠ Node.memory) (values : List Bytes) {calls : Nat}
    (hc : leaves.length < calls) :
    ∃ t answers t', (BloomTree.ofLeaves r leaves).createTree calls = some t ∧
      t.checkExistanceAll hash values = some (answers, t') ∧
      (answers.map some = values.map (fun v => t.checkExistanceThread hash v) ↔
        ∀ v ∈ values.dropLast, ∀ k < leaves.length,
          (groupFilter r k leaves).existsKey hash v = false) := by
  obtain ⟨root, ht, hnames⟩ := createTree_names hash hr leaves hname hc
  obtain ⟨t', hrun⟩ := checkExistanceAll_eq hash
    (t := { BloomTree.ofLeaves r leaves with root := some root }) rfl values
  rw [BloomTree.ofLeaves_search] at hrun
  refine ⟨_, _, t', ht, hrun, ?_⟩
  have hthread : values.map (fun v => BloomTree.checkExistanceThread hash
      { BloomTree.ofLeaves r leaves with root := some root } v) =
      (values.map fun v => root.names hash v).map some := by
    rw [List.map_map]
    rfl
  rw [hthread, (Option.some_injective _).list_map.eq_iff, accumulated_eq_self_iff]
  constructor
  · rintro ⟨_, hlast⟩ v hv
    refine acceptedNames_eq_nil.mp ?_
    rw [← hnames v]
    refine hlast _ ?_
    rw [← List.map_dropLast]
    exact List.mem_map_of_mem hv
  · intro hquiet
    refine ⟨fun _ => rfl, fun answer hanswer => ?_⟩
    rw [← List.map_dropLast, List.mem_map] at hanswer
    obtain ⟨v, hv, rfl⟩ := hanswer
    rw [hnames v]
    exact acceptedNames_eq_nil.mpr (hquiet v hv)

/-- One leaf whose filter accepts every value. -/
def greedyLeaf : List (BloomValue 8 × Bytes) :=
  [({ bitArray := 0xff#8 }, ascii ['1', '.', 'b', 'l', 'o', 'o', 'm'])]

/-- Two queries. -/
def twoQueries : List Bytes :=
  [ascii ['x'], ascii ['y']]

theorem checkExistance_run_iff_greedyLeaf :
    3 ≤ 3 ∧ (∀ leaf ∈ greedyLeaf, leaf.2 ≠ Node.memory) ∧ greedyLeaf.length < 2 ∧
    ∃ t answers t', (BloomTree.ofLeaves 3 greedyLeaf).createTree 2 = some t ∧
      t.checkExistanceAll polyHash twoQueries = some (answers, t') ∧
      (answers.map some = twoQueries.map (fun v => t.checkExistanceThread polyHash v) ↔
        ∀ v ∈ twoQueries.dropLast, ∀ k < greedyLeaf.length,
          (groupFilter 3 k greedyLeaf).existsKey polyHash v = false) :=
  ⟨by decide, by decide, by decide,
    checkExistance_run_iff polyHash (by decide) greedyLeaf (by decide) twoQueries (by decide)⟩

/-- The second query returns the answer of the first one as well. -/
theorem checkExistance_repeats_first_answer :
    3 ≤ 3 ∧ (∀ leaf ∈ greedyLeaf, leaf.2 ≠ Node.memory) ∧
    ∃ t answers t', (BloomTree.ofLeaves 3 greedyLeaf).createTree 2 = some t ∧
      t.checkExistanceAll polyHash twoQueries = some (answers, t') ∧
      answers.map some ≠ twoQueries.map fun v => t.checkExistanceThread polyHash v :=
  ⟨by decide, by decide, _, _, _, rfl, rfl, by decide⟩

end Runs

end BloomHierarchy
