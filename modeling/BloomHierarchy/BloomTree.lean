import BloomHierarchy.BloomValue
import BloomHierarchy.Lib.Blocks

/-!
# The filter hierarchy

`Node`, `Node::addchildren` and the class `bloomTree`: the leaf level, the
levels that `createLevel` puts on top of it, and the two searches.

The source counts nodes in `int`. A node holds a filter of 2 000 000 bits, so
a vector with more nodes than an `int` counts does not fit into an address
space, and numbers of nodes are `Nat` here.

`createLevel` calls itself on the level it has just built until that level has
one node. The recursion need not end, so the model takes the number of calls
it may make: `none` means that they did not suffice.
-/

namespace BloomHierarchy

/-! ## Nodes -/

/-- The class `Node`. Leaves and inner nodes are told apart by `filename`. -/
inductive Node (N : Nat)
  | mk (children : List (Node N)) (blValue : BloomValue N) (filename : Bytes)

namespace Node
variable {N : Nat}

def children : Node N → List (Node N)
  | mk children _ _ => children

def blValue : Node N → BloomValue N
  | mk _ blValue _ => blValue

def filename : Node N → Bytes
  | mk _ _ filename => filename

/-- The name that the constructor without arguments gives. -/
def memory : Bytes :=
  ascii ['M', 'e', 'm', 'o', 'r', 'y']

/-- The constructor for a leaf. -/
def leaf (bv : BloomValue N) (filename : Bytes) : Node N :=
  mk [] bv filename

/-- The loop of `addchildren`: `rounds` is `i + ratio - j`. -/
def pushChildren (nodes : List (Node N)) : Nat → Nat → List (Node N) → List (Node N)
  | 0, _, children => children
  | rounds + 1, j, children =>
    match nodes[j]? with
    | some node => pushChildren nodes rounds (j + 1) (children ++ [node])
    -- `j < size` fails
    | none => children

/-- The children of a fresh node after `addchildren(i, ratio, nodes)`. -/
def addchildren (i ratio : Nat) (nodes : List (Node N)) : List (Node N) :=
  pushChildren nodes ratio i []

end Node

/-! ## Levels -/

section Levels
variable {N : Nat}

/-- The bitwise or of a list of bit arrays. -/
def orBits (bits : List (BitVec N)) : BitVec N :=
  bits.foldl (fun acc b => acc ||| b) 0#N

/-- Node `i` of the level that `createLevel` builds over `nodes`. -/
def levelNode (ratio i : Nat) (nodes : List (Node N)) : Node N :=
  let children := Node.addchildren (i * ratio) ratio nodes
  .mk children { bitArray := orBits (children.map fun child => child.blValue.bitArray) } Node.memory

/-- The level that `createLevel` builds over `nodes`. `ceil` is applied to an
integer quotient, so it does nothing, and the loop runs once more. -/
def levelNodes (ratio : Nat) (nodes : List (Node N)) : List (Node N) :=
  let loop := nodes.length / ratio
  (List.range (loop + 1)).map fun i => levelNode ratio i nodes

/-- `createLevel`: the node that ends up in `root`. -/
def createLevel : Nat → Nat → List (Node N) → Option (Node N)
  | 0, _, _ => none
  | calls + 1, ratio, nodes =>
    let level := levelNodes ratio nodes
    if level.length > 1 then createLevel calls ratio level else level[0]?

end Levels

/-! ## Searching below a node -/

section Search
variable (hash : Bytes → UInt64) {N : Nat} (value : Bytes)

mutual
/-- `checkExistanceThread(n, value, blNames)`. -/
def Node.checkExistanceThread : Node N → List Bytes → List Bytes
  | .mk children blValue filename, blNames =>
    if filename ≠ Node.memory then blNames ++ [filename]
    else if blValue.existsKey hash value then Node.checkChildrenThread children blNames
    else blNames

/-- Its loop over the children. -/
def Node.checkChildrenThread : List (Node N) → List Bytes → List Bytes
  | [], blNames => blNames
  | child :: rest, blNames =>
    Node.checkChildrenThread rest (Node.checkExistanceThread child blNames)
end

/-- The members of `bloomTree` that `checkExistance` changes. -/
structure SearchState where
  bloomNames : List Bytes := []
  foundInHierarchy : Nat := 0
deriving DecidableEq, Repr

mutual
/-- `checkExistance(n, value)`. -/
def Node.checkExistance : Node N → SearchState → SearchState
  | .mk children blValue filename, s =>
    if filename ≠ Node.memory then { s with bloomNames := s.bloomNames ++ [filename] }
    else if blValue.existsKey hash value then
      Node.checkChildren children { s with foundInHierarchy := s.foundInHierarchy + 1 }
    else s

/-- Its loop over the children. -/
def Node.checkChildren : List (Node N) → SearchState → SearchState
  | [], s => s
  | child :: rest, s => Node.checkChildren rest (Node.checkExistance child s)
end

end Search

/-! ## The tree -/

/-- The class `bloomTree`. `root` is not initialised before `createTree`. -/
structure BloomTree (N : Nat) where
  ratio : Nat
  root : Option (Node N) := none
  leafNodes : List (Node N) := []
  search : SearchState := {}

namespace BloomTree
variable (hash : Bytes → UInt64) {N : Nat}

def createLeafLevel (t : BloomTree N) (bv : BloomValue N) (filename : Bytes) : BloomTree N :=
  { t with leafNodes := t.leafNodes ++ [Node.leaf bv filename] }

def createTree (calls : Nat) (t : BloomTree N) : Option (BloomTree N) :=
  (createLevel calls t.ratio t.leafNodes).map fun root => { t with root := some root }

/-- `checkExistanceThread(value)`. Without a root the behaviour is undefined. -/
def checkExistanceThread (t : BloomTree N) (value : Bytes) : Option (List Bytes) :=
  t.root.map fun root => root.checkExistanceThread hash value []

/-- `checkExistance(value)`: the names found and the tree afterwards. -/
def checkExistance (t : BloomTree N) (value : Bytes) : Option (List Bytes × BloomTree N) :=
  t.root.map fun root =>
    let search := root.checkExistance hash value t.search
    (search.bloomNames, { t with search := search })

def getScannedHierarchyFilters (t : BloomTree N) : Nat :=
  t.search.foundInHierarchy

/-- A tree over the leaves `leaves`, each a filter and its file name, before
`createTree`. -/
def ofLeaves (ratio : Nat) (leaves : List (BloomValue N × Bytes)) : BloomTree N :=
  leaves.foldl (fun t leaf => t.createLeafLevel leaf.1 leaf.2) { ratio := ratio }

end BloomTree

/-! ## What the definitions compute -/

namespace Node
variable {N : Nat}

@[simp] theorem children_mk (cs : List (Node N)) (bv : BloomValue N) (name : Bytes) :
    (mk cs bv name).children = cs := rfl

@[simp] theorem blValue_mk (cs : List (Node N)) (bv : BloomValue N) (name : Bytes) :
    (mk cs bv name).blValue = bv := rfl

@[simp] theorem filename_mk (cs : List (Node N)) (bv : BloomValue N) (name : Bytes) :
    (mk cs bv name).filename = name := rfl

theorem pushChildren_eq (nodes : List (Node N)) (rounds j : Nat) (acc : List (Node N)) :
    pushChildren nodes rounds j acc = acc ++ (nodes.drop j).take rounds := by
  induction rounds generalizing j acc with
  | zero => simp [pushChildren]
  | succ rounds ih =>
    rw [pushChildren]
    cases hj : nodes[j]? with
    | none =>
      have hlen : nodes.length ≤ j := List.getElem?_eq_none_iff.mp hj
      simp [List.drop_eq_nil_of_le hlen]
    | some node =>
      obtain ⟨hlt, rfl⟩ := List.getElem?_eq_some_iff.mp hj
      show pushChildren nodes rounds (j + 1) (acc ++ [nodes[j]]) = _
      rw [ih, List.drop_eq_getElem_cons hlt, List.take_succ_cons, List.append_assoc]
      rfl

/-- `addchildren(i * ratio, ratio, nodes)` takes block `i`. -/
theorem addchildren_eq_block (i ratio : Nat) (nodes : List (Node N)) :
    addchildren (i * ratio) ratio nodes = Blocks.block ratio i nodes := by
  rw [addchildren, pushChildren_eq, Blocks.block, List.nil_append]

end Node

section OrBits
variable {N : Nat}

theorem foldl_or_positions (bits : List (BitVec N)) (acc : BitVec N) :
    positions (bits.foldl (fun acc b => acc ||| b) acc) =
      positions acc ∪ {p | ∃ b ∈ bits, p ∈ positions b} := by
  induction bits generalizing acc with
  | nil => simp
  | cons b bits ih =>
    rw [List.foldl_cons, ih, positions_or, Set.union_assoc]
    congr 1
    ext p
    simp

/-- The or of a list has the bits that some member has. -/
theorem positions_orBits (bits : List (BitVec N)) :
    positions (orBits bits) = {p | ∃ b ∈ bits, p ∈ positions b} := by
  rw [orBits, foldl_or_positions, positions_zero, Set.empty_union]

theorem getLsbD_orBits_map {α : Type} {f : α → BitVec N} {l : List α} {p : Nat} :
    (orBits (l.map f)).getLsbD p = true ↔ ∃ a ∈ l, (f a).getLsbD p = true := by
  show p ∈ positions (orBits (l.map f)) ↔ _
  rw [positions_orBits]
  constructor
  · rintro ⟨b, hb, hp⟩
    obtain ⟨a, ha, rfl⟩ := List.mem_map.mp hb
    exact ⟨a, ha, hp⟩
  · rintro ⟨a, ha, hp⟩
    exact ⟨f a, List.mem_map_of_mem ha, hp⟩

theorem positions_subset_orBits {bits : List (BitVec N)} {b : BitVec N} (h : b ∈ bits) :
    positions b ⊆ positions (orBits bits) := by
  rw [positions_orBits]
  exact fun p hp => ⟨b, h, hp⟩

/-- The or of a list of ors is the or of everything below. -/
theorem orBits_flatMap {α : Type} (f : α → List (BitVec N)) (groups : List α) :
    orBits (groups.map fun group => orBits (f group)) = orBits (groups.flatMap f) := by
  apply positions_injective
  rw [positions_orBits, positions_orBits]
  ext p
  constructor
  · rintro ⟨b, hb, hp⟩
    obtain ⟨group, hgroup, rfl⟩ := List.mem_map.mp hb
    rw [positions_orBits] at hp
    obtain ⟨c, hc, hpc⟩ := hp
    exact ⟨c, List.mem_flatMap.mpr ⟨group, hgroup, hc⟩, hpc⟩
  · rintro ⟨c, hc, hpc⟩
    obtain ⟨group, hgroup, hcg⟩ := List.mem_flatMap.mp hc
    exact ⟨orBits (f group), List.mem_map_of_mem hgroup, positions_subset_orBits hcg hpc⟩

end OrBits

section LevelFacts
variable {N : Nat}

theorem levelNode_eq (ratio i : Nat) (nodes : List (Node N)) :
    levelNode ratio i nodes =
      .mk (Blocks.block ratio i nodes)
        { bitArray := orBits ((Blocks.block ratio i nodes).map fun c => c.blValue.bitArray) }
        Node.memory := by
  simp only [levelNode, Node.addchildren_eq_block]

/-- A level is one node over each block of the level below. -/
theorem levelNodes_eq (ratio : Nat) (nodes : List (Node N)) :
    levelNodes ratio nodes = (Blocks.blocks ratio nodes).map fun block =>
      .mk block { bitArray := orBits (block.map fun c => c.blValue.bitArray) } Node.memory := by
  rw [levelNodes, Blocks.blocks, List.map_map]
  exact List.map_congr_left fun i _ => levelNode_eq ratio i nodes

@[simp] theorem length_levelNodes (ratio : Nat) (nodes : List (Node N)) :
    (levelNodes ratio nodes).length = nodes.length / ratio + 1 := by
  simp [levelNodes]

theorem length_levelNodes_pos (ratio : Nat) (nodes : List (Node N)) :
    0 < (levelNodes ratio nodes).length := by
  rw [length_levelNodes]
  exact Nat.succ_pos _

theorem mem_levelNodes {ratio : Nat} {nodes : List (Node N)} {n : Node N}
    (h : n ∈ levelNodes ratio nodes) :
    n.filename = Node.memory ∧
    n.blValue.bitArray = orBits (n.children.map fun c => c.blValue.bitArray) ∧
    n.children.length ≤ ratio ∧ ∀ c ∈ n.children, c ∈ nodes := by
  rw [levelNodes, List.mem_map] at h
  obtain ⟨i, _, rfl⟩ := h
  rw [levelNode_eq]
  exact ⟨rfl, rfl, Blocks.length_block_le _ _ _, fun c hc => Blocks.block_subset hc⟩

/-- A node that was built over `c` accepts what `c` accepts. -/
theorem existsKey_of_mem_children {hash : Bytes → UInt64} {ratio : Nat} {nodes : List (Node N)}
    {n c : Node N} (hn : n ∈ levelNodes ratio nodes) (hc : c ∈ n.children) {value : Bytes}
    (h : c.blValue.existsKey hash value = true) : n.blValue.existsKey hash value = true := by
  have hle : positions c.blValue.bitArray ⊆ positions n.blValue.bitArray := by
    rw [(mem_levelNodes hn).2.1]
    exact positions_subset_orBits (List.mem_map_of_mem hc)
  exact BloomValue.existsKey_mono hle h

/-- The children of a level, in order, are the level below. -/
theorem levelNodes_flatMap_children {ratio : Nat} (hr : 0 < ratio) (nodes : List (Node N)) :
    (levelNodes ratio nodes).flatMap Node.children = nodes := by
  rw [levelNodes_eq, List.flatMap_map]
  show (Blocks.blocks ratio nodes).flatMap (fun block => block) = nodes
  rw [List.flatMap_id', Blocks.flatten_blocks hr]

end LevelFacts

namespace BloomTree
variable {N : Nat}

theorem foldl_createLeafLevel (leaves : List (BloomValue N × Bytes)) (t : BloomTree N) :
    leaves.foldl (fun t leaf => t.createLeafLevel leaf.1 leaf.2) t =
      { t with leafNodes := t.leafNodes ++ leaves.map fun leaf => Node.leaf leaf.1 leaf.2 } := by
  induction leaves generalizing t with
  | nil => simp
  | cons leaf leaves ih =>
    rw [List.foldl_cons, ih]
    simp [createLeafLevel]

theorem ofLeaves_eq (ratio : Nat) (leaves : List (BloomValue N × Bytes)) :
    ofLeaves ratio leaves =
      { ratio := ratio, leafNodes := leaves.map fun leaf => Node.leaf leaf.1 leaf.2 } := by
  rw [ofLeaves, foldl_createLeafLevel]
  rfl

@[simp] theorem ofLeaves_ratio (ratio : Nat) (leaves : List (BloomValue N × Bytes)) :
    (ofLeaves ratio leaves).ratio = ratio := by
  rw [ofLeaves_eq]

@[simp] theorem ofLeaves_leafNodes (ratio : Nat) (leaves : List (BloomValue N × Bytes)) :
    (ofLeaves ratio leaves).leafNodes = leaves.map fun leaf => Node.leaf leaf.1 leaf.2 := by
  rw [ofLeaves_eq]

@[simp] theorem ofLeaves_search (ratio : Nat) (leaves : List (BloomValue N × Bytes)) :
    (ofLeaves ratio leaves).search = {} := by
  rw [ofLeaves_eq]

end BloomTree

end BloomHierarchy
