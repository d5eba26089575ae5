import BloomHierarchy.Basic
import BloomHierarchy.Lib.Cursor

/-!
# The two-level iterator (`table/two_level_iterator`)

An iterator over the entries of many blocks. Its index iterator runs over the
handles of the blocks; from a handle the block function makes an iterator over
the block. Blocks without entries are skipped in both directions, and a block is
not opened again while the index stays on its handle. The cache of `Valid()` and
`key()` in `IteratorWrapper` is left out.

Both loops over the blocks are bounded by a number of steps; with more steps
than the index has entries they end by themselves. The results are
`TwoLevelIterator.simulates`: if the index iterator and the iterators of the
blocks behave as positions in their entries, the two-level iterator behaves as a
position in the concatenation of the blocks, for every sequence of operations;
and `TwoLevelIterator.seeks`: if the keys of the index separate the blocks, its
`Seek` finds the first entry that is not below the target.
-/

namespace BloomHierarchy

structure TwoLevelIterator (σ₁ σ₂ : Type) where
  indexIter : σ₁
  dataIter : Option σ₂ := none
  /-- The handle that the data iterator was made from. -/
  dataBlockHandle : Bytes := []
  status : Option Bytes := none

namespace TwoLevelIterator

variable {σ₁ σ₂ : Type} (index : Cursor.Operations σ₁ Bytes Bytes Bytes)
  (data : Cursor.Operations σ₂ Bytes Bytes Bytes) (blockFunction : Bytes → σ₂)

def dataValid (it : TwoLevelIterator σ₁ σ₂) : Bool :=
  it.dataIter.any data.valid

/-- The first error is kept. -/
def saveError (it : TwoLevelIterator σ₁ σ₂) (s : Option Bytes) : TwoLevelIterator σ₁ σ₂ :=
  { it with status := it.status.or s }

def setDataIterator (it : TwoLevelIterator σ₁ σ₂) (dataIter : Option σ₂) :
    TwoLevelIterator σ₁ σ₂ :=
  { it.saveError (it.dataIter.bind data.status) with dataIter }

def initDataBlock (it : TwoLevelIterator σ₁ σ₂) : TwoLevelIterator σ₁ σ₂ :=
  if index.valid it.indexIter then
    let handle := index.value it.indexIter
    if it.dataIter.isSome ∧ handle = it.dataBlockHandle then
      -- the data iterator was already made from this handle
      it
    else setDataIterator data { it with dataBlockHandle := handle } (some (blockFunction handle))
  else setDataIterator data it none

/-- A move of the index, and of the data iterator in the block it leads to. -/
def reposition (move : σ₁ → σ₁) (enter : σ₂ → σ₂) (it : TwoLevelIterator σ₁ σ₂) :
    TwoLevelIterator σ₁ σ₂ :=
  let it := initDataBlock index data blockFunction { it with indexIter := move it.indexIter }
  { it with dataIter := it.dataIter.map enter }

/-- The loop over blocks in either direction. -/
def skipEmptyDataBlocks (move : σ₁ → σ₁) (enter : σ₂ → σ₂) :
    Nat → TwoLevelIterator σ₁ σ₂ → TwoLevelIterator σ₁ σ₂
  | 0, it => it
  | steps + 1, it =>
    if it.dataValid data then it
    else if index.valid it.indexIter then
      skipEmptyDataBlocks move enter steps (reposition index data blockFunction move enter it)
    else setDataIterator data it none

def skipEmptyDataBlocksForward : Nat → TwoLevelIterator σ₁ σ₂ → TwoLevelIterator σ₁ σ₂ :=
  skipEmptyDataBlocks index data blockFunction index.next data.seekToFirst

def skipEmptyDataBlocksBackward : Nat → TwoLevelIterator σ₁ σ₂ → TwoLevelIterator σ₁ σ₂ :=
  skipEmptyDataBlocks index data blockFunction index.prev data.seekToLast

def ops (steps : Nat) : Cursor.Operations (TwoLevelIterator σ₁ σ₂) Bytes Bytes Bytes where
  valid it := it.dataValid data
  key it := (it.dataIter.map data.key).getD []
  value it := (it.dataIter.map data.value).getD []
  status it := (index.status it.indexIter).or ((it.dataIter.bind data.status).or it.status)
  seekToFirst it :=
    skipEmptyDataBlocksForward index data blockFunction steps
      (reposition index data blockFunction index.seekToFirst data.seekToFirst it)
  seekToLast it :=
    skipEmptyDataBlocksBackward index data blockFunction steps
      (reposition index data blockFunction index.seekToLast data.seekToLast it)
  seek target it :=
    skipEmptyDataBlocksForward index data blockFunction steps
      (reposition index data blockFunction (index.seek target) (data.seek target) it)
  next it :=
    skipEmptyDataBlocksForward index data blockFunction steps
      { it with dataIter := it.dataIter.map data.next }
  prev it :=
    skipEmptyDataBlocksBackward index data blockFunction steps
      { it with dataIter := it.dataIter.map data.prev }

/-! ## Positions -/

section Simulation
variable {cmp : Bytes → Bytes → Ordering} {idx : List (Bytes × Bytes)}
  {contents : Bytes → List (Bytes × Bytes)} {stands₁ : σ₁ → Nat → Prop}
  {stands₂ : Bytes → σ₂ → Nat → Prop}

/-- The entries of all blocks. -/
def concatenated (idx : List (Bytes × Bytes)) (contents : Bytes → List (Bytes × Bytes)) :
    List (Bytes × Bytes) :=
  idx.flatMap fun b => contents b.2

/-- Where block `j` begins among them. -/
def startOf (idx : List (Bytes × Bytes)) (contents : Bytes → List (Bytes × Bytes)) (j : Nat) :
    Nat :=
  Cursor.start (fun b : Bytes × Bytes => contents b.2) idx j

/-- The index stands on block `j` and the data iterator on entry `i` of it, or behind it. -/
structure InBlock (idx : List (Bytes × Bytes)) (stands₁ : σ₁ → Nat → Prop)
    (stands₂ : Bytes → σ₂ → Nat → Prop) (it : TwoLevelIterator σ₁ σ₂) (j i : Nat)
    (hj : j < idx.length) : Prop where
  index : stands₁ it.indexIter j
  handle : it.dataBlockHandle = idx[j].2
  data : ∃ d, it.dataIter = some d ∧ stands₂ idx[j].2 d i
  status : it.status = none

/-- There is no block left. -/
structure NoBlock (idx : List (Bytes × Bytes)) (stands₁ : σ₁ → Nat → Prop)
    (it : TwoLevelIterator σ₁ σ₂) : Prop where
  index : stands₁ it.indexIter idx.length
  data : it.dataIter = none
  status : it.status = none

/-- The position among the entries of all blocks. -/
inductive Stands (idx : List (Bytes × Bytes)) (contents : Bytes → List (Bytes × Bytes))
    (stands₁ : σ₁ → Nat → Prop) (stands₂ : Bytes → σ₂ → Nat → Prop)
    (it : TwoLevelIterator σ₁ σ₂) : Nat → Prop
  | block {j i : Nat} (hj : j < idx.length) (hi : i < (contents idx[j].2).length)
      (h : InBlock idx stands₁ stands₂ it j i hj) :
      Stands idx contents stands₁ stands₂ it (startOf idx contents j + i)
  | none (h : NoBlock idx stands₁ it) :
      Stands idx contents stands₁ stands₂ it (concatenated idx contents).length

/-- What the two iterators are. -/
structure Levels (idx : List (Bytes × Bytes)) (contents : Bytes → List (Bytes × Bytes))
    (stands₁ : σ₁ → Nat → Prop) (stands₂ : Bytes → σ₂ → Nat → Prop) : Prop where
  index : Cursor.Simulates index idx stands₁
  data : ∀ b ∈ idx, Cursor.Simulates data (contents b.2) (stands₂ b.2)
  opens : ∀ b ∈ idx, ∃ i, stands₂ b.2 (blockFunction b.2) i

variable {index data blockFunction}

section
variable (h : Levels index data blockFunction idx contents stands₁ stands₂)
include h

theorem Levels.value {s : σ₁} {j : Nat} (hs : stands₁ s j) (hj : j < idx.length) :
    index.value s = idx[j].2 :=
  congrArg Prod.snd (h.index.entry hs hj)

/-- No error was met so far. -/
def Clean (idx : List (Bytes × Bytes)) (stands₂ : Bytes → σ₂ → Nat → Prop)
    (it : TwoLevelIterator σ₁ σ₂) : Prop :=
  it.status = none ∧ ∀ d, it.dataIter = some d →
    ∃ b ∈ idx, it.dataBlockHandle = b.2 ∧ ∃ i, stands₂ b.2 d i

omit h in
theorem InBlock.clean {it : TwoLevelIterator σ₁ σ₂} {j i : Nat} {hj : j < idx.length}
    (hit : InBlock idx stands₁ stands₂ it j i hj) : Clean idx stands₂ it := by
  refine ⟨hit.status, fun d hd => ⟨idx[j], List.getElem_mem hj, hit.handle, i, ?_⟩⟩
  obtain ⟨d', hd', hstands⟩ := hit.data
  rw [hd] at hd'
  cases hd'
  exact hstands

omit h in
theorem NoBlock.clean {it : TwoLevelIterator σ₁ σ₂} (hit : NoBlock idx stands₁ it) :
    Clean idx stands₂ it :=
  ⟨hit.status, fun d hd => by rw [hit.data] at hd; cases hd⟩

theorem Clean.dataStatus {it : TwoLevelIterator σ₁ σ₂} (hit : Clean idx stands₂ it) :
    it.dataIter.bind data.status = none := by
  cases hd : it.dataIter with
  | none => rfl
  | some d =>
    obtain ⟨b, hb, -, i, hstands⟩ := hit.2 d hd
    exact (h.data b hb).status hstands

/-! ## From block to block -/

/-- The block that the index stands on is opened, or stays open. -/
theorem initDataBlock_inBlock {it : TwoLevelIterator σ₁ σ₂} (hit : Clean idx stands₂ it)
    {j : Nat} (hindex : stands₁ it.indexIter j) (hj : j < idx.length) :
    ∃ i, InBlock idx stands₁ stands₂ (initDataBlock index data blockFunction it) j i hj := by
  have hmem := List.getElem_mem hj
  unfold initDataBlock
  rw [if_pos ((h.index.valid hindex).mpr hj), h.value hindex hj]
  dsimp only
  split
  next hsame =>
    obtain ⟨d, hd⟩ := Option.isSome_iff_exists.mp hsame.1
    obtain ⟨b, hb, hhandle, i, hstands⟩ := hit.2 d hd
    rw [← hhandle, ← hsame.2] at hstands
    exact ⟨i, hindex, hsame.2.symm, ⟨d, hd, hstands⟩, hit.1⟩
  next =>
    obtain ⟨i, hopen⟩ := h.opens _ hmem
    refine ⟨i, hindex, rfl, ⟨_, rfl, hopen⟩, ?_⟩
    show it.status.or (it.dataIter.bind data.status) = none
    rw [hit.1, hit.dataStatus h]
    rfl

theorem initDataBlock_noBlock {it : TwoLevelIterator σ₁ σ₂} (hit : Clean idx stands₂ it)
    (hindex : stands₁ it.indexIter idx.length) :
    NoBlock idx stands₁ (initDataBlock index data blockFunction it) := by
  unfold initDataBlock
  rw [if_neg (fun hv => Nat.lt_irrefl _ ((h.index.valid hindex).mp hv))]
  refine ⟨hindex, rfl, ?_⟩
  show it.status.or (it.dataIter.bind data.status) = none
  rw [hit.1, hit.dataStatus h]
  rfl

theorem reposition_inBlock {it : TwoLevelIterator σ₁ σ₂} (hit : Clean idx stands₂ it)
    {move : σ₁ → σ₁} {enter : σ₂ → σ₂} {j k : Nat} (hindex : stands₁ (move it.indexIter) j)
    (hj : j < idx.length)
    (henter : ∀ d i, stands₂ idx[j].2 d i → stands₂ idx[j].2 (enter d) k) :
    InBlock idx stands₁ stands₂ (reposition index data blockFunction move enter it) j k hj := by
  have hclean : Clean idx stands₂ { it with indexIter := move it.indexIter } := hit
  obtain ⟨i, hinit⟩ := initDataBlock_inBlock h hclean hindex hj
  obtain ⟨d, hd, hstands⟩ := hinit.data
  refine ⟨hinit.index, hinit.handle, ⟨enter d, ?_, henter d i hstands⟩, hinit.status⟩
  show (initDataBlock index data blockFunction _).dataIter.map enter = _
  rw [hd]
  rfl

theorem reposition_noBlock {it : TwoLevelIterator σ₁ σ₂} (hit : Clean idx stands₂ it)
    {move : σ₁ → σ₁} {enter : σ₂ → σ₂} (hindex : stands₁ (move it.indexIter) idx.length) :
    NoBlock idx stands₁ (reposition index data blockFunction move enter it) := by
  have hclean : Clean idx stands₂ { it with indexIter := move it.indexIter } := hit
  have hinit := initDataBlock_noBlock h hclean hindex
  refine ⟨hinit.index, ?_, hinit.status⟩
  show (initDataBlock index data blockFunction _).dataIter.map enter = none
  rw [hinit.data]
  rfl

theorem InBlock.dataValid_iff {it : TwoLevelIterator σ₁ σ₂} {j i : Nat} {hj : j < idx.length}
    (hit : InBlock idx stands₁ stands₂ it j i hj) :
    it.dataValid data = true ↔ i < (contents idx[j].2).length := by
  obtain ⟨d, hd, hstands⟩ := hit.data
  rw [dataValid, hd]
  exact (h.data _ (List.getElem_mem hj)).valid hstands

theorem InBlock.le {it : TwoLevelIterator σ₁ σ₂} {j i : Nat} {hj : j < idx.length}
    (hit : InBlock idx stands₁ stands₂ it j i hj) : i ≤ (contents idx[j].2).length := by
  obtain ⟨d, hd, hstands⟩ := hit.data
  exact (h.data _ (List.getElem_mem hj)).le hstands

/-- Without a block the loops do nothing. -/
theorem skip_noBlock {it : TwoLevelIterator σ₁ σ₂} (hit : NoBlock idx stands₁ it)
    (move : σ₁ → σ₁) (enter : σ₂ → σ₂) (steps : Nat) :
    NoBlock idx stands₁ (skipEmptyDataBlocks index data blockFunction move enter steps it) := by
  cases steps with
  | zero => exact hit
  | succ steps =>
    have hinvalid : ¬ it.dataValid data = true := by rw [dataValid, hit.data]; simp
    unfold skipEmptyDataBlocks
    rw [if_neg hinvalid,
      if_neg (fun hv => Nat.lt_irrefl _ ((h.index.valid hit.index).mp hv))]
    refine ⟨hit.index, rfl, ?_⟩
    show it.status.or (it.dataIter.bind data.status) = none
    rw [hit.status, hit.data]
    rfl

/-- The loop forward ends on the first entry at or behind the position. -/
theorem skipForward_stands {it : TwoLevelIterator σ₁ σ₂} {j i : Nat} {hj : j < idx.length}
    (hit : InBlock idx stands₁ stands₂ it j i hj) {steps : Nat} (hsteps : idx.length < j + steps) :
    Stands idx contents stands₁ stands₂
      (skipEmptyDataBlocksForward index data blockFunction steps it)
      (startOf idx contents j + i) := by
  induction steps generalizing it j i with
  | zero => omega
  | succ steps ih =>
    unfold skipEmptyDataBlocksForward skipEmptyDataBlocks
    rcases Nat.lt_or_eq_of_le (hit.le h) with hi | hi
    · rw [if_pos ((hit.dataValid_iff h).mpr hi)]
      exact .block hj hi hit
    · have hinvalid : ¬ it.dataValid data = true := by
        rw [hit.dataValid_iff h]
        omega
      have hnext := h.index.next hit.index hj
      have hstart : startOf idx contents (j + 1) = startOf idx contents j + i := by
        rw [hi]
        exact Cursor.start_succ hj
      rw [if_neg hinvalid, if_pos ((h.index.valid hit.index).mpr hj), ← hstart]
      rcases Nat.lt_or_eq_of_le (Nat.succ_le_of_lt hj) with hmore | hlast
      · have hfirst := reposition_inBlock h hit.clean hnext hmore fun d i hd =>
          (h.data _ (List.getElem_mem hmore)).seekToFirst hd
        exact ih hfirst (by omega)
      · have hnone : NoBlock idx stands₁
            (reposition index data blockFunction index.next data.seekToFirst it) :=
          reposition_noBlock h hit.clean (hlast ▸ hnext)
        have hend : startOf idx contents (j + 1) = (concatenated idx contents).length := by
          rw [show j + 1 = idx.length from hlast]
          exact Cursor.start_length
        rw [hend]
        exact .none (skip_noBlock h hnone _ _ steps)

/-- One position back. -/
def before (total p : Nat) : Nat :=
  if p = 0 then total else p - 1

/-- The loop backward leaves a valid iterator alone and otherwise ends in front of the block. -/
theorem skipBackward_stands {it : TwoLevelIterator σ₁ σ₂} {j i p : Nat} {hj : j < idx.length}
    (hit : InBlock idx stands₁ stands₂ it j i hj) {steps : Nat} (hsteps : j < steps)
    (hvalid : i < (contents idx[j].2).length → p = startOf idx contents j + i)
    (hinvalid : i = (contents idx[j].2).length →
      p = before (concatenated idx contents).length (startOf idx contents j)) :
    Stands idx contents stands₁ stands₂
      (skipEmptyDataBlocksBackward index data blockFunction steps it) p := by
  induction steps generalizing it j i with
  | zero => omega
  | succ steps ih =>
    unfold skipEmptyDataBlocksBackward skipEmptyDataBlocks
    rcases Nat.lt_or_eq_of_le (hit.le h) with hi | hi
    · rw [if_pos ((hit.dataValid_iff h).mpr hi), hvalid hi]
      exact .block hj hi hit
    · have hend : ¬ it.dataValid data = true := by
        rw [hit.dataValid_iff h]
        omega
      have hprev := h.index.prev hit.index hj
      rw [if_neg hend, if_pos ((h.index.valid hit.index).mpr hj)]
      cases j with
      | zero =>
        rw [if_pos rfl] at hprev
        have hnone : NoBlock idx stands₁
            (reposition index data blockFunction index.prev data.seekToLast it) :=
          reposition_noBlock h hit.clean hprev
        rw [hinvalid hi]
        exact .none (skip_noBlock h hnone _ _ steps)
      | succ j =>
        rw [if_neg (Nat.succ_ne_zero j), Nat.add_sub_cancel] at hprev
        have hj' : j < idx.length := by omega
        have hlast := reposition_inBlock h hit.clean hprev hj' fun d i hd =>
          (h.data _ (List.getElem_mem hj')).seekToLast hd
        have hstart : startOf idx contents (j + 1) =
            startOf idx contents j + (contents idx[j].2).length := Cursor.start_succ hj'
        have hp := hinvalid hi
        rw [hstart] at hp
        -- a block without entries leaves the position to the ones in front of it
        refine ih hlast (by omega) (fun hne => ?_) fun hempty => ?_
        · rw [hp, before, if_neg (by omega)]
          omega
        · rw [hp, show (contents idx[j].2).length = 0 by omega, Nat.add_zero]

/-! ## The simulation -/

omit h in
theorem Stands.clean {it : TwoLevelIterator σ₁ σ₂} {p : Nat}
    (hit : Stands idx contents stands₁ stands₂ it p) : Clean idx stands₂ it := by
  cases hit with
  | block hj hi hit => exact hit.clean
  | none hit => exact hit.clean

omit h in
theorem Stands.exists_index {it : TwoLevelIterator σ₁ σ₂} {p : Nat}
    (hit : Stands idx contents stands₁ stands₂ it p) : ∃ j, stands₁ it.indexIter j := by
  cases hit with
  | block hj hi hit => exact ⟨_, hit.index⟩
  | none hit => exact ⟨_, hit.index⟩

/-- A move to a position of the index, and forward from there. -/
theorem forward_stands {it : TwoLevelIterator σ₁ σ₂} (hit : Clean idx stands₂ it) {steps : Nat}
    (hsteps : idx.length < steps) {move : σ₁ → σ₁} {enter : σ₂ → σ₂} {j p : Nat}
    (hindex : stands₁ (move it.indexIter) j)
    (henter : ∀ hj : j < idx.length, ∃ k, p = startOf idx contents j + k ∧
      ∀ d i, stands₂ idx[j].2 d i → stands₂ idx[j].2 (enter d) k)
    (hnone : j = idx.length → p = (concatenated idx contents).length) :
    Stands idx contents stands₁ stands₂ (skipEmptyDataBlocksForward index data blockFunction steps
      (reposition index data blockFunction move enter it)) p := by
  rcases Nat.lt_or_eq_of_le (h.index.le hindex) with hj | rfl
  · obtain ⟨k, rfl, hk⟩ := henter hj
    exact skipForward_stands h (reposition_inBlock h hit hindex hj hk) (by omega)
  · rw [hnone rfl]
    exact .none (skip_noBlock h (reposition_noBlock h hit hindex) _ _ steps)

theorem seekToLast_stands {it : TwoLevelIterator σ₁ σ₂} {p : Nat}
    (hit : Stands idx contents stands₁ stands₂ it p) {steps : Nat} (hsteps : idx.length < steps) :
    Stands idx contents stands₁ stands₂ ((ops index data blockFunction steps).seekToLast it)
      ((concatenated idx contents).length - 1) := by
  obtain ⟨j, hindex⟩ := hit.exists_index
  have hlast := h.index.seekToLast hindex
  rcases Nat.lt_or_eq_of_le (Nat.sub_le idx.length 1) with hm | hm
  · have hstart : startOf idx contents (idx.length - 1 + 1) =
        startOf idx contents (idx.length - 1) + (contents idx[idx.length - 1].2).length :=
      Cursor.start_succ hm
    have htotal : startOf idx contents idx.length = (concatenated idx contents).length :=
      Cursor.start_length
    rw [show idx.length - 1 + 1 = idx.length by omega, htotal] at hstart
    have hblock := reposition_inBlock h hit.clean hlast hm fun d i hd =>
      (h.data _ (List.getElem_mem hm)).seekToLast hd
    refine skipBackward_stands h hblock (by omega) (fun hne => by omega) fun hempty => ?_
    rw [before]
    split <;> omega
  · have hnil : idx = [] := List.eq_nil_of_length_eq_zero (by omega)
    have hlen : (concatenated idx contents).length - 1 = (concatenated idx contents).length := by
      rw [concatenated, hnil]
      rfl
    rw [hlen]
    exact .none (skip_noBlock h (reposition_noBlock h hit.clean (hm ▸ hlast)) _ _ steps)

theorem next_stands {it : TwoLevelIterator σ₁ σ₂} {j i : Nat} {hj : j < idx.length}
    (hi : i < (contents idx[j].2).length) (hit : InBlock idx stands₁ stands₂ it j i hj)
    {steps : Nat} (hsteps : idx.length < steps) :
    Stands idx contents stands₁ stands₂ ((ops index data blockFunction steps).next it)
      (startOf idx contents j + i + 1) := by
  obtain ⟨d, hd, hstands⟩ := hit.data
  have hnext := (h.data _ (List.getElem_mem hj)).next hstands hi
  have hblock : InBlock idx stands₁ stands₂ { it with dataIter := it.dataIter.map data.next }
      j (i + 1) hj :=
    ⟨hit.index, hit.handle, ⟨data.next d, by simp [hd], hnext⟩, hit.status⟩
  exact skipForward_stands h hblock (by omega)

theorem prev_stands {it : TwoLevelIterator σ₁ σ₂} {j i : Nat} {hj : j < idx.length}
    (hi : i < (contents idx[j].2).length) (hit : InBlock idx stands₁ stands₂ it j i hj)
    {steps : Nat} (hsteps : idx.length < steps) :
    Stands idx contents stands₁ stands₂ ((ops index data blockFunction steps).prev it)
      (before (concatenated idx contents).length (startOf idx contents j + i)) := by
  obtain ⟨d, hd, hstands⟩ := hit.data
  have hprev := (h.data _ (List.getElem_mem hj)).prev hstands hi
  have hblock : InBlock idx stands₁ stands₂ { it with dataIter := it.dataIter.map data.prev }
      j (if i = 0 then (contents idx[j].2).length else i - 1) hj :=
    ⟨hit.index, hit.handle, ⟨data.prev d, by simp [hd], hprev⟩, hit.status⟩
  refine skipBackward_stands h hblock (by omega) (fun hin => ?_) fun hout => ?_
  · have hpos : i ≠ 0 := by
      rintro rfl
      simp at hin
    rw [before, if_neg (by omega), if_neg hpos]
    omega
  · have hzero : i = 0 := by
      by_contra hpos
      rw [if_neg hpos] at hout
      omega
    rw [hzero, Nat.add_zero]

/-- The search goes through the index to the block and on to the next one if it has to. -/
theorem seeks [Std.TransCmp cmp] (hindex : Cursor.Seeks index cmp idx stands₁)
    (hdata : ∀ b ∈ idx, Cursor.Seeks data cmp (contents b.2) (stands₂ b.2))
    (hseparated : Cursor.Separated cmp idx contents) {steps : Nat}
    (hsteps : idx.length < steps) :
    Cursor.Seeks (ops index data blockFunction steps) cmp (concatenated idx contents)
      (Stands idx contents stands₁ stands₂) := by
  intro target it p hit
  obtain ⟨j, hstands⟩ := hit.exists_index
  exact forward_stands h hit.clean hsteps (hindex target hstands)
    (fun hj => ⟨_, Cursor.lowerBound_flatMap hseparated target hj,
      fun d i hd => hdata _ (List.getElem_mem hj) target hd⟩)
    (Cursor.lowerBound_flatMap_of_eq hseparated target)

theorem simulates {steps : Nat} (hsteps : idx.length < steps) :
    Cursor.Simulates (ops index data blockFunction steps) (concatenated idx contents)
      (Stands idx contents stands₁ stands₂) where
  le := by
    rintro it p (⟨hj, hi, -⟩ | -)
    · exact (Cursor.start_add_lt hj hi).le
    · exact Nat.le_refl _
  valid := by
    rintro it p (⟨hj, hi, hit⟩ | hit)
    · exact iff_of_true ((hit.dataValid_iff h).mpr hi) (Cursor.start_add_lt hj hi)
    · refine iff_of_false ?_ (Nat.lt_irrefl _)
      show ¬ it.dataValid data = true
      rw [dataValid, hit.data]
      simp
  entry := by
    rintro it p (⟨hj, hi, hit⟩ | -) hp
    · obtain ⟨d, hd, hstands⟩ := hit.data
      have hget := Cursor.getElem_start_add hj hi hp
      refine Eq.trans ?_ (Eq.trans ((h.data _ (List.getElem_mem hj)).entry hstands hi) hget.symm)
      show ((it.dataIter.map data.key).getD [], (it.dataIter.map data.value).getD []) = _
      rw [hd]
      rfl
    · exact absurd hp (Nat.lt_irrefl _)
  status := by
    intro it p hit
    obtain ⟨j, hindex⟩ := hit.exists_index
    show (index.status it.indexIter).or ((it.dataIter.bind data.status).or it.status) = none
    rw [h.index.status hindex, hit.clean.dataStatus h, hit.clean.1]
    rfl
  seekToFirst := by
    intro it p hit
    obtain ⟨j, hindex⟩ := hit.exists_index
    refine forward_stands h hit.clean hsteps (h.index.seekToFirst hindex) (fun hj => ?_) fun hm => ?_
    · exact ⟨0, rfl, fun d i hd => (h.data _ (List.getElem_mem hj)).seekToFirst hd⟩
    · have hnil : idx = [] := List.eq_nil_of_length_eq_zero hm.symm
      rw [concatenated, hnil]
      rfl
  seekToLast := fun hit => seekToLast_stands h hit hsteps
  next := by
    rintro it p (⟨hj, hi, hit⟩ | -) hp
    · exact next_stands h hi hit hsteps
    · exact absurd hp (Nat.lt_irrefl _)
  prev := by
    rintro it p (⟨hj, hi, hit⟩ | -) hp
    · exact prev_stands h hi hit hsteps
    · exact absurd hp (Nat.lt_irrefl _)

end

end Simulation

end TwoLevelIterator

end BloomHierarchy
