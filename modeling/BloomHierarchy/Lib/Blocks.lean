import Mathlib

/-!
# Cutting a list into blocks by index arithmetic

A loop that walks a list of `m` elements in steps of `r` and runs for
`i = 0, …, m / r` cuts it into `m / r + 1` blocks. Block `i` holds the
elements with index in `[i * r, i * r + r)`, so every block before the last
one is full and the last one holds the `m % r` elements that remain, which
may be none.

Results:
1. `flatten_blocks`: the blocks partition the list, in order.
2. `length_block_of_lt`: every block before the last one is full.
3. `flatMap_blocks_select`: keeping or dropping whole blocks is keeping or
   dropping every element by the number of its block.
4. `flatMap_block`: a block of blocks is a block.
5. `iterate_blockCount_le`, `le_mul_iterate_blockCount`: how many blocks are left
   after cutting again and again; `not_dvd_iterate_iff`: when none of the cuts comes
   out even.
-/

namespace Blocks

variable {α β : Type*}

/-- Block `i` of `l`: the elements with index in `[i * r, i * r + r)`. -/
def block (r i : Nat) (l : List α) : List α :=
  (l.drop (i * r)).take r

/-- The blocks `0, …, l.length / r`. -/
def blocks (r : Nat) (l : List α) : List (List α) :=
  (List.range (l.length / r + 1)).map fun i => block r i l

/-! ## Sizes -/

theorem length_block (r i : Nat) (l : List α) :
    (block r i l).length = min r (l.length - i * r) := by
  simp [block]

theorem length_block_le (r i : Nat) (l : List α) : (block r i l).length ≤ r := by
  rw [length_block]
  exact Nat.min_le_left _ _

theorem length_block_of_lt {r i : Nat} {l : List α} (h : i < l.length / r) :
    (block r i l).length = r := by
  rw [length_block]
  have hfull : (i + 1) * r ≤ l.length :=
    Nat.le_trans (Nat.mul_le_mul_right r h) (Nat.div_mul_le_self _ _)
  rw [Nat.add_mul, Nat.one_mul] at hfull
  omega

theorem block_map (f : α → β) (r i : Nat) (l : List α) :
    block r i (l.map f) = (block r i l).map f := by
  simp [block]

theorem block_subset {r i : Nat} {l : List α} {x : α} (h : x ∈ block r i l) : x ∈ l :=
  List.mem_of_mem_drop (List.mem_of_mem_take h)

/-! ## Peeling off the first block

The recursion that every proof about all blocks follows: a list shorter than
`r` is its own last block, any other list starts with a full one. -/

theorem blocks_of_lt {r : Nat} {l : List α} (h : l.length < r) : blocks r l = [l] := by
  have hdiv : l.length / r = 0 := Nat.div_eq_of_lt h
  have htake : l.take r = l := List.take_of_length_le (Nat.le_of_lt h)
  simp [blocks, block, hdiv, htake]

theorem block_succ (r i : Nat) (l : List α) : block r (i + 1) l = block r i (l.drop r) := by
  rw [block, block, List.drop_drop, Nat.add_mul, Nat.one_mul, Nat.add_comm]

theorem blocks_of_le {r : Nat} {l : List α} (hr : 0 < r) (h : r ≤ l.length) :
    blocks r l = l.take r :: blocks r (l.drop r) := by
  have hdiv : l.length / r = (l.drop r).length / r + 1 := by
    rw [List.length_drop, Nat.div_eq_sub_div hr h]
  rw [blocks, blocks, hdiv, List.range_succ_eq_map, List.map_cons, List.map_map]
  congr 1
  · simp [block]
  · exact List.map_congr_left fun i _ => block_succ r i l

theorem flatten_blocks {r : Nat} (hr : 0 < r) (l : List α) : (blocks r l).flatten = l := by
  by_cases h : l.length < r
  · simp [blocks_of_lt h]
  · have hle : r ≤ l.length := Nat.le_of_not_lt h
    rw [blocks_of_le hr hle, List.flatten_cons, flatten_blocks hr (l.drop r)]
    exact List.take_append_drop r l
termination_by l.length
decreasing_by
  rw [List.length_drop]
  omega

/-! ## Selecting whole blocks -/

/-- One block under the number `s`: all of its elements carry that number. -/
theorem select_block {r : Nat} (q : Nat → Bool) (f : α → β) {b : List α}
    (hb : b.length ≤ r) (s : Nat) :
    ((b.zipIdx (s * r)).filter fun e => q (e.2 / r)).map (fun e => f e.1) =
      if q s then b.map f else [] := by
  have hnum : ∀ e ∈ b.zipIdx (s * r), e.2 / r = s := by
    intro e he
    have hge : s * r ≤ e.2 := List.le_snd_of_mem_zipIdx he
    have hlt : e.2 < s * r + b.length := List.snd_lt_add_of_mem_zipIdx he
    exact Nat.div_eq_of_lt_le hge (by rw [Nat.add_mul, Nat.one_mul]; omega)
  have hq : (b.zipIdx (s * r)).filter (fun e => q (e.2 / r)) =
      (b.zipIdx (s * r)).filter fun _ => q s :=
    List.filter_congr fun e he => by rw [hnum e he]
  rw [hq]
  cases q s with
  | false => simp
  | true =>
    rw [List.filter_true, if_pos rfl]
    conv_rhs => rw [← List.zipIdx_map_fst (s * r) b, List.map_map]
    rfl

/-- The selection by block number, with the numbers starting at `s`. The
induction peels off one block and moves the start of the numbering. -/
theorem flatMap_zipIdx_blocks {r : Nat} (hr : 0 < r) (q : Nat → Bool) (f : α → β)
    (l : List α) (s : Nat) :
    ((blocks r l).zipIdx s).flatMap (fun e => if q e.2 then e.1.map f else []) =
      ((l.zipIdx (s * r)).filter fun e => q (e.2 / r)).map fun e => f e.1 := by
  by_cases h : l.length < r
  · rw [blocks_of_lt h, select_block q f (Nat.le_of_lt h) s]
    simp
  · have hle : r ≤ l.length := Nat.le_of_not_lt h
    have htake : (l.take r).length = r := by rw [List.length_take, Nat.min_eq_left hle]
    rw [blocks_of_le hr hle, List.zipIdx_cons, List.flatMap_cons,
      flatMap_zipIdx_blocks hr q f (l.drop r) (s + 1)]
    conv_rhs => rw [← List.take_append_drop r l, List.zipIdx_append]
    rw [List.filter_append, List.map_append, htake, select_block q f (Nat.le_of_eq htake) s,
      Nat.add_mul, Nat.one_mul]
termination_by l.length
decreasing_by
  rw [List.length_drop]
  omega

theorem zipIdx_blocks (r : Nat) (l : List α) :
    (blocks r l).zipIdx = (List.range (l.length / r + 1)).map fun i => (block r i l, i) := by
  apply List.ext_getElem
  · simp [blocks]
  · intro i h1 h2
    simp [blocks]

/-- Keeping or dropping whole blocks by a test on the block keeps or drops
every element by the test on the block that holds it. -/
theorem flatMap_blocks_select {r : Nat} (hr : 0 < r) (p : List α → Bool) (f : α → β)
    (l : List α) :
    (blocks r l).flatMap (fun b => if p b then b.map f else []) =
      (l.zipIdx.filter fun e => p (block r (e.2 / r) l)).map fun e => f e.1 := by
  have h := flatMap_zipIdx_blocks hr (fun i => p (block r i l)) f l 0
  rw [Nat.zero_mul] at h
  rw [← h, zipIdx_blocks, blocks, List.flatMap_map, List.flatMap_map]

theorem flatMap_range_single (g : Nat → List α) (i n : Nat) :
    (List.range n).flatMap (fun j => if j == i then g j else []) = if i < n then g i else [] := by
  induction n with
  | zero => simp
  | succ n ih =>
    rw [List.range_succ, List.flatMap_append, ih, List.flatMap_singleton]
    by_cases h : n = i
    · subst h
      simp
    · have hlt : i < n + 1 ↔ i < n := by omega
      simp [h, hlt]

/-- Block `i` holds the elements whose index is `i` when divided by `r`. -/
theorem block_eq_filter {r : Nat} (hr : 0 < r) (i : Nat) (l : List α) :
    block r i l = (l.zipIdx.filter fun e => e.2 / r == i).map fun e => e.1 := by
  have h := flatMap_zipIdx_blocks hr (fun j => j == i) id l 0
  rw [Nat.zero_mul, zipIdx_blocks, List.flatMap_map] at h
  simp only [List.map_id, id_eq] at h
  rw [← h, flatMap_range_single (fun j => block r j l) i]
  split
  · rfl
  · next hi =>
    have hlen : l.length ≤ i * r := by
      have hlt : l.length < (l.length / r + 1) * r := Nat.lt_mul_of_div_lt (Nat.lt_succ_self _) hr
      exact Nat.le_trans (Nat.le_of_lt hlt) (Nat.mul_le_mul_right r (Nat.le_of_not_lt hi))
    rw [block, List.drop_eq_nil_of_le hlen, List.take_nil]

/-! ## Blocks of blocks -/

/-- Elements that stand for consecutive blocks of `l`, the last of which reaches
its end: a stretch of them stands for a stretch of `l`. -/
theorem flatMap_take_drop {s : Nat} {l : List α} {level : List β} {f : β → List α}
    (hblock : ∀ i b, level[i]? = some b → f b = block s i l) (hcover : l.length ≤ level.length * s)
    (a m : Nat) : ((level.drop a).take m).flatMap f = (l.drop (a * s)).take (m * s) := by
  induction m generalizing a with
  | zero => simp
  | succ m ih =>
    by_cases ha : a < level.length
    · have hfirst := hblock a level[a] (List.getElem?_eq_getElem ha)
      have hnext : l.drop ((a + 1) * s) = (l.drop (a * s)).drop s := by
        rw [List.drop_drop, Nat.succ_mul]
      rw [List.drop_eq_getElem_cons ha, List.take_succ_cons, List.flatMap_cons, hfirst, ih, block,
        hnext, Nat.succ_mul, Nat.add_comm (m * s), List.take_add]
    · have hle : level.length ≤ a := Nat.not_lt.mp ha
      have hend : l.length ≤ a * s := hcover.trans (Nat.mul_le_mul_right s hle)
      simp [List.drop_eq_nil_of_le hle, List.drop_eq_nil_of_le hend]

/-- A block of elements that stand for blocks of size `s` stands for a block of
size `r * s`. -/
theorem flatMap_block {s : Nat} {l : List α} {level : List β} {f : β → List α}
    (hblock : ∀ i b, level[i]? = some b → f b = block s i l) (hcover : l.length ≤ level.length * s)
    (r i : Nat) : (block r i level).flatMap f = block (r * s) i l := by
  rw [block, flatMap_take_drop hblock hcover, block, Nat.mul_assoc]

/-! ## How many blocks -/

/-- The number of blocks of a list of `m` elements. -/
def blockCount (r m : Nat) : Nat :=
  m / r + 1

theorem lt_mul_blockCount {r : Nat} (hr : 0 < r) (m : Nat) : m < r * blockCount r m := by
  rw [blockCount, Nat.mul_comm]
  exact Nat.lt_mul_of_div_lt (Nat.lt_succ_self _) hr

theorem div_mul_lt_iff {r : Nat} (m : Nat) : m / r * r < m ↔ ¬ r ∣ m := by
  have hle := Nat.div_mul_le_self m r
  rw [Nat.dvd_iff_div_mul_eq]
  omega

/-- There is no block more than needed exactly if the cut does not come out even. -/
theorem blockCount_eq_ceil_iff {r : Nat} (hr : 0 < r) (m : Nat) :
    blockCount r m = ⌈(m / r : ℚ)⌉₊ ↔ ¬ r ∣ m := by
  have hpos : (0 : ℚ) < r := Nat.cast_pos.mpr hr
  have hupper : (m / r : ℚ) ≤ (m / r + 1 : ℕ) := by
    rw [div_le_iff₀ hpos]
    exact_mod_cast (lt_mul_blockCount hr m).le.trans_eq (Nat.mul_comm _ _)
  have hlower : ((m / r : ℕ) : ℚ) < m / r ↔ m / r * r < m := by
    rw [lt_div_iff₀ hpos]
    exact_mod_cast Iff.rfl
  rw [eq_comm, blockCount, Nat.ceil_eq_iff (Nat.add_one_ne_zero _), Nat.add_sub_cancel,
    and_iff_left hupper, hlower, div_mul_lt_iff]

/-- The blocks after `k` cuts hold everything. -/
theorem le_mul_iterate_blockCount {r : Nat} (hr : 0 < r) (k m : Nat) :
    m ≤ (blockCount r)^[k] m * r ^ k := by
  induction k with
  | zero => simp
  | succ k ih =>
    have hstep := lt_mul_blockCount hr ((blockCount r)^[k] m)
    calc m ≤ (blockCount r)^[k] m * r ^ k := ih
      _ ≤ r * blockCount r ((blockCount r)^[k] m) * r ^ k := Nat.mul_le_mul_right _ hstep.le
      _ = (blockCount r)^[k + 1] m * r ^ (k + 1) := by
        rw [Function.iterate_succ_apply', Nat.pow_succ]
        ring

/-- One cut divides by `r`, up to one block more. -/
theorem blockCount_le {r m j : Nat} (hr : 2 ≤ r) (h : m ≤ r ^ (j + 1) + 1) :
    blockCount r m ≤ r ^ j + 1 := by
  have hdiv : m / r ≤ (r * r ^ j + 1) / r := Nat.div_le_div_right (by rwa [← Nat.pow_succ'])
  rw [Nat.mul_add_div (by omega), Nat.div_eq_of_lt (by omega : 1 < r), Nat.add_zero] at hdiv
  exact Nat.succ_le_succ hdiv

/-- The one block more does not add up over the cuts. -/
theorem iterate_blockCount_le {r m j k : Nat} (hr : 2 ≤ r) (h : m ≤ r ^ (j + k) + 1) :
    (blockCount r)^[k] m ≤ r ^ j + 1 := by
  induction k generalizing m with
  | zero => exact h
  | succ k ih =>
    rw [Function.iterate_succ_apply]
    exact ih (blockCount_le hr h)

theorem dvd_succ_iff {r : Nat} (hr : 0 < r) (x : Nat) : r ∣ x + 1 ↔ x % r = r - 1 := by
  have hlt := Nat.mod_lt x hr
  have hsplit := Nat.div_add_mod x r
  constructor
  · rintro ⟨c, hc⟩
    have hmod : (x + 1) % r = 0 := by rw [hc, Nat.mul_mod_right]
    rw [Nat.add_mod_eq_ite] at hmod
    by_cases h1 : r = 1
    · subst h1
      omega
    · rw [Nat.mod_eq_of_lt (by omega : 1 < r)] at hmod
      split at hmod <;> omega
  · intro h
    exact ⟨x / r + 1, by rw [Nat.mul_add, Nat.mul_one]; omega⟩

/-- As long as no digit of `m` in base `r` but the last one is `r - 1`, cutting `k`
times shifts `k` digits out. -/
theorem iterate_blockCount_eq {r m k : Nat} (hr : 0 < r) (hk : 1 ≤ k)
    (h : ∀ j, 1 ≤ j → j < k → m / r ^ j % r ≠ r - 1) : (blockCount r)^[k] m = m / r ^ k + 1 := by
  induction k, hk using Nat.le_induction with
  | base => rw [Nat.pow_one]; rfl
  | succ k hk ih =>
    have hdigit : ¬ r ∣ m / r ^ k + 1 := fun hdvd =>
      h k hk (Nat.lt_succ_self k) ((dvd_succ_iff hr _).mp hdvd)
    rw [Function.iterate_succ_apply', ih fun j hj hlt => h j hj (hlt.trans (Nat.lt_succ_self k)),
      blockCount, Nat.succ_div, if_neg hdigit, Nat.add_zero, Nat.div_div_eq_div_mul,
      ← Nat.pow_succ]

/-- No cut comes out even exactly if the last digit of `m` in base `r` is not 0 and
no other one is `r - 1`. -/
theorem not_dvd_iterate_iff {r : Nat} (hr : 0 < r) (m : Nat) :
    (∀ k, ¬ r ∣ (blockCount r)^[k] m) ↔
      m % r ≠ 0 ∧ ∀ k, 1 ≤ k → m / r ^ k % r ≠ r - 1 := by
  constructor
  · intro h
    refine ⟨fun hmod => h 0 (Nat.dvd_of_mod_eq_zero hmod), fun k => ?_⟩
    -- the digits before this one are known, so they are just shifted out
    induction k using Nat.strong_induction_on with
    | _ k ih =>
      intro hk hdigit
      apply h k
      rw [iterate_blockCount_eq hr hk fun j hj hlt => ih j hlt hj]
      exact (dvd_succ_iff hr _).mpr hdigit
  · rintro ⟨hlast, hdigits⟩ k hdvd
    cases k with
    | zero => exact hlast (Nat.mod_eq_zero_of_dvd hdvd)
    | succ k =>
      have hk : 1 ≤ k + 1 := Nat.succ_le_succ (Nat.zero_le k)
      rw [iterate_blockCount_eq hr hk fun j hj _ => hdigits j hj] at hdvd
      exact hdigits (k + 1) hk ((dvd_succ_iff hr _).mp hdvd)

end Blocks
