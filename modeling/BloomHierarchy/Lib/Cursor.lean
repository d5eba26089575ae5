import Mathlib

/-!
# Iterators over a sequence of entries

An iterator is a state with operations: it stands on an entry or is not valid,
and it is moved to the first or last entry, to the next or previous one, or to
the first one whose key is not below a target. `Simulates` says that a state
machine with these operations behaves as a position in a fixed list of entries;
the position past the end stands for an iterator that is not valid. The search
depends on an order of the keys and is a statement of its own (`Seeks`).

Results:

1. `lowerBound_eq`: the position that a search for a target has to find, by
   what is in front of it and what stands on it; `lowerBound_flatMap` finds it
   in a list that is cut into blocks, by way of an index;
2. `Simulates.moves`: the simulation over any sequence of moves, and
   `Simulates.scan_eq`: a loop from the first entry to the last returns the
   entries.
-/

namespace Cursor

variable {σ κ ν ε : Type}

/-! ## The position of a target -/

/-- The first position whose key is not below the target. -/
def lowerBound (cmp : κ → κ → Ordering) (target : κ) (entries : List (κ × ν)) : Nat :=
  entries.findIdx fun e => cmp e.1 target != .lt

/-- The keys increase strictly. -/
def Sorted (cmp : κ → κ → Ordering) (entries : List (κ × ν)) : Prop :=
  entries.Pairwise fun a b => cmp a.1 b.1 = .lt

section LowerBound
variable {cmp : κ → κ → Ordering} {target : κ} {entries : List (κ × ν)}

theorem lowerBound_le : lowerBound cmp target entries ≤ entries.length :=
  List.findIdx_le_length

theorem lt_of_lt_lowerBound {i : Nat} (h : i < lowerBound cmp target entries)
    (hi : i < entries.length) : cmp entries[i].1 target = .lt := by
  have := List.not_of_lt_findIdx h
  simpa using this

theorem not_lt_lowerBound (h : lowerBound cmp target entries < entries.length) :
    cmp entries[lowerBound cmp target entries].1 target ≠ .lt := by
  have hstop : (cmp entries[lowerBound cmp target entries].1 target != .lt) = true :=
    List.findIdx_getElem (w := h)
  simpa using hstop

theorem not_lt_of_lowerBound {i : Nat} (h : lowerBound cmp target entries = i)
    (hi : i < entries.length) : cmp entries[i].1 target ≠ .lt := by
  subst h
  exact not_lt_lowerBound hi

theorem lowerBound_eq {i : Nat} (hi : i ≤ entries.length)
    (hbefore : ∀ j (hj : j < entries.length), j < i → cmp entries[j].1 target = .lt)
    (hat : ∀ h : i < entries.length, cmp entries[i].1 target ≠ .lt) :
    lowerBound cmp target entries = i := by
  rcases Nat.lt_or_eq_of_le hi with h | rfl
  · refine (List.findIdx_eq h).mpr ⟨by simpa using hat h, fun j hj => ?_⟩
    simpa using hbefore j (hj.trans h) hj
  · refine List.findIdx_eq_length_of_false fun e he => ?_
    obtain ⟨j, hj, rfl⟩ := List.getElem_of_mem he
    simpa using hbefore j hj hj

/-- In sorted entries the keys below the target are the ones in front of its position. -/
theorem lt_lowerBound_iff [Std.TransCmp cmp] (hsorted : Sorted cmp entries) {i : Nat}
    (hi : i < entries.length) :
    i < lowerBound cmp target entries ↔ cmp entries[i].1 target = .lt := by
  refine ⟨fun h => lt_of_lt_lowerBound h hi, fun hlt => ?_⟩
  by_contra hle
  have hpos : lowerBound cmp target entries < entries.length := by omega
  refine not_lt_lowerBound hpos ?_
  rcases Nat.lt_or_eq_of_le (Nat.le_of_not_lt hle) with hbefore | hsame
  · exact Std.TransCmp.lt_trans (List.pairwise_iff_getElem.mp hsorted _ _ hpos hi hbefore) hlt
  · simpa only [hsame] using hlt

/-- An entry whose key equals the target stands at its position. -/
theorem lowerBound_of_eq [Std.TransCmp cmp] (hsorted : Sorted cmp entries) {i : Nat}
    (hi : i < entries.length) (heq : cmp entries[i].1 target = .eq) :
    lowerBound cmp target entries = i := by
  refine lowerBound_eq hi.le (fun j hj hji => ?_) fun _ => by rw [heq]; decide
  exact Std.TransCmp.lt_of_lt_of_eq (List.pairwise_iff_getElem.mp hsorted _ _ hj hi hji) heq

end LowerBound

/-! ## Entries in blocks -/

section Blocks
variable {α β : Type}

/-- Where block `j` begins in the concatenation. -/
def start (f : α → List β) (l : List α) (j : Nat) : Nat :=
  ((l.take j).flatMap f).length

variable {f : α → List β} {l : List α} {j : Nat}

theorem flatMap_split (f : α → List β) (hj : j < l.length) :
    l.flatMap f = (l.take j).flatMap f ++ (f l[j] ++ (l.drop (j + 1)).flatMap f) := by
  rw [← List.flatMap_cons, ← List.drop_eq_getElem_cons hj, ← List.flatMap_append,
    List.take_append_drop]

@[simp] theorem start_zero : start f l 0 = 0 := rfl

theorem start_length : start f l l.length = (l.flatMap f).length := by
  rw [start, List.take_length]

theorem start_le (f : α → List β) (l : List α) (j : Nat) :
    start f l j ≤ (l.flatMap f).length := by
  rw [← List.take_append_drop j l, List.flatMap_append, List.length_append, start]
  simp only [List.take_append_drop]
  exact Nat.le_add_right _ _

theorem start_succ (hj : j < l.length) : start f l (j + 1) = start f l j + (f l[j]).length := by
  rw [start, start, List.take_succ_eq_append_getElem hj, List.flatMap_append, List.length_append]
  simp

/-- The beginnings depend only on the contents of the blocks. -/
theorem start_congr {γ : Type} {g : γ → List β} {l' : List γ} (h : l.map f = l'.map g) :
    start f l j = start g l' j := by
  rw [start, start, List.flatMap_def, List.flatMap_def, List.map_take, List.map_take, h]

theorem start_add_lt {i : Nat} (hj : j < l.length) (hi : i < (f l[j]).length) :
    start f l j + i < (l.flatMap f).length := by
  rw [flatMap_split f hj, List.length_append, List.length_append, start]
  omega

theorem getElem_start_add {i : Nat} (hj : j < l.length) (hi : i < (f l[j]).length)
    (h : start f l j + i < (l.flatMap f).length) : (l.flatMap f)[start f l j + i] = (f l[j])[i] := by
  have hle : ((l.take j).flatMap f).length ≤ start f l j + i := Nat.le_add_right _ _
  have hsub : start f l j + i - ((l.take j).flatMap f).length = i := Nat.add_sub_cancel_left _ _
  simp only [flatMap_split f hj]
  rw [List.getElem_append_right hle]
  simp only [hsub]
  exact List.getElem_append_left hi

end Blocks

section Separated
variable {γ : Type} {cmp : κ → κ → Ordering} {index : List (κ × γ)}
  {contents : γ → List (κ × ν)}

/-- Each key of the index is not below its block and below the blocks behind it. -/
structure Separated (cmp : κ → κ → Ordering) (index : List (κ × γ))
    (contents : γ → List (κ × ν)) : Prop where
  above : ∀ b ∈ index, ∀ e ∈ contents b.2, cmp e.1 b.1 ≠ .gt
  below : index.Pairwise fun b b' => ∀ e ∈ contents b'.2, cmp b.1 e.1 = .lt

/-- Keys that separate blocks with entries increase themselves. -/
theorem Separated.sorted [Std.TransCmp cmp] (hsep : Separated cmp index contents)
    (hne : ∀ b ∈ index, contents b.2 ≠ []) : Sorted cmp index := by
  refine hsep.below.imp_of_mem fun {b b'} _ hb' hbelow => ?_
  obtain ⟨e, he⟩ := List.exists_mem_of_ne_nil _ (hne b' hb')
  have hle := hsep.above b' hb' e he
  exact Std.TransCmp.lt_of_lt_of_isLE (hbelow e he) (by rwa [Ordering.isLE_iff_ne_gt])

/-- Another name for each block. -/
theorem Separated.of_map {δ : Type} {contents' : δ → List (κ × ν)} {index' : List (κ × δ)}
    {f : κ × δ → κ × γ} (hkey : ∀ b ∈ index', (f b).1 = b.1)
    (hcontents : ∀ b ∈ index', contents (f b).2 = contents' b.2)
    (hsep : Separated cmp (index'.map f) contents) : Separated cmp index' contents' where
  above := by
    intro b hb e he
    rw [← hcontents b hb] at he
    rw [← hkey b hb]
    exact hsep.above _ (List.mem_map_of_mem hb) e he
  below := by
    refine (List.pairwise_map.mp hsep.below).imp_of_mem fun {b b'} hb hb' hbelow e he => ?_
    rw [← hcontents b' hb'] at he
    rw [← hkey b hb]
    exact hbelow e he

theorem lowerBound_append_of_forall {target : κ} {l l' : List (κ × ν)}
    (h : ∀ e ∈ l, cmp e.1 target = .lt) :
    lowerBound cmp target (l ++ l') = l.length + lowerBound cmp target l' := by
  have hall : lowerBound cmp target l = l.length :=
    List.findIdx_eq_length_of_false fun e he => by simp [h e he]
  rw [lowerBound] at hall
  rw [lowerBound, List.findIdx_append, hall, if_neg (Nat.lt_irrefl _), Nat.add_comm]
  rfl

/-- A target is found in its block by way of the index. -/
theorem lowerBound_flatMap [Std.TransCmp cmp] (hsep : Separated cmp index contents) (target : κ)
    (hj : lowerBound cmp target index < index.length) :
    lowerBound cmp target (index.flatMap fun b => contents b.2) =
      start (fun b => contents b.2) index (lowerBound cmp target index) +
        lowerBound cmp target (contents index[lowerBound cmp target index].2) := by
  have hnot := not_lt_lowerBound hj
  have hbefore {k : Nat} (hk : k < lowerBound cmp target index) :=
    lt_of_lt_lowerBound hk (hk.trans hj)
  generalize lowerBound cmp target index = j at hj hnot hbefore ⊢
  -- every block in front of the one the index names is below the target
  have hfront : ∀ e ∈ (index.take j).flatMap fun b => contents b.2, cmp e.1 target = .lt := by
    intro e he
    obtain ⟨b, hb, he⟩ := List.mem_flatMap.mp he
    obtain ⟨k, hk, rfl⟩ := List.getElem_of_mem hb
    rw [List.length_take] at hk
    rw [List.getElem_take] at he
    have hle := hsep.above _ (List.getElem_mem (by omega)) e he
    have hlt : cmp index[k].1 target = .lt := hbefore (by omega)
    exact Std.TransCmp.lt_of_isLE_of_lt (by rwa [Ordering.isLE_iff_ne_gt]) hlt
  rw [flatMap_split _ hj, lowerBound_append_of_forall hfront, ← start]
  congr 1
  rw [lowerBound, List.findIdx_append]
  split
  · rfl
  · next hfull =>
    -- the target lies between this block and the next one
    have hlen := Nat.le_antisymm lowerBound_le (Nat.le_of_not_lt hfull)
    have hrest : lowerBound cmp target ((index.drop (j + 1)).flatMap fun b => contents b.2) = 0 := by
      refine lowerBound_eq (Nat.zero_le _) (fun _ _ h => absurd h (Nat.not_lt_zero _)) fun h => ?_
      intro hlt
      obtain ⟨b, hb, he⟩ := List.mem_flatMap.mp (List.getElem_mem h)
      obtain ⟨k, hk, rfl⟩ := List.getElem_of_mem hb
      rw [List.length_drop] at hk
      rw [List.getElem_drop] at he
      have hbelow := List.pairwise_iff_getElem.mp hsep.below j (j + 1 + k) hj (by omega)
        (by omega) _ he
      exact hnot (Std.TransCmp.lt_trans hbelow hlt)
    rw [lowerBound] at hrest hlen
    rw [hrest, lowerBound, hlen, Nat.zero_add]

/-- A target behind the last key of the index is behind all entries. -/
theorem lowerBound_flatMap_of_eq [Std.TransCmp cmp] (hsep : Separated cmp index contents)
    (target : κ) (hj : lowerBound cmp target index = index.length) :
    lowerBound cmp target (index.flatMap fun b => contents b.2) =
      (index.flatMap fun b => contents b.2).length := by
  refine List.findIdx_eq_length_of_false fun e he => ?_
  obtain ⟨b, hb, he⟩ := List.mem_flatMap.mp he
  obtain ⟨k, hk, rfl⟩ := List.getElem_of_mem hb
  have hlt : cmp index[k].1 target = .lt := lt_of_lt_lowerBound (by omega) hk
  have hle := hsep.above _ (List.getElem_mem hk) e he
  have := Std.TransCmp.lt_of_isLE_of_lt (by rwa [Ordering.isLE_iff_ne_gt]) hlt
  simp [this]

end Separated

/-! ## Iterators -/

/-- The operations of an iterator with states `σ`. -/
structure Operations (σ κ ν ε : Type) where
  valid : σ → Bool
  key : σ → κ
  value : σ → ν
  status : σ → Option ε
  seekToFirst : σ → σ
  seekToLast : σ → σ
  seek : κ → σ → σ
  next : σ → σ
  prev : σ → σ

/-- The states that `stands` relates to a position behave as that position in the entries. -/
structure Simulates (ops : Operations σ κ ν ε) (entries : List (κ × ν))
    (stands : σ → Nat → Prop) : Prop where
  le : ∀ {s i}, stands s i → i ≤ entries.length
  valid : ∀ {s i}, stands s i → (ops.valid s = true ↔ i < entries.length)
  entry : ∀ {s i}, stands s i → ∀ h : i < entries.length, (ops.key s, ops.value s) = entries[i]
  status : ∀ {s i}, stands s i → ops.status s = none
  seekToFirst : ∀ {s i}, stands s i → stands (ops.seekToFirst s) 0
  seekToLast : ∀ {s i}, stands s i → stands (ops.seekToLast s) (entries.length - 1)
  next : ∀ {s i}, stands s i → i < entries.length → stands (ops.next s) (i + 1)
  prev : ∀ {s i}, stands s i → i < entries.length →
    stands (ops.prev s) (if i = 0 then entries.length else i - 1)

/-- A search ends at the position of its target. -/
def Seeks (ops : Operations σ κ ν ε) (cmp : κ → κ → Ordering) (entries : List (κ × ν))
    (stands : σ → Nat → Prop) : Prop :=
  ∀ target {s i}, stands s i → stands (ops.seek target s) (lowerBound cmp target entries)

/-- What a caller asks of an iterator. -/
inductive Move (κ : Type)
  | seekToFirst
  | seekToLast
  | seek (target : κ)
  | next
  | prev

/-- `next` and `prev` are for valid iterators only. -/
def Operations.move (ops : Operations σ κ ν ε) (s : σ) : Move κ → σ
  | .seekToFirst => ops.seekToFirst s
  | .seekToLast => ops.seekToLast s
  | .seek target => ops.seek target s
  | .next => if ops.valid s then ops.next s else s
  | .prev => if ops.valid s then ops.prev s else s

/-- What a caller sees of an iterator. -/
def Operations.current? (ops : Operations σ κ ν ε) (s : σ) : Option (κ × ν) :=
  if ops.valid s then some (ops.key s, ops.value s) else none

/-- The move on positions. -/
def moveTo (cmp : κ → κ → Ordering) (entries : List (κ × ν)) (i : Nat) : Move κ → Nat
  | .seekToFirst => 0
  | .seekToLast => entries.length - 1
  | .seek target => lowerBound cmp target entries
  | .next => if i < entries.length then i + 1 else i
  | .prev => if i < entries.length then (if i = 0 then entries.length else i - 1) else i

/-- The entries that `next` visits, at most `fuel` of them, and the state behind them. -/
def scan (ops : Operations σ κ ν ε) : Nat → σ → List (κ × ν) × σ
  | 0, s => ([], s)
  | fuel + 1, s =>
    if ops.valid s then
      let rest := scan ops fuel (ops.next s)
      ((ops.key s, ops.value s) :: rest.1, rest.2)
    else ([], s)

namespace Simulates

variable {ops : Operations σ κ ν ε} {cmp : κ → κ → Ordering} {entries : List (κ × ν)}
  {stands : σ → Nat → Prop}

theorem current?_eq (h : Simulates ops entries stands) {s : σ} {i : Nat} (hs : stands s i) :
    ops.current? s = entries[i]? := by
  rw [Operations.current?]
  split
  next hvalid =>
    have hi := (h.valid hs).mp hvalid
    rw [h.entry hs hi, List.getElem?_eq_getElem hi]
  next hinvalid =>
    rw [(h.valid hs), Nat.not_lt] at hinvalid
    rw [List.getElem?_eq_none hinvalid]

theorem move (h : Simulates ops entries stands) (hseeks : Seeks ops cmp entries stands) {s : σ}
    {i : Nat} (hs : stands s i) (m : Move κ) :
    stands (ops.move s m) (moveTo cmp entries i m) := by
  cases m with
  | seekToFirst => exact h.seekToFirst hs
  | seekToLast => exact h.seekToLast hs
  | seek target => exact hseeks target hs
  | next =>
    simp only [Operations.move, moveTo, h.valid hs]
    split
    next hi => exact h.next hs hi
    next => exact hs
  | prev =>
    simp only [Operations.move, moveTo, h.valid hs]
    split
    next hi => exact h.prev hs hi
    next => exact hs

theorem moves (h : Simulates ops entries stands) (hseeks : Seeks ops cmp entries stands) {s : σ}
    {i : Nat} (hs : stands s i) (ms : List (Move κ)) :
    stands (ms.foldl ops.move s) (ms.foldl (moveTo cmp entries) i) := by
  induction ms generalizing s i with
  | nil => exact hs
  | cons m ms ih => exact ih (h.move hseeks hs m)

theorem scan_eq (h : Simulates ops entries stands) {fuel : Nat} {s : σ} {i : Nat}
    (hs : stands s i) (hfuel : entries.length - i ≤ fuel) :
    (scan ops fuel s).1 = entries.drop i ∧ stands (scan ops fuel s).2 entries.length := by
  induction fuel generalizing s i with
  | zero =>
    have hi : i = entries.length := by
      have := h.le hs
      omega
    subst hi
    exact ⟨by simp [scan], hs⟩
  | succ fuel ih =>
    unfold scan
    by_cases hi : i < entries.length
    · obtain ⟨hrest, hend⟩ := ih (h.next hs hi) (by omega)
      rw [if_pos ((h.valid hs).mpr hi)]
      refine ⟨?_, hend⟩
      show (ops.key s, ops.value s) :: (scan ops fuel (ops.next s)).1 = _
      rw [hrest, h.entry hs hi, List.drop_eq_getElem_cons hi]
    · have hlast : i = entries.length := by
        have := h.le hs
        omega
      rw [if_neg (fun hv => hi ((h.valid hs).mp hv))]
      subst hlast
      exact ⟨by simp, hs⟩

end Simulates

end Cursor
