import Mathlib.Data.List.TakeWhile
import Mathlib.Data.UInt

/-!
# Strings searched by `size_t` positions, and compared

`find_first_of` and `substr` of `std::string` as they compute on 64-bit
positions: a failed search returns `npos = 2^64 - 1`, sums and differences of
positions wrap around, and `substr` throws exactly when its start lies beyond
the end. `compare` looks at the characters that both strings have and then at the
lengths.

Results:
1. The part of a string up to a separator and the part after it (`upTo`,
   `after`), with the whole string in the place of either when there is none.
2. `substr_upTo`, `substr_after`: the two position computations by which code
   cuts such parts out of a longer string, with their wrap-around, never throw
   and return these parts.
3. `stringCompare_eq`: `compare` is the lexicographic comparison.
-/

namespace StdString

variable {α : Type*} [BEq α]

/-- The position that says that nothing was found. -/
def npos : UInt64 := -1

/-- The position of the first `c`. -/
def findFirstOf (s : List α) (c : α) : UInt64 :=
  if s.contains c then UInt64.ofNat (s.idxOf c) else npos

/-- At most `count` characters from `pos` on; `none` is the exception
`std::out_of_range`. -/
def substr (s : List α) (pos : UInt64) (count : UInt64 := npos) : Option (List α) :=
  if pos.toNat ≤ s.length then some ((s.drop pos.toNat).take count.toNat) else none

/-- The part before the first `c`. -/
def upTo (c : α) (s : List α) : List α :=
  s.takeWhile (· != c)

/-- The part after the first `c`. -/
def after (c : α) (s : List α) : List α :=
  if s.contains c then s.drop (s.idxOf c + 1) else s

/-! ## The two parts -/

theorem take_idxOf {c : α} (s : List α) : s.take (s.idxOf c) = upTo c s := by
  induction s with
  | nil => rfl
  | cons x s ih =>
    cases hx : x == c with
    | true =>
      rw [List.idxOf_cons, hx, upTo, List.takeWhile_cons_of_neg (by simp [bne, hx])]
      rfl
    | false =>
      rw [List.idxOf_cons, hx, upTo, List.takeWhile_cons_of_pos (by simp [bne, hx])]
      exact congrArg (x :: ·) ih

variable [LawfulBEq α]

theorem not_mem_upTo (c : α) (s : List α) : c ∉ upTo c s := by
  intro h
  have hne := List.mem_takeWhile_imp h
  simp at hne

theorem upTo_of_not_mem {c : α} {s : List α} (h : c ∉ s) : upTo c s = s := by
  refine List.takeWhile_eq_self_iff.mpr fun x hx => ?_
  have hne : x ≠ c := fun he => h (he ▸ hx)
  simpa using hne

theorem after_of_not_mem {c : α} {s : List α} (h : c ∉ s) : after c s = s := by
  rw [after, if_neg (by simpa using h)]

theorem upTo_append {c : α} {s : List α} (h : c ∉ s) (rest : List α) :
    upTo c (s ++ c :: rest) = s := by
  have hall : ∀ x ∈ s, (x != c) = true := by
    intro x hx
    have hne : x ≠ c := fun he => h (he ▸ hx)
    simpa using hne
  rw [upTo, List.takeWhile_append_of_pos hall, List.takeWhile_cons_of_neg (by simp),
    List.append_nil]

theorem after_append {c : α} {s : List α} (h : c ∉ s) (rest : List α) :
    after c (s ++ c :: rest) = rest := by
  have hidx : (s ++ c :: rest).idxOf c = s.length := by
    rw [List.idxOf_append_of_notMem h, List.idxOf_cons_self, Nat.add_zero]
  rw [after, if_pos (by simp), hidx, List.drop_append, List.drop_eq_nil_of_le (by omega)]
  simp

/-! ## Cutting a string -/

theorem toNat_npos : npos.toNat = 2 ^ 64 - 1 := rfl

theorem npos_add_one : npos + 1 = 0 := rfl

theorem toNat_findFirstOf {s : List α} {c : α} (hs : s.length < 2 ^ 63) (h : c ∈ s) :
    (findFirstOf s c).toNat = s.idxOf c := by
  have hlt := List.idxOf_lt_length_of_mem h
  rw [findFirstOf, if_pos (by simpa using h), UInt64.toNat_ofNat']
  omega

theorem findFirstOf_of_not_mem {s : List α} {c : α} (h : c ∉ s) : findFirstOf s c = npos := by
  rw [findFirstOf, if_neg (by simpa using h)]

omit [BEq α] [LawfulBEq α] in
theorem substr_npos {s : List α} (hs : s.length < 2 ^ 63) {pos : UInt64}
    (hpos : pos.toNat ≤ s.length) : substr s pos = some (s.drop pos.toNat) := by
  rw [substr, if_pos hpos, List.take_of_length_le]
  rw [List.length_drop, toNat_npos]
  omega

omit [BEq α] [LawfulBEq α] in
theorem substr_eq_some {s rest : List α} (hs : s.length < 2 ^ 63) {pos : UInt64}
    (h : substr s pos = some rest) : pos.toNat ≤ s.length ∧ rest = s.drop pos.toNat := by
  by_cases hpos : pos.toNat ≤ s.length
  · rw [substr_npos hs hpos] at h
    exact ⟨hpos, (Option.some.inj h).symm⟩
  · rw [substr, if_neg hpos] at h
    cases h

/-- From a start that is inside the string, the length up to the next
separator, or `npos` if there is none, cuts out the part before it. -/
theorem substr_upTo {s rest : List α} (hs : s.length < 2 ^ 63) {pos : UInt64}
    (h : substr s pos = some rest) (c : α) :
    substr s pos (findFirstOf rest c) = some (upTo c rest) := by
  obtain ⟨hpos, rfl⟩ := substr_eq_some hs h
  have hlen : (s.drop pos.toNat).length < 2 ^ 63 := by
    rw [List.length_drop]
    omega
  by_cases hc : c ∈ s.drop pos.toNat
  · rw [substr, if_pos hpos, toNat_findFirstOf hlen hc, take_idxOf]
  · rw [findFirstOf_of_not_mem hc, h, upTo_of_not_mem hc]

/-- One past the next separator. A failed search gives `npos + 1 = 0`, so the
start does not move. -/
theorem substr_after {s rest : List α} (hs : s.length < 2 ^ 63) {pos : UInt64}
    (h : substr s pos = some rest) (c : α) :
    substr s (findFirstOf rest c + 1 + pos) = some (after c rest) := by
  obtain ⟨hpos, rfl⟩ := substr_eq_some hs h
  by_cases hc : c ∈ s.drop pos.toNat
  · have hlen : (s.drop pos.toNat).length = s.length - pos.toNat := List.length_drop
    have hidx := List.idxOf_lt_length_of_mem hc
    have hfind := toNat_findFirstOf (by omega) hc
    have hsum : (findFirstOf (s.drop pos.toNat) c + 1 + pos).toNat =
        pos.toNat + ((s.drop pos.toNat).idxOf c + 1) := by
      rw [UInt64.toNat_add, UInt64.toNat_add, hfind, UInt64.toNat_one]
      omega
    rw [substr_npos hs (by omega), hsum, after, if_pos (by simpa using hc), List.drop_drop]
  · have hsum : findFirstOf (s.drop pos.toNat) c + 1 + pos = pos := by
      rw [findFirstOf_of_not_mem hc, npos_add_one, UInt64.zero_add]
    rw [hsum, h, after_of_not_mem hc]

/-! ## Comparison -/

section Compare
variable {α : Type*} [Ord α]

/-- `traits::compare` of the first `n` characters. -/
def traitsCompare : Nat → List α → List α → Ordering
  | n + 1, a :: s, b :: t => (compare a b).then (traitsCompare n s t)
  | _, _, _ => .eq

/-- `compare` of two strings; `<`, `<=`, `>`, `>=` and `==` test its result. -/
def stringCompare (s t : List α) : Ordering :=
  (traitsCompare (min s.length t.length) s t).then (compare s.length t.length)

/-- The lengths decide only if one string is a beginning of the other. -/
theorem stringCompare_eq (s t : List α) : stringCompare s t = compare s t := by
  induction s generalizing t with
  | nil =>
    cases t with
    | nil => rfl
    | cons b t =>
      rw [List.compare_nil_cons, stringCompare, List.length_nil, Nat.zero_min]
      exact Std.compare_eq_lt.mpr (Nat.succ_pos t.length)
  | cons a s ih =>
    cases t with
    | nil =>
      rw [List.compare_cons_nil, stringCompare, List.length_nil, Nat.min_zero]
      exact Std.compare_eq_gt.mpr (Nat.succ_pos s.length)
    | cons b t =>
      have hlength : compare (s.length + 1) (t.length + 1) = compare s.length t.length := by
        simp only [Nat.compare_eq_ite_lt, Nat.add_lt_add_iff_right]
      rw [List.compare_cons_cons, ← ih, stringCompare, List.length_cons, List.length_cons,
        Nat.succ_min_succ, traitsCompare, hlength, Ordering.then_assoc, stringCompare]

/-- A string is below another if it is so in the lexicographic order. -/
theorem stringCompare_eq_lt [LT α] [LE α] [Std.LawfulOrderOrd α] [Std.LawfulOrderLT α]
    [Std.LawfulEqOrd α] (s t : List α) : stringCompare s t = .lt ↔ s < t := by
  rw [stringCompare_eq]
  induction s generalizing t with
  | nil =>
    cases t with
    | nil => exact iff_of_false nofun (List.not_lt_nil _)
    | cons b t => exact iff_of_true List.compare_nil_cons (List.nil_lt_cons b t)
  | cons a s ih =>
    cases t with
    | nil =>
      rw [List.compare_cons_nil]
      exact iff_of_false nofun (List.not_lt_nil _)
    | cons b t =>
      rw [List.compare_cons_cons, Ordering.then_eq_lt, Std.compare_eq_lt, Std.compare_eq_iff_eq,
        ih, List.cons_lt_cons_iff]

end Compare

end StdString
