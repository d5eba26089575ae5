import Mathlib

/-!
# Comparison operators written one by one

A class that overloads `<`, `<=`, `>`, `>=` and `==` says five times how its values
compare. `Laws` is what the five have to satisfy together if they are to compare by
a key.

Results:
1. `laws_byKey`: five operators that look at one comparison of the keys satisfy the
   laws.
2. `laws_iff`: no others do.
-/

namespace Comparison

variable {ρ κ : Type*} [Ord κ]

@[ext]
structure Operators (ρ : Type*) where
  lt : ρ → ρ → Bool
  le : ρ → ρ → Bool
  gt : ρ → ρ → Bool
  ge : ρ → ρ → Bool
  eq : ρ → ρ → Bool

/-- The five operators by one comparison of the keys. -/
def byKey (key : ρ → κ) : Operators ρ where
  lt a b := (compare (key a) (key b)).isLT
  le a b := (compare (key a) (key b)).isLE
  gt a b := (compare (key a) (key b)).isGT
  ge a b := (compare (key a) (key b)).isGE
  eq a b := (compare (key a) (key b)).isEq

/-- The laws of a total preorder by a key, at three values. -/
structure Laws (key : ρ → κ) (ops : Operators ρ) (a b c : ρ) : Prop where
  /-- Exactly one of `a < b`, `a == b` and `b < a`. -/
  exactlyOne : [ops.lt a b, ops.eq a b, ops.lt b a].count true = 1
  gt : ops.gt a b = true ↔ ops.lt b a = true
  le : ops.le a b = true ↔ ops.lt a b = true ∨ ops.eq a b = true
  ge : ops.ge a b = true ↔ ¬ ops.lt a b = true
  eq : ops.eq a b = true ↔ key a = key b
  eqRefl : ops.eq a a = true
  eqSymm : ops.eq a b = true → ops.eq b a = true
  eqTrans : ops.eq a b = true → ops.eq b c = true → ops.eq a c = true
  ltTrans : ops.lt a b = true → ops.lt b c = true → ops.lt a c = true
  lt : ops.lt a b = true ↔ compare (key a) (key b) = .lt

theorem byKey_lt (key : ρ → κ) (a b : ρ) :
    (byKey key).lt a b = true ↔ compare (key a) (key b) = .lt :=
  Ordering.isLT_iff_eq_lt

theorem byKey_lt_swap [Std.OrientedOrd κ] (key : ρ → κ) (a b : ρ) :
    (byKey key).lt b a = (byKey key).gt a b := by
  show (compare (key b) (key a)).isLT = (compare (key a) (key b)).isGT
  rw [Std.OrientedOrd.eq_swap, Ordering.isLT_swap]

theorem byKey_eq [Std.LawfulEqOrd κ] (key : ρ → κ) (a b : ρ) :
    (byKey key).eq a b = true ↔ key a = key b := by
  show (compare (key a) (key b)).isEq = true ↔ _
  rw [Ordering.isEq_iff_eq_eq, Std.compare_eq_iff_eq]

section Lawful
variable [Std.TransOrd κ] [Std.LawfulEqOrd κ] (key : ρ → κ)

theorem laws_byKey (a b c : ρ) : Laws key (byKey key) a b c where
  exactlyOne := by
    rw [byKey_lt_swap key a b]
    show [(compare (key a) (key b)).isLT, (compare (key a) (key b)).isEq,
      (compare (key a) (key b)).isGT].count true = 1
    cases compare (key a) (key b) with
    | lt => rfl
    | eq => rfl
    | gt => rfl
  gt := by rw [byKey_lt_swap key a b]
  le := by
    show (compare (key a) (key b)).isLE = true ↔ _ ∨ _
    rw [Ordering.isLE_eq_isLT_or_isEq, Bool.or_eq_true]
    rfl
  ge := by
    show (compare (key a) (key b)).isGE = true ↔ _
    rw [Ordering.isGE_iff_ne_lt, byKey_lt]
  eq := byKey_eq key a b
  eqRefl := (byKey_eq key a a).mpr rfl
  eqSymm h := (byKey_eq key b a).mpr ((byKey_eq key a b).mp h).symm
  eqTrans hab hbc := (byKey_eq key a c).mpr
    (((byKey_eq key a b).mp hab).trans ((byKey_eq key b c).mp hbc))
  ltTrans hab hbc := (byKey_lt key a c).mpr
    (Std.TransCmp.lt_trans ((byKey_lt key a b).mp hab) ((byKey_lt key b c).mp hbc))
  lt := byKey_lt key a b

/-- The laws determine the operators. -/
theorem laws_iff (ops : Operators ρ) : (∀ a b c, Laws key ops a b c) ↔ ops = byKey key := by
  constructor
  · intro h
    have hlt : ∀ a b, ops.lt a b = (byKey key).lt a b := fun a b =>
      Bool.eq_iff_iff.mpr ((h a b b).lt.trans (byKey_lt key a b).symm)
    have heq : ∀ a b, ops.eq a b = (byKey key).eq a b := fun a b =>
      Bool.eq_iff_iff.mpr ((h a b b).eq.trans (byKey_eq key a b).symm)
    ext a b
    · rw [hlt]
    · rw [Bool.eq_iff_iff, (h a b b).le, hlt, heq, (laws_byKey key a b b).le]
    · rw [Bool.eq_iff_iff, (h a b b).gt, hlt, (laws_byKey key a b b).gt]
    · rw [Bool.eq_iff_iff, (h a b b).ge, hlt, (laws_byKey key a b b).ge]
    · rw [heq]
  · rintro rfl
    exact laws_byKey key

end Lawful

end Comparison
