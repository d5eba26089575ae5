import BloomHierarchy.Basic
import BloomHierarchy.Lib.Comparison
import BloomHierarchy.Lib.StdString

/-!
# Comparing records

`DBRecord` overloads five operators, each with a body of its own that compares the
keys as strings. The bodies of `>=` and `==` are the one of `<`.

Results:
1. `DBRecord.operatorLt_iff`: `<` is the lexicographic order of the keys.
2. `DBRecord.laws_replaced_iff`: `<`, `<=` and `>` are right; together with the right
   `>=` and `==`, and with no others, they satisfy the laws of an order by key.
3. `DBRecord.operators_inconsistent`: as they are, the operators satisfy the laws
   nowhere, and where each of them is right.
-/

namespace BloomHierarchy

open Comparison StdString

namespace DBRecord

/-- The `Slice` member `key` is a view of `keyData`. -/
def getKey (r : DBRecord) : Bytes :=
  r.keyData

/-- An operator of `std::string` applied to the keys. -/
def compareKeys (test : Ordering → Bool) (self r : DBRecord) : Bool :=
  test (stringCompare self.keyData r.getKey)

def operatorLt : DBRecord → DBRecord → Bool :=
  compareKeys Ordering.isLT

def operatorLe : DBRecord → DBRecord → Bool :=
  compareKeys Ordering.isLE

def operatorGt : DBRecord → DBRecord → Bool :=
  compareKeys Ordering.isGT

/-- The source tests `keyData < r.getKey().ToString()` here. -/
def operatorGe : DBRecord → DBRecord → Bool :=
  compareKeys Ordering.isLT

/-- And here. -/
def operatorEq : DBRecord → DBRecord → Bool :=
  compareKeys Ordering.isLT

def operators : Operators DBRecord where
  lt := operatorLt
  le := operatorLe
  gt := operatorGt
  ge := operatorGe
  eq := operatorEq

/-! ## The operators and the order of the keys -/

theorem compareKeys_eq (test : Ordering → Bool) (a b : DBRecord) :
    compareKeys test a b = test (compare a.keyData b.keyData) := by
  rw [compareKeys, stringCompare_eq]
  rfl

theorem compare_keyData_eq_lt (a b : DBRecord) :
    compare a.keyData b.keyData = .lt ↔ a.keyData < b.keyData := by
  rw [← stringCompare_eq, stringCompare_eq_lt]

/-- `<` is the lexicographic order of the keys. -/
theorem operatorLt_iff (a b : DBRecord) : operatorLt a b = true ↔ a.keyData < b.keyData := by
  rw [operatorLt, compareKeys_eq, Ordering.isLT_iff_eq_lt, compare_keyData_eq_lt]

theorem operatorLt_eq_byKey : operatorLt = (byKey keyData).lt :=
  funext₂ (compareKeys_eq Ordering.isLT)

theorem operatorLe_eq_byKey : operatorLe = (byKey keyData).le :=
  funext₂ (compareKeys_eq Ordering.isLE)

theorem operatorGt_eq_byKey : operatorGt = (byKey keyData).gt :=
  funext₂ (compareKeys_eq Ordering.isGT)

/-- `>=` gives the wrong answer for every two records. -/
theorem operatorGe_ne_byKey (a b : DBRecord) : operatorGe a b ≠ (byKey keyData).ge a b := by
  rw [operatorGe, compareKeys_eq]
  show (compare a.keyData b.keyData).isLT ≠ (compare a.keyData b.keyData).isGE
  cases compare a.keyData b.keyData with
  | lt => decide
  | eq => decide
  | gt => decide

/-- `==` gives the right answer only where the second key is the smaller one. -/
theorem operatorEq_eq_byKey_iff (a b : DBRecord) :
    operatorEq a b = (byKey keyData).eq a b ↔ b.keyData < a.keyData := by
  have hgt : compare a.keyData b.keyData = .gt ↔ b.keyData < a.keyData := by
    rw [Std.OrientedCmp.gt_iff_lt, compare_keyData_eq_lt]
  rw [operatorEq, compareKeys_eq, ← hgt]
  show (compare a.keyData b.keyData).isLT = (compare a.keyData b.keyData).isEq ↔ _
  cases compare a.keyData b.keyData with
  | lt => decide
  | eq => decide
  | gt => decide

/-! ## The laws -/

/-- With other bodies for `>=` and `==` the laws hold exactly if these are the
operators by key: nothing else is wrong. -/
theorem laws_replaced_iff (ge eq : DBRecord → DBRecord → Bool) :
    (∀ a b c, Laws keyData { operators with ge := ge, eq := eq } a b c) ↔
      ge = (byKey keyData).ge ∧ eq = (byKey keyData).eq := by
  rw [laws_iff, Operators.ext_iff]
  show operatorLt = _ ∧ operatorLe = _ ∧ operatorGt = _ ∧ ge = _ ∧ eq = _ ↔ _
  rw [operatorLt_eq_byKey, operatorLe_eq_byKey, operatorGt_eq_byKey]
  constructor
  · rintro ⟨_, _, _, hge, heq⟩
    exact ⟨hge, heq⟩
  · rintro ⟨hge, heq⟩
    exact ⟨rfl, rfl, rfl, hge, heq⟩

/-- The five operators do not satisfy the laws of an order by key, at any records.
`<`, `<=` and `>` are those of the lexicographic order of the keys; `>=` is wrong for
every two records, and `==` for all but those in which the second key is the smaller
one. -/
theorem operators_inconsistent (a b c : DBRecord) :
    ¬ Laws keyData operators a b c ∧
    (operators.lt a b = true ↔ a.keyData < b.keyData) ∧
    operators.lt a b = (byKey keyData).lt a b ∧ operators.le a b = (byKey keyData).le a b ∧
    operators.gt a b = (byKey keyData).gt a b ∧ operators.ge a b ≠ (byKey keyData).ge a b ∧
    (operators.eq a b = (byKey keyData).eq a b ↔ b.keyData < a.keyData) := by
  refine ⟨fun h => ?_, operatorLt_iff a b, congrFun₂ operatorLt_eq_byKey a b,
    congrFun₂ operatorLe_eq_byKey a b, congrFun₂ operatorGt_eq_byKey a b,
    operatorGe_ne_byKey a b, operatorEq_eq_byKey_iff a b⟩
  -- the body of `>=` is the one of `<`, so the law for `>=` contradicts itself
  have hge : operators.lt a b = true ↔ ¬ operators.lt a b = true := h.ge
  exact not_iff_self hge.symm

/-- A record is not equal to itself, and a smaller one is both smaller and equal. -/
theorem operators_inconsistent_ab :
    operators.eq ⟨ascii ['a'], []⟩ ⟨ascii ['a'], []⟩ = false ∧
    operators.ge ⟨ascii ['a'], []⟩ ⟨ascii ['a'], []⟩ = false ∧
    operators.lt ⟨ascii ['a'], []⟩ ⟨ascii ['b'], []⟩ = true ∧
    operators.eq ⟨ascii ['a'], []⟩ ⟨ascii ['b'], []⟩ = true ∧
    ¬ Laws keyData operators ⟨ascii ['a'], []⟩ ⟨ascii ['b'], []⟩ ⟨ascii ['a'], []⟩ := by
  refine ⟨by decide, by decide, by decide, by decide, fun h => ?_⟩
  exact absurd h.exactlyOne (by decide)

end DBRecord

end BloomHierarchy
