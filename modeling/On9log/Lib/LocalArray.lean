import Mathlib.Data.List.Induction

/-!
# Local arrays with checked accesses

An array of fixed size is the list of its elements. An access outside it gives
`none`, so code that returns `some` stays inside.
-/

namespace On9log.Lib

variable {α : Type}

def storeAt (a : List α) (i : ℕ) (v : α) : Option (List α) :=
  if i < a.length then some (a.set i v) else none

theorem storeAt_eq {a : List α} {i : ℕ} (h : i < a.length) (v : α) :
    storeAt a i v = some (a.set i v) := if_pos h

theorem take_set_self {a : List α} {i : ℕ} (h : i < a.length) (v : α) :
    (a.set i v).take (i + 1) = a.take i ++ [v] := by
  have hi : i < (a.set i v).length := by
    rw [List.length_set]
    exact h
  rw [List.take_succ_eq_append_getElem hi, List.getElem_set_self, List.take_set_of_le (Nat.le_refl i)]

theorem drop_set_self {a : List α} {i : ℕ} (h : i < a.length) (v : α) :
    (a.set i v).drop i = v :: a.drop (i + 1) := by
  have hi : i < (a.set i v).length := by
    rw [List.length_set]
    exact h
  rw [List.drop_eq_getElem_cons hi, List.getElem_set_self, List.drop_set_of_lt (Nat.lt_succ_self i)]

/-! ### Turning a part of an array round -/

/-- Two indices run towards each other and exchange what they point to. -/
def swapEnds (a : List α) (left right : ℕ) : Option (List α) :=
  if left < right then do
    let x ← a[left]?
    let y ← a[right]?
    let a ← storeAt a left y
    let a ← storeAt a right x
    swapEnds a (left + 1) (right - 1)
  else some a
termination_by right - left

theorem swapEnds_done {a : List α} {left right : ℕ} (h : right ≤ left) :
    swapEnds a left right = some a := by
  unfold swapEnds
  exact if_neg (by omega)

/-- One exchange at the ends of the middle part. -/
theorem swapEnds_step (front middle back : List α) (x y : α) :
    swapEnds (front ++ (x :: (middle ++ [y])) ++ back) front.length
        (front.length + middle.length + 1) =
      swapEnds ((front ++ [y]) ++ middle ++ ([x] ++ back)) (front.length + 1)
        (front.length + middle.length) := by
  have hlt : front.length < front.length + middle.length + 1 := by omega
  have hx : (front ++ (x :: (middle ++ [y])) ++ back)[front.length]? = some x := by simp
  have hy : (front ++ (x :: (middle ++ [y])) ++ back)[front.length + middle.length + 1]? =
      some y := by
    simp [Nat.add_assoc]
  have hleft : storeAt (front ++ (x :: (middle ++ [y])) ++ back) front.length y =
      some (front ++ (y :: (middle ++ [y])) ++ back) := by
    rw [storeAt_eq (by simp)]
    simp
  have hright : storeAt (front ++ (y :: (middle ++ [y])) ++ back)
      (front.length + middle.length + 1) x = some ((front ++ [y]) ++ middle ++ ([x] ++ back)) := by
    rw [storeAt_eq (by simp; omega)]
    simp [Nat.add_assoc]
  rw [swapEnds, if_pos hlt, hx, hy]
  simp only [Option.bind_eq_bind, Option.bind_some, hleft, hright, Nat.add_sub_cancel]

theorem swapEnds_eq (front middle back : List α) :
    swapEnds (front ++ middle ++ back) front.length (front.length + middle.length - 1) =
      some (front ++ middle.reverse ++ back) := by
  induction middle using List.bidirectionalRec generalizing front back with
  | nil =>
    rw [swapEnds_done (by simp)]
    rfl
  | singleton x =>
    rw [swapEnds_done (by simp)]
    rfl
  | cons_append x middle y ih =>
    have hright : front.length + (x :: (middle ++ [y])).length - 1 =
        front.length + middle.length + 1 := by
      simp only [List.length_cons, List.length_append, List.length_nil]
      omega
    rw [hright, swapEnds_step]
    have hnext := ih (front ++ [y]) ([x] ++ back)
    rw [List.length_append, List.length_singleton] at hnext
    have hend : front.length + 1 + middle.length - 1 = front.length + middle.length := by omega
    rw [hend] at hnext
    rw [hnext]
    simp

/-- The first `n` elements turned round. -/
theorem swapEnds_prefix {a : List α} {n : ℕ} (h : n ≤ a.length) :
    swapEnds a 0 (n - 1) = some ((a.take n).reverse ++ a.drop n) := by
  have hswap := swapEnds_eq [] (a.take n) (a.drop n)
  rw [List.nil_append, List.take_append_drop, List.length_take_of_le h, List.length_nil,
    Nat.zero_add] at hswap
  exact hswap

end On9log.Lib
