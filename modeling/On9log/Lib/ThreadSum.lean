import Mathlib.Algebra.BigOperators.Group.Finset.Basic
import Mathlib.Tactic

/-!
# Sums over all threads

Of any number of threads only finitely many are ever active. `SumIs g n` says
that `g` is zero but for finitely many threads and sums to `n`; `SumIs.update`
is how the sum changes when one thread moves.
-/

namespace On9log.Lib

variable {Tid M : Type} [DecidableEq Tid] [AddCancelCommMonoid M] {g : Tid → M} {n : M}

def SumIs (g : Tid → M) (n : M) : Prop :=
  ∃ T : Finset Tid, (∀ t, t ∉ T → g t = 0) ∧ ∑ t ∈ T, g t = n

omit [DecidableEq Tid] in
theorem sumIs_zero : SumIs (fun _ : Tid => (0 : M)) 0 := ⟨∅, fun _ _ => rfl, rfl⟩

omit [DecidableEq Tid] in
theorem SumIs.map {N : Type} [AddCancelCommMonoid N] (h : SumIs g n) (f : M →+ N) :
    SumIs (fun t => f (g t)) (f n) := by
  obtain ⟨T, hz, rfl⟩ := h
  refine ⟨T, fun t ht => ?_, (map_sum f g T).symm⟩
  show f (g t) = 0
  rw [hz t ht, map_zero]

theorem SumIs.split (h : SumIs g n) (t : Tid) : ∃ T : Finset Tid, t ∈ T ∧
    (∀ u, u ∉ T → g u = 0) ∧ g t + ∑ u ∈ T.erase t, g u = n := by
  obtain ⟨T, hz, hsum⟩ := h
  refine ⟨Insert.insert t T, Finset.mem_insert_self t T, fun u hu => ?_, ?_⟩
  · exact hz u fun hT => hu (Finset.mem_insert_of_mem hT)
  · rw [Finset.add_sum_erase _ _ (Finset.mem_insert_self t T)]
    by_cases ht : t ∈ T
    · rw [Finset.insert_eq_of_mem ht]
      exact hsum
    · rw [Finset.sum_insert ht, hz t ht, hsum, zero_add]

theorem SumIs.rest (h : SumIs g n) (t : Tid) : ∃ r, n = g t + r := by
  obtain ⟨T, -, -, hsum⟩ := h.split t
  exact ⟨_, hsum.symm⟩

theorem SumIs.update (h : SumIs g n) (t : Tid) {v n' : M} (hn : n' + g t = n + v) :
    SumIs (Function.update g t v) n' := by
  obtain ⟨T, ht, hz, hsum⟩ := h.split t
  refine ⟨T, fun u hu => ?_, ?_⟩
  · have hut : u ≠ t := fun e => hu (e ▸ ht)
    rw [Function.update_of_ne hut]
    exact hz u hu
  · have hrest : ∑ u ∈ T.erase t, Function.update g t v u = ∑ u ∈ T.erase t, g u := by
      refine Finset.sum_congr rfl fun u hu => ?_
      rw [Function.update_of_ne (Finset.ne_of_mem_erase hu)]
    have hnew := Finset.add_sum_erase T (Function.update g t v) ht
    rw [Function.update_self, hrest] at hnew
    rw [← hnew]
    have hcancel : (v + ∑ u ∈ T.erase t, g u) + g t = n' + g t := by
      rw [hn, ← hsum, add_assoc, add_comm v, add_comm _ (g t)]
    exact add_right_cancel hcancel

theorem SumIs.unique {n' : M} (h : SumIs g n) (h' : SumIs g n') : n = n' := by
  obtain ⟨T, hz, rfl⟩ := h
  obtain ⟨T', hz', rfl⟩ := h'
  have hl : ∑ t ∈ T, g t = ∑ t ∈ T ∪ T', g t :=
    Finset.sum_subset Finset.subset_union_left fun t _ ht => hz t ht
  have hr : ∑ t ∈ T', g t = ∑ t ∈ T ∪ T', g t :=
    Finset.sum_subset Finset.subset_union_right fun t _ ht => hz' t ht
  rw [hl, hr]

end On9log.Lib
