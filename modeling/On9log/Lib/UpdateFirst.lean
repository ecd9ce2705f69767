import Mathlib.Data.List.Basic

/-!
# Changing the first element that satisfies a predicate

A scan that stops at the first match and changes it. `find?_split` cuts a list
at the match, and on a list so cut `updateFirst` changes just that element.
-/

namespace On9log.Lib

variable {α : Type} {p : α → Bool} {f : α → α} {l l₁ l₂ : List α} {a : α}

def updateFirst (p : α → Bool) (f : α → α) : List α → List α
  | [] => []
  | a :: l => if p a then f a :: l else a :: updateFirst p f l

theorem updateFirst_append (h : ∀ b ∈ l₁, p b = false) (ha : p a = true) :
    updateFirst p f (l₁ ++ a :: l₂) = l₁ ++ f a :: l₂ := by
  induction l₁ with
  | nil => simp [updateFirst, ha]
  | cons b l₁ ih =>
    have hb := h b (List.mem_cons_self ..)
    have ht := ih fun c hc => h c (List.mem_cons_of_mem _ hc)
    simp [updateFirst, hb, ht]

theorem find?_split (h : l.find? p = some a) : ∃ l₁ l₂, l = l₁ ++ a :: l₂ ∧ p a = true ∧
    ∀ f, updateFirst p f l = l₁ ++ f a :: l₂ := by
  obtain ⟨ha, l₁, l₂, rfl, hl⟩ := List.find?_eq_some_iff_append.mp h
  refine ⟨l₁, l₂, rfl, ha, fun f => updateFirst_append (fun b hb => ?_) ha⟩
  simpa using hl b hb

theorem find?_none (h : l.find? p = none) (ha : a ∈ l) : p a = false := by
  simpa using List.find?_eq_none.mp h a ha

end On9log.Lib
