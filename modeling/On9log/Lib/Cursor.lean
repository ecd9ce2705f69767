import Mathlib.Data.List.Basic

/-!
# Reading a terminated string through a pointer

A string of `s.length` bytes ends with the terminator `z`, and a pointer into it is a
number. `readAt` fails behind the terminator; `At s p rest` says that `rest` is left at
`p`, so what is read there is the head of `rest`, or the terminator.
-/

namespace On9log.Lib.Cursor

variable {α β : Type} {z c : α} {s rest : List α} {p : ℕ}

def readAt (z : α) (s : List α) (p : ℕ) : Option α := (s ++ [z])[p]?

/-- `rest` is what stands from `p` to the terminator. -/
def At (s : List α) (p : ℕ) (rest : List α) : Prop := ∃ pre, s = pre ++ rest ∧ pre.length = p

theorem at_start (s : List α) : At s 0 s := ⟨[], rfl, rfl⟩

theorem At.next (h : At s p (c :: rest)) : At s (p + 1) rest := by
  obtain ⟨pre, rfl, rfl⟩ := h
  exact ⟨pre ++ [c], by rw [List.append_assoc, List.singleton_append], by simp⟩

theorem At.read (h : At s p rest) (z : α) : readAt z s p = some (rest.headD z) := by
  obtain ⟨pre, rfl, rfl⟩ := h
  unfold readAt
  rw [List.append_assoc, List.getElem?_append_right (Nat.le_refl _), Nat.sub_self]
  cases rest <;> rfl

theorem At.mem (h : At s p (c :: rest)) : c ∈ s := by
  obtain ⟨pre, rfl, -⟩ := h
  exact List.mem_append_right _ List.mem_cons_self

/-- A computation that ends at a pointer with `rest` left. -/
def Reaches (s : List α) (m : Option ℕ) (rest : List α) : Prop := ∃ p, m = some p ∧ At s p rest

theorem At.reaches (h : At s p rest) : Reaches s (some p) rest := ⟨p, rfl, h⟩

theorem Reaches.bind {m : Option ℕ} {k : ℕ → Option ℕ} {rest' : List α} (h : Reaches s m rest)
    (hk : ∀ p, At s p rest → Reaches s (k p) rest') : Reaches s (m >>= k) rest' := by
  obtain ⟨p, rfl, hp⟩ := h
  exact hk p hp

/-- `while (f(*p)) ++p;`, with the turns left. -/
def skipWhile (z : α) (s : List α) (f : α → Bool) : ℕ → ℕ → Option ℕ
  | 0, _ => none
  | fuel + 1, p => do
    let c ← readAt z s p
    if f c then skipWhile z s f fuel (p + 1) else pure p

/-- A loop that the terminator stops ends in the string. -/
theorem At.skipWhile {f : α → Bool} (hz : f z = false) {fuel : ℕ} (h : At s p rest)
    (hfuel : rest.length < fuel) : Reaches s (skipWhile z s f fuel p) (rest.dropWhile f) := by
  induction fuel generalizing p rest with
  | zero => exact absurd hfuel (Nat.not_lt_zero _)
  | succ fuel ih =>
    unfold Cursor.skipWhile
    rw [h.read z, Option.bind_eq_bind, Option.bind_some]
    cases rest with
    | nil =>
      rw [List.headD_nil, if_neg (by rw [hz]; exact Bool.false_ne_true)]
      exact h.reaches
    | cons c rest =>
      rw [List.length_cons] at hfuel
      rw [List.headD_cons]
      by_cases hc : f c = true
      · rw [if_pos hc, List.dropWhile_cons_of_pos hc]
        exact ih h.next (by omega)
      · rw [if_neg hc, List.dropWhile_cons_of_neg hc]
        exact h.reaches

end On9log.Lib.Cursor
