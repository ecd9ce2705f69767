import Mathlib.Tactic

/-!
# Programs as trees of atomic operations

A program either returns or performs one operation and continues with its
answer. A finite tree covers code whose every loop is bounded by data already
in hand. `Path` lists what one complete run of a program may perform when each
operation is answered arbitrarily; `Reach` is the same for a run that has not
finished yet. What answers a machine really gives is left to the users of this
module.
-/

namespace On9log.Lib

/-- A program over operations `Op`, where `o : Op` is answered by a `Ret o`. -/
inductive Prog (Op : Type) (Ret : Op → Type) (α : Type) : Type
  | done (a : α)
  | step (o : Op) (k : Ret o → Prog Op Ret α)

structure Event (Op : Type) (Ret : Op → Type) where
  op : Op
  ret : Ret op

namespace Prog

variable {Op : Type} {Ret : Op → Type} {α β : Type}

def bind : Prog Op Ret α → (α → Prog Op Ret β) → Prog Op Ret β
  | .done a, f => f a
  | .step o k, f => .step o fun r => (k r).bind f

instance : Monad (Prog Op Ret) where
  pure := .done
  bind := bind

def op (o : Op) : Prog Op Ret (Ret o) := .step o .done

theorem bind_done (p : Prog Op Ret α) : p.bind .done = p := by
  induction p with
  | done a => rfl
  | step o k ih =>
    simp only [bind, ih]

theorem bind_assoc {γ : Type} (p : Prog Op Ret α) (f : α → Prog Op Ret β)
    (g : β → Prog Op Ret γ) : (p.bind f).bind g = p.bind fun a => (f a).bind g := by
  induction p with
  | done a => rfl
  | step o k ih =>
    simp only [bind, ih]

instance : LawfulMonad (Prog Op Ret) :=
  LawfulMonad.mk' _ bind_done (fun _ _ => rfl) bind_assoc

/-! ### Complete runs -/

/-- `p.Path es v`: some answers make `p` perform exactly `es` and return `v`. -/
def Path : Prog Op Ret α → List (Event Op Ret) → α → Prop
  | .done a, es, v => es = [] ∧ v = a
  | .step o k, es, v => ∃ r es', es = ⟨o, r⟩ :: es' ∧ (k r).Path es' v

theorem path_done (a : α) (es : List (Event Op Ret)) (v : α) :
    (Prog.done a : Prog Op Ret α).Path es v ↔ es = [] ∧ v = a := Iff.rfl

theorem path_step (o : Op) (k : Ret o → Prog Op Ret α) (es : List (Event Op Ret)) (v : α) :
    (Prog.step o k).Path es v ↔ ∃ r es', es = ⟨o, r⟩ :: es' ∧ (k r).Path es' v := Iff.rfl

@[simp] theorem path_pure (a : α) (es : List (Event Op Ret)) (v : α) :
    (pure a : Prog Op Ret α).Path es v ↔ es = [] ∧ v = a := Iff.rfl

@[simp] theorem path_op (o : Op) (es : List (Event Op Ret)) (r : Ret o) :
    (op o).Path es r ↔ es = [⟨o, r⟩] := by
  constructor
  · rintro ⟨r', es', rfl, rfl, rfl⟩
    rfl
  · rintro rfl
    exact ⟨r, [], rfl, rfl, rfl⟩

@[simp] theorem path_bind (p : Prog Op Ret α) (f : α → Prog Op Ret β)
    (es : List (Event Op Ret)) (v : β) :
    (p >>= f).Path es v ↔
      ∃ a es₁ es₂, es = es₁ ++ es₂ ∧ p.Path es₁ a ∧ (f a).Path es₂ v := by
  induction p generalizing es with
  | done a =>
    constructor
    · intro h
      exact ⟨a, [], es, rfl, ⟨rfl, rfl⟩, h⟩
    · rintro ⟨a', es₁, es₂, rfl, ⟨rfl, rfl⟩, h⟩
      exact h
  | step o k ih =>
    constructor
    · rintro ⟨r, es', rfl, h⟩
      obtain ⟨a, es₁, es₂, rfl, h₁, h₂⟩ := (ih r es').mp h
      exact ⟨a, ⟨o, r⟩ :: es₁, es₂, rfl, ⟨r, es₁, rfl, h₁⟩, h₂⟩
    · rintro ⟨a, es₁, es₂, rfl, ⟨r, es', rfl, h₁⟩, h₂⟩
      exact ⟨r, es' ++ es₂, rfl, (ih r (es' ++ es₂)).mpr ⟨a, es', es₂, rfl, h₁, h₂⟩⟩

theorem path_then_pure {p : Prog Op Ret PUnit} {a : β} {es : List (Event Op Ret)} {v : β}
    (h : (p >>= fun _ => pure a).Path es v) : p.Path es ⟨⟩ ∧ v = a := by
  obtain ⟨_, es₁, es₂, rfl, h₁, rfl, rfl⟩ := (path_bind _ _ _ _).mp h
  rw [List.append_nil]
  exact ⟨h₁, rfl⟩

theorem path_ite (c : Prop) [Decidable c] (p q : Prog Op Ret α) (es : List (Event Op Ret))
    (v : α) : (if c then p else q).Path es v ↔ (c ∧ p.Path es v) ∨ (¬ c ∧ q.Path es v) := by
  by_cases h : c <;> simp [h]

theorem path_forM_unit {l : List α} {f : α → Prog Op Ret PUnit}
    {g : α → List (Event Op Ret)} (hf : ∀ a es v, (f a).Path es v ↔ es = g a)
    (es : List (Event Op Ret)) (v : PUnit) :
    (forM l f).Path es v ↔ es = l.flatMap g := by
  induction l generalizing es with
  | nil => simp
  | cons a l ih =>
    simp only [List.forM_cons, path_bind, List.flatMap_cons]
    constructor
    · rintro ⟨_, es₁, es₂, rfl, h₁, h₂⟩
      rw [(hf a es₁ _).mp h₁, (ih es₂).mp h₂]
    · rintro rfl
      exact ⟨⟨⟩, g a, l.flatMap g, rfl, (hf a _ _).mpr rfl, (ih _).mpr rfl⟩

/-- The invariant rule for a counting loop: `P k es b` after `k` rounds. -/
theorem path_foldlM_range {f : β → ℕ → Prog Op Ret β} {b : β} {n : ℕ}
    {P : ℕ → List (Event Op Ret) → β → Prop} (h0 : P 0 [] b)
    (hs : ∀ k es b es' b', k < n → P k es b → (f b k).Path es' b' → P (k + 1) (es ++ es') b')
    {es : List (Event Op Ret)} {v : β} (h : ((List.range n).foldlM f b).Path es v) : P n es v := by
  suffices ∀ m ≤ n, ∀ es v, ((List.range m).foldlM f b).Path es v → P m es v from
    this n (Nat.le_refl n) es v h
  intro m
  induction m with
  | zero =>
    intro _ es v h
    obtain ⟨rfl, rfl⟩ := (path_pure _ _ _).mp h
    exact h0
  | succ m ih =>
    intro hm es v h
    rw [List.range_succ, List.foldlM_append] at h
    simp only [List.foldlM_cons, List.foldlM_nil, bind_pure] at h
    obtain ⟨b', es₁, es₂, rfl, h₁, h₂⟩ := (path_bind _ _ _ _).mp h
    exact hs m es₁ b' es₂ v (by omega) (ih (by omega) es₁ b' h₁) h₂

/-! ### Runs in progress -/

/-- `p.Reach es q`: some answers make `p` perform `es` and leave `q` to run. -/
def Reach : Prog Op Ret α → List (Event Op Ret) → Prog Op Ret α → Prop
  | p, [], q => q = p
  | .done _, _ :: _, _ => False
  | .step o k, e :: es, q => ∃ r, e = ⟨o, r⟩ ∧ (k r).Reach es q

theorem reach_nil (p : Prog Op Ret α) : p.Reach [] p := by
  cases p <;> rfl

theorem reach_snoc {p q : Prog Op Ret α} {es : List (Event Op Ret)} {o : Op}
    {k : Ret o → Prog Op Ret α} (hq : q = .step o k) (h : p.Reach es q) (r : Ret o) :
    p.Reach (es ++ [⟨o, r⟩]) (k r) := by
  induction es generalizing p with
  | nil =>
    have hp : q = p := by cases p <;> exact h
    subst hp hq
    exact ⟨r, rfl, reach_nil _⟩
  | cons e es ih =>
    cases p with
    | done a => exact h.elim
    | step o' k' =>
      obtain ⟨r', rfl, h'⟩ := h
      exact ⟨r', rfl, ih h'⟩

theorem reach_path {p q : Prog Op Ret α} {es es' : List (Event Op Ret)} {v : α}
    (h : p.Reach es q) (hq : q.Path es' v) : p.Path (es ++ es') v := by
  induction es generalizing p with
  | nil =>
    have hp : q = p := by cases p <;> exact h
    subst hp
    exact hq
  | cons e es ih =>
    cases p with
    | done a => exact h.elim
    | step o k =>
      obtain ⟨r, rfl, h'⟩ := h
      exact ⟨r, es ++ es', rfl, ih h'⟩

theorem path_of_reach_done {p : Prog Op Ret α} {es : List (Event Op Ret)} {v : α}
    (h : p.Reach es (.done v)) : p.Path es v := by
  have h' : p.Path (es ++ []) v := reach_path h ⟨rfl, rfl⟩
  rwa [List.append_nil] at h'

theorem exists_path [∀ o, Inhabited (Ret o)] (p : Prog Op Ret α) : ∃ es v, p.Path es v := by
  induction p with
  | done a => exact ⟨[], a, rfl, rfl⟩
  | step o k ih =>
    obtain ⟨es, v, h⟩ := ih default
    exact ⟨⟨o, default⟩ :: es, v, default, es, rfl, h⟩

/-- The run in which the operation at `k` is answered by `answer k`. -/
def play (answer : ℕ → (o : Op) → Ret o) : ℕ → Prog Op Ret α → List (Event Op Ret) × α
  | _, .done a => ([], a)
  | k, .step o f =>
    (⟨o, answer k o⟩ :: (play answer (k + 1) (f (answer k o))).1,
      (play answer (k + 1) (f (answer k o))).2)

theorem path_play (answer : ℕ → (o : Op) → Ret o) (k : ℕ) (p : Prog Op Ret α) :
    p.Path (p.play answer k).1 (p.play answer k).2 := by
  induction p generalizing k with
  | done a => exact ⟨rfl, rfl⟩
  | step o f ih => exact ⟨answer k o, _, rfl, ih (answer k o) (k + 1)⟩

theorem mem_play {answer : ℕ → (o : Op) → Ret o} {k : ℕ} {p : Prog Op Ret α} {o : Op} {r : Ret o}
    (h : (⟨o, r⟩ : Event Op Ret) ∈ (p.play answer k).1) : ∃ i, r = answer i o := by
  induction p generalizing k with
  | done a => cases h
  | step o' f ih =>
    rcases List.mem_cons.mp h with heq | hmem
    · cases heq
      exact ⟨k, rfl⟩
    · exact ih (answer k o') hmem

theorem reach_extends [∀ o, Inhabited (Ret o)] {p q : Prog Op Ret α}
    {es : List (Event Op Ret)} (h : p.Reach es q) : ∃ es' v, p.Path (es ++ es') v := by
  obtain ⟨es', v, hq⟩ := exists_path q
  exact ⟨es', v, reach_path h hq⟩

-- programs are opened by the lemmas above, never by computing them
attribute [irreducible] Path

end Prog

end On9log.Lib
