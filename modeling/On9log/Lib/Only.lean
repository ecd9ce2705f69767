import On9log.Lib.Expand

/-!
# Programs of certain operations only

`p.Only q` says that `p` performs no operation outside `q`, whatever it is
answered. There is a rule for each way to build a program.
-/

namespace On9log.Lib

variable {Op Op' α β : Type} {Ret : Op → Type} {Ret' : Op' → Type} {q : Op → Prop}

def Prog.Only (q : Op → Prop) (p : Prog Op Ret α) : Prop :=
  ∀ es v, p.Path es v → ∀ e ∈ es, q e.op

namespace Prog

theorem Only.imp {q' : Op → Prop} {p : Prog Op Ret α} (h : p.Only q) (hq : ∀ o, q o → q' o) :
    p.Only q' := fun es v hp e he => hq _ (h es v hp e he)

theorem only_pure (a : α) : (pure a : Prog Op Ret α).Only q := by
  intro es v h e he
  obtain ⟨rfl, -⟩ := (path_pure _ _ _).mp h
  exact absurd he List.not_mem_nil

theorem only_op {o : Op} (ho : q o) : (Prog.op o : Prog Op Ret (Ret o)).Only q := by
  intro es v h e he
  rw [(path_op _ _ _).mp h] at he
  rw [List.mem_singleton.mp he]
  exact ho

theorem Only.bind {p : Prog Op Ret α} {k : α → Prog Op Ret β} (hp : p.Only q)
    (hk : ∀ a, (k a).Only q) : (p >>= k).Only q := by
  intro es v h e he
  obtain ⟨a, e₁, e₂, rfl, h₁, h₂⟩ := (path_bind _ _ _ _).mp h
  rcases List.mem_append.mp he with he | he
  · exact hp _ _ h₁ e he
  · exact hk a _ _ h₂ e he

theorem Only.ite {c : Prop} [Decidable c] {p p' : Prog Op Ret α} (hp : p.Only q)
    (hp' : p'.Only q) : (if c then p else p').Only q := by
  by_cases h : c
  · rwa [if_pos h]
  · rwa [if_neg h]

theorem only_foldlM {f : β → α → Prog Op Ret β} (hf : ∀ b a, (f b a).Only q) (l : List α) (b : β) :
    (l.foldlM f b).Only q := by
  induction l generalizing b with
  | nil => exact only_pure b
  | cons a l ih =>
    rw [List.foldlM_cons]
    exact (hf b a).bind ih

theorem only_expand {q' : Op' → Prop} {f : (o : Op) → Prog Op' Ret' (Ret o)}
    (hf : ∀ o, (f o).Only q') (p : Prog Op Ret α) : (p.expand f).Only q' := by
  intro es v h
  obtain ⟨es₀, -, hex⟩ := path_expand h
  clear h
  induction hex with
  | nil => exact fun e he => absurd he List.not_mem_nil
  | cons e₀ hb _ ih =>
    intro e he
    rcases List.mem_append.mp he with he | he
    · exact hf _ _ _ hb e he
    · exact ih e he

end Prog

end On9log.Lib
