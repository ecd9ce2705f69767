import On9log.Lib.Only

/-!
# Programs that end in the view they began in

`p.Keeps m g` says that every complete run of `p` keeps to the protocol `m` and
leaves the view `g` as it was. There is a rule for each way to build a program.
-/

namespace On9log.Lib

variable {Op Op' G α β : Type} {Ret : Op → Type} {Ret' : Op' → Type}
  {m : G → Event Op Ret → G → Prop} {g : G}

def Prog.Keeps (m : G → Event Op Ret → G → Prop) (g : G) (p : Prog Op Ret α) : Prop :=
  ∀ es v, p.Path es v → Steps m g es g

namespace Prog

theorem keeps_pure (a : α) : (pure a : Prog Op Ret α).Keeps m g := by
  intro es v h
  obtain ⟨rfl, -⟩ := (path_pure _ _ _).mp h
  rfl

theorem keeps_op {o : Op} (h : ∀ r, m g ⟨o, r⟩ g) :
    (Prog.op o : Prog Op Ret (Ret o)).Keeps m g := by
  intro es v hp
  rw [(path_op _ _ _).mp hp]
  exact ⟨g, h v, rfl⟩

theorem Only.keeps {q : Op → Prop} {p : Prog Op Ret α} (h : p.Only q)
    (hq : ∀ o, q o → ∀ r, m g ⟨o, r⟩ g) : p.Keeps m g := by
  intro es v hp
  have hes := h es v hp
  clear hp
  induction es with
  | nil => rfl
  | cons e es ih =>
    exact ⟨g, hq e.op (hes e (List.mem_cons_self ..)) e.ret,
      ih fun e he => hes e (List.mem_cons_of_mem _ he)⟩

theorem Keeps.bind {p : Prog Op Ret α} {k : α → Prog Op Ret β} (hp : p.Keeps m g)
    (hk : ∀ a, (k a).Keeps m g) : (p >>= k).Keeps m g := by
  intro es v h
  obtain ⟨a, e₁, e₂, rfl, h₁, h₂⟩ := (path_bind _ _ _ _).mp h
  exact steps_append.mpr ⟨g, hp _ _ h₁, hk a _ _ h₂⟩

theorem Keeps.ite {c : Prop} [Decidable c] {p q : Prog Op Ret α} (hp : p.Keeps m g)
    (hq : q.Keeps m g) : (if c then p else q).Keeps m g := by
  by_cases h : c
  · rwa [if_pos h]
  · rwa [if_neg h]

theorem keeps_forM {f : α → Prog Op Ret PUnit} (hf : ∀ a, (f a).Keeps m g) (l : List α) :
    (forM l f).Keeps m g := by
  induction l with
  | nil => exact keeps_pure _
  | cons a l ih =>
    rw [List.forM_cons]
    exact (hf a).bind fun _ => ih

theorem keeps_expand {m' : G → Event Op' Ret' → G → Prop}
    {f : (o : Op) → Prog Op' Ret' (Ret o)} (hf : ∀ o, (f o).Keeps m' g) (p : Prog Op Ret α) :
    (p.expand f).Keeps m' g := by
  intro es v h
  obtain ⟨es₀, -, hex⟩ := path_expand h
  clear h
  induction hex with
  | nil => rfl
  | cons e hb _ ih => exact steps_append.mpr ⟨g, hf _ _ _ hb, ih⟩

end Prog

end On9log.Lib
