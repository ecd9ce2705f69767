import On9log.Lib.Threads

/-!
# Operations that are programs themselves

`p.expand f` runs `p` with every operation `o` performed by the program `f o`.
What it performs is what `p` performs, event by event replaced by what one run
of the event's program performs. A protocol that every such run keeps is kept
by the whole.
-/

namespace On9log.Lib

variable {Op Op' G G' : Type} {Ret : Op → Type} {Ret' : Op' → Type} {α : Type}

def Prog.expand (f : (o : Op) → Prog Op' Ret' (Ret o)) : Prog Op Ret α → Prog Op' Ret' α
  | .done a => .done a
  | .step o k => f o >>= fun r => (k r).expand f

/-- Each event of the first list is performed by a part of the second. -/
inductive Expands (f : (o : Op) → Prog Op' Ret' (Ret o)) :
    List (Event Op Ret) → List (Event Op' Ret') → Prop
  | nil : Expands f [] []
  | cons {es : List (Event Op Ret)} {b es' : List (Event Op' Ret')} (e : Event Op Ret) :
      (f e.op).Path b e.ret → Expands f es es' → Expands f (e :: es) (b ++ es')

variable {f : (o : Op) → Prog Op' Ret' (Ret o)}

theorem Prog.path_expand {p : Prog Op Ret α} {es' : List (Event Op' Ret')} {v : α}
    (h : (p.expand f).Path es' v) : ∃ es, p.Path es v ∧ Expands f es es' := by
  induction p generalizing es' with
  | done a =>
    obtain ⟨rfl, rfl⟩ := (Prog.path_done _ _ _).mp h
    exact ⟨[], (Prog.path_done _ _ _).mpr ⟨rfl, rfl⟩, .nil⟩
  | step o k ih =>
    obtain ⟨r, b, rest, rfl, hb, hrest⟩ := (Prog.path_bind _ _ _ _).mp h
    obtain ⟨es, hp, hex⟩ := ih r hrest
    exact ⟨⟨o, r⟩ :: es, (Prog.path_step _ _ _ _).mpr ⟨r, es, rfl, hp⟩, .cons ⟨o, r⟩ hb hex⟩

/-- The simulation rule: `φ` is what the view of the one protocol is in the other. -/
theorem Expands.steps {m : G → Event Op Ret → G → Prop} {m' : G' → Event Op' Ret' → G' → Prop}
    (φ : G → G') (hsim : ∀ g e g' b, m g e g' → (f e.op).Path b e.ret → Steps m' (φ g) b (φ g'))
    {es : List (Event Op Ret)} {es' : List (Event Op' Ret')} (h : Expands f es es') {g g' : G}
    (hs : Steps m g es g') : Steps m' (φ g) es' (φ g') := by
  induction h generalizing g with
  | nil => exact congrArg φ hs
  | cons e hb _ ih =>
    obtain ⟨g₁, he, hrest⟩ := hs
    exact steps_append.mpr ⟨φ g₁, hsim _ e g₁ _ he hb, ih hrest⟩

end On9log.Lib
