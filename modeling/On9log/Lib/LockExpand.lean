import On9log.Lib.Lock
import On9log.Lib.Only

/-!
# A lock whose operations are programs

Where every operation of a lower system is performed by a program of an upper
one, the lock of the lower system is a lock of the upper one: taking and
releasing it are single operations there, and what needs no lock below is done
with operations that need none above. Then a call that keeps to the lock below
keeps to it above, and its sections are what the sections below are performed by.
-/

namespace On9log.Lib

variable {Tid Op Op' σ σ' : Type} {Ret : Op → Type} {Ret' : Op' → Type}
  {f : (o : Op) → Prog Op' Ret' (Ret o)} {es b : List (Event Op Ret)}
  {es' b' : List (Event Op' Ret')}

theorem Expands.append (h₁ : Expands f es es') (h₂ : Expands f b b') :
    Expands f (es ++ b) (es' ++ b') := by
  induction h₁ with
  | nil => exact h₂
  | cons e hb _ ih =>
    rw [List.append_assoc]
    exact .cons e hb ih

theorem Expands.one (e : Event Op Ret) (h : (f e.op).Path b' e.ret) : Expands f [e] b' := by
  have := Expands.cons e h .nil
  rwa [List.append_nil] at this

namespace LockSpec

/-- What the programs of `f` do to the two locks. -/
structure Through (L : LockSpec Tid Op σ) (L' : LockSpec Tid Op' σ')
    (f : (o : Op) → Prog Op' Ret' (Ret o)) : Prop where
  lock : ∀ o es r, L.isLock o = true → (f o).Path es r → ∃ e, es = [e] ∧ L'.isLock e.op = true
  unlock : ∀ o es r, L.isUnlock o = true → (f o).Path es r →
    ∃ e, es = [e] ∧ L'.isUnlock e.op = true
  inside : ∀ o, L.isLock o = false → L.isUnlock o = false →
    (f o).Only fun o' => L'.isLock o' = false ∧ L'.isUnlock o' = false
  free : ∀ o, L.isLock o = false → L.isUnlock o = false → L.guarded o = false →
    (f o).Only fun o' => L'.guarded o' = false

variable {L : LockSpec Tid Op σ} {L' : LockSpec Tid Op' σ'} {Sec : List (Event Op Ret) → Prop}

/-- A section above: what performs a section below. -/
def SecOf (f : (o : Op) → Prog Op' Ret' (Ret o)) (Sec : List (Event Op Ret) → Prop)
    (b' : List (Event Op' Ret')) : Prop := ∃ b, Sec b ∧ Expands f b b'

theorem steps_free (h : ∀ e ∈ es', L'.isLock e.op = false ∧ L'.isUnlock e.op = false ∧
    L'.guarded e.op = false) {Sec' : List (Event Op' Ret') → Prop} :
    Steps (L'.Discipline Sec') none es' none := by
  induction es' with
  | nil => rfl
  | cons e es' ih =>
    obtain ⟨hl, hu, hg⟩ := h e (List.mem_cons_self ..)
    exact ⟨none, Or.inr ⟨hl, hu, hg, rfl⟩, ih fun e he => h e (List.mem_cons_of_mem _ he)⟩

theorem steps_through (hf : L.Through L' f) (hex : Expands f es es') :
    (Steps (L.Discipline Sec) none es none →
      Steps (L'.Discipline (SecOf f Sec)) none es' none) ∧
    ∀ b b', Expands f b b' → Steps (L.Discipline Sec) (some b) es none →
      Steps (L'.Discipline (SecOf f Sec)) (some b') es' none := by
  induction hex with
  | nil =>
    refine ⟨fun _ => rfl, fun b b' _ hs => ?_⟩
    cases hs
  | @cons es pre es' e hpre _ ih =>
    constructor
    · rintro ⟨g, hg, hs⟩
      rcases hg with ⟨hl, rfl⟩ | ⟨hl, hu, hg, rfl⟩
      · obtain ⟨e', rfl, hl'⟩ := hf.lock _ _ _ hl hpre
        exact ⟨some [], Or.inl ⟨hl', rfl⟩, ih.2 [] [] .nil hs⟩
      · refine steps_append.mpr ⟨none, steps_free fun e' he' => ?_, ih.1 hs⟩
        obtain ⟨hl', hu'⟩ := hf.inside _ hl hu _ _ hpre e' he'
        exact ⟨hl', hu', hf.free _ hl hu hg _ _ hpre e' he'⟩
    · rintro b b' hb ⟨g, hg, hs⟩
      rcases hg with ⟨hu, hsec, rfl⟩ | ⟨hu, hl, rfl⟩
      · obtain ⟨e', rfl, hu'⟩ := hf.unlock _ _ _ hu hpre
        exact ⟨none, Or.inl ⟨hu', ⟨b, hsec, hb⟩, rfl⟩, ih.1 hs⟩
      · refine steps_append.mpr ⟨some (b' ++ pre), ?_, ih.2 _ _ (hb.append (.one e hpre)) hs⟩
        exact L'.steps_inside fun e' he' => hf.inside _ hl hu _ _ hpre e' he'

end LockSpec

end On9log.Lib
