import On9log.Lib.Lock

/-!
# Folds over the events of one thread under a lock

`f` reads off a list of events what a thread is making under the lock: events
that need no lock leave it alone, and a complete critical section ends where it
began. Then each thread's own events give what the section in progress gives if
the thread holds the lock, and nothing otherwise (`thread_fold`).
-/

namespace On9log.Lib

namespace LockSpec

variable {Tid Call Op Res σ G : Type} {Ret : Op → Type} (L : LockSpec Tid Op σ)

/-- Events that need no lock do not matter to `f`. -/
def Guards (f : G → Event Op Ret → G) : Prop := ∀ g e, L.guarded e.op = false → f g e = g

theorem foldl_sections {Sec : List (Event Op Ret) → Prop} {f : G → Event Op Ret → G} {g₀ : G}
    (hsec : ∀ b, Sec b → b.foldl f g₀ = g₀) {secs : List (List (Event Op Ret))}
    (h : ∀ b ∈ secs, Sec b) : secs.flatten.foldl f g₀ = g₀ := by
  induction secs with
  | nil => rfl
  | cons b secs ih =>
    rw [List.flatten_cons, List.foldl_append, hsec b (h b (List.mem_cons_self ..))]
    exact ih fun b hb => h b (List.mem_cons_of_mem _ hb)

theorem foldl_guarded {f : G → Event Op Ret → G} (hf : L.Guards f) (g : G)
    (es : List (Event Op Ret)) : (es.filter fun e => L.guarded e.op).foldl f g = es.foldl f g := by
  induction es generalizing g with
  | nil => rfl
  | cons e es ih =>
    cases he : L.guarded e.op with
    | true => simpa [List.filter_cons, he] using ih (f g e)
    | false => simpa [List.filter_cons, he, hf g e he] using ih g

variable [DecidableEq Tid] [∀ o, Inhabited (Ret o)] {S : System Tid Call Op Ret Res σ}
  {Sec : List (Event Op Ret) → Prop} {cfg : Config Tid Call Op Ret Res σ}
  {tr : List (Label Tid Call Op Ret Res)} {f : G → Event Op Ret → G} {g₀ : G}

theorem locked_fold (hM : L.Mutex S)
    (H : ∀ c es v, (S.body c).Path es v → Steps (L.Discipline Sec) none es none)
    (hsec : ∀ b, Sec b → b.foldl f g₀ = g₀) (h : S.Run cfg tr) :
    (L.lockedEvents tr).foldl f g₀ = (L.openSection tr).foldl f g₀ := by
  rw [lockedEvents, List.foldl_append, foldl_sections hsec (L.closed_sec hM H h)]

theorem act_fold (hM : L.Mutex S)
    (H : ∀ c es v, (S.body c).Path es v → Steps (L.Discipline Sec) none es none)
    (hf : L.Guards f) (h : S.Run cfg tr) (g : G) :
    (actEvents tr).foldl f g = (L.lockedEvents tr).foldl f g := by
  rw [← L.foldl_guarded hf, (L.filter_lockedEvents hM H h).1, L.foldl_guarded hf]

theorem thread_fold (hM : L.Mutex S)
    (H : ∀ c es v, (S.body c).Path es v → Steps (L.Discipline Sec) none es none)
    (hf : L.Guards f) (hsec : ∀ b, Sec b → b.foldl f g₀ = g₀) (h : S.Run cfg tr) (t : Tid) :
    (threadEvents t tr).foldl f g₀ =
      if L.holder tr = some t then (L.openSection tr).foldl f g₀ else g₀ := by
  have snoc : ∀ tr (u : Tid) (e : Event Op Ret), L.guarded e.op = false →
      (threadEvents t (.act u e :: tr : List (Label Tid Call Op Ret Res))).foldl f g₀ =
        (threadEvents t tr).foldl f g₀ := by
    intro tr u e he
    by_cases hut : u = t
    · rw [threadEvents, if_pos hut, List.foldl_append]
      exact hf _ e he
    · rw [threadEvents, if_neg hut]
  refine L.run_induction hM H (I := fun _ tr => (threadEvents t tr).foldl f g₀ =
    if L.holder tr = some t then (L.openSection tr).foldl f g₀ else g₀) ?_ ?_ ?_ ?_ ?_ ?_ h
  · intro _ _
    rfl
  · intro _ _ tr l _ _ hl _ ih
    cases l with
    | act u e => exact absurd rfl (hl u e)
    | invoke u c => exact ih
    | ret u c v => exact ih
  · intro _ _ tr u e _ _ hl hu hh ih
    rw [snoc tr u e (L.lock_unguarded _ hl), ih, hh, if_neg (by simp)]
    simp [holder, openSection, hl]
  · intro _ _ tr u e _ _ hl hu hh hb ih
    rw [snoc tr u e (L.unlock_unguarded _ hu), ih, hsec _ hb]
    simp [holder, hl, hu]
  · intro _ _ tr u e _ _ hl hu hh ih
    by_cases hut : u = t
    · subst hut
      rw [if_pos hh] at ih
      simp [threadEvents, holder, openSection, hl, hu, hh, ih]
    · have hne : L.holder tr ≠ some t := by
        rw [hh]
        exact fun hc => hut (Option.some.inj hc)
      rw [if_neg hne] at ih
      simpa [threadEvents, holder, hl, hu, hut, hne] using ih
  · intro _ _ tr u e _ _ hl hu hh hg ih
    rw [snoc tr u e hg, ih]
    simp [holder, openSection, hl, hu, hh]

end LockSpec

end On9log.Lib
