import Mathlib.Data.List.Basic

/-!
# Reachable states and spans of a run

`Reach init step P` are the states a run reaches when it only steps from states
that meet `P`; with `P` true everywhere these are all reachable states. A `Span`
is the part of a run from a state that meets `start` on, as long as `goes`
holds, with the states it passes, newest first.
-/

namespace On9log.Lib

variable {σ : Type} {init s s' : σ} {step : σ → σ → Prop} {P I start goes : σ → Prop}
  {vs : List σ}

inductive Reach (init : σ) (step : σ → σ → Prop) (P : σ → Prop) : σ → Prop
  | init : Reach init step P init
  | step {s s' : σ} : Reach init step P s → P s → step s s' → Reach init step P s'

/-- The invariant rule. -/
theorem Reach.invariant (h : Reach init step P s) (hinit : I init)
    (hstep : ∀ s s', I s → P s → step s s' → I s') : I s := by
  induction h with
  | init => exact hinit
  | step _ hp hs ih => exact hstep _ _ ih hp hs

inductive Span (step : σ → σ → Prop) (P start goes : σ → Prop) : List σ → σ → Prop
  | start {s : σ} : start s → Span step P start goes [s] s
  | step {vs : List σ} {s s' : σ} : Span step P start goes vs s → P s → step s s' → goes s' →
      Span step P start goes (s' :: vs) s'

theorem Span.current (h : Span step P start goes vs s) : s ∈ vs := by
  cases h with
  | start _ => exact List.mem_singleton_self s
  | step _ _ _ _ => exact List.mem_cons_self ..

theorem Span.reach (h : Span step P start goes vs s)
    (hstart : ∀ s, start s → Reach init step P s) : Reach init step P s := by
  induction h with
  | start hs => exact hstart _ hs
  | step _ hp hs _ ih => exact .step ih hp hs

/-- The invariant rule for spans: `J` may speak of the states passed. -/
theorem Span.invariant {J : List σ → σ → Prop} (h : Span step P start goes vs s)
    (hstart : ∀ s, start s → Reach init step P s) (hinit : ∀ s, start s → J [s] s)
    (hstep : ∀ vs s s', Reach init step P s → s ∈ vs → J vs s → P s → step s s' → goes s' →
      J (s' :: vs) s') : J vs s := by
  induction h with
  | start hs => exact hinit _ hs
  | step hspan hp hs hg ih =>
    exact hstep _ _ _ (hspan.reach hstart) hspan.current ih hp hs hg

end On9log.Lib
