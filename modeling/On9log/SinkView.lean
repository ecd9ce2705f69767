import On9log.System

/-!
# A sink among what the core does

Seen from one sink, a callback is what it does to the state of the sink, and
everything else is what the core does.
-/

namespace On9log
open Lib

/-- What a callback does to the state of the sink. -/
inductive SinkOp where
  | start (header : Option (List UInt8))
  | payload (payload : Option (List UInt8))
  | finish
  deriving DecidableEq

def SinkCall.sinkOp : SinkCall → SinkOp
  | .startCb header => .start header
  | .payloadCb c => .payload (some c.bytes)
  | .endCb => .finish

variable (entry : SinkEntry)

def sinkSees (e : Ev) : Option (Ev ⊕ SinkOp) :=
  match e.op with
  | .call entry' c => some (if entry' = entry then .inr c.sinkOp else .inl e)
  | _ => some (.inl e)

variable {entry} {o : Op} {b : Ev ⊕ SinkOp}

theorem sinkSees_inj {r₁ r₂ : o.Ret} (h₁ : sinkSees entry ⟨o, r₁⟩ = some b)
    (h₂ : sinkSees entry ⟨o, r₂⟩ = some b) : r₁ = r₂ := by
  cases o
  case call e c => rfl
  all_goals
    have heq := Option.some.inj (h₁.trans h₂.symm)
    cases heq
    rfl

theorem sinkSees_ne_none (e : Ev) : sinkSees entry e ≠ none := by
  obtain ⟨o, r⟩ := e
  cases o <;> simp [sinkSees]

/-- What is seen of the core is the core's event. -/
theorem eq_of_sinkSees {e e' : Ev} (h : sinkSees entry e = some (.inl e')) : e = e' := by
  obtain ⟨o, r⟩ := e
  cases o
  case call entry' c =>
    by_cases he : entry' = entry
    · simp [sinkSees, he] at h
    · simpa [sinkSees, he] using h
  all_goals exact Sum.inl.inj (Option.some.inj h)

/-- A callback changes nothing in the core. -/
theorem step_of_sinkSees {Tid : Type} {cfg : Config} {r : o.Ret} {c : SinkOp}
    (h : sinkSees entry ⟨o, r⟩ = some (.inr c)) (t : Tid) (s : Shared Tid) :
    step cfg t o r s s := by
  cases o
  case call => rfl
  all_goals cases h

end On9log
