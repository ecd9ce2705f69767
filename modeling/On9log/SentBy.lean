import On9log.Sending

/-!
# Whose packets are on the wire

`sentLog` names the thread that ended each packet. `sent_by` says that a thread's
entries are the packets it handed to the stream itself, so the wire is a merge
of what the threads sent.
-/

namespace On9log
open Lib

variable {Tid : Type} [DecidableEq Tid] {cfg : Config}
  {c : Lib.Config Tid Call Op Op.Ret Res (Shared Tid)}
  {tr : List (Label Tid Call Op Op.Ret Res)} {t : Tid}

/-- The packet an event ends, if it ends one. -/
def endedBy (w : Wire) (e : Ev) : Option Packet :=
  match e.op with
  | .stream .finish => w.current.map Sent.pkt
  | _ => none

/-- The packets sent so far, with the threads that sent them. -/
def sentLog (cfg : Config) : List (Label Tid Call Op Op.Ret Res) → List (Tid × Packet)
  | [] => []
  | .act t e :: tr =>
    sentLog cfg tr ++ ((endedBy (wireOf cfg (actEvents tr)) e).map fun pkt => (t, pkt)).toList
  | .invoke _ _ :: tr => sentLog cfg tr
  | .ret _ _ _ :: tr => sentLog cfg tr

omit [DecidableEq Tid] in
theorem sentLog_packets (tr : List (Label Tid Call Op Op.Ret Res)) :
    (sentLog cfg tr).map Prod.snd = (wireOf cfg (actEvents tr)).sent.map Sent.pkt := by
  induction tr with
  | nil => rfl
  | cons l tr ih =>
    cases l with
    | invoke t call => exact ih
    | ret t call v => exact ih
    | act t e =>
      have hended : (wireStep cfg (wireOf cfg (actEvents tr)) e).sent.map Sent.pkt =
          (wireOf cfg (actEvents tr)).sent.map Sent.pkt ++
            (endedBy (wireOf cfg (actEvents tr)) e).toList := by
        obtain ⟨o, r⟩ := e
        cases o
        case stream call =>
          cases call with
          | finish => simp [wireStep, endedBy, Option.toList_map]
          | _ => simp [wireStep, endedBy]
        all_goals simp [wireStep, endedBy]
      rw [sentLog, actEvents, wireOf_snoc, hended, List.map_append, ih]
      congr 1
      cases endedBy (wireOf cfg (actEvents tr)) e <;> rfl

/-- The packets of one thread. -/
def sentByThread (cfg : Config) (t : Tid) (tr : List (Label Tid Call Op Op.Ret Res)) :
    List Packet :=
  ((sentLog cfg tr).filter fun p => p.1 = t).map Prod.snd

theorem sentByThread_act (u : Tid) (e : Ev) (tr : List (Label Tid Call Op Op.Ret Res)) :
    sentByThread cfg t (.act u e :: tr) = sentByThread cfg t tr ++
      if u = t then (endedBy (wireOf cfg (actEvents tr)) e).toList else [] := by
  unfold sentByThread
  rw [sentLog, List.filter_append, List.map_append]
  congr 1
  cases endedBy (wireOf cfg (actEvents tr)) e with
  | none => by_cases h : u = t <;> simp [h]
  | some pkt => by_cases h : u = t <;> simp [h]

/-- What a thread's own events say of its packets. -/
def gathered (t : Tid) (tr : List (Label Tid Call Op Op.Ret Res)) : Option Packet × List Packet :=
  (streamCalls (threadEvents t tr)).foldl gather (none, [])

theorem gathered_act (u : Tid) (e : Ev) (tr : List (Label Tid Call Op Op.Ret Res)) :
    gathered t (.act u e :: tr) =
      if u = t then (streamCalls [e]).foldl gather (gathered t tr) else gathered t tr := by
  unfold gathered
  by_cases h : u = t
  · have hsplit : streamCalls (threadEvents t tr ++ [e]) =
        streamCalls (threadEvents t tr) ++ streamCalls [e] := List.filterMap_append
    rw [threadEvents, if_pos h, if_pos h, hsplit, List.foldl_append]
  · rw [threadEvents, if_neg h, if_neg h]

/-- Every thread's own account agrees with the wire. -/
def Attributed (cfg : Config) (tr : List (Label Tid Call Op Op.Ret Res)) (g : Tid → Debt) : Prop :=
  ∀ t, gathered t tr = ((g t).current, sentByThread cfg t tr)

theorem Attributed.act {s : Shared Tid} {g : Tid → Debt} {e : Ev} {g' : Debt}
    (h : Attributed cfg tr g) (hbooks : Books cfg s (actEvents tr) g)
    (hd : debtStep (g t) e g') :
    Attributed cfg (.act t e :: tr) (Function.update g t g') := by
  intro u
  rw [gathered_act, sentByThread_act]
  by_cases hut : t = u
  · subst hut
    rw [if_pos rfl, if_pos rfl, h t, Function.update_self]
    obtain ⟨o, r⟩ := e
    cases o
    case stream call =>
      cases call with
      | start origin header =>
        obtain ⟨-, -, rfl⟩ := hd
        simp [streamCalls, gather, endedBy]
      | payload chunk =>
        obtain ⟨-, rfl⟩ := hd
        simp [streamCalls, gather, endedBy]
      | finish =>
        obtain ⟨hin, -, rfl⟩ := hd
        have hwire := hbooks.wire hin
        simp [streamCalls, gather, endedBy, hwire]
    case exchangeDropped =>
      obtain ⟨-, -, rfl⟩ := hd
      simp [streamCalls, endedBy]
    case emitLock =>
      obtain ⟨-, rfl⟩ := hd
      simp [streamCalls, endedBy]
    case emitUnlock =>
      obtain ⟨-, -, rfl⟩ := hd
      simp [streamCalls, endedBy]
    case storeSlot =>
      obtain ⟨-, -, rfl⟩ := hd
      simp [streamCalls, endedBy]
    all_goals
      obtain rfl := hd
      simp [streamCalls, endedBy]
  · rw [if_neg hut, if_neg hut, Function.update_of_ne (Ne.symm hut), h u, List.append_nil]

/-- The packets the wire ascribes to a thread are those it handed to the stream. -/
theorem sent_by (h : (system Tid cfg).Run c tr) (t : Tid) :
    sentByThread cfg t tr = sentPackets (threadEvents t tr) := by
  have hcall : ∀ call es v, (body cfg call).Path es v →
      Steps debtStep Debt.none es Debt.none := fun _ _ _ hp => (serial_body hp).steps_debt
  obtain ⟨g, -, -, hg⟩ := h.invariant debtStep_functional hcall
    (I := fun s tr g => Books cfg s (actEvents tr) g ∧ Attributed cfg tr g)
    ⟨books_init, fun _ => rfl⟩ (fun _ _ _ _ _ hi _ => hi) (fun _ _ _ _ _ _ hi _ => hi)
    (fun _ _ _ _ _ _ _ hi hd hs => ⟨hi.1.act hd hs, hi.2.act hi.1 hd⟩)
  show _ = (gathered t tr).2
  rw [hg t]

/-- Two threads that alone send something share the wire. -/
theorem sent_perm (h : (system Tid cfg).Run c tr) {u : Tid} (htu : t ≠ u)
    (hothers : ∀ w, w ≠ t → w ≠ u → sentPackets (threadEvents w tr) = []) :
    ((wireOf cfg (actEvents tr)).sent.map Sent.pkt).Perm
      (sentPackets (threadEvents t tr) ++ sentPackets (threadEvents u tr)) := by
  rw [← sentLog_packets, ← sent_by h, ← sent_by h]
  have hrest : (sentLog cfg tr).filter (fun p => ! decide (p.1 = t)) =
      (sentLog cfg tr).filter fun p => p.1 = u := by
    apply List.filter_congr
    intro p hp
    by_cases hpt : p.1 = t
    · have hpu : p.1 ≠ u := fun hpu => htu (hpt.symm.trans hpu)
      simp [hpt, hpt ▸ hpu]
    · have hpu : p.1 = u := by
        by_contra hpu
        have hnone := hothers p.1 hpt hpu
        rw [← sent_by h] at hnone
        have hmem : p.2 ∈ sentByThread cfg p.1 tr :=
          List.mem_map_of_mem (List.mem_filter.mpr ⟨hp, by simp⟩)
        rw [hnone] at hmem
        cases hmem
      simp [hpu, Ne.symm htu]
  have hperm := (List.filter_append_perm (fun p => decide (p.1 = t)) (sentLog cfg tr)).symm
  rw [hrest] at hperm
  have hmap := hperm.map Prod.snd
  rw [List.map_append] at hmap
  exact hmap

end On9log
