import On9log.TransportLock

/-!
# Records are not mixed (esp_stdio_log_vfs.c:148-174, 409-524)

Every output has received the frames and raw streams that went before, whole and one
after another, and a beginning of the one that is on its way. Here the scheduler runs,
writes do not fail, and drivers do not call back.
-/

namespace On9log
open Lib

variable {Tid : Type} [DecidableEq Tid]

/-- Nobody has called since the scheduler started. -/
def TransportState.running (outputs : ℕ → ℤ) (outputCount : ℕ) : TransportState Tid where
  mem := {
    started := true
    handle := none
    mutex := none
    owner := none
    outputs := outputs
    outputCount := outputCount
    wire := fun _ => []
    streaming := fun _ => false
    current := none
    finished := [] }
  stack _ := []

/-- A driver does not call back, and takes a byte or more of what is written. -/
def TransportState.Succeeds (c : Option Tid) (s : TransportState Tid) :
    TransportAction Tid → Prop
  | .reenter _ => False
  | .go reply => ∀ f data below, s.stack c = .outputWrite f data :: below →
      reply.Interrupted ∨ 0 < reply.written
  | _ => True

def TransportState.NextSucceeds (plainText : Bool) (s s' : TransportState Tid) : Prop :=
  ∃ c a, s.step plainText c a = some s' ∧ s.Succeeds c a

/-! ### What is still to be sent -/

/-- What output `i` has not received of the batches. -/
def Flush.unsent (f : Flush) (i : ℕ) : List UInt8 :=
  if f.i ≤ i then f.batches.flatten else f.batches.tail.flatten

namespace TransportPc

def unsent (i : ℕ) : TransportPc → List UInt8
  | .outputCount f => f.unsent i
  | .outputLoad f => f.unsent i
  | .outputWrite f data => if f.i = i then data ++ f.batches.tail.flatten else f.unsent i
  | _ => []

theorem unsent_of_not_sends {pc : TransportPc} (h : pc.sends = false) (i : ℕ) :
    pc.unsent i = [] := by
  cases pc
  case outputCount => cases h
  case outputLoad => cases h
  case outputWrite => cases h
  all_goals rfl

end TransportPc

theorem FlushFor.done_unsent (sends : FlushFor) (ok : Bool) (i : ℕ) :
    (sends.done ok).unsent i = [] := by
  cases sends with
  | frame => rfl
  | raw => rfl

namespace Flush

variable (f : Flush) {i : ℕ}

theorem unsent_first (sends : FlushFor) (batches : List (List UInt8)) (ok : Bool) (i : ℕ) :
    Flush.unsent ⟨sends, batches, 0, ok⟩ i = batches.flatten := if_pos (Nat.zero_le i)

theorem start_unsent (sends : FlushFor) (batches : List (List UInt8)) (i : ℕ) :
    (start sends batches).unsent i = batches.flatten := by
  cases batches with
  | nil => exact sends.done_unsent true i
  | cons batch batches => exact unsent_first sends _ true i

theorem unsent_nextOutput (h : f.i ≠ i) : f.nextOutput.unsent i = f.unsent i := by
  have hiff : f.i + 1 ≤ i ↔ f.i ≤ i := by omega
  show (if f.i + 1 ≤ i then _ else _) = if f.i ≤ i then _ else _
  simp only [hiff]

theorem unsent_nextOutput_self : f.nextOutput.unsent f.i = f.batches.tail.flatten :=
  if_neg (Nat.not_succ_le_self f.i)

theorem unsent_nextBatch (h : i < f.i) : f.nextBatch.unsent i = f.unsent i := by
  have hbefore : f.unsent i = f.batches.tail.flatten := if_neg (by omega)
  rw [hbefore]
  unfold nextBatch
  split
  case h_1 htail =>
    rw [htail]
    exact f.sends.done_unsent f.ok i
  case h_2 => exact unsent_first f.sends _ f.ok i

theorem unsent_writeAll (h : f.i ≠ i) (data : List UInt8) :
    (f.writeAll data).unsent i = f.unsent i := by
  cases data with
  | nil => exact f.unsent_nextOutput h
  | cons byte data => exact if_neg h

theorem unsent_writeAll_self (data : List UInt8) :
    (f.writeAll data).unsent f.i = data ++ f.batches.tail.flatten := by
  cases data with
  | nil => exact f.unsent_nextOutput_self
  | cons byte data => exact if_pos rfl

/-- The first batch and the others. -/
theorem headD_append_tail (batches : List (List UInt8)) :
    batches.headD [] ++ batches.tail.flatten = batches.flatten := by
  cases batches with
  | nil => rfl
  | cons batch batches => rfl

end Flush

/-! ### One step of the loop over the outputs -/

namespace TransportMem

variable (m : TransportMem Tid)

/-- An output that is written to. -/
def Open (i : ℕ) : Prop := i < m.outputCount ∧ 0 ≤ m.outputs i

omit [DecidableEq Tid] in
theorem open_iff (i : ℕ) : 0 ≤ m.fds.getD i (-1) ↔ m.Open i := by
  unfold fds Open
  by_cases hi : i < m.outputCount
  · simp [hi]
  · simp [hi]

end TransportMem

/-- The loop is at an output there is, and writes only to one that is open. -/
def TransportPc.Aims (m : TransportMem Tid) : TransportPc → Prop
  | .outputLoad f => f.i < m.outputCount
  | .outputWrite f _ => m.Open f.i
  | _ => True

omit [DecidableEq Tid] in
theorem Flush.aims_nextBatch (f : Flush) (m : TransportMem Tid) : f.nextBatch.Aims m := by
  unfold nextBatch
  split
  case h_1 =>
    cases f.sends with
    | frame => exact trivial
    | raw => exact trivial
  case h_2 => exact trivial

omit [DecidableEq Tid] in
theorem Flush.aims_writeAll {f : Flush} {m : TransportMem Tid} (h : m.Open f.i)
    (data : List UInt8) : (f.writeAll data).Aims m := by
  cases data with
  | nil => exact trivial
  | cons byte data => exact h

/-- A step of the loop sends what it takes from what is to be sent. -/
theorem loop_step {t : Tid} {reply : WriteReply} {m m' : TransportMem Tid}
    {pc pc' : TransportPc} (hsends : pc.sends = true) (haims : pc.Aims m)
    (hreply : ∀ f data, pc = .outputWrite f data → reply.Interrupted ∨ 0 < reply.written)
    (h : pcStep (some t) reply m pc = some (m', pc')) :
    pc'.Aims m' ∧ ∀ i, ∃ sent, m'.wire i = m.wire i ++ sent ∧
      (m.Open i → pc.unsent i = sent ++ pc'.unsent i) ∧ (¬ m.Open i → sent = []) := by
  have idle : m'.wire = m.wire → (∀ i, m.Open i → pc.unsent i = pc'.unsent i) →
      ∀ i, ∃ sent, m'.wire i = m.wire i ++ sent ∧
        (m.Open i → pc.unsent i = sent ++ pc'.unsent i) ∧ (¬ m.Open i → sent = []) := by
    intro hwire hunsent i
    refine ⟨[], ?_, hunsent i, fun _ => rfl⟩
    rw [hwire, List.append_nil]
  cases pc
  case outputCount f =>
    cases h
    by_cases hi : f.i < m.outputCount
    · rw [if_pos hi] at idle ⊢
      exact ⟨hi, idle rfl fun _ _ => rfl⟩
    · rw [if_neg hi] at idle ⊢
      refine ⟨f.aims_nextBatch m, idle rfl fun i hopen => ?_⟩
      exact (f.unsent_nextBatch (Nat.lt_of_lt_of_le hopen.1 (Nat.not_lt.mp hi))).symm
  case outputLoad f =>
    cases h
    by_cases hfd : 0 ≤ m.outputs f.i
    · rw [if_pos hfd] at idle ⊢
      refine ⟨Flush.aims_writeAll ⟨haims, hfd⟩ _, idle rfl fun i _ => ?_⟩
      by_cases hfi : f.i = i
      · subst hfi
        rw [f.unsent_writeAll_self, Flush.headD_append_tail]
        exact if_pos le_rfl
      · exact (f.unsent_writeAll hfi _).symm
    · rw [if_neg hfd] at idle ⊢
      refine ⟨trivial, idle rfl fun i hopen => ?_⟩
      have hfi : f.i ≠ i := by
        rintro rfl
        exact hfd hopen.2
      exact (f.unsent_nextOutput hfi).symm
  case outputWrite f data =>
    unfold pcStep at h
    dsimp only at h
    by_cases hint : reply.Interrupted
    · rw [if_pos hint] at h
      cases h
      exact ⟨haims, idle rfl fun _ _ => rfl⟩
    · have hpos : 0 < reply.written := (hreply f data rfl).resolve_left hint
      rw [if_neg hint, if_neg (by omega)] at h
      cases h
      refine ⟨Flush.aims_writeAll haims _, fun i => ?_⟩
      by_cases hfi : f.i = i
      · subst hfi
        refine ⟨data.take reply.written.toNat, Function.update_self _ _ _, fun _ => ?_, ?_⟩
        · rw [f.unsent_writeAll_self, ← List.append_assoc, List.take_append_drop]
          exact if_pos rfl
        · exact fun hclosed => absurd haims hclosed
      · refine ⟨[], ?_, fun _ => ?_, fun _ => rfl⟩
        · rw [List.append_nil]
          exact Function.update_of_ne (Ne.symm hfi) _ _
        · rw [f.unsent_writeAll hfi]
          exact if_neg hfi
  all_goals cases hsends

/-! ### Records -/

namespace TransportMem

variable (m : TransportMem Tid)

/-- What output `i` was to get of the finished records. -/
def finishedTo (i : ℕ) : List UInt8 := (m.finished.map fun r => r.outputBytes i).flatten

/-- What output `i` is to get of the record on its way. -/
def currentTo (i : ℕ) : List UInt8 := m.current.elim [] fun r => r.outputBytes i

end TransportMem

/-- Each output has the finished records, and of the one on its way all but `unsent`. -/
structure RecordsOk (m : TransportMem Tid) (unsent : ℕ → List UInt8) : Prop where
  current_iff : m.current = none ↔ m.owner = none
  current_of : ∀ r, m.current = some r → r.fds = m.fds ∧ r.sender = m.owner
  wire : ∀ i, ∃ part, m.wire i = m.finishedTo i ++ part ∧
    (m.Open i → m.currentTo i = part ++ unsent i) ∧ (¬ m.Open i → part = [])

namespace RecordsOk

variable {m m' : TransportMem Tid} {unsent unsent' : ℕ → List UInt8}

omit [DecidableEq Tid] in
theorem currentTo_closed (h : RecordsOk m unsent) {i : ℕ} (hclosed : ¬ m.Open i) :
    m.currentTo i = [] := by
  unfold TransportMem.currentTo
  cases hcurrent : m.current with
  | none => rfl
  | some r =>
    have hfds : ¬ 0 ≤ r.fds.getD i (-1) := by
      rw [(h.current_of r hcurrent).1, m.open_iff]
      exact hclosed
    exact if_neg hfds

omit [DecidableEq Tid] in
/-- With nothing left to send an output has all of the current record. -/
theorem wire_of_unsent_nil (h : RecordsOk m unsent) (hunsent : ∀ i, unsent i = []) (i : ℕ) :
    m.wire i = m.finishedTo i ++ m.currentTo i := by
  obtain ⟨part, hwire, hopen, hclosed⟩ := h.wire i
  by_cases hi : m.Open i
  · rw [hwire, hopen hi, hunsent, List.append_nil]
  · rw [hwire, hclosed hi, h.currentTo_closed hi]

omit [DecidableEq Tid] in
theorem wire_of_free (h : RecordsOk m unsent) (howner : m.owner = none)
    (hunsent : ∀ i, unsent i = []) (i : ℕ) : m.wire i = m.finishedTo i := by
  have hcurrent : m.currentTo i = [] := by
    unfold TransportMem.currentTo
    rw [h.current_iff.mpr howner]
    rfl
  rw [h.wire_of_unsent_nil hunsent, hcurrent, List.append_nil]

omit [DecidableEq Tid] in
/-- A record begins. -/
theorem own (h : RecordsOk m unsent) (howner : m.owner = none) (hunsent : ∀ i, unsent i = [])
    (t : Tid) (content : RecordContent) (hunsent' : ∀ i, unsent' i = content.bytes) :
    RecordsOk (m.own (some t) content) unsent' where
  current_iff := iff_of_false nofun nofun
  current_of r hr := by
    cases hr
    exact ⟨rfl, rfl⟩
  wire i := by
    refine ⟨[], ?_, fun hopen => ?_, fun _ => rfl⟩
    · rw [List.append_nil]
      exact h.wire_of_free howner hunsent i
    · have hfd : 0 ≤ m.fds.getD i (-1) := (m.open_iff i).mpr hopen
      rw [hunsent']
      exact if_pos hfd

omit [DecidableEq Tid] in
/-- A record is whole. -/
theorem disown (h : RecordsOk m unsent) (hunsent : ∀ i, unsent i = []) :
    RecordsOk m.disown fun _ => [] where
  current_iff := iff_of_true rfl rfl
  current_of := nofun
  wire i := by
    refine ⟨[], ?_, fun _ => rfl, fun _ => rfl⟩
    have hfinished : m.disown.finishedTo i = m.finishedTo i ++ m.currentTo i := by
      unfold TransportMem.finishedTo TransportMem.currentTo TransportMem.disown
      dsimp only
      rw [List.map_append, List.flatten_append]
      cases m.current with
      | none => rfl
      | some r => simp
    rw [hfinished, List.append_nil]
    exact h.wire_of_unsent_nil hunsent i

omit [DecidableEq Tid] in
/-- A raw stream goes on. -/
theorem withChunk (h : RecordsOk m unsent) (hunsent : ∀ i, unsent i = []) {r : SentRecord Tid}
    {chunks : List (List UInt8)} (hr : m.current = some r) (hcontent : r.content = .stream chunks)
    (data : List UInt8) : RecordsOk (m.withChunk data) fun _ => data := by
  have hnew : r.withChunk data = { r with content := .stream (chunks ++ [data]) } := by
    unfold SentRecord.withChunk
    rw [hcontent]
  have hcurrent : (m.withChunk data).current = some { r with content := .stream (chunks ++ [data]) } := by
    unfold TransportMem.withChunk
    rw [hr, ← hnew]
    rfl
  obtain ⟨hfds, hsender⟩ := h.current_of r hr
  refine ⟨?_, fun r' hr' => ?_, fun i => ?_⟩
  · rw [hcurrent]
    refine iff_of_false nofun fun howner => ?_
    rw [h.current_iff.mpr howner] at hr
    cases hr
  · rw [hcurrent] at hr'
    cases hr'
    exact ⟨hfds, hsender⟩
  · refine ⟨m.currentTo i, h.wire_of_unsent_nil hunsent i, fun hopen => ?_, h.currentTo_closed⟩
    have hfd : 0 ≤ r.fds.getD i (-1) := by
      rw [hfds]
      exact (m.open_iff i).mpr hopen
    unfold TransportMem.currentTo SentRecord.outputBytes
    rw [hcurrent, hr]
    dsimp only [Option.elim]
    rw [if_pos hfd, if_pos hfd, hcontent]
    exact List.flatten_concat

omit [DecidableEq Tid] in
/-- The loop over the outputs sends some of what is left. -/
theorem sent (h : RecordsOk m unsent) {wire : ℕ → List UInt8}
    (hsent : ∀ i, ∃ sent, wire i = m.wire i ++ sent ∧
      (m.Open i → unsent i = sent ++ unsent' i) ∧ (¬ m.Open i → sent = [])) :
    RecordsOk { m with wire := wire } unsent' where
  current_iff := h.current_iff
  current_of := h.current_of
  wire i := by
    obtain ⟨part, hwire, hopen, hclosed⟩ := h.wire i
    obtain ⟨sent, hgot, hleft, hnone⟩ := hsent i
    refine ⟨part ++ sent, ?_, fun hi => ?_, fun hi => ?_⟩
    · have heq : wire i = m.finishedTo i ++ (part ++ sent) := by
        rw [hgot, hwire, List.append_assoc]
      exact heq
    · have heq : m.currentTo i = part ++ sent ++ unsent' i := by
        rw [hopen hi, hleft hi, List.append_assoc]
      exact heq
    · rw [hclosed hi, hnone hi]
      rfl

omit [DecidableEq Tid] in
/-- Outputs are added between records. -/
theorem addOutput (h : RecordsOk m unsent) (howner : m.owner = none)
    (hunsent : ∀ i, unsent i = []) {outputs : ℕ → ℤ} {outputCount : ℕ} :
    RecordsOk { m with outputs := outputs, outputCount := outputCount } unsent where
  current_iff := h.current_iff
  current_of r hr := by
    have hnone := h.current_iff.mpr howner
    rw [show m.current = some r from hr] at hnone
    cases hnone
  wire i := by
    refine ⟨[], ?_, fun _ => ?_, fun _ => rfl⟩
    · rw [List.append_nil]
      exact h.wire_of_free howner hunsent i
    · have hcurrent : m.currentTo i = [] := by
        unfold TransportMem.currentTo
        rw [h.current_iff.mpr howner]
        rfl
      rw [hunsent]
      exact hcurrent

end RecordsOk

/-! ### Runs -/

/-- What the call at the top has not sent to output `i`. -/
def topUnsent (i : ℕ) : List TransportPc → List UInt8
  | [] => []
  | pc :: _ => pc.unsent i

namespace TransportState

/-- What the sender has not sent to output `i`. -/
def unsent (s : TransportState Tid) (i : ℕ) : List UInt8 :=
  s.mem.owner.elim [] fun t => topUnsent i (s.stack (some t))

structure Recorded (s : TransportState Tid) : Prop where
  started : s.mem.started = true
  locked : s.Locked
  below : ∀ t, ∀ pc ∈ (s.stack (some t)).tail, pc.waits = true
  aims : ∀ t, ∀ pc ∈ s.stack (some t), pc.Aims s.mem
  stream : ∀ t, s.mem.streaming (some t) = true →
    ∃ r chunks, s.mem.current = some r ∧ r.content = .stream chunks
  records : RecordsOk s.mem s.unsent

variable {s : TransportState Tid} {t : Tid} {m' : TransportMem Tid}
  {calls below : List TransportPc} {pc pc' : TransportPc}

/-- Only the calls of task `t` change, and neither the old nor the new one sends. -/
theorem unsent_update (hsame : m'.owner = s.mem.owner) (hold : ∀ i, topUnsent i (s.stack (some t)) = [])
    (hnew : ∀ i, topUnsent i calls = []) (i : ℕ) :
    unsent ⟨m', Function.update s.stack (some t) calls⟩ i = s.unsent i := by
  unfold unsent
  dsimp only
  rw [hsame]
  cases s.mem.owner with
  | none => rfl
  | some u =>
    by_cases hut : u = t
    · subst hut
      dsimp only [Option.elim]
      rw [Function.update_self, hold, hnew]
    · dsimp only [Option.elim]
      rw [Function.update_of_ne (by simpa using hut)]

theorem unsent_of_owner (howner : m'.owner = some t) (i : ℕ) :
    unsent ⟨m', Function.update s.stack (some t) (pc' :: below)⟩ i = pc'.unsent i := by
  unfold unsent
  dsimp only
  rw [howner]
  dsimp only [Option.elim]
  rw [Function.update_self]
  rfl

omit [DecidableEq Tid] in
theorem unsent_of_free (howner : m'.owner = none) (stack : Option Tid → List TransportPc)
    (i : ℕ) : unsent ⟨m', stack⟩ i = [] := by
  unfold unsent
  rw [howner]
  rfl

end TransportState

omit [DecidableEq Tid] in
theorem RecordsOk.congr {m m' : TransportMem Tid} {unsent unsent' : ℕ → List UInt8}
    (h : RecordsOk m unsent) (hunsent : ∀ i, unsent' i = unsent i) (howner : m'.owner = m.owner)
    (hcurrent : m'.current = m.current) (hfinished : m'.finished = m.finished)
    (hwire : m'.wire = m.wire) (houtputs : m'.outputs = m.outputs)
    (hcount : m'.outputCount = m.outputCount) : RecordsOk m' unsent' := by
  cases m
  cases m'
  dsimp only at howner hcurrent hfinished hwire houtputs hcount
  subst howner hcurrent hfinished hwire houtputs hcount
  rw [show unsent' = unsent from funext hunsent]
  exact ⟨h.current_iff, h.current_of, h.wire⟩

namespace TransportState

variable {s : TransportState Tid} {t : Tid} {m' : TransportMem Tid}
  {calls below : List TransportPc} {pc pc' : TransportPc} {reply : WriteReply}

omit [DecidableEq Tid] in
/-- What sends is what the owner does. -/
theorem Locked.owner_of_sends (h : s.Locked) (hcalls : s.stack (some t) = pc :: below)
    (hsends : pc.sends = true) : s.mem.owner = some t := by
  have ht := h t
  rw [hcalls] at ht
  refine ht.owner_iff.mpr ((sentBy_cons _ _ _).mpr ?_)
  have hkind : pc.owning = true ∨ pc.streams = true := by
    cases pc
    case outputCount f => cases hf : f.sends <;> simp [TransportPc.owning, TransportPc.streams, hf]
    case outputLoad f => cases hf : f.sends <;> simp [TransportPc.owning, TransportPc.streams, hf]
    case outputWrite f data =>
      cases hf : f.sends <;> simp [TransportPc.owning, TransportPc.streams, hf]
    all_goals cases hsends
  rcases hkind with howning | hstreams
  · exact .inl howning
  · exact .inr (.inl (ht.streams pc List.mem_cons_self hstreams))

theorem Recorded.step_records (h : s.Recorded) (hcalls : s.stack (some t) = pc :: below)
    (hreply : ∀ f data, pc = .outputWrite f data → reply.Interrupted ∨ 0 < reply.written)
    (hpc : pcStep (some t) reply s.mem pc = some (m', pc')) :
    RecordsOk m' (unsent ⟨m', Function.update s.stack (some t) (pc' :: below)⟩) := by
  have ht := h.locked t
  rw [hcalls] at ht
  have hrecords := h.records
  -- neither the step before nor the step after sends
  have silent : m'.owner = s.mem.owner → pc.sends = false → pc'.sends = false →
      ∀ i, unsent ⟨m', Function.update s.stack (some t) (pc' :: below)⟩ i = s.unsent i := by
    intro hsame hsends hsends'
    refine unsent_update hsame (fun i => ?_) fun i => TransportPc.unsent_of_not_sends hsends' i
    rw [hcalls]
    exact TransportPc.unsent_of_not_sends hsends i
  -- the task is the owner, and has sent everything
  have sentAll : s.mem.owner = some t → pc.sends = false → ∀ i, s.unsent i = [] := by
    intro howner hsends i
    unfold unsent
    rw [howner]
    dsimp only [Option.elim]
    rw [hcalls]
    exact TransportPc.unsent_of_not_sends hsends i
  cases pcStep_effect hpc with
  | quiet _ _ hsends hsends' =>
    exact hrecords.congr (silent rfl hsends hsends') rfl rfl rfl rfl rfl rfl
  | send _ _ wire hsends =>
    have howner := h.locked.owner_of_sends hcalls hsends
    have haims := h.aims t pc (by rw [hcalls]; exact List.mem_cons_self)
    refine hrecords.sent fun i => ?_
    obtain ⟨sent, hgot, hleft, hnone⟩ := (loop_step hsends haims hreply hpc).2 i
    refine ⟨sent, hgot, fun hopen => ?_, hnone⟩
    have hbefore : s.unsent i = pc.unsent i := by
      unfold unsent
      rw [howner]
      dsimp only [Option.elim]
      rw [hcalls]
      rfl
    rw [hbefore, hleft hopen]
    exact congrArg (sent ++ ·) (unsent_of_owner howner i).symm
  | lock _ _ _ _ hneutral _ _ _ hsends' =>
    exact hrecords.congr (silent rfl hneutral.sends hsends') rfl rfl rfl rfl rfl rfl
  | pass _ _ hoff =>
    rw [h.started] at hoff
    cases hoff
  | own type payload =>
    have hfree := h.locked.owner_none hcalls rfl rfl
    refine hrecords.own hfree (unsent_of_free hfree _) t _ fun i => ?_
    rw [unsent_of_owner rfl, Flush.start_unsent, frameBatches_flatten]
    rfl
  | opened =>
    have hfree := h.locked.owner_none hcalls rfl rfl
    have hown : RecordsOk (s.mem.own (some t) (.stream [])) fun _ => [] :=
      hrecords.own hfree (unsent_of_free hfree _) t (.stream []) fun _ => rfl
    refine hown.congr (fun i => ?_) rfl rfl rfl rfl rfl rfl
    exact unsent_of_owner rfl i
  | chunk data howner =>
    have hstreaming := ht.streaming_of_owner howner rfl rfl
    obtain ⟨r, chunks, hr, hcontent⟩ := h.stream t hstreaming
    have hchunk := hrecords.withChunk (sentAll howner rfl) hr hcontent data
    refine hchunk.congr (fun i => ?_) rfl rfl rfl rfl rfl rfl
    have hstart := (Flush.start_unsent .raw [data] i).trans (List.append_nil data)
    exact (unsent_of_owner howner i).trans hstart
  | endCheck howner => exact hrecords.congr (silent rfl rfl rfl) rfl rfl rfl rfl rfl rfl
  | disown ok =>
    have howner : s.mem.owner = some t := ht.owner_iff.mpr ((sentBy_cons _ _ _).mpr (.inl rfl))
    exact (hrecords.disown (sentAll howner rfl)).congr (unsent_of_free rfl _) rfl rfl rfl rfl rfl rfl
  | closed =>
    have howner : s.mem.owner = some t :=
      ht.owner_iff.mpr (.inl (ht.streams _ List.mem_cons_self rfl))
    exact (hrecords.disown (sentAll howner rfl)).congr (unsent_of_free rfl _) rfl rfl rfl rfl rfl rfl
  | unlock _ _ hinside howning hstreams hneutral =>
    have hsends : pc.sends = false := by
      cases hsends : pc.sends with
      | false => rfl
      | true =>
        have hfree := h.locked.owner_none hcalls hinside howning
        rw [h.locked.owner_of_sends hcalls hsends] at hfree
        cases hfree
    have hon : s.mem.unlock = { s.mem with mutex := none } := by
      refine if_neg ?_
      rw [h.started]
      exact nofun
    rw [hon] at silent ⊢
    exact hrecords.congr (silent rfl hsends hneutral.sends) rfl rfl rfl rfl rfl rfl
  | addCount fd =>
    have hfree := h.locked.owner_none hcalls rfl rfl
    exact (hrecords.addOutput hfree (unsent_of_free hfree _)).congr (silent rfl rfl rfl)
      rfl rfl rfl rfl rfl rfl
  | addStore i fd =>
    have hfree := h.locked.owner_none hcalls rfl rfl
    exact (hrecords.addOutput hfree (unsent_of_free hfree _)).congr (silent rfl rfl rfl)
      rfl rfl rfl rfl rfl rfl

/-- A task with a raw stream open has the current record. -/
theorem Recorded.step_stream (h : s.Recorded) (hcalls : s.stack (some t) = pc :: below)
    (hpc : pcStep (some t) reply s.mem pc = some (m', pc')) (u : Tid)
    (hu : m'.streaming (some u) = true) :
    ∃ r chunks, m'.current = some r ∧ r.content = .stream chunks := by
  have ht := h.locked t
  rw [hcalls] at ht
  have hnone : s.mem.mutex = some t → u ≠ t → s.mem.streaming (some u) = true → False := by
    intro hmutex hut hstreaming
    have hother := h.locked.mutex_of_streaming hstreaming
    rw [hmutex] at hother
    exact hut (Option.some.inj hother).symm
  cases pcStep_effect hpc with
  | own type payload =>
    have hmutex := ht.mutex_of_inside rfl
    by_cases hut : u = t
    · subst hut
      exact absurd (hu.symm.trans (ht.alone rfl).2.1) nofun
    · exact (hnone hmutex hut hu).elim
  | disown ok =>
    have hmutex := ht.mutex_of_inside rfl
    by_cases hut : u = t
    · subst hut
      exact absurd (hu.symm.trans (ht.alone rfl).2.1) nofun
    · exact (hnone hmutex hut hu).elim
  | opened => exact ⟨_, [], rfl, rfl⟩
  | closed =>
    have hstreaming := ht.streams _ List.mem_cons_self rfl
    by_cases hut : u = t
    · subst hut
      rw [TransportMem.stream_streaming] at hu
      cases hu
    · have hsame : (s.mem.disown.stream (some t) false).streaming (some u) =
          s.mem.streaming (some u) := Function.update_of_ne (by simpa using hut) _ _
      rw [hsame] at hu
      exact (hnone (h.locked.mutex_of_streaming hstreaming) hut hu).elim
  | chunk data howner =>
    obtain ⟨r, chunks, hr, hcontent⟩ := h.stream u hu
    refine ⟨r.withChunk data, chunks ++ [data], ?_, ?_⟩
    · exact congrArg (Option.map fun r => r.withChunk data) hr
    · unfold SentRecord.withChunk
      rw [hcontent]
  | unlock =>
    have hon : s.mem.unlock = { s.mem with mutex := none } := by
      refine if_neg ?_
      rw [h.started]
      exact nofun
    rw [hon] at hu ⊢
    exact h.stream u hu
  | _ => exact h.stream u hu

omit [DecidableEq Tid] in
theorem aims_of_not_sends {m : TransportMem Tid} (h : pc.sends = false) : pc.Aims m := by
  cases pc
  case outputLoad => cases h
  case outputWrite => cases h
  all_goals exact trivial

/-- Where outputs are added nothing is sent. -/
theorem Recorded.step_outputs (h : s.Recorded) (hcalls : s.stack (some t) = pc :: below)
    (hpc : pcStep (some t) reply s.mem pc = some (m', pc')) :
    s.mem.owner = none ∨ m'.outputs = s.mem.outputs ∧ m'.outputCount = s.mem.outputCount := by
  cases pcStep_effect hpc with
  | addCount fd => exact .inl (h.locked.owner_none hcalls rfl rfl)
  | addStore i fd => exact .inl (h.locked.owner_none hcalls rfl rfl)
  | unlock =>
    right
    unfold TransportMem.unlock
    split
    · exact ⟨rfl, rfl⟩
    · exact ⟨rfl, rfl⟩
  | _ => exact .inr ⟨rfl, rfl⟩

omit [DecidableEq Tid] in
theorem Aims.congr {m : TransportMem Tid} (h : pc.Aims m) (houtputs : m'.outputs = m.outputs)
    (hcount : m'.outputCount = m.outputCount) : pc.Aims m' := by
  cases pc
  case outputLoad f =>
    have hlt : f.i < m.outputCount := h
    show f.i < m'.outputCount
    rwa [hcount]
  case outputWrite f data =>
    have hopen : f.i < m.outputCount ∧ 0 ≤ m.outputs f.i := h
    show f.i < m'.outputCount ∧ 0 ≤ m'.outputs f.i
    rwa [hcount, houtputs]
  all_goals exact trivial

/-- A step that is not one of the loop does not lead into its middle. -/
theorem effect_aims {c : Option Tid} {m m' : TransportMem Tid} (h : Effect c m pc m' pc')
    (hon : m.started = true) (hsends : pc.sends = false) : pc'.Aims m' := by
  cases h with
  | quiet _ _ _ hsends' => exact aims_of_not_sends hsends'
  | send _ _ _ hsends' =>
    rw [hsends] at hsends'
    cases hsends'
  | lock _ _ _ _ _ _ _ _ hsends' => exact aims_of_not_sends hsends'
  | pass _ _ hoff =>
    rw [hon] at hoff
    cases hoff
  | unlock _ _ _ _ _ hneutral => exact aims_of_not_sends hneutral.sends
  | own type payload =>
    cases hbatches : frameBatches type payload with
    | nil => exact trivial
    | cons batch batches => exact trivial
  | _ => exact trivial

theorem Recorded.step_aims (h : s.Recorded) (hcalls : s.stack (some t) = pc :: below)
    (hreply : ∀ f data, pc = .outputWrite f data → reply.Interrupted ∨ 0 < reply.written)
    (hpc : pcStep (some t) reply s.mem pc = some (m', pc')) (u : Tid) :
    ∀ p ∈ Function.update s.stack (some t) (pc' :: below) (some u), p.Aims m' := by
  have hbefore : ∀ u, ∀ p ∈ s.stack (some u), p.Aims m' := by
    intro u p hp
    rcases h.step_outputs hcalls hpc with hfree | ⟨houtputs, hcount⟩
    · -- a call that sends would be the owner's
      cases hsends : p.sends with
      | false => exact aims_of_not_sends hsends
      | true =>
        cases hcalls' : s.stack (some u) with
        | nil =>
          rw [hcalls'] at hp
          cases hp
        | cons top rest =>
          rw [hcalls'] at hp
          rcases List.mem_cons.mp hp with rfl | hp
          · rw [h.locked.owner_of_sends hcalls' hsends] at hfree
            cases hfree
          · have hwaits := h.below u p (by rw [hcalls']; exact hp)
            rw [(TransportPc.neutral_of_waits hwaits).sends] at hsends
            cases hsends
    · exact Aims.congr (h.aims u p hp) houtputs hcount
  intro p hp
  by_cases hut : u = t
  · subst hut
    rw [Function.update_self] at hp
    rcases List.mem_cons.mp hp with rfl | hp
    · cases hsends : pc.sends with
      | false => exact effect_aims (pcStep_effect hpc) h.started hsends
      | true =>
        exact (loop_step hsends (h.aims u pc (by rw [hcalls]; exact List.mem_cons_self)) hreply
          hpc).1
    · exact hbefore u p (by rw [hcalls]; exact List.mem_cons_of_mem _ hp)
  · rw [Function.update_of_ne (by simpa using hut)] at hp
    exact hbefore u p hp

/-- Only calls of task `t` that touch nothing come or go. -/
theorem Recorded.setCalls (h : s.Recorded)
    (hlocked : Locked ⟨s.mem, Function.update s.stack (some t) calls⟩)
    (hold : ∀ i, topUnsent i (s.stack (some t)) = []) (hnew : ∀ p ∈ calls, p.sends = false)
    (htail : ∀ p ∈ calls.tail, p.waits = true) :
    Recorded ⟨s.mem, Function.update s.stack (some t) calls⟩ where
  started := h.started
  locked := hlocked
  below u := by
    dsimp only
    by_cases hut : u = t
    · subst hut
      rw [Function.update_self]
      exact htail
    · rw [Function.update_of_ne (by simpa using hut)]
      exact h.below u
  aims u := by
    dsimp only
    by_cases hut : u = t
    · subst hut
      rw [Function.update_self]
      exact fun p hp => aims_of_not_sends (hnew p hp)
    · rw [Function.update_of_ne (by simpa using hut)]
      exact h.aims u
  stream := h.stream
  records := by
    refine h.records.congr (unsent_update rfl hold fun i => ?_) rfl rfl rfl rfl rfl rfl
    cases calls with
    | nil => rfl
    | cons p rest => exact TransportPc.unsent_of_not_sends (hnew p List.mem_cons_self) i

theorem recorded_step {plainText : Bool} {s' : TransportState Tid} (h : s.Recorded)
    (hnext : s.NextSucceeds plainText s') : s'.Recorded := by
  obtain ⟨c, a, hstep, hsucceeds⟩ := hnext
  obtain ⟨hruns, calls, hmoves, hstack⟩ := step_move hstep
  rw [h.started] at hruns
  obtain ⟨t, rfl⟩ := Option.isSome_iff_exists.mp hruns
  have hs' : s' = ⟨s'.mem, Function.update s.stack (some t) calls⟩ := by
    rw [← hstack]
  have hlocked := h.locked.moves h.started hmoves
  have hbelow := h.below t
  rw [hs']
  generalize s'.mem = m' at hmoves hlocked
  generalize hold : s.stack (some t) = old at hmoves hbelow
  cases hmoves with
  | call call =>
    have hfresh := fresh_start plainText call
    refine h.setCalls hlocked (fun i => ?_) (fun p hp => (hfresh.neutral p hp).sends) hfresh.waits
    rw [hold]
    rfl
  | reenter => exact hsucceeds.elim
  | finish reply result =>
    refine h.setCalls hlocked (fun i => ?_) (fun p hp => ?_) fun p hp => ?_
    · rw [hold]
      rfl
    · exact (TransportPc.neutral_of_waits (hbelow p hp)).sends
    · exact hbelow p (List.mem_of_mem_tail hp)
  | done reply err =>
    refine h.setCalls hlocked (fun i => ?_) nofun nofun
    rw [hold]
    rfl
  | resume reply err w rest =>
    have hfresh := fresh_resume (hbelow w List.mem_cons_self) err
    have hrest : ∀ p ∈ rest, p.waits = true := fun p hp => hbelow p (List.mem_cons_of_mem _ hp)
    refine h.setCalls hlocked (fun i => ?_) (fun p hp => ?_) fun p hp => ?_
    · rw [hold]
      rfl
    · rcases List.mem_append.mp hp with hp | hp
      · exact (hfresh.neutral p hp).sends
      · exact (TransportPc.neutral_of_waits (hrest p hp)).sends
    · rw [List.tail_append_of_ne_nil hfresh.ne_nil] at hp
      rcases List.mem_append.mp hp with hp | hp
      · exact hfresh.waits p hp
      · exact hrest p hp
  | step reply pc pc' _ rest hpc =>
    have hreply : ∀ f data, pc = .outputWrite f data → reply.Interrupted ∨ 0 < reply.written := by
      rintro f data rfl
      exact hsucceeds f data rest hold
    refine ⟨(pcStep_effect hpc).keeps.1.trans h.started, hlocked, fun u => ?_,
      h.step_aims hold hreply hpc, h.step_stream hold hpc, h.step_records hold hreply hpc⟩
    dsimp only
    by_cases hut : u = t
    · subst hut
      rw [Function.update_self]
      exact hbelow
    · rw [Function.update_of_ne (by simpa using hut)]
      exact h.below u
  | createTask _ hc => cases hc
  | startScheduler hc => cases hc

omit [DecidableEq Tid] in
theorem recorded_running (outputs : ℕ → ℤ) (outputCount : ℕ) :
    (running outputs outputCount : TransportState Tid).Recorded where
  started := rfl
  locked t := by
    refine ⟨.idle, Nat.zero_le _, iff_of_false nofun nofun, iff_of_false nofun ?_, nofun⟩
    rintro (hopen | ⟨pc, hpc, -⟩)
    · cases hopen
    · cases hpc
  below _ := nofun
  aims _ := nofun
  stream _ := nofun
  records := ⟨iff_of_true rfl rfl, nofun, fun i => ⟨[], rfl, fun _ => rfl, fun _ => rfl⟩⟩

theorem run_recorded {plainText : Bool} {outputs : ℕ → ℤ} {outputCount : ℕ}
    (h : Reach (running outputs outputCount) (NextSucceeds plainText) (fun _ => True) s) :
    s.Recorded :=
  h.invariant (I := Recorded) (recorded_running outputs outputCount) fun _ _ hs _ hnext =>
    recorded_step hs hnext

end TransportState

/-- The check of a call that does not own the transport. -/
theorem foreign_call {plainText : Bool} {s s' : TransportState Tid} {t : Tid} {pc : TransportPc}
    {below : List TransportPc} {reply : WriteReply} (hcalls : s.stack (some t) = pc :: below)
    (hpc : pc = .endOwner ∨ ∃ data, pc = .rawOwner data) (howner : s.mem.owner ≠ some t)
    (hstep : s.step plainText (some t) (.go reply) = some s') :
    s'.mem = s.mem ∧ s'.stack (some t) = .returned .invalidState :: below := by
  have hself : s.mem.owner ≠ s.mem.self (some t) := howner
  unfold TransportState.step at hstep
  split at hstep
  case isTrue =>
    rw [hcalls] at hstep
    rcases hpc with rfl | ⟨data, rfl⟩
    · have heq : contextStep plainText (some t) s.mem (.go reply) (.endOwner :: below) =
          some (s.mem, .returned .invalidState :: below) := by
        unfold contextStep pcStep
        dsimp only [Option.map]
        rw [if_pos hself]
      rw [heq] at hstep
      cases hstep
      exact ⟨rfl, Function.update_self _ _ _⟩
    · have heq : contextStep plainText (some t) s.mem (.go reply) (.rawOwner data :: below) =
          some (s.mem, .returned .invalidState :: below) := by
        unfold contextStep pcStep
        dsimp only
        rw [if_pos hself]
        rfl
      rw [heq] at hstep
      cases hstep
      exact ⟨rfl, Function.update_self _ _ _⟩
  case isFalse => cases hstep

/-- Whatever the tasks call, each output has received whole frames and raw streams, one
after another, and a beginning of the one that is on its way to the outputs there were
when it began. A task that does not own the transport changes nothing by writing to a raw
stream or ending one. -/
theorem records_not_mixed {plainText : Bool} {outputs : ℕ → ℤ} {outputCount : ℕ}
    {s : TransportState Tid} (h : Reach (.running outputs outputCount)
      (TransportState.NextSucceeds plainText) (fun _ => True) s) :
    (∀ i, ∃ part, s.mem.wire i = s.mem.finishedTo i ++ part ∧ part <+: s.mem.currentTo i) ∧
    (∀ r, s.mem.current = some r → r.fds = s.mem.fds ∧ r.sender = s.mem.mutex) ∧
    (s.mem.mutex = none → s.mem.current = none) ∧
    (∀ t, s.mem.owner = some t ↔ SentBy (s.stack (some t)) (s.mem.streaming (some t))) ∧
    ∀ t pc below reply s', s.stack (some t) = pc :: below →
      (pc = .endOwner ∨ ∃ data, pc = .rawOwner data) → s.mem.owner ≠ some t →
      s.step plainText (some t) (.go reply) = some s' →
      s'.mem = s.mem ∧ s'.stack (some t) = .returned .invalidState :: below := by
  have hrecorded := TransportState.run_recorded h
  have hmutex : ∀ r, s.mem.current = some r → s.mem.owner = s.mem.mutex := by
    intro r hr
    cases howner : s.mem.owner with
    | none =>
      rw [hrecorded.records.current_iff.mpr howner] at hr
      cases hr
    | some t => exact (hrecorded.locked.mutex_of_owner howner).symm
  refine ⟨fun i => ?_, fun r hr => ?_, fun hfree => ?_, fun t => (hrecorded.locked t).owner_iff,
    fun t pc below reply s' hcalls hpc howner hstep => foreign_call hcalls hpc howner hstep⟩
  · obtain ⟨part, hwire, hopen, hclosed⟩ := hrecorded.records.wire i
    refine ⟨part, hwire, ?_⟩
    by_cases hi : s.mem.Open i
    · rw [hopen hi]
      exact List.prefix_append part _
    · rw [hclosed hi]
      exact List.nil_prefix
  · obtain ⟨hfds, hsender⟩ := hrecorded.records.current_of r hr
    exact ⟨hfds, hsender.trans (hmutex r hr)⟩
  · cases hcurrent : s.mem.current with
    | none => rfl
    | some r =>
      have howner := hmutex r hcurrent
      rw [hfree] at howner
      rw [hrecorded.records.current_iff.mpr howner] at hcurrent
      cases hcurrent

/-- Task 0 sends the byte 7 to one output in a raw stream and ends it. -/
theorem records_not_mixed_stream : ∃ s : TransportState ℕ,
    Reach (.running (fun _ => 3) 1) (TransportState.NextSucceeds false) (fun _ => True) s ∧
      s.mem.finished.length = 1 ∧
      ∃ part, s.mem.wire 0 = s.mem.finishedTo 0 ++ part ∧ part <+: s.mem.currentTo 0 := by
  have hgo : ∀ s : TransportState ℕ, s.Succeeds (some 0) (.go ⟨1, false⟩) := fun _ _ _ _ _ =>
    .inr Int.one_pos
  have hrun : Reach (.running (fun _ => 3) 1 : TransportState ℕ)
      (TransportState.NextSucceeds false) (fun _ => True) _ :=
    .step .init trivial ⟨some 0, .call .rawStreamBegin, rfl, trivial⟩
  have hguard := hrun.step trivial ⟨some 0, .go ⟨1, false⟩, rfl, hgo _⟩
  have hlock := hguard.step trivial ⟨some 0, .go ⟨1, false⟩, rfl, hgo _⟩
  have howner := hlock.step trivial ⟨some 0, .go ⟨1, false⟩, rfl, hgo _⟩
  have hbegun := howner.step trivial ⟨some 0, .go ⟨1, false⟩, rfl, hgo _⟩
  have hcall := hbegun.step trivial ⟨some 0, .call (.rawStreamWrite (some [7])), rfl, trivial⟩
  have hcheck := hcall.step trivial ⟨some 0, .go ⟨1, false⟩, rfl, hgo _⟩
  have hcount := hcheck.step trivial ⟨some 0, .go ⟨1, false⟩, rfl, hgo _⟩
  have hload := hcount.step trivial ⟨some 0, .go ⟨1, false⟩, rfl, hgo _⟩
  have hwrite := hload.step trivial ⟨some 0, .go ⟨1, false⟩, rfl, hgo _⟩
  have hlast := hwrite.step trivial ⟨some 0, .go ⟨1, false⟩, rfl, hgo _⟩
  have hwritten := hlast.step trivial ⟨some 0, .go ⟨1, false⟩, rfl, hgo _⟩
  have hend := hwritten.step trivial ⟨some 0, .call .rawStreamEnd, rfl, trivial⟩
  have hmine := hend.step trivial ⟨some 0, .go ⟨1, false⟩, rfl, hgo _⟩
  have hclear := hmine.step trivial ⟨some 0, .go ⟨1, false⟩, rfl, hgo _⟩
  exact ⟨_, hclear, rfl, (records_not_mixed hclear).1 0⟩

end On9log
