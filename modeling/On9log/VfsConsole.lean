import On9log.VfsTransport

/-!
# The console write of the VFS transport (esp_stdio_log_vfs.c:539-580)

Text goes out in TEXT frames of at most 3072 bytes, one after another, until one
fails. A frame that fails may be whole on some of the outputs, and the frames
before it are whole on all of them.
-/

namespace On9log
open Lib

section Console

variable {Tid : Type} [DecidableEq Tid] (replies : ℕ → Replies) (owner : ℕ → Option Tid)
  (self : Option Tid)

/-- The loop of `esp_stdio_log_vfs_write`; `owner k` is inside the transport when the
`k`-th frame is tried. -/
def writeTextFrames (k : ℕ) (outputs : List (Output UInt8)) (bytes : List UInt8) :
    List (Output UInt8) × EspErr :=
  if bytes.length = 0 then (outputs, .ok)
  else
    let chunkLen := if bytes.length > transportMaxPayload then transportMaxPayload else bytes.length
    let frame := vfsWriteFrame replies (owner k) self outputs frameTypeText
      (some (bytes.take chunkLen))
    if frame.2 ≠ .ok then frame
    else writeTextFrames (k + 1) frame.1 (bytes.drop chunkLen)
termination_by bytes.length
decreasing_by
  unfold transportMaxPayload
  rw [List.length_drop]
  split <;> omega

/-- `esp_stdio_log_vfs_write`. -/
def vfsWrite (outputs : List (Output UInt8)) (data : Option (List UInt8)) :
    List (Output UInt8) × ℤ :=
  match data with
  | none => (outputs, -1)
  | some bytes =>
    let frames := writeTextFrames replies owner self 0 outputs bytes
    (frames.1, if frames.2 ≠ .ok then -1 else bytes.length)

end Console

/-! ### What the outputs receive -/

/-- The outputs that are open have received `got`, each its own, the others nothing. -/
def Received (outputs outputs' : List (Output UInt8)) (got : ℕ → List UInt8) : Prop :=
  ∀ i : ℕ, outputs'[i]?.map (fun o => (o.fd, o.wire)) =
    outputs[i]?.map fun o => (o.fd, o.wire ++ if 0 ≤ o.fd then got i else [])

theorem received_nil (outputs : List (Output UInt8)) : Received outputs outputs fun _ => [] := by
  intro i
  congr 1
  funext o
  split <;> rw [List.append_nil]

theorem Received.of_some {outputs outputs' : List (Output UInt8)} {got : ℕ → List UInt8}
    (h : Received outputs outputs' got) {i : ℕ} {o' : Output UInt8} (ho : outputs'[i]? = some o') :
    ∃ o, outputs[i]? = some o ∧ o'.fd = o.fd ∧
      o'.wire = o.wire ++ if 0 ≤ o.fd then got i else [] := by
  have hi := h i
  rw [ho, Option.map_some] at hi
  obtain ⟨o, hmem, heq⟩ := Option.map_eq_some_iff.mp hi.symm
  obtain ⟨hfd, hwire⟩ := Prod.mk.inj heq
  exact ⟨o, hmem, hfd.symm, hwire.symm⟩

theorem Received.trans {outputs₀ outputs₁ outputs₂ : List (Output UInt8)}
    {got got' : ℕ → List UInt8} (h : Received outputs₀ outputs₁ got)
    (h' : Received outputs₁ outputs₂ got') :
    Received outputs₀ outputs₂ fun i => got i ++ got' i := by
  intro i
  rw [h' i]
  cases ho₁ : outputs₁[i]? with
  | none =>
    have hnone := h i
    rw [ho₁, Option.map_none] at hnone
    rw [Option.map_eq_none_iff.mp hnone.symm]
    rfl
  | some o₁ =>
    obtain ⟨o, ho, hfd, hwire⟩ := h.of_some ho₁
    rw [ho, Option.map_some, Option.map_some, hfd, hwire, List.append_assoc]
    split
    · rfl
    · rw [List.append_nil]

variable {Tid : Type} [DecidableEq Tid] {replies : ℕ → Replies} {self : Option Tid}
  {outputs : List (Output UInt8)} {payload : List UInt8}

/-- A frame the guard lets through reaches each open output in parts, and is reported
whole exactly when it is whole on all of them. -/
theorem vfsWriteFrame_received (replies : ℕ → Replies) {owner : Option Tid}
    (outputs : List (Output UInt8)) (howner : owner ≠ self) (type : UInt8)
    (hlen : payload.length ≤ transportMaxPayload) :
    ∃ got, Received outputs
        (vfsWriteFrame replies owner self outputs type (some payload)).1 got ∧
      (∀ i, (got i).Sublist (frameBytes type payload)) ∧
      ((vfsWriteFrame replies owner self outputs type (some payload)).2 = .ok ↔
        ∀ (i : ℕ) (o : Output UInt8), outputs[i]? = some o → 0 ≤ o.fd →
          got i = frameBytes type payload) := by
  obtain ⟨got, hgot⟩ : ∃ got : ℕ → List UInt8, ∀ i, got i = outputs[i]?.elim [] fun o =>
    ((replies i).taken o.calls (frameBatches type payload)).flatten := ⟨_, fun _ => rfl⟩
  have hsome : ∀ (i : ℕ) (o : Output UInt8), outputs[i]? = some o →
      got i = ((replies i).taken o.calls (frameBatches type payload)).flatten := by
    intro i o ho
    rw [hgot, ho]
    rfl
  refine ⟨got, ?_, ?_, ?_⟩
  · intro i
    rw [vfsWriteFrame_fits hlen, sendBatches_outputs howner]
    cases ho : outputs[i]? with
    | none => rfl
    | some o =>
      rw [Option.map_some, Option.map_some, Option.map_some, hsome i o ho]
      by_cases hopen : 0 ≤ o.fd
      · have hgiven := o.given_open (replies i) hopen (frameBatches type payload)
        rw [if_pos hopen, hgiven.1, hgiven.2]
      · rw [if_neg hopen, o.given_closed (replies i) hopen, List.append_nil]
  · intro i
    rw [hgot]
    cases outputs[i]? with
    | none => exact List.nil_sublist _
    | some o =>
      rw [← frameBatches_flatten]
      exact Replies.taken_sublist _ _
  · rw [vfsWriteFrame_fits hlen, sendBatches_ok howner]
    refine forall₄_congr fun i o ho _ => ?_
    rw [hsome i o ho, ← frameBatches_flatten, Replies.taken_flatten_eq_iff]

/-! ### The frames of one write -/

/-- The frame of `text` has failed: the guard refused it, or some open output has not
received it whole; `got` is what they have. -/
def FrameFailed (owner self : Option Tid) (outputs : List (Output UInt8)) (text : List UInt8)
    (got : ℕ → List UInt8) : Prop :=
  (∀ i, (got i).Sublist (frameBytes frameTypeText text)) ∧
    ((owner = self ∧ ∀ i, got i = []) ∨
      ∃ (i : ℕ) (o : Output UInt8), outputs[i]? = some o ∧ 0 ≤ o.fd ∧
        got i ≠ frameBytes frameTypeText text)

omit [DecidableEq Tid] in
theorem FrameFailed.of_received {owner : Option Tid} {outputs' : List (Output UInt8)}
    {text : List UInt8} {got sent : ℕ → List UInt8} (hr : Received outputs outputs' sent)
    (h : FrameFailed owner self outputs' text got) : FrameFailed owner self outputs text got := by
  refine ⟨h.1, ?_⟩
  rcases h.2 with hrefused | ⟨i, o', ho', hopen, hcut⟩
  · exact .inl hrefused
  · obtain ⟨o, ho, hfd, -⟩ := hr.of_some ho'
    rw [hfd] at hopen
    exact .inr ⟨i, o, ho, hopen, hcut⟩

/-- The frames of `chunks` went to every open output, and then `got`. -/
def TextSent (outputs outputs' : List (Output UInt8)) (chunks : List (List UInt8))
    (got : ℕ → List UInt8) : Prop :=
  Received outputs outputs' fun i => chunks.flatMap (frameBytes frameTypeText) ++ got i

theorem TextSent.cons {outputs₁ outputs₂ : List (Output UInt8)} {text : List UInt8}
    {chunks : List (List UInt8)} {got sent : ℕ → List UInt8}
    (hfirst : Received outputs outputs₁ sent)
    (hwhole : ∀ (i : ℕ) (o : Output UInt8), outputs[i]? = some o → 0 ≤ o.fd →
      sent i = frameBytes frameTypeText text)
    (h : TextSent outputs₁ outputs₂ chunks got) : TextSent outputs outputs₂ (text :: chunks) got := by
  intro i
  rw [hfirst.trans h i]
  dsimp only
  cases ho : outputs[i]? with
  | none => rfl
  | some o =>
    rw [Option.map_some, Option.map_some]
    by_cases hopen : 0 ≤ o.fd
    · rw [if_pos hopen, if_pos hopen, hwhole i o ho hopen, List.flatMap_cons, List.append_assoc]
    · rw [if_neg hopen, if_neg hopen]

/-- How many bytes the next frame carries. -/
def textChunkLen (bytes : List UInt8) : ℕ :=
  if bytes.length > transportMaxPayload then transportMaxPayload else bytes.length

theorem writeTextFrames_step {owner : ℕ → Option Tid} {k : ℕ} {bytes : List UInt8}
    (hne : bytes ≠ []) :
    writeTextFrames replies owner self k outputs bytes =
      if (vfsWriteFrame replies (owner k) self outputs frameTypeText
        (some (bytes.take (textChunkLen bytes)))).2 ≠ .ok
      then vfsWriteFrame replies (owner k) self outputs frameTypeText
        (some (bytes.take (textChunkLen bytes)))
      else writeTextFrames replies owner self (k + 1) (vfsWriteFrame replies (owner k) self outputs
        frameTypeText (some (bytes.take (textChunkLen bytes)))).1 (bytes.drop (textChunkLen bytes)) := by
  have hlen : ¬ bytes.length = 0 := fun h => hne (List.length_eq_zero_iff.mp h)
  rw [writeTextFrames, if_neg hlen]
  rfl

/-- The loop sends the text piece by piece, up to its end or to a frame that fails. -/
theorem writeTextFrames_spec (replies : ℕ → Replies) (owner : ℕ → Option Tid) (self : Option Tid)
    (k : ℕ) (outputs : List (Output UInt8)) (bytes : List UInt8) :
    ∃ chunks rest got, bytes = chunks.flatten ++ rest ∧
      (∀ chunk ∈ chunks, chunk.length ≤ transportMaxPayload) ∧
      (rest ≠ [] → ∀ chunk ∈ chunks, chunk.length = transportMaxPayload) ∧
      TextSent outputs (writeTextFrames replies owner self k outputs bytes).1 chunks got ∧
      (((writeTextFrames replies owner self k outputs bytes).2 = .ok ∧ rest = [] ∧
          ∀ i, got i = []) ∨
        ((writeTextFrames replies owner self k outputs bytes).2 ≠ .ok ∧ rest ≠ [] ∧
          FrameFailed (owner (k + chunks.length)) self outputs (rest.take (textChunkLen rest))
            got)) := by
  induction hn : bytes.length using Nat.strong_induction_on generalizing k outputs bytes with
  | _ n ih =>
    by_cases hnil : bytes = []
    · subst hnil
      have hdone : writeTextFrames replies owner self k outputs [] = (outputs, .ok) := by
        rw [writeTextFrames]
        exact if_pos rfl
      rw [hdone]
      exact ⟨[], [], fun _ => [], rfl, nofun, nofun, received_nil outputs, .inl ⟨rfl, rfl, fun _ => rfl⟩⟩
    · have hpos : 0 < bytes.length := List.length_pos_of_ne_nil hnil
      have hchunk : textChunkLen bytes = min transportMaxPayload bytes.length := by
        unfold textChunkLen
        split <;> omega
      have hfit : (bytes.take (textChunkLen bytes)).length ≤ transportMaxPayload := by
        rw [List.length_take]
        omega
      rw [writeTextFrames_step hnil]
      by_cases howner : owner k = self
      · -- the guard refuses the frame
        rw [vfsWriteFrame_refused howner _ hfit, if_pos nofun]
        exact ⟨[], bytes, fun _ => [], rfl, nofun, fun _ => nofun, received_nil outputs,
          .inr ⟨nofun, hnil, fun _ => List.nil_sublist _, .inl ⟨howner, fun _ => rfl⟩⟩⟩
      · obtain ⟨sent, hreceived, hparts, hok⟩ := vfsWriteFrame_received replies outputs
          howner frameTypeText hfit
        split
        case isTrue hfail =>
          have hcut : ∃ (i : ℕ) (o : Output UInt8), outputs[i]? = some o ∧ 0 ≤ o.fd ∧
              sent i ≠ frameBytes frameTypeText (bytes.take (textChunkLen bytes)) := by
            by_contra hall
            push Not at hall
            exact hfail (hok.mpr hall)
          exact ⟨[], bytes, sent, rfl, nofun, fun _ => nofun, hreceived,
            .inr ⟨hfail, hnil, hparts, .inr hcut⟩⟩
        case isFalse hwhole =>
          rw [ne_eq, not_not] at hwhole
          have hpos' : 0 < transportMaxPayload := by decide
          have hshorter : (bytes.drop (textChunkLen bytes)).length < n := by
            rw [List.length_drop]
            omega
          obtain ⟨chunks, rest, got, hsplit, hle, hfull, hsent, hend⟩ := ih _ hshorter (k + 1) _ _ rfl
          refine ⟨bytes.take (textChunkLen bytes) :: chunks, rest, got, ?_, ?_, ?_,
            TextSent.cons hreceived (hok.mp hwhole) hsent, ?_⟩
          · rw [List.flatten_cons, List.append_assoc, ← hsplit, List.take_append_drop]
          · intro chunk hmem
            rcases List.mem_cons.mp hmem with rfl | hmem
            · exact hfit
            · exact hle chunk hmem
          · intro hrest chunk hmem
            rcases List.mem_cons.mp hmem with rfl | hmem
            · have hlength := congrArg List.length hsplit
              have hrestpos := List.length_pos_of_ne_nil hrest
              rw [List.length_drop, List.length_append] at hlength
              rw [List.length_take]
              omega
            · exact hfull hrest chunk hmem
          · have hindex : k + 1 + chunks.length =
                k + (bytes.take (textChunkLen bytes) :: chunks).length := by
              rw [List.length_cons]
              omega
            rw [hindex] at hend
            rcases hend with hdone | ⟨herr, hrest, hfailed⟩
            · exact .inl hdone
            · exact .inr ⟨herr, hrest, hfailed.of_received hreceived⟩

/-- A write that returns the size has sent the text in frames, whole on every open
output. A write that returns -1 has sent so much of it as was in front of the first
frame that failed, and parts of that frame; nothing behind it. -/
theorem vfsWrite_frames {owner : ℕ → Option Tid} (outputs : List (Output UInt8))
    (bytes : List UInt8) :
    vfsWrite replies owner self outputs none = (outputs, -1) ∧
    ((vfsWrite replies owner self outputs (some bytes)).2 = bytes.length ∨
      (vfsWrite replies owner self outputs (some bytes)).2 = -1) ∧
    ((vfsWrite replies owner self outputs (some bytes)).2 = bytes.length →
      ∃ chunks, chunks.flatten = bytes ∧ (∀ chunk ∈ chunks, chunk.length ≤ transportMaxPayload) ∧
        TextSent outputs (vfsWrite replies owner self outputs (some bytes)).1 chunks fun _ => []) ∧
    ((vfsWrite replies owner self outputs (some bytes)).2 = -1 →
      ∃ chunks failed rest got, bytes = chunks.flatten ++ (failed ++ rest) ∧
        (∀ chunk ∈ chunks, chunk.length = transportMaxPayload) ∧
        failed ≠ [] ∧ failed.length ≤ transportMaxPayload ∧
        TextSent outputs (vfsWrite replies owner self outputs (some bytes)).1 chunks got ∧
        FrameFailed (owner chunks.length) self outputs failed got) := by
  obtain ⟨chunks, rest, got, hsplit, hle, hfull, hsent, hend⟩ :=
    writeTextFrames_spec replies owner self 0 outputs bytes
  unfold vfsWrite
  dsimp only
  refine ⟨rfl, ?_⟩
  rcases hend with ⟨hok, rfl, hgot⟩ | ⟨herr, hrest, hfailed⟩
  · rw [if_neg (not_not.mpr hok)]
    refine ⟨.inl rfl, fun _ => ⟨chunks, ?_, hle, ?_⟩, fun hneg => ?_⟩
    · rw [hsplit, List.append_nil]
    · have hnone : got = fun _ => [] := funext hgot
      rw [← hnone]
      exact hsent
    · omega
  · rw [if_pos herr]
    refine ⟨.inr rfl, fun hsize => ?_, fun _ => ?_⟩
    · omega
    · have hpos := List.length_pos_of_ne_nil hrest
      have hchunk : 0 < textChunkLen rest ∧ textChunkLen rest ≤ transportMaxPayload := by
        have hmax : 0 < transportMaxPayload := by decide
        unfold textChunkLen
        split <;> omega
      rw [Nat.zero_add] at hfailed
      refine ⟨chunks, rest.take (textChunkLen rest), rest.drop (textChunkLen rest), got, ?_,
        hfull hrest, ?_, ?_, hsent, hfailed⟩
      · rw [List.take_append_drop]
        exact hsplit
      · rw [← List.length_pos_iff, List.length_take]
        omega
      · rw [List.length_take]
        omega

/-- The second of the outputs fails. -/
def secondFails (i : ℕ) : Replies := if i = 0 then takes 128 else failsOnce

/-- One output takes the text, the other fails, and the caller is told that all failed. -/
theorem vfsWrite_failed_but_sent :
    (vfsWrite secondFails (fun _ => none) (some 0) twoFds (some [0x61])).2 = -1 ∧
      ((vfsWrite secondFails (fun _ => none) (some 0) twoFds (some [0x61])).1[0]?).map
        Output.wire = some (frameBytes frameTypeText [0x61]) := by
  have howner : (none : Option ℕ) ≠ some 0 := nofun
  have hfit : ([0x61] : List UInt8).length ≤ transportMaxPayload := by decide
  have hbatches : frameBatches frameTypeText [0x61] = [frameBytes frameTypeText [0x61]] := by
    decide +kernel
  have hlength : (frameBytes frameTypeText [0x61]).length = 6 := by decide +kernel
  generalize frameBytes frameTypeText [0x61] = frame at hbatches hlength ⊢
  have hfirst : (secondFails 0).taken 0 [frame] = [frame] := by
    have htakes : secondFails 0 = takes 128 := if_pos rfl
    rw [htakes, Replies.taken, Replies.taken,
      (takes 128).accepts_whole (n := 0) (by omega) (by rw [hlength]; decide), List.take_length]
  have hsecond : (secondFails 1).taken 0 [frame] = [[]] := by
    have hfails : secondFails 1 = failsOnce := if_neg Nat.one_ne_zero
    rw [hfails, Replies.taken, Replies.taken,
      failsOnce.accepts_failed (n := 0) (by omega) (by decide) (by decide), List.take_zero]
  have hframe : vfsWriteFrame secondFails none (some 0) twoFds frameTypeText (some [0x61]) =
      sendBatches secondFails none (some 0) twoFds [frame] := by
    rw [vfsWriteFrame_fits hfit, hbatches]
  have herr : (vfsWriteFrame secondFails none (some 0) twoFds frameTypeText
      (some [0x61])).2 ≠ .ok := by
    rw [hframe, ne_eq, sendBatches_ok howner]
    intro hall
    have hwhole := hall 1 ⟨4, [], 0⟩ rfl (by decide)
    rw [hsecond] at hwhole
    have hnil := (List.cons.inj hwhole).1
    rw [← hnil] at hlength
    cases hlength
  have hstop : writeTextFrames secondFails (fun _ => none) (some 0) 0 twoFds [0x61] =
      vfsWriteFrame secondFails none (some 0) twoFds frameTypeText (some [0x61]) := by
    rw [writeTextFrames_step (List.cons_ne_nil _ _)]
    exact if_pos herr
  have hwire := ((⟨3, [], 0⟩ : Output UInt8).given_open (secondFails 0) (by decide) [frame]).2
  rw [hfirst, List.flatten_singleton, List.nil_append] at hwire
  have hhead : twoFds[0]? = some ⟨3, [], 0⟩ := rfl
  unfold vfsWrite
  dsimp only
  rw [hstop, if_pos herr, hframe, sendBatches_outputs howner, hhead, Option.map_some,
    Option.map_some, hwire]
  exact ⟨rfl, rfl⟩

end On9log
