import On9log.Lib.ShortWrites
import On9log.EspVfs

/-!
# The VFS transport when writes fail (esp_stdio_log_vfs.c:244-446)

Here `write` may be interrupted, take less than it is given, or fail, on each
output by itself. `replies i` are the answers of output `i`. A frame goes out in
batches, and each batch to every open output, also to one that failed before.
The content of a frame plays no part in this, so the writer takes batches of any
type.
-/

namespace On9log
open Lib

variable {α : Type}

/-- One of the `outputs`, what it has received, and the calls of `write` made on it. -/
structure Output (α : Type) where
  fd : ℤ
  wire : List α
  calls : ℕ

namespace Output

variable (r : Replies) (o : Output α)

def called : Output α := { o with calls := o.calls + 1 }

def received (data : List α) : Output α := { o with wire := o.wire ++ data, calls := o.calls + 1 }

/-- `esp_stdio_log_vfs_write_all`. -/
def writeAll (o : Output α) (data : List α) : Output α × Bool :=
  if data.length = 0 then (o, true)
  else if (r.reply o.calls).Interrupted then writeAll o.called data
  else if (r.reply o.calls).written ≤ 0 then (o.called, false)
  else
    writeAll (o.received (data.take (r.reply o.calls).written.toNat))
      (data.drop (r.reply o.calls).written.toNat)
termination_by (data.length, r.wait o.calls)
decreasing_by
  · exact Prod.Lex.right _ (r.wait_succ_lt ‹_›)
  · refine Prod.Lex.left _ _ ?_
    rw [List.length_drop]
    omega

theorem writeAll_eq (data : List α) : o.writeAll r data =
    (⟨o.fd, o.wire ++ data.take (r.accepts o.calls data.length).1,
      (r.accepts o.calls data.length).2⟩,
      decide ((r.accepts o.calls data.length).1 = data.length)) := by
  induction o, data using writeAll.induct r with
  | case1 o data hlen =>
    have haccepts : r.accepts o.calls data.length = (0, o.calls) := by
      rw [hlen, Replies.accepts_zero]
    rw [writeAll, if_pos hlen, haccepts, List.take_zero, List.append_nil,
      decide_eq_true hlen.symm]
  | case2 o data hlen hint ih =>
    have haccepts : r.accepts o.calls data.length = r.accepts (o.calls + 1) data.length := by
      rw [Replies.accepts, if_neg hlen, if_pos hint]
    rw [writeAll, if_neg hlen, if_pos hint, ih, haccepts]
    rfl
  | case3 o data hlen hint hfail =>
    have haccepts := r.accepts_failed hlen hint hfail
    have hne : ¬ 0 = data.length := fun h => hlen h.symm
    rw [writeAll, if_neg hlen, if_neg hint, if_pos hfail, haccepts, List.take_zero,
      List.append_nil, decide_eq_false hne]
    rfl
  | case4 o data hlen hint htook ih =>
    obtain ⟨count, hcount⟩ : ∃ count, (r.reply o.calls).written.toNat = count := ⟨_, rfl⟩
    obtain ⟨k, n, hrest⟩ : ∃ k n, r.accepts (o.calls + 1) (data.length - count) = (k, n) :=
      ⟨_, _, rfl⟩
    have haccepts : r.accepts o.calls data.length = (min count data.length + k, n) := by
      rw [Replies.accepts, if_neg hlen, if_neg hint, if_neg htook, hcount, hrest]
    have hle := r.accepts_le (o.calls + 1) (data.length - count)
    rw [hrest] at hle
    dsimp only at hle
    -- what the first call took, and what the others take of the rest
    have htake : data.take count ++ (data.drop count).take k =
        data.take (min count data.length + k) := by
      by_cases hshort : data.length ≤ count
      · rw [Nat.min_eq_right hshort, List.take_of_length_le hshort,
          List.drop_of_length_le hshort, List.take_nil, List.append_nil,
          List.take_of_length_le (Nat.le_add_right _ _)]
      · rw [Nat.min_eq_left (by omega), List.take_add]
    have hcalls : (o.received (data.take count)).calls = o.calls + 1 := rfl
    have hwire : (o.received (data.take count)).wire = o.wire ++ data.take count := rfl
    have hall : (k = data.length - count) = (min count data.length + k = data.length) := by
      apply propext
      omega
    rw [hcount, List.length_drop, hcalls, hwire, hrest] at ih
    rw [writeAll, if_neg hlen, if_neg hint, if_neg htook, hcount, ih, haccepts, List.append_assoc,
      htake]
    simp only [hall]
    rfl

/-- The output when all batches have been written to it, if it is open. -/
def given (batches : List (List α)) : Output α :=
  if 0 ≤ o.fd then batches.foldl (fun o batch => (o.writeAll r batch).1) o else o

theorem given_closed (h : ¬ 0 ≤ o.fd) (batches : List (List α)) : o.given r batches = o := if_neg h

theorem given_cons (batch : List α) (batches : List (List α)) :
    o.given r (batch :: batches) = (o.given r [batch]).given r batches := by
  have hfd : (o.writeAll r batch).1.fd = o.fd := by
    rw [writeAll_eq]
  unfold given
  by_cases hopen : 0 ≤ o.fd
  · rw [if_pos hopen, if_pos hopen, List.foldl_cons, List.foldl_cons, List.foldl_nil, hfd,
      if_pos hopen]
  · rw [if_neg hopen, if_neg hopen, if_neg hopen]

/-- An open output receives what it takes of each batch. -/
theorem given_open (h : 0 ≤ o.fd) (batches : List (List α)) :
    (o.given r batches).fd = o.fd ∧
      (o.given r batches).wire = o.wire ++ (r.taken o.calls batches).flatten := by
  induction batches generalizing o with
  | nil =>
    unfold given
    rw [if_pos h]
    exact ⟨rfl, (List.append_nil _).symm⟩
  | cons batch batches ih =>
    have hone : o.given r [batch] = (o.writeAll r batch).1 := if_pos h
    have hrest := ih (o.given r [batch]) (by rw [hone, writeAll_eq]; exact h)
    rw [given_cons, hrest.1, hrest.2, hone, writeAll_eq, Replies.taken, List.flatten_cons,
      List.append_assoc]
    exact ⟨rfl, rfl⟩

end Output

/-- The outputs, and `ok` of the frame writer. -/
structure VfsWriter (α : Type) where
  outputs : List (Output α)
  ok : Bool

namespace VfsWriter

variable (replies : ℕ → Replies) (w : VfsWriter α)

/-- What `esp_stdio_log_vfs_write_all` makes of the outputs, those that are open. -/
def written (batch : List α) : List (Output α × Bool) :=
  w.outputs.mapIdx fun i o => if 0 ≤ o.fd then o.writeAll (replies i) batch else (o, true)

/-- The loop of `esp_stdio_log_vfs_frame_writer_flush`. -/
def flush (w : VfsWriter α) (batch : List α) : VfsWriter α where
  outputs := (w.written replies batch).map Prod.fst
  ok := w.ok && (w.written replies batch).all Prod.snd

variable {w}

theorem flush_outputs (batch : List α) (i : ℕ) : (w.flush replies batch).outputs[i]? =
    w.outputs[i]?.map fun o => o.given (replies i) [batch] := by
  unfold flush written
  rw [List.getElem?_map, List.getElem?_mapIdx, Option.map_map]
  congr 1
  funext o
  unfold Output.given
  rw [Function.comp]
  split
  · rfl
  · rfl

theorem flush_ok (batch : List α) : (w.flush replies batch).ok = true ↔
    w.ok = true ∧ ∀ (i : ℕ) (o : Output α), w.outputs[i]? = some o → 0 ≤ o.fd →
      (o.writeAll (replies i) batch).2 = true := by
  unfold flush written
  rw [Bool.and_eq_true, List.all_eq_true]
  apply and_congr_right
  intro _
  constructor
  · intro hall i o ho hopen
    have hmem := List.mem_of_getElem? (l := w.outputs.mapIdx fun i o =>
      if 0 ≤ o.fd then o.writeAll (replies i) batch else (o, true)) (i := i)
      (a := o.writeAll (replies i) batch) (by rw [List.getElem?_mapIdx, ho]; simp [hopen])
    exact hall _ hmem
  · intro hall p hp
    obtain ⟨i, hi, rfl⟩ := List.mem_iff_getElem.mp hp
    rw [List.length_mapIdx] at hi
    rw [List.getElem_mapIdx]
    split
    case isTrue hopen => exact hall i _ (List.getElem?_eq_getElem hi) hopen
    case isFalse => rfl

/-- Every output receives what it takes of the batches, whatever the others do, and
`ok` says that all took everything. -/
theorem foldl_flush (w : VfsWriter α) (batches : List (List α)) :
    (∀ i : ℕ, (batches.foldl (flush replies) w).outputs[i]? =
        w.outputs[i]?.map fun o => o.given (replies i) batches) ∧
      ((batches.foldl (flush replies) w).ok = true ↔
        w.ok = true ∧ ∀ (i : ℕ) (o : Output α), w.outputs[i]? = some o → 0 ≤ o.fd →
          (replies i).taken o.calls batches = batches) := by
  induction batches generalizing w with
  | nil =>
    refine ⟨fun i => ?_, ?_⟩
    · have hid : (fun o : Output α => o.given (replies i) []) = id := by
        funext o
        unfold Output.given
        split
        · rfl
        · rfl
      rw [hid, Option.map_id]
      rfl
    · exact ⟨fun h => ⟨h, fun _ _ _ _ => rfl⟩, fun h => h.1⟩
  | cons batch batches ih =>
    obtain ⟨houtputs, hok⟩ := ih (w.flush replies batch)
    rw [List.foldl_cons]
    refine ⟨fun i => ?_, ?_⟩
    · rw [houtputs i, flush_outputs, Option.map_map]
      congr 1
      funext o
      exact (o.given_cons (replies i) batch batches).symm
    · rw [hok, flush_ok, and_assoc]
      apply and_congr_right
      intro _
      -- each output took the first batch, and then the others
      have hsplit : ∀ (i : ℕ) (o : Output α), 0 ≤ o.fd → ((replies i).taken o.calls (batch :: batches) =
          batch :: batches ↔ (o.writeAll (replies i) batch).2 = true ∧
            (replies i).taken (o.given (replies i) [batch]).calls batches = batches) := by
        intro i o hopen
        have hone : o.given (replies i) [batch] = (o.writeAll (replies i) batch).1 := if_pos hopen
        have hle := (replies i).accepts_le o.calls batch.length
        have htake : batch.take ((replies i).accepts o.calls batch.length).1 = batch ↔
            ((replies i).accepts o.calls batch.length).1 = batch.length := by
          rw [List.take_eq_self_iff]
          omega
        rw [hone, Output.writeAll_eq, Replies.taken, List.cons.injEq, htake, decide_eq_true_iff]
      constructor
      · rintro ⟨hfirst, hrest⟩ i o ho hopen
        have hnext : (w.flush replies batch).outputs[i]? = some (o.given (replies i) [batch]) := by
          rw [flush_outputs, ho]
          rfl
        have hopen' : 0 ≤ (o.given (replies i) [batch]).fd := by
          rw [(o.given_open (replies i) hopen [batch]).1]
          exact hopen
        exact (hsplit i o hopen).mpr ⟨hfirst i o ho hopen, hrest i _ hnext hopen'⟩
      · intro hall
        refine ⟨fun i o ho hopen => ((hsplit i o hopen).mp (hall i o ho hopen)).1, ?_⟩
        intro i o' ho' hopen'
        rw [flush_outputs] at ho'
        obtain ⟨o, ho, rfl⟩ := Option.map_eq_some_iff.mp ho'
        have hopen : 0 ≤ o.fd := by
          by_contra hclosed
          rw [o.given_closed (replies i) hclosed] at hopen'
          exact hclosed hopen'
        exact ((hsplit i o hopen).mp (hall i o ho hopen)).2

end VfsWriter

/-! ### A frame -/

section Frame

variable {Tid : Type} [DecidableEq Tid] (replies : ℕ → Replies) (owner self : Option Tid)

/-- The part of `esp_stdio_log_vfs_write_frame` behind its checks; `owner` is the
task inside the transport. -/
def sendBatches (outputs : List (Output α)) (batches : List (List α)) :
    List (Output α) × EspErr :=
  if owner = self then (outputs, .fail)
  else
    let writer := batches.foldl (VfsWriter.flush replies) ⟨outputs, true⟩
    (writer.outputs, if writer.ok then .ok else .fail)

/-- `esp_stdio_log_vfs_write_frame`. -/
def vfsWriteFrame (outputs : List (Output UInt8)) (type : UInt8) (payload : Option (List UInt8)) :
    List (Output UInt8) × EspErr :=
  match payload with
  | none => (outputs, .invalidArg)
  | some payload =>
    if transportMaxPayload < payload.length then (outputs, .invalidSize)
    else sendBatches replies owner self outputs (frameBatches type payload)

variable {replies owner self}

theorem sendBatches_outputs (howner : owner ≠ self) (outputs : List (Output α))
    (batches : List (List α)) (i : ℕ) :
    (sendBatches replies owner self outputs batches).1[i]? =
      outputs[i]?.map fun o => o.given (replies i) batches := by
  unfold sendBatches
  rw [if_neg howner]
  exact (VfsWriter.foldl_flush replies _ batches).1 i

theorem sendBatches_ok (howner : owner ≠ self) (outputs : List (Output α))
    (batches : List (List α)) :
    (sendBatches replies owner self outputs batches).2 = .ok ↔
      ∀ (i : ℕ) (o : Output α), outputs[i]? = some o → 0 ≤ o.fd →
        (replies i).taken o.calls batches = batches := by
  have hok := (VfsWriter.foldl_flush replies ⟨outputs, true⟩ batches).2
  unfold sendBatches
  rw [if_neg howner]
  rw [and_iff_right (rfl : (⟨outputs, true⟩ : VfsWriter α).ok = true)] at hok
  dsimp only at hok ⊢
  rw [← hok]
  split
  case isTrue h => exact ⟨fun _ => h, fun _ => rfl⟩
  case isFalse h => exact ⟨nofun, fun h' => absurd h' h⟩

variable {outputs : List (Output UInt8)} {payload : List UInt8}

theorem vfsWriteFrame_fits (hlen : payload.length ≤ transportMaxPayload) (type : UInt8) :
    vfsWriteFrame replies owner self outputs type (some payload) =
      sendBatches replies owner self outputs (frameBatches type payload) := by
  unfold vfsWriteFrame
  exact if_neg (Nat.not_lt.mpr hlen)

/-- The guard lets no byte through. -/
theorem vfsWriteFrame_refused (howner : owner = self) (type : UInt8)
    (hlen : payload.length ≤ transportMaxPayload) :
    vfsWriteFrame replies owner self outputs type (some payload) = (outputs, .fail) := by
  rw [vfsWriteFrame_fits hlen]
  exact if_pos howner

/-- Outside a transport operation `ESP_OK` says that every open output has received
the frame, and nothing else does. -/
theorem vfsWriteFrame_ok_iff (hlen : payload.length ≤ transportMaxPayload)
    (houtside : owner ≠ self ∨ ∃ (i : ℕ) (o : Output UInt8), outputs[i]? = some o ∧ 0 ≤ o.fd)
    (type : UInt8) :
    (vfsWriteFrame replies owner self outputs type (some payload)).2 = .ok ↔
      ∀ (i : ℕ) (o : Output UInt8), outputs[i]? = some o → 0 ≤ o.fd →
        ((vfsWriteFrame replies owner self outputs type (some payload)).1[i]?).map Output.wire =
          some (o.wire ++ frameBytes type payload) := by
  by_cases howner : owner = self
  · rw [vfsWriteFrame_refused howner type hlen]
    constructor
    · exact nofun
    · intro hall
      rcases houtside with hne | ⟨i, o, ho, hopen⟩
      · exact absurd howner hne
      · have hwire := hall i o ho hopen
        rw [ho, Option.map_some, Option.some.injEq] at hwire
        have hlength := congrArg List.length hwire
        rw [List.length_append, frameBytes, List.cons_append, List.length_cons] at hlength
        omega
  · rw [vfsWriteFrame_fits hlen, sendBatches_ok howner]
    refine forall₄_congr fun i o ho hopen => ?_
    rw [sendBatches_outputs howner, ho, Option.map_some, Option.map_some,
      (o.given_open (replies i) hopen _).2, Option.some.injEq, List.append_right_inj,
      ← frameBatches_flatten, Replies.taken_flatten_eq_iff]

end Frame

/-- An output that takes at most `count` bytes a call. -/
def takes (count : ℕ) : Replies where
  reply _ := ⟨count, false⟩
  resumes _ := ⟨0, fun h => Bool.false_ne_true h.2⟩

def twoFds : List (Output UInt8) := [⟨3, [], 0⟩, ⟨4, [], 0⟩]

theorem vfsWriteFrame_ok_iff_two :
    (vfsWriteFrame (fun i => takes (i + 1)) none (some 0) twoFds frameTypeText
      (some [0x61])).2 = .ok ↔
      ∀ (i : ℕ) (o : Output UInt8), twoFds[i]? = some o → 0 ≤ o.fd →
        ((vfsWriteFrame (fun i => takes (i + 1)) none (some 0) twoFds frameTypeText
          (some [0x61])).1[i]?).map Output.wire = some (o.wire ++ frameBytes frameTypeText [0x61]) := by
  have howner : (none : Option ℕ) ≠ some 0 := nofun
  exact vfsWriteFrame_ok_iff (by decide) (.inl howner) frameTypeText

/-! ### A frame that fails part way -/

/-- The output with no byte on its wire, in the middle of its calls. -/
def Output.blank (o : Output UInt8) : Output ℕ := ⟨o.fd, [], o.calls⟩

section CutShort

variable {Tid : Type} [DecidableEq Tid] (replies : ℕ → Replies) (owner self : Option Tid)
  (outputs : List (Output UInt8)) (type : UInt8) (payload : List UInt8)

/-- Output `i` receives the first bytes of the frame, as many as it gets. The second
part says the same of their places: none is missing before another. -/
def CutShortAt (i : ℕ) (o : Output UInt8) : Prop :=
  (∃ bytes, ((vfsWriteFrame replies owner self outputs type (some payload)).1[i]?).map
      Output.wire = some (o.wire ++ bytes) ∧ bytes <+: frameBytes type payload) ∧
    ∃ places, ((sendBatches replies owner self (outputs.map Output.blank)
        (Replies.places 0 (frameBatches type payload))).1[i]?).map Output.wire = some places ∧
      places <+: List.range (frameBytes type payload).length

variable {replies owner self outputs type payload}

theorem cutShortAt_refused (hlen : payload.length ≤ transportMaxPayload) (howner : owner = self)
    {i : ℕ} {o : Output UInt8} (ho : outputs[i]? = some o) :
    CutShortAt replies owner self outputs type payload i o := by
  constructor
  · refine ⟨[], ?_, List.nil_prefix⟩
    rw [vfsWriteFrame_refused howner type hlen, ho, List.append_nil]
    rfl
  · refine ⟨[], ?_, List.nil_prefix⟩
    rw [sendBatches, if_pos howner, List.getElem?_map, ho]
    rfl

theorem cutShortAt_iff (hlen : payload.length ≤ transportMaxPayload) (howner : owner ≠ self)
    {i : ℕ} {o : Output UInt8} (ho : outputs[i]? = some o) :
    CutShortAt replies owner self outputs type payload i o ↔
      (0 ≤ o.fd → (replies i).StopsOnFailure o.calls
        ((frameBatches type payload).map List.length)) := by
  have hbytes : ((vfsWriteFrame replies owner self outputs type (some payload)).1[i]?).map
      Output.wire = some (o.given (replies i) (frameBatches type payload)).wire := by
    rw [vfsWriteFrame_fits hlen, sendBatches_outputs howner, ho]
    rfl
  have hplaces : ((sendBatches replies owner self (outputs.map Output.blank)
      (Replies.places 0 (frameBatches type payload))).1[i]?).map Output.wire =
        some (o.blank.given (replies i) (Replies.places 0 (frameBatches type payload))).wire := by
    rw [sendBatches_outputs howner, List.getElem?_map, ho]
    rfl
  unfold CutShortAt
  rw [hbytes, hplaces, ← frameBatches_flatten]
  by_cases hopen : 0 ≤ o.fd
  · have hblank := (o.blank.given_open (replies i) hopen
      (Replies.places 0 (frameBatches type payload))).2
    rw [(o.given_open (replies i) hopen _).2, hblank]
    have hcalls : o.blank.calls = o.calls := rfl
    have hwire : o.blank.wire = [] := rfl
    rw [hcalls, hwire, List.nil_append, forall_prop_of_true hopen]
    constructor
    · rintro ⟨-, places, hsome, hprefix⟩
      rw [← Option.some.inj hsome] at hprefix
      exact (Replies.places_prefix_iff _ _).mp hprefix
    · intro hstops
      exact ⟨⟨_, rfl, hstops.prefix⟩, _, rfl, (Replies.places_prefix_iff _ _).mpr hstops⟩
  · rw [o.given_closed (replies i) hopen, o.blank.given_closed (replies i) hopen]
    refine iff_of_true ⟨⟨[], ?_, List.nil_prefix⟩, [], rfl, List.nil_prefix⟩
      fun h => absurd h hopen
    rw [List.append_nil]

/-- A frame is only ever cut short exactly when no open output takes a byte of it after a
write to that output failed. The stdio sink stops at the first byte that fails. -/
theorem vfsWriteFrame_cut_short_iff (hlen : payload.length ≤ transportMaxPayload) :
    ((∀ (i : ℕ) (o : Output UInt8), outputs[i]? = some o →
        CutShortAt replies owner self outputs type payload i o) ↔
      owner = self ∨ ∀ (i : ℕ) (o : Output UInt8), outputs[i]? = some o → 0 ≤ o.fd →
        (replies i).StopsOnFailure o.calls ((frameBatches type payload).map List.length)) ∧
    ∀ (fputc : ℕ → Bool) (s : StdioState), ∃ bytes, (s.finish fputc).stream = s.stream ++ bytes ∧
      bytes <+: frameBytes frameTypeOn9log s.framePayload := by
  refine ⟨?_, fun fputc s => s.finish_prefix fputc⟩
  by_cases howner : owner = self
  · exact iff_of_true (fun i o ho => cutShortAt_refused hlen howner ho) (.inl howner)
  · rw [or_iff_right howner]
    refine forall₃_congr fun i o ho => ?_
    exact cutShortAt_iff hlen howner ho

end CutShort

/-- An output whose first call of `write` fails; the others take all they are given. -/
def failsOnce : Replies where
  reply n := if n = 0 then ⟨-1, false⟩ else ⟨128, false⟩
  resumes n := by
    refine ⟨0, fun h => ?_⟩
    have heintr := h.2
    split at heintr <;> exact Bool.false_ne_true heintr

/-- A frame of one batch. -/
theorem vfsWriteFrame_cut_short_one :
    CutShortAt (fun _ => failsOnce) none (some 0) twoFds frameTypeText [0x61] 0 ⟨3, [], 0⟩ := by
  have hfit : ([0x61] : List UInt8).length ≤ transportMaxPayload := by decide
  have hone : (frameBatches frameTypeText [0x61]).map List.length = [6] := by decide
  have hstops : ∀ n, failsOnce.StopsOnFailure n [6] := by
    intro n
    unfold Replies.StopsOnFailure
    split <;> trivial
  refine (vfsWriteFrame_cut_short_iff hfit).1.mpr (.inr fun i o _ _ => ?_) 0 ⟨3, [], 0⟩ rfl
  rw [hone]
  exact hstops o.calls

/-- 130 zero bytes fill the first batch; that is lost, and the rest of the frame goes out. -/
theorem vfsWriteFrame_gap : ∃ bytes,
    ((vfsWriteFrame (fun _ => failsOnce) none (some 0) [⟨3, [], 0⟩] frameTypeText
      (some (List.replicate 130 0))).1[0]?).map Output.wire = some bytes ∧ bytes ≠ [] ∧
      ¬ bytes <+: frameBytes frameTypeText (List.replicate 130 0) := by
  have howner : (none : Option ℕ) ≠ some 0 := nofun
  have hfit : (List.replicate 130 (0 : UInt8)).length ≤ transportMaxPayload := by
    rw [List.length_replicate]
    decide
  have hopen : 0 ≤ (⟨3, [], 0⟩ : Output UInt8).fd := by decide
  have hlengths : (frameBatches frameTypeText (List.replicate 130 0)).map List.length =
      [128, 7] := by decide +kernel
  have hcount : (frameBatches frameTypeText (List.replicate 130 0)).length = 2 := by
    rw [← List.length_map (f := List.length), hlengths]
    rfl
  obtain ⟨first, second, hbatches⟩ := List.length_eq_two.mp hcount
  have hsecond : second = (frameBatches frameTypeText (List.replicate 130 0)).getD 1 [] := by
    rw [hbatches]
    rfl
  rw [hbatches] at hlengths
  have hfull : first.length = 128 := (List.cons.inj hlengths).1
  have hshort : second.length = 7 := (List.cons.inj (List.cons.inj hlengths).2).1
  have htaken : failsOnce.taken 0 [first, second] = [[], second] := by
    rw [Replies.taken, Replies.taken, Replies.taken,
      failsOnce.accepts_failed (n := 0) (by omega) (by decide) (by decide),
      failsOnce.accepts_whole (n := 1) (by omega) (by rw [hshort]; decide), List.take_zero,
      List.take_length]
  have hwire := (Output.given_open failsOnce (⟨3, [], 0⟩ : Output UInt8) hopen
    [first, second]).2
  refine ⟨second, ?_, ?_, ?_⟩
  · rw [vfsWriteFrame_fits hfit, sendBatches_outputs howner, hbatches, List.getElem?_cons_zero,
      Option.map_some, Option.map_some, hwire, htaken]
    simp
  · rintro rfl
    cases hshort
  · rw [hsecond]
    decide +kernel

end On9log
