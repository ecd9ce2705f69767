import Mathlib.Data.Int.Notation
import Mathlib.Logic.Function.Basic
import On9log.FrameWriter
import On9log.UnixStdio

/-!
# The VFS sink (on9log_esp_vfs.c:23-157, esp_stdio_log_vfs.c:244-276, 409-446)

The sink collects a packet and hands it to the transport, which writes the frame
to each of its outputs. `write n` is the result of the `n`-th call of `write`
that no signal interrupts; the loop makes an interrupted call again as it was.
Here the calls follow one another; tasks come with the transport.
-/

namespace On9log

/-- `esp_err_t`. -/
inductive EspErr where
  | ok
  | fail
  | invalidArg
  | invalidSize
  | invalidState
  | noMem
  deriving DecidableEq

/-- The first `output_count` of `outputs`, and what each has been given. -/
structure Outputs where
  fds : List ℤ
  wire : ℕ → List UInt8
  calls : ℕ

namespace Outputs

variable (write : ℕ → ℤ) (o : Outputs)

/-- An output that is written to. -/
def Open (i : ℕ) : Prop := i < o.fds.length ∧ 0 ≤ o.fds.getD i (-1)

instance (i : ℕ) : Decidable (o.Open i) := inferInstanceAs (Decidable (_ ∧ _))

def hand (i : ℕ) (data : List UInt8) : Outputs :=
  { o with wire := Function.update o.wire i (o.wire i ++ data), calls := o.calls + 1 }

/-- `esp_stdio_log_vfs_write_all`; each turn writes a byte or more. -/
def writeAll (i : ℕ) : ℕ → Outputs → List UInt8 → Outputs × Bool
  | 0, o, data => (o, data.isEmpty)
  | _, o, [] => (o, true)
  | n + 1, o, data =>
    if write o.calls ≤ 0 then ({ o with calls := o.calls + 1 }, false)
    else
      writeAll i n (o.hand i (data.take (write o.calls).toNat)) (data.drop (write o.calls).toNat)

/-- One turn of the loop over the outputs. -/
def flushOutput (batch : List UInt8) (r : Outputs × Bool) (i : ℕ) : Outputs × Bool :=
  if 0 ≤ r.1.fds.getD i (-1) then
    let written := writeAll write i batch.length r.1 batch
    (written.1, r.2 && written.2)
  else r

/-- The loop over the outputs in `esp_stdio_log_vfs_frame_writer_flush`. -/
def flushAll (r : Outputs × Bool) (batch : List UInt8) : Outputs × Bool :=
  (List.range r.1.fds.length).foldl (flushOutput write batch) r

/-- `esp_stdio_log_vfs_write_frame`, of a task that is not kept waiting. -/
def writeFrame {Tid : Type} [DecidableEq Tid] (owner self : Option Tid) (type : UInt8)
    (payload : Option (List UInt8)) : Outputs × EspErr :=
  match payload with
  | none => (o, .invalidArg)
  | some payload =>
    if transportMaxPayload < payload.length then (o, .invalidSize)
    else if owner = self then (o, .fail)
    else
      let r := (frameBatches type payload).foldl (flushAll write) (o, true)
      (r.1, if r.2 then .ok else .fail)

/-! ### What the outputs are given -/

/-- Every output that is open has been given `bytes`. -/
structure Gave (o : Outputs) (bytes : List UInt8) (r : Outputs × Bool) : Prop where
  ok : r.2 = true
  fds : r.1.fds = o.fds
  wire : ∀ i, r.1.wire i = o.wire i ++ if o.Open i then bytes else []

theorem open_iff {o : Outputs} {i : ℕ} :
    o.Open i ↔ i < o.fds.length ∧ 0 ≤ o.fds.getD i (-1) := Iff.rfl

variable {write : ℕ → ℤ} {o : Outputs} (hwrites : ∀ n, 0 < write n)

include hwrites

theorem writeAll_ok {i n : ℕ} {data : List UInt8} (hn : data.length ≤ n) :
    (writeAll write i n o data).2 = true ∧ (writeAll write i n o data).1.fds = o.fds ∧
      (writeAll write i n o data).1.wire = Function.update o.wire i (o.wire i ++ data) := by
  induction n generalizing o data with
  | zero =>
    have hnil : data = [] := List.eq_nil_of_length_eq_zero (by omega)
    subst hnil
    refine ⟨rfl, rfl, ?_⟩
    rw [List.append_nil, Function.update_eq_self]
    rfl
  | succ n ih =>
    cases hdata : data with
    | nil =>
      refine ⟨rfl, rfl, ?_⟩
      rw [List.append_nil, Function.update_eq_self]
      rfl
    | cons byte rest =>
      have hturn : writeAll write i (n + 1) o data = writeAll write i n
          (o.hand i (data.take (write o.calls).toNat)) (data.drop (write o.calls).toNat) := by
        rw [hdata, writeAll, if_neg (by have hpos := hwrites o.calls; omega)]
        exact nofun
      have hleft : (data.drop (write o.calls).toNat).length ≤ n := by
        have hpos := hwrites o.calls
        rw [List.length_drop]
        omega
      rw [← hdata, hturn]
      have hrest := ih (o := o.hand i (data.take (write o.calls).toNat)) hleft
      refine ⟨hrest.1, hrest.2.1, ?_⟩
      rw [hrest.2.2]
      unfold hand
      dsimp only
      rw [Function.update_self, Function.update_idem, List.append_assoc, List.take_append_drop]

theorem flushAll_ok {r : Outputs × Bool} {bytes batch : List UInt8} (h : o.Gave bytes r) :
    o.Gave (bytes ++ batch) (flushAll write r batch) := by
  have hopen : ∀ k, let r' := (List.range k).foldl (flushOutput write batch) r
      r'.2 = true ∧ r'.1.fds = o.fds ∧ ∀ i, r'.1.wire i =
        r.1.wire i ++ if i < k ∧ 0 ≤ o.fds.getD i (-1) then batch else [] := by
    intro k
    induction k with
    | zero =>
      refine ⟨h.ok, h.fds, fun i => ?_⟩
      rw [if_neg (by omega), List.append_nil]
      rfl
    | succ k ih =>
      obtain ⟨hok, hfds, hwire⟩ := ih
      dsimp only at hok hfds hwire ⊢
      rw [List.range_succ, List.foldl_append, List.foldl_cons, List.foldl_nil]
      generalize (List.range k).foldl (flushOutput write batch) r = r' at hok hfds hwire ⊢
      unfold flushOutput
      rw [hfds]
      by_cases hfd : 0 ≤ o.fds.getD k (-1)
      · rw [if_pos hfd]
        have hwritten := writeAll_ok hwrites (o := r'.1) (i := k) (Nat.le_refl batch.length)
        refine ⟨?_, hwritten.2.1.trans hfds, fun i => ?_⟩
        · dsimp only
          rw [hok, hwritten.1]
          rfl
        · dsimp only
          rw [hwritten.2.2]
          by_cases hik : i = k
          · subst hik
            rw [Function.update_self, hwire, if_neg (by omega), List.append_nil,
              if_pos ⟨Nat.lt_succ_self _, hfd⟩]
          · rw [Function.update_of_ne hik, hwire]
            have hiff : i < k ∧ 0 ≤ o.fds.getD i (-1) ↔ i < k + 1 ∧ 0 ≤ o.fds.getD i (-1) := by
              omega
            simp only [hiff]
      · rw [if_neg hfd]
        refine ⟨hok, hfds, fun i => ?_⟩
        rw [hwire]
        by_cases hik : i = k
        · subst hik
          rw [if_neg (by omega), if_neg (by omega)]
        · have hiff : i < k ∧ 0 ≤ o.fds.getD i (-1) ↔ i < k + 1 ∧ 0 ≤ o.fds.getD i (-1) := by
            omega
          simp only [hiff]
  obtain ⟨hok, hfds, hwire⟩ := hopen r.1.fds.length
  refine ⟨hok, hfds, fun i => ?_⟩
  unfold flushAll
  rw [hwire, h.wire, h.fds]
  simp only [open_iff]
  by_cases hi : i < o.fds.length ∧ 0 ≤ o.fds.getD i (-1)
  · rw [if_pos hi, if_pos hi, if_pos hi, List.append_assoc]
  · rw [if_neg hi, if_neg hi, if_neg hi, List.append_nil]

theorem writeFrame_ok {Tid : Type} [DecidableEq Tid] {owner self : Option Tid}
    (howner : owner ≠ self) (type : UInt8) {payload : List UInt8}
    (hlen : payload.length ≤ transportMaxPayload) :
    (o.writeFrame write owner self type (some payload)).2 = .ok ∧
      ∀ i, (o.writeFrame write owner self type (some payload)).1.wire i =
        o.wire i ++ if o.Open i then frameBytes type payload else [] := by
  have hbatches : ∀ (batches : List (List UInt8)) (r : Outputs × Bool) (bytes : List UInt8),
      o.Gave bytes r → o.Gave (bytes ++ batches.flatten) (batches.foldl (flushAll write) r) := by
    intro batches
    induction batches with
    | nil =>
      intro r bytes h
      rw [List.flatten_nil, List.append_nil]
      exact h
    | cons batch batches ih =>
      intro r bytes h
      rw [List.flatten_cons, ← List.append_assoc]
      exact ih _ _ (flushAll_ok hwrites h)
  have hnone : o.Gave [] (o, true) := by
    refine ⟨rfl, rfl, fun i => ?_⟩
    split <;> rw [List.append_nil]
  have hall := hbatches (frameBatches type payload) (o, true) [] hnone
  rw [List.nil_append, frameBatches_flatten] at hall
  unfold writeFrame
  dsimp only
  rw [if_neg (by omega), if_neg howner, hall.ok]
  exact ⟨rfl, hall.wire⟩

end Outputs

/-! ### The sink -/

/-- `on9log_esp_vfs_t`: the part of `data` that is in use. -/
structure EspVfsState where
  overflow : Bool
  data : List UInt8
  data_le : data.length ≤ transportMaxPayload

namespace EspVfsState

variable (e : EspVfsState)

/-- `on9log_esp_vfs_append`. -/
def append (data : List UInt8) : EspVfsState :=
  if e.overflow then e
  else if h : data.length ≤ transportMaxPayload - e.data.length then
    { overflow := e.overflow
      data := e.data ++ data
      data_le := by
        have hle := e.data_le
        rw [List.length_append]
        omega }
  else { e with overflow := true }

/-- `on9log_esp_vfs_start`. -/
def start (_ : EspVfsState) (header : List UInt8) : EspVfsState :=
  append ⟨false, [], Nat.zero_le _⟩ header

/-- `on9log_esp_vfs_end`. -/
def finish {Tid : Type} [DecidableEq Tid] (write : ℕ → ℤ) (owner self : Option Tid) (o : Outputs) :
    Outputs :=
  if e.overflow then o else (o.writeFrame write owner self frameTypeOn9log (some e.data)).1

/-- A packet as the core delivers it; each chunk goes to `on9log_esp_vfs_payload`. -/
def deliver {Tid : Type} [DecidableEq Tid] (write : ℕ → ℤ) (owner self : Option Tid) (o : Outputs)
    (header : List UInt8) (chunks : List (List UInt8)) : Outputs :=
  (chunks.foldl append (e.start header)).finish write owner self o

/-- The sink holds `content`, or more came than it has room for. -/
def Collected (content : List UInt8) : Prop :=
  if content.length ≤ transportMaxPayload then e.overflow = false ∧ e.data = content
  else e.overflow = true

variable {e}

theorem Collected.append {content : List UInt8} (h : e.Collected content) (data : List UInt8) :
    (e.append data).Collected (content ++ data) := by
  unfold Collected at h ⊢
  unfold EspVfsState.append
  rw [List.length_append]
  by_cases hlen : content.length ≤ transportMaxPayload
  · rw [if_pos hlen] at h
    obtain ⟨hover, hdata⟩ := h
    subst hdata
    have hroom : ¬ e.overflow = true := by
      rw [hover]
      exact nofun
    rw [if_neg hroom]
    by_cases hfit : data.length ≤ transportMaxPayload - e.data.length
    · rw [dif_pos hfit, if_pos (by omega)]
      exact ⟨hover, rfl⟩
    · rw [dif_neg hfit, if_neg (by omega)]
  · rw [if_neg hlen] at h
    rw [if_pos h, if_neg (by omega)]
    exact h

theorem collected_packet (header : List UInt8) (chunks : List (List UInt8)) :
    (chunks.foldl EspVfsState.append (e.start header)).Collected (header ++ chunks.flatten) := by
  have hempty : (⟨false, [], Nat.zero_le _⟩ : EspVfsState).Collected [] := ⟨rfl, rfl⟩
  have hstart : (e.start header).Collected header := hempty.append header
  generalize e.start header = e' at hstart ⊢
  induction chunks generalizing e' header with
  | nil =>
    rw [List.flatten_nil, List.append_nil]
    exact hstart
  | cons chunk chunks ih =>
    rw [List.flatten_cons, ← List.append_assoc]
    exact ih _ _ (hstart.append chunk)

end EspVfsState

/-! ### Both transports -/

theorem content_chunks (header : List UInt8) (chunks : List (List UInt8)) :
    SinkPacket.content ⟨some header, chunks.map some⟩ = some (header ++ chunks.flatten) := by
  unfold SinkPacket.content
  dsimp only
  induction chunks generalizing header with
  | nil => simp
  | cons chunk chunks ih =>
    rw [List.map_cons, List.foldl_cons, List.flatten_cons, ← List.append_assoc]
    exact ih _

/-- The VFS transport writes the bytes of the stdio sink to every open output,
when its guard lets the sink through. -/
theorem stdio_vfs_same_bytes {Tid : Type} [DecidableEq Tid] {fputc : ℕ → Bool} {write : ℕ → ℤ}
    (hputs : ∀ n, fputc n = true) (hwrites : ∀ n, 0 < write n) {owner self : Option Tid}
    (howner : owner ≠ self) (u : StdioState) (e : EspVfsState) (o : Outputs) (header : List UInt8)
    (chunks : List (List UInt8)) :
    (∃ bytes, (u.deliver fputc ⟨some header, chunks.map some⟩).stream = u.stream ++ bytes ∧
      (∀ i, (e.deliver write owner self o header chunks).wire i =
        o.wire i ++ if o.Open i then bytes else []) ∧
      (transportMaxPayload < (header ++ chunks.flatten).length → bytes = [])) ∧
    (∀ crc data, espCrc16CcittUpdate crc data = data.foldl unixCrc16Update crc) ∧
    ∀ (w : FrameWriter) (data : List UInt8), w.Batched →
      (w.putRaw data).sent = w.sent ++ data ∧ (w.putRaw data).Batched := by
  refine ⟨⟨_, StdioState.deliver_stream hputs u _, ?_, ?_⟩, espCrc16CcittUpdate_eq,
    fun w data hw => FrameWriter.putRaw_ok hw data⟩
  · have hcollected := EspVfsState.collected_packet (e := e) header chunks
    intro i
    rw [content_chunks]
    unfold EspVfsState.deliver EspVfsState.finish
    unfold EspVfsState.Collected at hcollected
    by_cases hlen : (header ++ chunks.flatten).length ≤ transportMaxPayload
    · rw [if_pos hlen] at hcollected
      have hframe := (Outputs.writeFrame_ok hwrites (o := o) howner frameTypeOn9log hlen).2 i
      rw [hcollected.1, if_neg nofun, hcollected.2, hframe, fits_of_le hlen]
      rfl
    · rw [if_neg hlen] at hcollected
      rw [hcollected, if_pos rfl, fits_of_not_le hlen]
      split <;> exact (List.append_nil _).symm
  · intro hlong
    rw [content_chunks, fits_of_not_le (by omega)]
    rfl

/-- Two outputs that take at most five bytes a call. -/
def twoOutputs : Outputs := ⟨[3, 4], fun _ => [], 0⟩

theorem stdio_vfs_same_bytes_two : ∃ bytes,
    (StdioState.init.deliver (fun _ => true) ⟨some [0xa5], [some [1, 2]]⟩).stream = bytes ∧
    ∀ i < 2, ((⟨true, [9], by decide⟩ : EspVfsState).deliver (fun _ => 5) none (some 0) twoOutputs
      [0xa5] [[1, 2]]).wire i = bytes := by
  have hputs : ∀ n, (fun _ : ℕ => true) n = true := fun _ => rfl
  have hwrites : ∀ n, 0 < (fun _ : ℕ => (5 : ℤ)) n := fun _ => Int.natCast_pos.mpr (Nat.succ_pos 4)
  have howner : (none : Option ℕ) ≠ some 0 := nofun
  obtain ⟨⟨bytes, hstream, hwire, -⟩, -⟩ := stdio_vfs_same_bytes hputs hwrites howner .init
    ⟨true, [9], by decide⟩ twoOutputs [0xa5] [[1, 2]]
  refine ⟨bytes, hstream, fun i hi => ?_⟩
  have hopen : twoOutputs.Open i := by
    have htwo : ∀ i < 2, twoOutputs.Open i := by decide
    exact htwo i hi
  rw [hwire i, if_pos hopen]
  rfl

end On9log
