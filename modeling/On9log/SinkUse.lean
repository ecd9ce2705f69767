import On9log.Calls
import On9log.StdioInit

/-!
# What a call does with one sink

A call starts packets at a sink only after it has read the sink from the table,
ends every packet it has started there, and stores the sink in the table only
if it was asked to.
-/

namespace On9log
open Lib

/-- Whether the sink was read from the table since the emit lock was taken, and how many
packets were started there and not ended. -/
structure SinkUse where
  seen : Bool
  started : ℕ

def SinkUse.idle : SinkUse := ⟨false, 0⟩

def useStep (entry : SinkEntry) (g : SinkUse) (e : Ev) (g' : SinkUse) : Prop :=
  match e with
  | ⟨.loadSlot _, slot⟩ => g' = { g with seen := g.seen || decide (slot = entry) }
  | ⟨.storeSlot _ e, _⟩ => e ≠ entry ∧ g' = g
  | ⟨.emitUnlock, _⟩ => g.started = 0 ∧ g' = .idle
  | ⟨.call e (.startCb _), _⟩ =>
    if e = entry then g.seen = true ∧ g' = { g with started := g.started + 1 } else g' = g
  | ⟨.call e .endCb, _⟩ =>
    if e = entry then g.seen = true ∧ g = { g' with started := g'.started + 1 } else g' = g
  | _ => g' = g

def Uses (entry : SinkEntry) (es : List Ev) : Prop := Steps (useStep entry) .idle es .idle

variable {cfg : Config} {entry : SinkEntry} {es es₁ es₂ : List Ev} {g : SinkUse}

theorem Uses.append (h₁ : Uses entry es₁) (h₂ : Uses entry es₂) : Uses entry (es₁ ++ es₂) :=
  steps_append.mpr ⟨.idle, h₁, h₂⟩

/-! ### One packet -/

/-- Operations that have nothing to do with any sink. -/
def Op.sinkless : Op → Bool
  | .loadSlot _ => false
  | .storeSlot _ _ => false
  | .emitUnlock => false
  | .call _ _ => false
  | _ => true

theorem useStep_sinkless {e : Ev} (he : e.op.sinkless = true) (g : SinkUse) :
    useStep entry g e g := by
  obtain ⟨o, r⟩ := e
  cases o
  case loadSlot => cases he
  case storeSlot => cases he
  case emitUnlock => cases he
  case call => cases he
  all_goals rfl

theorem steps_sinkless (h : ∀ e ∈ es, e.op.sinkless = true) (g : SinkUse) :
    Steps (useStep entry) g es g := by
  induction es with
  | nil => rfl
  | cons e es ih =>
    exact ⟨g, useStep_sinkless (h e (List.mem_cons_self ..)) g,
      ih fun x hx => h x (List.mem_cons_of_mem _ hx)⟩

variable (entry) in
theorem steps_use_slotReads (slots : ℕ → SinkEntry) (is : List ℕ) (seen : Bool) (started : ℕ) :
    Steps (useStep entry) ⟨seen, started⟩ (slotReads slots is)
      ⟨seen || is.any fun i => decide (slots i = entry), started⟩ := by
  induction is generalizing seen with
  | nil =>
    rw [List.any_nil, Bool.or_false]
    rfl
  | cons i is ih =>
    rw [List.any_cons, ← Bool.or_assoc]
    exact ⟨⟨seen || decide (slots i = entry), started⟩, rfl, ih _⟩

theorem useStep_start (hseen : g.seen = true) (header : Option (List UInt8)) :
    useStep entry g ⟨.call entry (.startCb header), ()⟩ { g with started := g.started + 1 } := by
  show if entry = entry then _ else _
  rw [if_pos rfl]
  exact ⟨hseen, rfl⟩

theorem useStep_end (hseen : g.seen = true) :
    useStep entry { g with started := g.started + 1 } ⟨.call entry .endCb, ()⟩ g := by
  show if entry = entry then _ else _
  rw [if_pos rfl]
  exact ⟨hseen, rfl⟩

theorem useStep_other {e : SinkEntry} (he : e ≠ entry) (c : SinkCall) (g : SinkUse) :
    useStep entry g ⟨.call e c, ()⟩ g := by
  cases c with
  | payloadCb c => rfl
  | startCb header =>
    show if e = entry then _ else _
    rw [if_neg he]
  | endCb =>
    show if e = entry then _ else _
    rw [if_neg he]

theorem steps_use_starts (header : Option (List UInt8)) {sinks : List SinkEntry} {seen : Bool}
    (hseen : entry ∈ sinks → seen = true) (started : ℕ) :
    Steps (useStep entry) ⟨seen, started⟩ (sinks.map fun e => ⟨.call e (.startCb header), ()⟩)
      ⟨seen, started + sinks.count entry⟩ := by
  induction sinks generalizing started with
  | nil => rfl
  | cons e sinks ih =>
    have hrest := ih fun hmem => hseen (List.mem_cons_of_mem _ hmem)
    by_cases he : e = entry
    · subst he
      rw [List.count_cons_self, Nat.add_comm _ 1, ← Nat.add_assoc]
      exact ⟨⟨seen, started + 1⟩, useStep_start (hseen (List.mem_cons_self ..)) header,
        hrest (started + 1)⟩
    · rw [List.count_cons_of_ne he]
      exact ⟨⟨seen, started⟩, useStep_other he _ _, hrest started⟩

theorem steps_use_payloads (c : Chunk) (sinks : List SinkEntry) (g : SinkUse) :
    Steps (useStep entry) g (sinks.map fun e => ⟨.call e (.payloadCb c), ()⟩) g := by
  induction sinks with
  | nil => rfl
  | cons e sinks ih => exact ⟨g, rfl, ih⟩

theorem steps_use_ends {sinks : List SinkEntry} {seen : Bool}
    (hseen : entry ∈ sinks → seen = true) :
    Steps (useStep entry) ⟨seen, sinks.count entry⟩ (sinks.map fun e => ⟨.call e .endCb, ()⟩)
      ⟨seen, 0⟩ := by
  induction sinks with
  | nil => rfl
  | cons e sinks ih =>
    have hrest := ih fun hmem => hseen (List.mem_cons_of_mem _ hmem)
    refine ⟨⟨seen, sinks.count entry⟩, ?_, hrest⟩
    by_cases he : e = entry
    · subst he
      rw [List.count_cons_self]
      exact useStep_end (hseen (List.mem_cons_self ..))
    · rw [List.count_cons_of_ne he]
      exact useStep_other he _ _

theorem steps_use_emits {sinks : List SinkEntry} {cs : List Chunk} (h : Emits sinks es cs)
    (g : SinkUse) : Steps (useStep entry) g es g := by
  induction h with
  | nil => rfl
  | memory mem _ ih => exact ⟨g, rfl, ih⟩
  | chunk c _ _ ih =>
    exact steps_append.mpr ⟨g, ⟨g, rfl, steps_use_payloads c sinks g⟩, ih⟩

theorem sinkless_numbered {origin : Origin} {header : List UInt8}
    (h : Numbered origin header es) : ∀ e ∈ es, e.op.sinkless = true := by
  intro e he
  rcases h.mem he with ⟨raw, rfl⟩ | ⟨now, rfl⟩
  · rfl
  · rfl

theorem mem_live {slots : ℕ → SinkEntry} {is : List ℕ} (h : entry ∈ live slots is) :
    (is.any fun i => decide (slots i = entry)) = true := by
  obtain ⟨hmem, -⟩ := List.mem_filter.mp h
  obtain ⟨i, hi, rfl⟩ := List.mem_map.mp hmem
  exact List.any_eq_true.mpr ⟨i, hi, decide_eq_true rfl⟩

theorem Emission.uses {pkt : Packet} (h : Emission cfg pkt es) : Uses entry es := by
  obtain ⟨slots, b, ⟨num, body, hnum, hem, rfl⟩, rfl⟩ := h
  have hseen : entry ∈ live slots (List.range cfg.maxSinks) →
      (false || (List.range cfg.maxSinks).any fun i => decide (slots i = entry)) = true := by
    intro hmem
    rw [Bool.false_or]
    exact mem_live hmem
  have hreads := steps_use_slotReads entry slots (List.range cfg.maxSinks) false 0
  generalize (false || (List.range cfg.maxSinks).any fun i => decide (slots i = entry)) = seen
    at hseen hreads
  have hstarts := steps_use_starts (some pkt.header) hseen 0
  rw [Nat.zero_add] at hstarts
  have hfinish : Steps (useStep entry) ⟨seen, (live slots (List.range cfg.maxSinks)).count entry⟩
      (finishing (live slots (List.range cfg.maxSinks))) ⟨seen, 0⟩ :=
    steps_append.mpr ⟨_, steps_use_ends hseen, ⟨_, rfl, rfl⟩⟩
  have hpacket : Steps (useStep entry) ⟨seen, 0⟩
      (broadcast (live slots (List.range cfg.maxSinks)) (.start pkt.origin pkt.header) ++
        (body ++ finishing (live slots (List.range cfg.maxSinks)))) ⟨seen, 0⟩ :=
    steps_append.mpr ⟨_, ⟨_, rfl, hstarts⟩, steps_append.mpr ⟨_, steps_use_emits hem _, hfinish⟩⟩
  have hnumber := steps_append.mpr
    ⟨_, steps_sinkless (sinkless_numbered hnum) ⟨seen, 0⟩, hpacket⟩
  have hsection := steps_append.mpr ⟨_, hreads, hnumber⟩
  exact ⟨.idle, rfl, steps_append.mpr ⟨_, hsection, .idle, ⟨rfl, rfl⟩, rfl⟩⟩

/-! ### Whole calls -/

variable (cfg) in
theorem uses_quiet (h : ∀ e ∈ es, Quiet cfg e) : Uses entry es := by
  refine steps_sinkless (fun e he => ?_) .idle
  have hquiet := (h e he).1
  generalize e.op = o at hquiet
  cases o <;> first | rfl | cases hquiet

theorem Flushed.uses {raw : ℕ} (h : Flushed cfg raw es) : Uses entry es := by
  cases h with
  | none _ => exact ⟨.idle, rfl, rfl⟩
  | notice seq now es' _ hem => exact ⟨.idle, rfl, hem.uses⟩

theorem LogWritten.uses {level : ℕ} {tag format : Ptr} {mask : UInt32} {argTypes : ArgTypes}
    {argCount : UInt8} {args : VaList}
    (h : LogWritten cfg level tag format mask argTypes argCount args es) : Uses entry es := by
  cases h with
  | dropped looks honly _ =>
    exact uses_quiet cfg (quiet_append (quiet_of_memory honly) (quiet_one quiet_addDropped))
  | sent looks es' tagWire formatWire len payloadLen seq now cs honly _ _ _ _ _ hem =>
    exact (uses_quiet cfg (quiet_of_memory honly)).append hem.uses

theorem Written.uses {level : ℕ} {tag format : Ptr} {mask : UInt32} {argTypes : ArgTypes}
    {argCount : UInt8} {args : VaList}
    (h : Written cfg level tag format mask argTypes argCount args es) : Uses entry es := by
  cases h with
  | blocked _ hg => exact uses_quiet cfg hg.quiet
  | passed gate flush es' raw hg hf hw =>
    exact (uses_quiet cfg hg.quiet).append (hf.uses.append hw.uses)

theorem BufferPacket.uses {level : ℕ} {tag bytes : Ptr} {tagWire : WireStr}
    {totalLen offset chunkLen : UInt32} {pkt : Packet}
    (h : BufferPacket cfg level tag tagWire bytes totalLen offset chunkLen pkt es) :
    Uses entry es := by
  obtain ⟨seq, now, cs, -, -, hem⟩ := h.emission
  exact hem.uses

theorem BufferPackets.uses {level : ℕ} {tag bytes : Ptr} {tagWire : WireStr}
    {totalLen max offset : UInt32} {pkts : List Packet}
    (h : BufferPackets cfg level tag tagWire bytes totalLen max offset pkts es) :
    Uses entry es := by
  induction h with
  | done offset _ => rfl
  | chunk offset pkt pkts es es' _ hpkt _ ih => exact hpkt.uses.append ih

theorem BufferWritten.uses {level : ℕ} {tag bytes : Ptr} {totalLen : UInt32}
    (h : BufferWritten cfg level tag bytes totalLen es) : Uses entry es := by
  cases h with
  | dropped looks tagWire honly _ _ =>
    exact uses_quiet cfg (quiet_append (quiet_of_memory honly) (quiet_one quiet_addDropped))
  | sent looks es' tagWire pkts honly _ _ hpkts =>
    refine (uses_quiet cfg (quiet_of_memory honly)).append ?_
    rcases hpkts with ⟨-, pkt, -, hpkt⟩ | ⟨-, hpkts⟩
    · exact hpkt.uses
    · exact hpkts.uses

theorem BufferCall.uses {level : ℕ} {tag buffer : Ptr} {bufferLen : ℕ}
    (h : BufferCall cfg level tag buffer bufferLen es) : Uses entry es := by
  cases h with
  | blocked _ hg => exact uses_quiet cfg hg.quiet
  | rejected gate hg _ => exact uses_quiet cfg (quiet_append hg.quiet (quiet_one quiet_addDropped))
  | passed gate flush es' raw hg _ hf hw =>
    exact (uses_quiet cfg hg.quiet).append (hf.uses.append hw.uses)

theorem BootCall.uses {bootId : UInt32} {reason : UInt8} (h : BootCall cfg bootId reason es) :
    Uses entry es := by
  obtain ⟨reply, id, idKind, seq, now, cs, es', rfl, -, -, hem⟩ := h
  exact ⟨.idle, rfl, hem.uses⟩

theorem DispatchCall.uses {packet : Option (List UInt8)} {v : Err}
    (h : DispatchCall cfg packet v es) : Uses entry es := by
  cases h with
  | rejected => rfl
  | relayed p header raw flush es' _ hf hem => exact hf.uses.append hem.uses

variable (entry) in
/-- Slot reads under the emit lock. -/
theorem steps_use_onlyLoads (h : OnlyLoads es) (seen : Bool) :
    ∃ seen', Steps (useStep entry) ⟨seen, 0⟩ es ⟨seen', 0⟩ := by
  induction es generalizing seen with
  | nil => exact ⟨seen, rfl⟩
  | cons e es ih =>
    obtain ⟨⟨i, slot, rfl⟩, htail⟩ := h.cons_inv
    obtain ⟨seen', hrest⟩ := ih htail (seen || decide (slot = entry))
    exact ⟨seen', _, rfl, hrest⟩

/-- A search of the table, and a store of something else than the sink. -/
theorem uses_locked {b : List Ev} {stored : SinkEntry} (hne : stored ≠ entry)
    (h : OnlyLoads b ∨ ∃ l i, OnlyLoads l ∧ b = l ++ [⟨.storeSlot i stored, ()⟩]) :
    Uses entry (⟨.emitLock, ()⟩ :: b ++ [⟨.emitUnlock, ()⟩]) := by
  have hb : ∃ seen, Steps (useStep entry) .idle b ⟨seen, 0⟩ := by
    rcases h with h | ⟨l, i, hl, rfl⟩
    · exact steps_use_onlyLoads entry h false
    · obtain ⟨seen, hseen⟩ := steps_use_onlyLoads entry hl false
      exact ⟨seen, steps_append.mpr ⟨_, hseen, _, ⟨hne, rfl⟩, rfl⟩⟩
  obtain ⟨seen, hb⟩ := hb
  exact ⟨.idle, rfl, steps_append.mpr ⟨_, hb, .idle, ⟨rfl, rfl⟩, rfl⟩⟩

theorem AddSection.uses {e : SinkEntry} {r : Err} {b : List Ev} (hne : e ≠ entry)
    (h : AddSection cfg e r b) : Uses entry (⟨.emitLock, ()⟩ :: b ++ [⟨.emitUnlock, ()⟩]) := by
  apply uses_locked hne
  cases h with
  | present _ hl _ => exact Or.inl hl
  | inserted l i hl _ _ => exact Or.inr ⟨l, i, hl, rfl⟩
  | full _ hl _ => exact Or.inl hl

theorem RemoveSection.uses {e : SinkEntry} {r : Err} {b : List Ev} (hentry : entry.sink ≠ 0)
    (h : RemoveSection cfg e r b) : Uses entry (⟨.emitLock, ()⟩ :: b ++ [⟨.emitUnlock, ()⟩]) := by
  have hfree : SinkEntry.free ≠ entry := fun heq => hentry (congrArg SinkEntry.sink heq).symm
  apply uses_locked hfree
  cases h with
  | removed l i hl _ _ => exact Or.inr ⟨l, i, hl, rfl⟩
  | absent _ hl _ => exact Or.inl hl

/-- Every call that does not name the sink. -/
theorem Performs.uses {call : Call} {v : Res} (hentry : entry.sink ≠ 0)
    (hforeign : call.Foreign entry.sink) (h : Performs cfg call v es) : Uses entry es := by
  cases call with
  | write _ _ _ _ _ => exact h.1.uses
  | writeWithFormatScan _ _ _ _ _ _ => exact h.1.uses
  | writeWithFormatScanMetadata _ _ _ _ _ _ _ _ => exact h.1.uses
  | writeIsr _ _ _ _ _ =>
    obtain ⟨ok, -, h⟩ := h
    exact uses_quiet cfg h.quiet
  | writeBuffer _ _ _ _ => exact h.1.uses
  | emitBoot _ _ => exact h.1.uses
  | encodeTimeSync _ _ _ =>
    obtain ⟨bs, -, ⟨rfl, -⟩ | ⟨now, rfl⟩⟩ := h
    · rfl
    · exact ⟨.idle, rfl, rfl⟩
  | dispatchPacket packet =>
    obtain ⟨e, -, h⟩ := h
    exact h.uses
  | addSink sink callbacks ctx =>
    obtain ⟨r, -, ⟨-, rfl, -⟩ | ⟨-, b, hb, rfl⟩⟩ := h
    · rfl
    · exact hb.uses fun heq => hforeign (congrArg SinkEntry.sink heq)
  | removeSink sink ctx =>
    obtain ⟨r, -, ⟨-, rfl, -⟩ | ⟨-, b, hb, rfl⟩⟩ := h
    · rfl
    · exact hb.uses hentry

end On9log
