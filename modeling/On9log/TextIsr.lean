import On9log.FormatRoute

/-!
# Plain-text messages in ISR context (on9log.c:2229-2372, on9log.hpp:846-902)

The C entry points and the C++ wrapper, each with its own buffer and its own
checks. `Formatters` stands for `vsnprintf` and fmt; `none` from a call is the
end of the program, when an exception leaves a `noexcept` function.
-/

namespace On9log
open Lib

structure Formatters where
  /-- The whole text, `none` for a negative result. -/
  vsnprintf : Text → VaList → Option Text
  fmt : Fmt

/-- `on9log_vwrite_isr`; the text is used only when it fits the buffer with its NUL. -/
def vwriteTextIsr (cfg : Config) (f : Formatters) (level : ℕ) (tag : TagArg) (textFlags : UInt8)
    (format : Option CStr) (argTypes : ArgTypes) (args : VaList) : Core Bool := do
  let enabled ← levelEnabled cfg level tag.ptr
  if enabled = false then pure true
  else do
    let ready ← isrReady
    if ready = false then pure true
    else if argTypesAreIsrSafe argTypes = false then do
      addDropped
      pure false
    else
      match f.vsnprintf (formatBytes format) args with
      | none => do
        addDropped
        pure false
      | some text =>
        if text.length ≥ cfg.isrPacketMax then do
          addDropped
          pure false
        else writeTextIsrWithFlags cfg level tag textFlags (some text)

/-- `printf_arg`, as the variable argument it becomes. -/
def CppArg.printfArg (arg : CppArg) : VaArg :=
  match arg.kind with
  | .integral bytes | .enum bytes =>
    if bytes > 4 then .u64 (UInt64.ofNat arg.value) else .u32 (UInt32.ofNat arg.value)
  | .floating => .u64 (UInt64.ofNat arg.value)
  | .charPointer | .charArray => .charPtr arg.value
  | .pointer | .array => .voidPtr arg.value
  | .nullPointer => .voidPtr 0
  | .stringView => .viewPtr none

/-- `arg_types<Args...>()`. -/
def cppArgTypes (args : List CppArg) : ArgTypes :=
  some (args.map (fun arg => arg.typeCode.code) ++ [ArgsType.none.code])

/-- `level_enabled`. -/
def cppLevelEnabled (cfg : Config) (level : ℕ) : Bool :=
  decide (level ≠ levelNone) && decide (level ≤ cfg.localLevel)

/-- `detail::write_log_isr`. -/
def writeLogIsr (cfg : Config) (f : Formatters) (level : ℕ) (tag : TagArg) (textFlags : UInt8)
    (format : Option CStr) (args : List CppArg) : Core (Option Bool) :=
  if cppLevelEnabled cfg level = false then pure (some true)
  else
    match textRoute format args with
    | .printf => do
      let queued ← vwriteTextIsr cfg f level tag textFlags format (cppArgTypes args)
        (args.map CppArg.printfArg)
      pure (some queued)
    | .fmt =>
      match f.fmt.formatTo (formatBytes format) args with
      | none => pure none
      | some text =>
        if text.length > cfg.isrPacketMax then pure (some false)
        else do
          let queued ← writeTextIsrWithFlags cfg level tag textFlags (some text)
          pure (some queued)

inductive TextIsrEntry
  | writeIsr (format : Option CStr) (argTypes : ArgTypes) (args : VaList)
  | writeIsrWithTextFlags (textFlags : UInt8) (format : Option CStr) (argTypes : ArgTypes)
      (args : VaList)
  | writeTextIsr (text : Option Text)
  | writeTextIsrWithFlags (textFlags : UInt8) (text : Option Text)
  | writeLogIsr (textFlags : UInt8) (format : Option CStr) (args : List CppArg)

def TextIsrEntry.body (cfg : Config) (f : Formatters) (level : ℕ) (tag : TagArg) :
    TextIsrEntry → Core (Option Bool)
  | .writeIsr format argTypes args => do
    let queued ← vwriteTextIsr cfg f level tag textDefaultFlags format argTypes args
    pure (some queued)
  | .writeIsrWithTextFlags textFlags format argTypes args => do
    let queued ← vwriteTextIsr cfg f level tag textFlags format argTypes args
    pure (some queued)
  | .writeTextIsr text => do
    let queued ← On9log.writeTextIsr cfg level tag text
    pure (some queued)
  | .writeTextIsrWithFlags textFlags text => do
    let queued ← On9log.writeTextIsrWithFlags cfg level tag textFlags text
    pure (some queued)
  | .writeLogIsr textFlags format args => On9log.writeLogIsr cfg f level tag textFlags format args

/-! ### What a call owes its caller -/

variable {cfg : Config} {es : List Ev} {level : ℕ} {tag : TagArg} {flags : UInt8}

/-- A look at the filter or at the backend. -/
def Op.isLook : Op → Bool
  | .filterLevelForTag _ => true
  | .isrReady => true
  | _ => false

/-- The call reports a loss just when it counts one; where it is blocked it reports success and
does nothing. -/
structure Accounted (blocked : Prop) (es : List Ev) (v : Option Bool) : Prop where
  counted : v = some false ↔ drops es = 1
  effectless : blocked → v = some true ∧ ∀ e ∈ es, e.op.isLook = true

/-- The filter blocks the level, or the backend is not ready, while the call looks. -/
def Blocks (cfg : Config) (level : ℕ) (tag : TagArg) (answer : ℕ → (o : Op) → o.Ret) : Prop :=
  ¬levelInRange cfg level ∨
    (∀ k, ¬(levelNone < answer k (.filterLevelForTag tag.ptr) ∧
      answer k (.filterLevelForTag tag.ptr) ≤ levelVerbose ∧
      level ≤ answer k (.filterLevelForTag tag.ptr))) ∨
    ∀ k, answer k .isrReady = false

/-- What a blocked call can have seen. -/
def SeesBlock (cfg : Config) (level : ℕ) (tag : TagArg) (es : List Ev) : Prop :=
  ¬Passes cfg level tag.ptr es ∨ (⟨.isrReady, true⟩ : Ev) ∉ es

theorem Blocks.sees {answer : ℕ → (o : Op) → o.Ret} {α : Type} {p : Core α}
    (h : Blocks cfg level tag answer) : SeesBlock cfg level tag (p.play answer 0).1 := by
  rcases h with hrange | hlevel | hready
  · exact .inl fun hpass => hrange hpass.1
  · refine .inl fun hpass => ?_
    obtain ⟨-, rl, hmem, hrl⟩ := hpass
    obtain ⟨i, rfl⟩ := Prog.mem_play hmem
    exact hlevel i hrl
  · refine .inr fun hmem => ?_
    obtain ⟨i, hi⟩ := Prog.mem_play hmem
    rw [hready i] at hi
    cases hi

theorem Gate.looks {b : Bool} {gate : List Ev} (h : Gate cfg level tag.ptr b gate) :
    drops gate = 0 ∧ ∀ e ∈ gate, e.op.isLook = true := by
  have hdrops := h.effects.drops
  cases h with
  | compileTime => exact ⟨hdrops, by simp⟩
  | runtime rl _ => exact ⟨hdrops, by simp [Op.isLook]⟩

/-- Past both checks a call has seen no block. -/
theorem Gate.not_seesBlock {gate rest : List Ev} (h : Gate cfg level tag.ptr true gate) :
    ¬SeesBlock cfg level tag (gate ++ ⟨.isrReady, true⟩ :: rest) := by
  rintro (hpass | hready)
  · exact hpass h.passes
  · exact hready (List.mem_append_right gate List.mem_cons_self)

theorem drops_append (es₁ es₂ : List Ev) : drops (es₁ ++ es₂) = drops es₁ + drops es₂ :=
  List.countP_append

theorem Accounted.blocked {gate : List Ev} (h : Gate cfg level tag.ptr false gate) (b : Prop) :
    Accounted b gate (some true) where
  counted := by simp [h.looks.1]
  effectless _ := ⟨rfl, h.looks.2⟩

theorem Accounted.notReady {gate : List Ev} (h : Gate cfg level tag.ptr true gate) (b : Prop) :
    Accounted b (gate ++ [⟨.isrReady, false⟩]) (some true) where
  counted := by
    have hready : drops [(⟨.isrReady, false⟩ : Ev)] = 0 := rfl
    simp [drops_append, h.looks.1, hready]
  effectless _ := by
    refine ⟨rfl, fun e he => ?_⟩
    rcases List.mem_append.mp he with he | he
    · exact h.looks.2 e he
    · rw [List.mem_singleton.mp he]
      rfl

/-- A call past both checks, by what it counts after them. -/
theorem Accounted.past {gate rest : List Ev} {v : Bool} (h : Gate cfg level tag.ptr true gate)
    (hv : v = false ↔ drops rest = 1) :
    Accounted (SeesBlock cfg level tag (gate ++ ⟨.isrReady, true⟩ :: rest))
      (gate ++ ⟨.isrReady, true⟩ :: rest) (some v) where
  counted := by
    have hrest : drops ((⟨.isrReady, true⟩ : Ev) :: rest) = drops rest := rfl
    rw [drops_append, h.looks.1, hrest, Nat.zero_add, Option.some.injEq, hv]
  effectless hblock := absurd hblock h.not_seesBlock

theorem TextIsrCall.accounted {text : Option Text} {v : Bool}
    (h : TextIsrCall cfg level tag flags text v es) :
    Accounted (SeesBlock cfg level tag es) es (some v) := by
  cases h with
  | blocked _ gate hg => exact .blocked hg _
  | notReady _ gate hg => exact .notReady hg _
  | noText gate hg => exact .past hg (by simp [drops])
  | tooLong _ gate now hg _ => exact .past hg (by simp [drops])
  | line _ gate now ok hg _ =>
    rw [List.append_assoc]
    refine .past hg ?_
    cases v <;> simp [drops]

/-- What one call of the C function performs; in the last case it goes on as a text call, which
makes both checks again. -/
inductive FormattedIsrCall (cfg : Config) (level : ℕ) (tag : TagArg) (flags : UInt8) :
    Bool → List Ev → Prop
  | blocked (gate : List Ev) : Gate cfg level tag.ptr false gate →
      FormattedIsrCall cfg level tag flags true gate
  | notReady (gate : List Ev) : Gate cfg level tag.ptr true gate →
      FormattedIsrCall cfg level tag flags true (gate ++ [⟨.isrReady, false⟩])
  | unformatted (gate : List Ev) : Gate cfg level tag.ptr true gate →
      FormattedIsrCall cfg level tag flags false
        (gate ++ [⟨.isrReady, true⟩, ⟨.addDropped, ()⟩])
  | formatted (gate es : List Ev) (text : Text) (v : Bool) : Gate cfg level tag.ptr true gate →
      TextIsrCall cfg level tag flags (some text) v es →
      FormattedIsrCall cfg level tag flags v (gate ++ ⟨.isrReady, true⟩ :: es)

theorem formattedIsrCall_vwriteTextIsr {f : Formatters} {format : Option CStr}
    {argTypes : ArgTypes} {args : VaList} {v : Bool}
    (h : (vwriteTextIsr cfg f level tag flags format argTypes args).Path es v) :
    FormattedIsrCall cfg level tag flags v es := by
  rcases path_isrGated h with ⟨hg, rfl⟩ | ⟨gate, rfl, hg, rfl⟩ | ⟨gate, rest, rfl, hg, h⟩
  · exact .blocked es hg
  · exact .notReady gate hg
  have hdrop : ∀ {e : List Ev}, ((do addDropped; pure false : Core Bool)).Path e v →
      FormattedIsrCall cfg level tag flags v (gate ++ ([⟨.isrReady, true⟩] ++ e)) := by
    intro e h
    obtain ⟨h₂, rfl⟩ := Prog.path_then_pure h
    rw [path_addDropped.mp h₂]
    exact .unformatted gate hg
  rcases (Prog.path_ite _ _ _ _ _).mp h with ⟨hs, h⟩ | ⟨hs, h⟩
  · exact hdrop h
  cases hformat : f.vsnprintf (formatBytes format) args with
  | none =>
    rw [hformat] at h
    exact hdrop h
  | some text =>
    rw [hformat] at h
    rcases (Prog.path_ite _ _ _ _ _).mp h with ⟨hlong, h⟩ | ⟨hlong, h⟩
    · exact hdrop h
    · exact .formatted gate _ text v hg (textIsrCall_writeTextIsrWithFlags h)

theorem FormattedIsrCall.accounted {v : Bool} (h : FormattedIsrCall cfg level tag flags v es) :
    Accounted (SeesBlock cfg level tag es) es (some v) := by
  cases h with
  | blocked gate hg => exact .blocked hg _
  | notReady gate hg => exact .notReady hg _
  | unformatted gate hg => exact .past hg (by simp [drops])
  | formatted gate es text v hg hcall =>
    have hcounted := hcall.accounted.counted
    exact .past hg (by rw [← hcounted, Option.some.injEq])

/-! ### All entries -/

/-- The call of the wrapper that goes to fmt and does not come back from it with a text that fits:
the loss is not counted, or the program ends although nothing was to be logged. -/
def Uncounted (cfg : Config) (f : Formatters) (level : ℕ) (blocked : Prop) : TextIsrEntry → Prop
  | .writeLogIsr _ format args =>
    cppLevelEnabled cfg level = true ∧ textRoute format args = .fmt ∧
      match f.fmt.formatTo (formatBytes format) args with
      | some text => cfg.isrPacketMax < text.length
      | none => blocked
  | _ => False

theorem accounted_pure_some {p : Core Bool} {v : Option Bool}
    (h : (do let queued ← p; pure (some queued) : Core (Option Bool)).Path es v)
    (hp : ∀ queued, p.Path es queued → Accounted (SeesBlock cfg level tag es) es (some queued)) :
    Accounted (SeesBlock cfg level tag es) es v := by
  obtain ⟨queued, e₁, _, rfl, h₁, h₂⟩ := (Prog.path_bind _ _ _ _).mp h
  obtain ⟨rfl, rfl⟩ := (Prog.path_pure _ _ _).mp h₂
  rw [List.append_nil] at hp ⊢
  exact hp queued h₁

theorem Accounted.weaken {a b : Prop} {v : Option Bool} (hab : b → a) (h : Accounted a es v) :
    Accounted b es v := ⟨h.counted, fun hb => h.effectless (hab hb)⟩

/-- One call of any entry, on the calls it performs. -/
theorem entry_accounted {f : Formatters} {entry : TextIsrEntry} {v : Option Bool} {blocked : Prop}
    (hsees : blocked → SeesBlock cfg level tag es)
    (h : (entry.body cfg f level tag).Path es v) :
    Accounted blocked es v ↔ ¬Uncounted cfg f level blocked entry := by
  have hcall : Accounted (SeesBlock cfg level tag es) es v → (Accounted blocked es v ↔ ¬False) :=
    fun h => by simpa using h.weaken hsees
  cases entry with
  | writeIsr format argTypes args =>
    exact hcall (accounted_pure_some h fun _ h => (formattedIsrCall_vwriteTextIsr h).accounted)
  | writeIsrWithTextFlags flags format argTypes args =>
    exact hcall (accounted_pure_some h fun _ h => (formattedIsrCall_vwriteTextIsr h).accounted)
  | writeTextIsr text =>
    exact hcall (accounted_pure_some h fun _ h => (textIsrCall_writeTextIsrWithFlags h).accounted)
  | writeTextIsrWithFlags flags text =>
    exact hcall (accounted_pure_some h fun _ h => (textIsrCall_writeTextIsrWithFlags h).accounted)
  | writeLogIsr flags format args =>
    simp only [TextIsrEntry.body, writeLogIsr] at h
    simp only [Uncounted]
    rcases (Prog.path_ite _ _ _ _ _).mp h with ⟨hoff, h⟩ | ⟨hon, h⟩
    · obtain ⟨rfl, rfl⟩ := (Prog.path_pure _ _ _).mp h
      simp only [hoff, Bool.false_eq_true, false_and, not_false_eq_true, iff_true]
      exact ⟨by simp [drops], fun _ => ⟨rfl, by simp⟩⟩
    rw [Bool.not_eq_false] at hon
    cases hroute : textRoute format args with
    | printf =>
      rw [hroute] at h
      simp only [reduceCtorEq, false_and, and_false]
      exact hcall (accounted_pure_some h fun _ h => (formattedIsrCall_vwriteTextIsr h).accounted)
    | fmt =>
      rw [hroute] at h
      simp only [hon, true_and]
      cases hformat : f.fmt.formatTo (formatBytes format) args with
      | none =>
        rw [hformat] at h
        obtain ⟨rfl, rfl⟩ := (Prog.path_pure _ _ _).mp h
        constructor
        · intro hacc hblocked
          exact absurd (hacc.effectless hblocked).1 (by simp)
        · exact fun hopen => ⟨by simp [drops], fun hblocked => absurd hblocked hopen⟩
      | some text =>
        rw [hformat] at h
        rcases (Prog.path_ite _ _ _ _ _).mp h with ⟨hlong, h⟩ | ⟨hshort, h⟩
        · obtain ⟨rfl, rfl⟩ := (Prog.path_pure _ _ _).mp h
          simp only [gt_iff_lt.mp hlong, not_true_eq_false, iff_false]
          exact fun hacc => absurd (hacc.counted.mp rfl) (by simp [drops])
        · simp only [Nat.not_lt.mpr (Nat.not_lt.mp hshort)]
          exact hcall
            (accounted_pure_some h fun _ h => (textIsrCall_writeTextIsrWithFlags h).accounted)

def plainFormatters : Formatters where
  vsnprintf format _ := some format
  fmt := plainFmt

/-- A format of 65 letters, without fields. -/
def longFormat : CStr := ⟨List.replicate 65 (chr 'a'), by decide⟩

/-- A message in a call of the wrapper, one byte longer than a packet. -/
def longCall : Core (Option Bool) :=
  (TextIsrEntry.writeLogIsr textDefaultFlags (some longFormat) []).body smallConfig plainFormatters
    levelInfo letterTag

end On9log
