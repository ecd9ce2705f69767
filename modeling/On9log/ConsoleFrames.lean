import On9log.ConsoleMutex
import On9log.FrameDecode

/-!
# What the outputs of the console are given (esp_stdio_log_vfs.c:244-293, 409-446, 503-524)

An output that takes what it is given holds the frames begun since it was opened,
whole and one after another, and a beginning of the last one while that is being
sent. Other outputs may fail meanwhile. A reader finds the frames again.
-/

namespace On9log
open Lib

/-! ### The outputs among the events -/

def outputStep (m : OutputMem) (e : ConsoleEv) (m' : OutputMem) : Prop :=
  match e with
  | ⟨.outputCount, n⟩ => n = m.fds.length ∧ m' = m
  | ⟨.loadOutput i, fd⟩ => fd = m.fds.getD i (-1) ∧ m' = m
  | ⟨.write i data, n⟩ => n ≤ data.length ∧ m' = m.received i (data.take n.toNat)
  | ⟨.pushOutput fd, _⟩ => m' = { m with fds := m.fds ++ [fd] }
  | _ => m' = m

/-- The frame an event begins. -/
def frameBegun : ConsoleEv → Option SentFrame
  | ⟨.setOwner f, _⟩ => some f
  | _ => none

def framesOf (es : List ConsoleEv) : List SentFrame := es.filterMap frameBegun

def SentFrame.bytes (f : SentFrame) : List UInt8 := frameBytes f.1 f.2

def opens : ConsoleEv → ℕ
  | ⟨.pushOutput _, _⟩ => 1
  | _ => 0

def opensIn (es : List ConsoleEv) : ℕ := (es.map opens).sum

/-- The events since output `i` was opened, where `n` are open at first. -/
def sinceOpened (i : ℕ) : ℕ → List ConsoleEv → List ConsoleEv
  | _, [] => []
  | n, e :: es => if i < n then e :: es else sinceOpened i (n + opens e) es

/-- Output `i` takes something of whatever it is given. -/
def Takes (i : ℕ) (es : List ConsoleEv) : Prop :=
  ∀ data n, ⟨.write i data, n⟩ ∈ es → data ≠ [] → 0 < n

theorem takes_append {i : ℕ} {es₁ es₂ : List ConsoleEv} :
    Takes i (es₁ ++ es₂) ↔ Takes i es₁ ∧ Takes i es₂ := by
  constructor
  · intro h
    exact ⟨fun data n hmem => h data n (List.mem_append_left _ hmem),
      fun data n hmem => h data n (List.mem_append_right _ hmem)⟩
  · rintro ⟨h₁, h₂⟩ data n hmem
    exact (List.mem_append.mp hmem).elim (h₁ data n) (h₂ data n)

theorem Takes.mono {i : ℕ} {es es' : List ConsoleEv} (h : Takes i es) (hsub : ∀ e ∈ es', e ∈ es) :
    Takes i es' := fun data n hmem => h data n (hsub _ hmem)

theorem framesOf_append (es₁ es₂ : List ConsoleEv) :
    framesOf (es₁ ++ es₂) = framesOf es₁ ++ framesOf es₂ := List.filterMap_append

/-! ### Frames and outputs of a list of events -/

section Events

variable {m m' : OutputMem} {es es₁ es₂ : List ConsoleEv} {i n : ℕ}

theorem opensIn_append : opensIn (es₁ ++ es₂) = opensIn es₁ + opensIn es₂ := by
  unfold opensIn
  rw [List.map_append, List.sum_append]

theorem sinceOpened_open (h : i < n) (es : List ConsoleEv) : sinceOpened i n es = es := by
  cases es with
  | nil => rfl
  | cons e es => exact if_pos h

theorem sinceOpened_append (n : ℕ) (es₁ es₂ : List ConsoleEv) :
    sinceOpened i n (es₁ ++ es₂) =
      sinceOpened i n es₁ ++ sinceOpened i (n + opensIn es₁) es₂ := by
  induction es₁ generalizing n with
  | nil => rfl
  | cons e es₁ ih =>
    have hsum : opensIn (e :: es₁) = opens e + opensIn es₁ := rfl
    by_cases hlt : i < n
    · rw [sinceOpened_open hlt, sinceOpened_open hlt, sinceOpened_open (by omega)]
    · rw [List.cons_append, sinceOpened, if_neg hlt, sinceOpened, if_neg hlt, ih, hsum, Nat.add_assoc]

theorem sinceOpened_suffix (i n : ℕ) (es : List ConsoleEv) : sinceOpened i n es <:+ es := by
  induction es generalizing n with
  | nil => exact List.suffix_refl _
  | cons e es ih =>
    rw [sinceOpened]
    split
    · exact List.suffix_refl _
    · exact (ih _).trans (List.suffix_cons e es)

theorem sinceOpened_closed (hopens : opensIn es = 0) (h : ¬ i < n) : sinceOpened i n es = [] := by
  induction es generalizing n with
  | nil => rfl
  | cons e es ih =>
    have hsum : opensIn (e :: es) = opens e + opensIn es := rfl
    rw [sinceOpened, if_neg h]
    exact ih (by omega) (by omega)

theorem framesOf_sinceOpened (h : framesOf es = []) (i n : ℕ) :
    framesOf (sinceOpened i n es) = [] := by
  obtain ⟨before, heq⟩ := sinceOpened_suffix i n es
  rw [← heq, framesOf_append] at h
  exact (List.append_eq_nil_iff.mp h).2

theorem length_outputStep (h : Steps outputStep m es m') :
    m'.fds.length = m.fds.length + opensIn es := by
  induction es generalizing m with
  | nil => rw [show m' = m from h]; rfl
  | cons e es ih =>
    obtain ⟨m₁, he, hrest⟩ := h
    have hone : m₁.fds.length = m.fds.length + opens e := by
      obtain ⟨o, r⟩ := e
      cases o
      case outputCount => rw [he.2]; rfl
      case loadOutput => rw [he.2]; rfl
      case write => rw [he.2]; rfl
      case pushOutput fd =>
        rw [show m₁ = _ from he]
        exact List.length_append
      all_goals rw [show m₁ = m from he]; rfl
    have hsum : opensIn (e :: es) = opens e + opensIn es := rfl
    rw [ih hrest, hone, hsum, Nat.add_assoc]

theorem wire_outputStep (h : Steps outputStep m es m') (i : ℕ) : m.wire i <+: m'.wire i := by
  induction es generalizing m with
  | nil => rw [show m' = m from h]
  | cons e es ih =>
    obtain ⟨m₁, he, hrest⟩ := h
    refine List.IsPrefix.trans ?_ (ih hrest)
    obtain ⟨o, r⟩ := e
    cases o
    case outputCount => rw [he.2]
    case loadOutput => rw [he.2]
    case write j data =>
      rw [he.2]
      show _ <+: Function.update m.wire j _ i
      by_cases hij : i = j
      · subst hij
        rw [Function.update_self]
        exact List.prefix_append _ _
      · rw [Function.update_of_ne hij]
    case pushOutput => rw [show m₁ = _ from he]
    all_goals rw [show m₁ = m from he]

theorem framesOf_plain (h : ∀ e ∈ es, EspConsole.Plain e.op) : framesOf es = [] ∧ opensIn es = 0 := by
  induction es with
  | nil => exact ⟨rfl, rfl⟩
  | cons e es ih =>
    obtain ⟨hframes, hopens⟩ := ih fun e he => h e (List.mem_cons_of_mem _ he)
    have he := h e (List.mem_cons_self ..)
    obtain ⟨o, r⟩ := e
    have hsum : opensIn (⟨o, r⟩ :: es) = opens ⟨o, r⟩ + opensIn es := rfl
    rw [hsum, hopens]
    cases o <;> first | exact ⟨hframes, rfl⟩ | cases he

end Events

namespace EspConsole

/-! ### One frame -/

section Frame

variable {m m' : OutputMem} {es : List ConsoleEv} {i : ℕ} {data batch : List UInt8}

/-- Output `i` has got `bytes`, and the outputs are the same. -/
def Gives (m : OutputMem) (i : ℕ) (bytes : List UInt8) (m' : OutputMem) : Prop :=
  m'.fds = m.fds ∧ m'.wire i = m.wire i ++ bytes

theorem gives_nil : Gives m i [] m := ⟨rfl, (List.append_nil _).symm⟩

theorem Gives.trans {m₁ : OutputMem} {bytes bytes' : List UInt8} (h : Gives m i bytes m₁)
    (h' : Gives m₁ i bytes' m') : Gives m i (bytes ++ bytes') m' :=
  ⟨h'.1.trans h.1, by rw [h'.2, h.2, List.append_assoc]⟩

theorem writeAll_gives {j n : ℕ} {v : Bool} (hn : data.length ≤ n)
    (h : (writeAll j n data).Path es v) (hs : Steps outputStep m es m') (htakes : Takes i es) :
    Gives m i (if i = j then data else []) m' := by
  induction n generalizing data es m with
  | zero =>
    have hnil : data = [] := List.eq_nil_of_length_eq_zero (by omega)
    obtain ⟨rfl, -⟩ := (Prog.path_pure _ _ _).mp h
    obtain rfl := hs
    subst hnil
    rw [ite_self]
    exact gives_nil
  | succ n ih =>
    rcases (Prog.path_ite _ _ _ _ _).mp h with ⟨hdata, h⟩ | ⟨hdata, h⟩
    · obtain ⟨rfl, -⟩ := (Prog.path_pure _ _ _).mp h
      obtain rfl := hs
      rw [hdata, ite_self]
      exact gives_nil
    · obtain ⟨(written : ℤ), e₁, e₂, rfl, h₁, h₂⟩ := (Prog.path_bind _ _ _ _).mp h
      rw [(Prog.path_op _ _ _).mp h₁] at hs htakes
      obtain ⟨m₁, ⟨hle, hm₁⟩, hs⟩ := hs
      have hgot : Gives m i (if i = j then data.take written.toNat else []) m₁ := by
        subst hm₁
        refine ⟨rfl, ?_⟩
        by_cases hij : i = j
        · subst hij
          rw [if_pos rfl]
          exact Function.update_self ..
        · rw [if_neg hij, List.append_nil]
          exact Function.update_of_ne hij _ _
      rcases (Prog.path_ite _ _ _ _ _).mp h₂ with ⟨hfail, h₂⟩ | ⟨hok, h₂⟩
      · -- a failure is another output's
        have hij : i ≠ j := by
          rintro rfl
          exact absurd (htakes data written (List.mem_cons_self ..) hdata) (Int.not_lt.mpr hfail)
        obtain ⟨rfl, -⟩ := (Prog.path_pure _ _ _).mp h₂
        obtain rfl := hs
        rw [if_neg hij] at hgot ⊢
        exact hgot
      · have hpos : 0 < written := Int.not_le.mp hok
        have hleft : (data.drop written.toNat).length ≤ n := by
          rw [List.length_drop]
          omega
        have hrest := ih hleft h₂ hs (takes_append.mp htakes).2
        have hall := hgot.trans hrest
        by_cases hij : i = j
        · rw [if_pos hij, if_pos hij, List.take_append_drop] at hall
          rwa [if_pos hij]
        · rw [if_neg hij, if_neg hij, List.append_nil] at hall
          rwa [if_neg hij]

theorem flushOutput_gives {j : ℕ} {ok v : Bool} (h : (flushOutput batch ok j).Path es v)
    (hs : Steps outputStep m es m') (htakes : Takes i es) :
    Gives m i (if i = j ∧ m.Open i then batch else []) m' := by
  obtain ⟨(fd : ℤ), e₁, e₂, rfl, h₁, h₂⟩ := (Prog.path_bind _ _ _ _).mp h
  rw [(Prog.path_op _ _ _).mp h₁] at hs htakes
  obtain ⟨m₁, ⟨hfd, hm₁⟩, hs⟩ := hs
  obtain rfl := hm₁
  rcases (Prog.path_ite _ _ _ _ _).mp h₂ with ⟨hopen, h₂⟩ | ⟨hclosed, h₂⟩
  · obtain ⟨written, e₃, e₄, rfl, h₃, h₄⟩ := (Prog.path_bind _ _ _ _).mp h₂
    obtain ⟨rfl, -⟩ := (Prog.path_pure _ _ _).mp h₄
    rw [List.append_nil] at hs htakes
    have hall := writeAll_gives (Nat.le_refl _) h₃ hs (takes_append.mp htakes).2
    by_cases hij : i = j
    · subst hij
      rw [if_pos rfl] at hall
      rwa [if_pos ⟨rfl, show m₁.Open i by rwa [OutputMem.Open, ← hfd]⟩]
    · rw [if_neg hij] at hall
      rwa [if_neg fun hc => hij hc.1]
  · obtain ⟨rfl, -⟩ := (Prog.path_pure _ _ _).mp h₂
    obtain rfl := hs
    rw [if_neg]
    · exact gives_nil
    · rintro ⟨rfl, hopen⟩
      exact hclosed (by rwa [hfd])

theorem flush_gives {ok v : Bool} (h : (flush ok batch).Path es v)
    (hs : Steps outputStep m es m') (htakes : Takes i es) :
    Gives m i (if m.Open i then batch else []) m' := by
  obtain ⟨(count : ℕ), e₁, e₂, rfl, h₁, h₂⟩ := (Prog.path_bind _ _ _ _).mp h
  rw [(Prog.path_op _ _ _).mp h₁] at hs htakes
  obtain ⟨m₁, ⟨hcount, hm₁⟩, hs⟩ := hs
  obtain rfl := hm₁
  have hloop := Prog.path_foldlM_range
    (P := fun k es _ => ∀ m', Steps outputStep m₁ es m' → Takes i es →
      Gives m₁ i (if i < k ∧ m₁.Open i then batch else []) m') ?_ ?_ h₂
  · have hall := hloop m' hs (takes_append.mp htakes).2
    by_cases hopen : m₁.Open i
    · rw [if_pos ⟨hcount ▸ OutputMem.open_lt hopen, hopen⟩] at hall
      rwa [if_pos hopen]
    · rw [if_neg fun hc => hopen hc.2] at hall
      rwa [if_neg hopen]
  · intro m' hs _
    obtain rfl := hs
    rw [if_neg fun hc => absurd hc.1 (Nat.not_lt_zero i)]
    exact gives_nil
  · intro k es ok es' ok' _ ih h m' hs htakes
    obtain ⟨m₂, hs₁, hs₂⟩ := steps_append.mp hs
    obtain ⟨ht₁, ht₂⟩ := takes_append.mp htakes
    have hfirst := ih m₂ hs₁ ht₁
    have hsame : m₂.Open i ↔ m₁.Open i := by rw [OutputMem.Open, hfirst.1, OutputMem.Open]
    have hall := hfirst.trans (flushOutput_gives h hs₂ ht₂)
    simp only [hsame] at hall
    -- the turn for output `i` gives it the batch, the others do not
    by_cases hopen : m₁.Open i
    · rcases Nat.lt_trichotomy i k with hlt | rfl | hgt
      · rw [if_pos ⟨hlt, hopen⟩, if_neg fun hc => absurd hc.1 (by omega), List.append_nil] at hall
        rwa [if_pos ⟨by omega, hopen⟩]
      · rw [if_neg fun hc => absurd hc.1 (Nat.lt_irrefl i), if_pos ⟨rfl, hopen⟩,
          List.nil_append] at hall
        rwa [if_pos ⟨by omega, hopen⟩]
      · rw [if_neg fun hc => absurd hc.1 (by omega), if_neg fun hc => absurd hc.1 (by omega),
          List.append_nil] at hall
        rwa [if_neg fun hc => absurd hc.1 (by omega)]
    · rw [if_neg fun hc => hopen hc.2, if_neg fun hc => hopen hc.2, List.append_nil] at hall
      rwa [if_neg fun hc => hopen hc.2]

theorem flushes_give {batches : List (List UInt8)} {ok v : Bool}
    (h : (batches.foldlM flush ok).Path es v) (hs : Steps outputStep m es m')
    (htakes : Takes i es) : Gives m i (if m.Open i then batches.flatten else []) m' := by
  induction batches generalizing ok es m with
  | nil =>
    obtain ⟨rfl, -⟩ := (Prog.path_pure _ _ _).mp h
    obtain rfl := hs
    rw [List.flatten_nil, ite_self]
    exact gives_nil
  | cons batch batches ih =>
    rw [List.foldlM_cons] at h
    obtain ⟨ok', e₁, e₂, rfl, h₁, h₂⟩ := (Prog.path_bind _ _ _ _).mp h
    obtain ⟨m₁, hs₁, hs₂⟩ := steps_append.mp hs
    obtain ⟨ht₁, ht₂⟩ := takes_append.mp htakes
    have hfirst := flush_gives h₁ hs₁ ht₁
    have hsame : m₁.Open i ↔ m.Open i := by rw [OutputMem.Open, hfirst.1, OutputMem.Open]
    have hall := hfirst.trans (ih h₂ hs₂ ht₂)
    simp only [hsame] at hall
    by_cases hopen : m.Open i
    · rw [if_pos hopen, if_pos hopen] at hall
      rwa [if_pos hopen, List.flatten_cons]
    · rw [if_neg hopen, if_neg hopen, List.append_nil] at hall
      rwa [if_neg hopen]

/-- A frame goes to the outputs that are open, whole to those that take what they are given. -/
theorem sendFrame_gives {f : SentFrame} {ok : Bool} (h : (sendFrame f).Path es ok)
    (hs : Steps outputStep m es m') (htakes : Takes i es) :
    Gives m i (if m.Open i then f.bytes else []) m' := by
  obtain ⟨_, e₁, _, rfl, h₁, h⟩ := (Prog.path_bind _ _ _ _).mp h
  obtain ⟨ok', e₂, _, rfl, h₂, h⟩ := (Prog.path_bind _ _ _ _).mp h
  obtain ⟨_, e₃, e₄, rfl, h₃, h₄⟩ := (Prog.path_bind _ _ _ _).mp h
  obtain ⟨rfl, -⟩ := (Prog.path_pure _ _ _).mp h₄
  rw [(Prog.path_op _ _ _).mp h₁, (Prog.path_op _ _ _).mp h₃, List.append_nil,
    List.singleton_append] at hs htakes
  obtain ⟨m₁, hm₁, hs⟩ := hs
  obtain rfl := hm₁
  obtain ⟨m₂, hs₁, hs₂⟩ := steps_append.mp hs
  obtain ⟨m₃, hm₃, hlast⟩ := hs₂
  obtain rfl := hm₃
  obtain rfl := hlast
  have hall := flushes_give h₂ hs₁ (htakes.mono fun e he => by simp [he])
  rwa [frameBatches_flatten] at hall

theorem sendFrame_events {f : SentFrame} {ok : Bool} (h : (sendFrame f).Path es ok) :
    ∃ sent, es = ⟨.setOwner f, ()⟩ :: (sent ++ [⟨.clearOwner, ()⟩]) ∧ ∀ e ∈ sent, Plain e.op := by
  obtain ⟨_, e₁, _, rfl, h₁, h⟩ := (Prog.path_bind _ _ _ _).mp h
  obtain ⟨ok', e₂, _, rfl, h₂, h⟩ := (Prog.path_bind _ _ _ _).mp h
  obtain ⟨_, e₃, e₄, rfl, h₃, h₄⟩ := (Prog.path_bind _ _ _ _).mp h
  obtain ⟨rfl, -⟩ := (Prog.path_pure _ _ _).mp h₄
  rw [(Prog.path_op _ _ _).mp h₁, (Prog.path_op _ _ _).mp h₃, List.append_nil]
  exact ⟨e₂, List.singleton_append, Prog.only_foldlM only_flush _ _ e₂ ok' h₂⟩

theorem framesOf_sendFrame {f : SentFrame} {ok : Bool} (h : (sendFrame f).Path es ok) :
    ∃ rest, es = ⟨.setOwner f, ()⟩ :: rest ∧ framesOf rest = [] ∧ opensIn es = 0 := by
  obtain ⟨sent, rfl, hplain⟩ := sendFrame_events h
  obtain ⟨hframes, hopens⟩ := framesOf_plain hplain
  refine ⟨_, rfl, ?_, ?_⟩
  · rw [framesOf_append, hframes]
    rfl
  · rw [← List.singleton_append, opensIn_append, opensIn_append, hopens]
    rfl

end Frame

/-! ### Sections -/

/-- Only what `open` returned is among the outputs. -/
def AllOpen (m : OutputMem) : Prop := ∀ fd ∈ m.fds, 0 ≤ fd

section Sections

variable {m m' : OutputMem} {es b b' : List ConsoleEv} {i : ℕ}

theorem AllOpen.open_iff (h : AllOpen m) : m.Open i ↔ i < m.fds.length := by
  refine ⟨OutputMem.open_lt, fun hlt => ?_⟩
  unfold OutputMem.Open
  rw [List.getD_eq_getElem?_getD, List.getElem?_eq_getElem hlt]
  exact h _ (List.getElem_mem hlt)

theorem addOutputLocked_gives {path : List UInt8} {err : EspErr}
    (h : (addOutputLocked path).Path es err) (hs : Steps outputStep m es m') (hm : AllOpen m) :
    framesOf es = [] ∧ m'.wire = m.wire ∧ AllOpen m' := by
  obtain ⟨(count : ℕ), e₁, e₂, rfl, h₁, h⟩ := (Prog.path_bind _ _ _ _).mp h
  rw [(Prog.path_op _ _ _).mp h₁] at hs ⊢
  obtain ⟨m₁, ⟨-, hm₁⟩, hs⟩ := hs
  obtain rfl := hm₁
  rcases (Prog.path_ite _ _ _ _ _).mp h with ⟨-, h⟩ | ⟨-, h⟩
  · obtain ⟨rfl, -⟩ := (Prog.path_pure _ _ _).mp h
    obtain rfl := hs
    exact ⟨rfl, rfl, hm⟩
  obtain ⟨(fd : ℤ), e₃, e₄, rfl, h₃, h⟩ := (Prog.path_bind _ _ _ _).mp h
  rw [(Prog.path_op _ _ _).mp h₃] at hs ⊢
  obtain ⟨m₂, hm₂, hs⟩ := hs
  obtain rfl := hm₂
  rcases (Prog.path_ite _ _ _ _ _).mp h with ⟨hfd, h⟩ | ⟨-, h⟩
  · obtain ⟨_, e₅, e₆, rfl, h₅, h₆⟩ := (Prog.path_bind _ _ _ _).mp h
    obtain ⟨rfl, -⟩ := (Prog.path_pure _ _ _).mp h₆
    rw [(Prog.path_op _ _ _).mp h₅] at hs ⊢
    obtain ⟨m₃, hm₃, hs⟩ := hs
    obtain rfl := hm₃
    obtain rfl := hs
    refine ⟨rfl, rfl, fun fd' hmem => ?_⟩
    rcases List.mem_append.mp hmem with hmem | hmem
    · exact hm _ hmem
    · rw [List.mem_singleton.mp hmem]
      exact hfd
  · obtain ⟨rfl, -⟩ := (Prog.path_pure _ _ _).mp h
    obtain rfl := hs
    exact ⟨rfl, rfl, hm⟩

theorem reads_give (h : ∀ e ∈ es, Reads e.op) (hs : Steps outputStep m es m') : m' = m := by
  induction es generalizing m with
  | nil => exact hs
  | cons e es ih =>
    obtain ⟨m₁, he, hrest⟩ := hs
    have hm₁ : m₁ = m := by
      obtain ⟨hplain, hwrite⟩ := h e (List.mem_cons_self ..)
      obtain ⟨o, r⟩ := e
      cases o
      case outputCount => exact he.2
      case loadOutput => exact he.2
      case write j data => exact absurd rfl (hwrite j data)
      all_goals first | exact he | cases hplain
    rw [hm₁] at hrest
    exact ih (fun e he => h e (List.mem_cons_of_mem _ he)) hrest

/-- What a section gives output `i`. -/
theorem Section.gives (h : Section b) (hs : Steps outputStep m b m') (htakes : Takes i b)
    (hm : AllOpen m) : AllOpen m' ∧
      m'.wire i = m.wire i ++ (framesOf (sinceOpened i m.fds.length b)).flatMap SentFrame.bytes := by
  cases h with
  | frame f ok hp =>
    obtain ⟨hfds, hwire⟩ := sendFrame_gives hp hs htakes
    obtain ⟨rest, rfl, hrest, hopens⟩ := framesOf_sendFrame hp
    refine ⟨fun fd hmem => hm fd (hfds ▸ hmem), ?_⟩
    rw [hwire]
    by_cases hopen : m.Open i
    · have hframes : framesOf (⟨.setOwner f, ()⟩ :: rest) = [f] := congrArg (f :: ·) hrest
      rw [if_pos hopen, sinceOpened_open (hm.open_iff.mp hopen), hframes, List.flatMap_singleton]
    · rw [if_neg hopen, sinceOpened_closed hopens fun hlt => hopen (hm.open_iff.mpr hlt)]
      rfl
  | addOutput path err hp =>
    obtain ⟨hframes, hwire, hm'⟩ := addOutputLocked_gives hp hs hm
    rw [framesOf_sinceOpened hframes, hwire]
    exact ⟨hm', (List.append_nil _).symm⟩
  | fsync result hp =>
    have hreads := only_fsyncLocked _ _ hp
    obtain ⟨hframes, -⟩ := framesOf_plain fun e he => (hreads e he).1
    rw [reads_give hreads hs, framesOf_sinceOpened hframes]
    exact ⟨hm, (List.append_nil _).symm⟩

theorem sections_give {secs : List (List ConsoleEv)} (hsec : ∀ b ∈ secs, Section b)
    (hs : Steps outputStep m secs.flatten m') (htakes : Takes i secs.flatten) (hm : AllOpen m) :
    AllOpen m' ∧ m'.wire i =
      m.wire i ++ (framesOf (sinceOpened i m.fds.length secs.flatten)).flatMap SentFrame.bytes := by
  induction secs generalizing m with
  | nil =>
    obtain rfl := hs
    exact ⟨hm, (List.append_nil _).symm⟩
  | cons b secs ih =>
    rw [List.flatten_cons] at hs htakes ⊢
    obtain ⟨m₁, hs₁, hs₂⟩ := steps_append.mp hs
    obtain ⟨ht₁, ht₂⟩ := takes_append.mp htakes
    obtain ⟨hm₁, hwire₁⟩ := (hsec b (List.mem_cons_self ..)).gives hs₁ ht₁ hm
    obtain ⟨hm', hwire'⟩ := ih (fun b hb => hsec b (List.mem_cons_of_mem _ hb)) hs₂ ht₂ hm₁
    refine ⟨hm', ?_⟩
    rw [hwire', hwire₁, length_outputStep hs₁, sinceOpened_append, framesOf_append,
      List.flatMap_append, List.append_assoc]

/-- Drivers that take everything. -/
def takesAll (m : OutputMem) (e : ConsoleEv) (m' : OutputMem) : Prop :=
  outputStep m e m' ∧ ∀ i data n, e = ⟨.write i data, n⟩ → n = data.length

theorem total_takesAll : Total takesAll := by
  intro m o
  have hany : ∀ (r : o.Ret) (m' : OutputMem), (∀ i data, o ≠ .write i data) →
      outputStep m ⟨o, r⟩ m' → ∃ r m', takesAll m ⟨o, r⟩ m' := by
    intro r m' hno hstep
    refine ⟨r, m', hstep, fun i data n heq => ?_⟩
    exact absurd (congrArg Event.op heq) (hno i data)
  cases o
  case outputCount => exact hany m.fds.length m (by simp) ⟨rfl, rfl⟩
  case loadOutput i => exact hany (m.fds.getD i (-1)) m (by simp) ⟨rfl, rfl⟩
  case write i data =>
    refine ⟨(data.length : ℤ), m.received i data, ⟨Int.le_refl _, ?_⟩, fun j data' n heq => ?_⟩
    · show _ = m.received i (data.take (data.length : ℤ).toNat)
      rw [Int.toNat_natCast, List.take_length]
    · cases heq
      rfl
  case pushOutput fd => exact hany () _ (by simp) rfl
  case registerVfs => exact hany EspErr.ok m (by simp) rfl
  all_goals exact hany default m (by simp) rfl

theorem takes_of_takesAll (hs : Steps takesAll m es m') (i : ℕ) :
    Steps outputStep m es m' ∧ Takes i es := by
  induction es generalizing m with
  | nil => exact ⟨hs, fun data n hmem => absurd hmem List.not_mem_nil⟩
  | cons e es ih =>
    obtain ⟨m₁, ⟨he, hall⟩, hrest⟩ := hs
    obtain ⟨hsteps, htakes⟩ := ih hrest
    refine ⟨⟨m₁, he, hsteps⟩, fun data n hmem hdata => ?_⟩
    rcases List.mem_cons.mp hmem with heq | hmem
    · rw [hall i data n heq.symm]
      exact Int.natCast_pos.mpr (List.length_pos_iff.mpr hdata)
    · exact htakes data n hmem hdata

/-- The beginning of a section has given nothing, or a beginning of its frame. -/
theorem Section.part (h : Section (b ++ b')) {m'' : OutputMem} (hs : Steps outputStep m b m')
    (hs' : Steps takesAll m' b' m'') (htakes : Takes i b) (hm : AllOpen m) :
    ∃ sent, m'.wire i = m.wire i ++ sent ∧
      ((framesOf (sinceOpened i m.fds.length b) = [] ∧ sent = []) ∨
        ∃ f : SentFrame, framesOf (sinceOpened i m.fds.length b) = [f] ∧ sent <+: f.bytes) := by
  obtain ⟨hlater, htakes'⟩ := takes_of_takesAll hs' i
  obtain ⟨sent, hsent⟩ := wire_outputStep hs i
  obtain ⟨later, hrest⟩ := wire_outputStep hlater i
  have hgives := (h.gives (steps_append.mpr ⟨m', hs, hlater⟩) (takes_append.mpr ⟨htakes, htakes'⟩)
    hm).2
  rw [← hrest, ← hsent, List.append_assoc] at hgives
  have hall := List.append_cancel_left hgives
  refine ⟨sent, hsent.symm, ?_⟩
  have hquiet : framesOf (b ++ b') = [] →
      framesOf (sinceOpened i m.fds.length b) = [] ∧ sent = [] := by
    intro hframes
    rw [framesOf_sinceOpened hframes] at hall
    rw [framesOf_append] at hframes
    exact ⟨framesOf_sinceOpened (List.append_eq_nil_iff.mp hframes).1 _ _,
      (List.append_eq_nil_iff.mp hall).1⟩
  generalize hb : b ++ b' = whole at h
  cases h with
  | addOutput path err hp =>
    obtain ⟨hframes, -⟩ := addOutputLocked_gives hp (hb ▸ steps_append.mpr ⟨m', hs, hlater⟩) hm
    exact Or.inl (hquiet (hb ▸ hframes))
  | fsync result hp =>
    obtain ⟨hframes, -⟩ := framesOf_plain fun e he => (only_fsyncLocked _ _ hp e he).1
    exact Or.inl (hquiet (hb ▸ hframes))
  | frame f ok hp =>
    obtain ⟨rest, heq, hrest, hopens⟩ := framesOf_sendFrame hp
    rw [← hb] at heq hopens
    rw [opensIn_append] at hopens
    cases b with
    | nil =>
      have hsame : m'.wire i = m.wire i := by rw [show m' = m from hs]
      rw [← hsent] at hsame
      exact Or.inl ⟨rfl, List.append_right_eq_self.mp hsame⟩
    | cons e b =>
      rw [List.cons_append] at heq
      obtain ⟨rfl, htail⟩ := List.cons.inj heq
      rw [← htail, framesOf_append] at hrest
      obtain ⟨hb₁, hb₂⟩ := List.append_eq_nil_iff.mp hrest
      by_cases hlt : i < m.fds.length
      · rw [sinceOpened_open hlt] at hall ⊢
        have hone : framesOf (⟨.setOwner f, ()⟩ :: b) = [f] := congrArg (f :: ·) hb₁
        rw [framesOf_append, hone, hb₂, List.append_nil, List.flatMap_singleton] at hall
        exact Or.inr ⟨f, hone, later, hall⟩
      · have hclosed : sinceOpened i m.fds.length ((⟨.setOwner f, ()⟩ :: b) ++ b') = [] :=
          sinceOpened_closed (by rw [opensIn_append]; exact hopens) hlt
        rw [hclosed] at hall
        refine Or.inl ⟨?_, (List.append_eq_nil_iff.mp hall).1⟩
        rw [sinceOpened_closed (by omega) hlt]
        rfl

end Sections

/-! ### Runs -/

section Runs

variable {Tid : Type} [DecidableEq Tid] {b : ConsoleBuild}
  {c : Lib.Config Tid (ConsoleCall b) ConsoleOp ConsoleOp.Ret ConsoleRes (ConsoleShared Tid)}
  {tr : ConsoleTrace Tid b} {i : ℕ}

omit [DecidableEq Tid] in
theorem framesOf_guarded (Tid : Type) (n : ℕ) (es : List ConsoleEv) :
    framesOf (sinceOpened i n (es.filter fun e => (transportSpec Tid).guarded e.op)) =
      framesOf (sinceOpened i n es) := by
  have hopen : ∀ es : List ConsoleEv,
      framesOf (es.filter fun e => (transportSpec Tid).guarded e.op) = framesOf es := by
    intro es
    unfold framesOf
    rw [List.filterMap_filter]
    refine List.filterMap_congr fun e _ => ?_
    obtain ⟨o, r⟩ := e
    cases o <;> rfl
  induction es generalizing n with
  | nil => rfl
  | cons e es ih =>
    by_cases hlt : i < n
    · rw [sinceOpened_open hlt, sinceOpened_open hlt]
      exact hopen _
    · rw [sinceOpened, if_neg hlt, ← ih]
      cases hg : (transportSpec Tid).guarded e.op with
      | true =>
        rw [List.filter_cons, if_pos hg, sinceOpened, if_neg hlt]
      | false =>
        have hnone : opens e = 0 := by
          obtain ⟨o, r⟩ := e
          cases o <;> first | rfl | cases hg
        rw [List.filter_cons, if_neg (by rw [hg]; decide), hnone, Nat.add_zero]

omit [DecidableEq Tid] in
theorem outputStep_of_step (t : Tid) (o : ConsoleOp) (r : o.Ret) (s s' : ConsoleShared Tid)
    (h : (consoleSystem Tid b).step t o r s s') : outputStep s.outputs ⟨o, r⟩ s'.outputs := by
  cases o
  case core =>
    obtain ⟨core, -, rfl⟩ := h
    rfl
  case takePacket => rw [h.2]; rfl
  case ownerIsSelf => rw [h.2]; rfl
  case transportLock => rw [h.2]; rfl
  case outputCount => rw [h.2]; exact ⟨h.1, rfl⟩
  case loadOutput => rw [h.2]; exact ⟨h.1, rfl⟩
  case write => rw [h.2]; exact ⟨h.1, rfl⟩
  case loadInstalled => rw [h.2]; rfl
  case loadSinkInstalled => rw [h.2]; rfl
  all_goals
    obtain rfl := h
    rfl

omit [DecidableEq Tid] in
theorem outputs_unguarded (t : Tid) (o : ConsoleOp) (r : o.Ret) (s s' : ConsoleShared Tid)
    (h : (consoleSystem Tid b).step t o r s s') (hg : (transportSpec Tid).guarded o = false) :
    s'.outputs = s.outputs := by
  have hstep := outputStep_of_step t o r s s' h
  cases o <;> first | exact hstep | cases hg

/-- At any time output `i` has the frames begun since it was opened, the last one perhaps in part. -/
theorem wire_run (h : (consoleSystem Tid b).Run c tr) (htakes : Takes i (actEvents tr)) :
    ∃ frames sent, c.state.outputs.wire i = frames.flatMap SentFrame.bytes ++ sent ∧
      ((framesOf (sinceOpened i 0 (actEvents tr)) = frames ∧ sent = []) ∨
        ∃ f : SentFrame, framesOf (sinceOpened i 0 (actEvents tr)) = frames ++ [f] ∧
          sent <+: f.bytes ∧ c.state.mutex ≠ none) := by
  have hsteps := (transportSpec Tid).locked_steps (mutex_transport b) body_keepsMutex
    outputStep_of_step outputs_unguarded h
  have hsec := (transportSpec Tid).closed_sec (mutex_transport b) body_keepsMutex h
  obtain ⟨hfilter, hsub⟩ :=
    (transportSpec Tid).filter_lockedEvents (mutex_transport b) body_keepsMutex h
  have hown := ((transportSpec Tid).run_view (mutex_transport b) body_keepsMutex h).1
  rw [← framesOf_guarded Tid 0 (actEvents tr), hfilter, framesOf_guarded]
  have hlocked := htakes.mono fun e he => hsub.subset he
  rw [LockSpec.lockedEvents] at hsteps hlocked ⊢
  obtain ⟨m, hclosed, hopen⟩ := steps_append.mp hsteps
  obtain ⟨ht₁, ht₂⟩ := takes_append.mp hlocked
  have hnone : AllOpen (ConsoleShared.init : ConsoleShared Tid).outputs :=
    fun fd hmem => absurd hmem List.not_mem_nil
  obtain ⟨hm, hwire⟩ := sections_give hsec hclosed ht₁ hnone
  have hlen : m.fds.length = 0 + opensIn ((transportSpec Tid).closedSections tr).flatten :=
    length_outputStep hclosed
  rw [sinceOpened_append, framesOf_append, ← hlen]
  have hinit : (consoleSystem Tid b).init.outputs.wire i = [] := rfl
  rw [hinit, List.nil_append] at hwire
  cases hh : (transportSpec Tid).holder tr with
  | none =>
    have ho := (transportSpec Tid).openSection_free (mutex_transport b) body_keepsMutex h hh
    rw [ho] at hopen ⊢
    rw [show c.state.outputs = m from hopen]
    exact ⟨_, [], hwire.trans (List.append_nil _).symm, Or.inl ⟨List.append_nil _, rfl⟩⟩
  | some t =>
    obtain ⟨b', m', hsection, hrest⟩ := (transportSpec Tid).openSection_completes
      (mutex_transport b) body_keepsMutex total_takesAll h hh c.state.outputs
    obtain ⟨sent, hsent, hpart⟩ := hsection.part hopen hrest ht₂ hm
    rw [hwire] at hsent
    refine ⟨_, sent, hsent, ?_⟩
    rcases hpart with ⟨hframes, rfl⟩ | ⟨f, hframes, hprefix⟩
    · rw [hframes, List.append_nil]
      exact Or.inl ⟨rfl, rfl⟩
    · rw [hframes]
      refine Or.inr ⟨f, rfl, hprefix, fun hfree => ?_⟩
      rw [show c.state.mutex = _ from hown, hh] at hfree
      cases hfree

end Runs

end EspConsole

/-! ### Reading the frames back -/

theorem unescape_unended {stream : List UInt8} (h : 0xc0 ∉ stream) (body : List UInt8)
    (clean : Bool) :
    (unescape body clean stream).ended = false ∧ (unescape body clean stream).rest = [] := by
  fun_induction unescape body clean stream with
  | case1 body clean => exact ⟨rfl, rfl⟩
  | case2 body clean rest => exact absurd (List.mem_cons_self ..) h
  | case3 body clean => exact ⟨rfl, rfl⟩
  | case4 body clean code rest _ byte hcode ih =>
    exact ih fun hmem => h (List.mem_cons_of_mem _ (List.mem_cons_of_mem _ hmem))
  | case5 body clean code rest _ hcode ih =>
    exact ih fun hmem => h (List.mem_cons_of_mem _ (List.mem_cons_of_mem _ hmem))
  | case6 body clean byte rest _ _ ih => exact ih fun hmem => h (List.mem_cons_of_mem _ hmem)

def SentFrame.good (f : SentFrame) : Frame := goodFrame f.1 f.2

/-- A beginning of a frame reads as the frame or as nothing. -/
theorem decodeFrames_part {f : SentFrame} {sent : List UInt8} (h : sent <+: f.bytes) :
    (decodeFrames sent).filter Frame.valid = [] ∨ sent = f.bytes := by
  rcases List.prefix_concat_iff.mp (show sent <+: (frameStart ::
    (frameBody f.1 f.2).flatMap slip) ++ [frameEnd] from h) with heq | hpart
  · exact Or.inr heq
  left
  cases sent with
  | nil => rfl
  | cons byte sent =>
    obtain ⟨rfl, hbody⟩ := List.cons_prefix_cons.mp hpart
    have hend : (0xc0 : UInt8) ∉ sent := fun hmem =>
      not_mem_body (Or.inr (Or.inl rfl)) f.1 f.2 (hbody.subset hmem)
    obtain ⟨hended, hrest⟩ := unescape_unended hend [] true
    rw [frameStart, decodeFrames_start, hrest]
    have hframe : (unescape [] true sent).frame = {} := by
      unfold FrameRead.frame
      rw [if_neg]
      rw [hended]
      exact fun hc => absurd hc.1 (by decide)
    rw [hframe]
    rfl

theorem decodeFrames_frames (frames : List SentFrame) (rest : List UInt8) :
    decodeFrames (frames.flatMap SentFrame.bytes ++ rest) =
      frames.map SentFrame.good ++ decodeFrames rest := by
  induction frames with
  | nil => rfl
  | cons f frames ih =>
    rw [List.flatMap_cons, List.append_assoc]
    show decodeFrames (frameBytes f.1 f.2 ++ _) = _
    rw [decodeFrames_frame, ih]
    rfl

theorem filter_good (frames : List SentFrame) :
    (frames.map SentFrame.good).filter Frame.valid = frames.map SentFrame.good := by
  refine List.filter_eq_self.mpr fun frame hmem => ?_
  obtain ⟨f, -, rfl⟩ := List.mem_map.mp hmem
  rfl

/-- The valid frames on an output that takes what it is given. -/
theorem EspConsole.frames_run {Tid : Type} [DecidableEq Tid] {b : ConsoleBuild}
    {c : Lib.Config Tid (ConsoleCall b) ConsoleOp ConsoleOp.Ret ConsoleRes (ConsoleShared Tid)}
    {tr : ConsoleTrace Tid b} {i : ℕ} (h : (consoleSystem Tid b).Run c tr)
    (htakes : Takes i (actEvents tr)) :
    ∃ frames, (decodeFrames (c.state.outputs.wire i)).filter Frame.valid =
        frames.map SentFrame.good ∧
      (framesOf (sinceOpened i 0 (actEvents tr)) = frames ∨
        ∃ f, framesOf (sinceOpened i 0 (actEvents tr)) = frames ++ [f] ∧ c.state.mutex ≠ none) := by
  obtain ⟨frames, sent, hwire, hsent⟩ := wire_run h htakes
  rw [hwire, decodeFrames_frames, List.filter_append, filter_good]
  rcases hsent with ⟨hframes, rfl⟩ | ⟨f, hframes, hprefix, hbusy⟩
  · exact ⟨frames, List.append_nil _, Or.inl hframes⟩
  · rcases decodeFrames_part hprefix with hnone | rfl
    · rw [hnone]
      exact ⟨frames, List.append_nil _, Or.inr ⟨f, hframes, hbusy⟩⟩
    · refine ⟨frames ++ [f], ?_, Or.inl hframes⟩
      have hlast := decodeFrames_frames [f] []
      rw [List.flatMap_singleton, List.append_nil, show decodeFrames [] = [] from rfl,
        List.append_nil] at hlast
      rw [hlast, filter_good, List.map_append]

end On9log
