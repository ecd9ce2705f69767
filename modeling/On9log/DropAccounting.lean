import On9log.Lib.ThreadSum
import On9log.Outcome
import On9log.Progress
import On9log.Solo

/-!
# Drop accounting

A thread owes the count it took from the dropped counter until the DROPPED
packet with that count has ended. `debtStep` is that protocol, read off one
thread's own events; `Books` is the invariant that ties the debts of all
threads, the counter and the packets on the wire together modulo 2^32.
-/

namespace On9log
open Lib Lib.LittleEndian

/-! ### One thread -/

/-- The count taken and not yet reported, whether the thread holds the emit
lock, and the packet it is sending. -/
structure Debt where
  taken : ℕ
  inside : Bool
  current : Option Packet

def Debt.none : Debt := ⟨0, false, Option.none⟩

def Packet.addChunk (c : Chunk) (pkt : Packet) : Packet := { pkt with chunks := pkt.chunks ++ [c] }

def debtStep (g : Debt) (e : Ev) (g' : Debt) : Prop :=
  match e with
  | ⟨.exchangeDropped, raw⟩ =>
    g.inside = false ∧ g.taken = 0 ∧ g' = { g with taken := (UInt32.ofNat raw).toNat }
  | ⟨.emitLock, _⟩ => g.inside = false ∧ g' = { g with inside := true }
  | ⟨.emitUnlock, _⟩ => g.inside = true ∧ g.current = Option.none ∧ g' = { g with inside := false }
  | ⟨.stream (.start origin header), _⟩ =>
    g.inside = true ∧ g.current = Option.none ∧ g' = { g with current := some ⟨origin, header, []⟩ }
  | ⟨.stream (.payload c), _⟩ =>
    g.inside = true ∧ g' = { g with current := g.current.map (Packet.addChunk c) }
  | ⟨.stream .finish, _⟩ =>
    g.inside = true ∧ (∃ pkt, g.current = some pkt ∧ pkt.dropCount = g.taken) ∧
      g' = { g with taken := 0, current := Option.none }
  | ⟨.storeSlot _ _, _⟩ => g.inside = true ∧ g.taken = 0 ∧ g' = g
  | _ => g' = g

theorem debtStep_functional : Functional debtStep := by
  intro g e g₁ g₂ h₁ h₂
  obtain ⟨o, r⟩ := e
  cases o
  case exchangeDropped => rw [h₁.2.2, h₂.2.2]
  case emitLock => rw [h₁.2, h₂.2]
  case emitUnlock => rw [h₁.2.2, h₂.2.2]
  case storeSlot => rw [h₁.2.2, h₂.2.2]
  case stream call =>
    cases call with
    | start origin header => rw [h₁.2.2, h₂.2.2]
    | payload c => rw [h₁.2, h₂.2]
    | finish => rw [h₁.2.2, h₂.2.2]
  all_goals exact Eq.trans h₁ (Eq.symm h₂)

/-- Events that change nothing about the debt. -/
def Op.debtFree : Op → Bool
  | .exchangeDropped => false
  | .emitLock => false
  | .emitUnlock => false
  | .stream _ => false
  | .storeSlot _ _ => false
  | _ => true

theorem steps_debtFree {es : List Ev} (h : ∀ e ∈ es, e.op.debtFree = true) (g : Debt) :
    Steps debtStep g es g := by
  induction es with
  | nil => rfl
  | cons e es ih =>
    have he := h e (List.mem_cons_self ..)
    refine ⟨g, ?_, ih fun x hx => h x (List.mem_cons_of_mem _ hx)⟩
    obtain ⟨o, r⟩ := e
    cases o
    case exchangeDropped => cases he
    case emitLock => cases he
    case emitUnlock => cases he
    case stream => cases he
    case storeSlot => cases he
    all_goals rfl

theorem steps_debt_calls (sinks : List SinkEntry) (c : SinkCall) (g : Debt) :
    Steps debtStep g (sinks.map fun e => ⟨.call e c, ()⟩) g := by
  refine steps_debtFree (fun e he => ?_) g
  obtain ⟨a, -, rfl⟩ := List.mem_map.mp he
  rfl

theorem steps_debt_emits {sinks : List SinkEntry} {es : List Ev} {cs : List Chunk}
    (h : Emits sinks es cs) (v : ℕ) (pkt : Packet) :
    Steps debtStep ⟨v, true, some pkt⟩ es
      ⟨v, true, some { pkt with chunks := pkt.chunks ++ cs }⟩ := by
  induction h generalizing pkt with
  | nil =>
    rw [List.append_nil]
    rfl
  | memory mem _ ih => exact ⟨_, rfl, ih pkt⟩
  | chunk c _ _ ih =>
    have hrest := ih (pkt.addChunk c)
    refine steps_append.mpr ⟨⟨v, true, some (pkt.addChunk c)⟩,
      ⟨_, ⟨rfl, rfl⟩, steps_debt_calls _ _ _⟩, ?_⟩
    simpa [Packet.addChunk] using hrest

/-- Before its end a packet is the one in progress, whatever has been taken. -/
theorem steps_debt_packet {sinks : List SinkEntry} {pkt : Packet} {body : List Ev}
    (h : Emits sinks body pkt.chunks) (v : ℕ) :
    Steps debtStep ⟨v, true, none⟩ (broadcast sinks (.start pkt.origin pkt.header) ++
      (body ++ sinks.map fun e => ⟨.call e .endCb, ()⟩)) ⟨v, true, some pkt⟩ := by
  have hstart : Steps debtStep ⟨v, true, none⟩ (broadcast sinks (.start pkt.origin pkt.header))
      ⟨v, true, some ⟨pkt.origin, pkt.header, []⟩⟩ := ⟨_, ⟨rfl, rfl, rfl⟩, steps_debt_calls _ _ _⟩
  have hbody := steps_debt_emits h v ⟨pkt.origin, pkt.header, []⟩
  exact steps_append.mpr ⟨_, hstart, steps_append.mpr ⟨_, hbody, steps_debt_calls _ _ _⟩⟩

theorem steps_debt_packetBody {sinks : List SinkEntry} {pkt : Packet} {body : List Ev}
    (h : Emits sinks body pkt.chunks) :
    Steps debtStep ⟨pkt.dropCount, true, none⟩ (packetBody sinks pkt body) ⟨0, true, none⟩ := by
  have hend : Steps debtStep ⟨pkt.dropCount, true, some pkt⟩ [⟨.stream .finish, ()⟩]
      ⟨0, true, none⟩ := ⟨_, ⟨rfl, ⟨pkt, rfl, rfl⟩, rfl⟩, rfl⟩
  have hall := steps_append.mpr ⟨_, steps_debt_packet h pkt.dropCount, hend⟩
  simpa [packetBody, finishing] using hall

theorem steps_debt_reads {slots : ℕ → SinkEntry} {is : List ℕ} (g : Debt) :
    Steps debtStep g (slotReads slots is) g := by
  refine steps_debtFree (fun e he => ?_) _
  obtain ⟨i, -, rfl⟩ := List.mem_map.mp he
  rfl

theorem Numbered.steps_debt {origin : Origin} {header : List UInt8} {num : List Ev}
    (h : Numbered origin header num) (g : Debt) : Steps debtStep g num g := by
  refine steps_debtFree (fun e he => ?_) _
  rcases h.mem he with ⟨raw, rfl⟩ | ⟨now, rfl⟩
  · rfl
  · rfl

theorem CoreSection.steps_debt {cfg : Config} {v : ℕ} {b : List Ev} (h : CoreSection cfg v b) :
    Steps debtStep ⟨v, true, none⟩ b ⟨0, true, none⟩ := by
  have hloads : ∀ {l : List Ev}, OnlyLoads l →
      Steps debtStep ⟨0, true, none⟩ l ⟨0, true, none⟩ := by
    intro l hl
    refine steps_debtFree (fun e he => ?_) _
    obtain ⟨j, hj⟩ := hl e he
    rw [hj]
    rfl
  have htable : ∀ {b : List Ev}, TableSection b →
      Steps debtStep ⟨0, true, none⟩ b ⟨0, true, none⟩ := by
    intro b hb
    rcases hb with hl | ⟨l, i, s, hl, rfl⟩
    · exact hloads hl
    · exact steps_append.mpr ⟨_, hloads hl, _, ⟨rfl, rfl, rfl⟩, rfl⟩
  cases h with
  | packet slots pkt _ hsec _ =>
    obtain ⟨num, body, hnum, hem, rfl⟩ := hsec
    exact steps_append.mpr ⟨_, steps_debt_reads _,
      steps_append.mpr ⟨_, hnum.steps_debt _, steps_debt_packetBody hem⟩⟩
  | add e r _ _ hadd => exact htable hadd.tableSection
  | remove e r _ _ hrem => exact htable hrem.tableSection

theorem Serial.steps_debt {cfg : Config} {v v' : ℕ} {es : List Ev} (h : Serial cfg v es v') :
    Steps debtStep ⟨v, false, none⟩ es ⟨v', false, none⟩ := by
  induction h with
  | nil v => rfl
  | @quiet v v' es e he _ ih =>
    have hfree : e.op.debtFree = true := by
      have hq := he.1
      generalize e.op = o at hq
      cases o <;> simp_all [Op.quiet, Op.debtFree]
    have hone : Steps debtStep ⟨v, false, none⟩ [e] ⟨v, false, none⟩ :=
      steps_debtFree (by simpa using hfree) _
    exact steps_append.mpr ⟨_, hone, ih⟩
  | exchange raw _ ih => exact ⟨_, ⟨rfl, rfl, rfl⟩, ih⟩
  | sec b hb _ ih =>
    exact ⟨_, ⟨rfl, rfl⟩, steps_append.mpr ⟨_, hb.steps_debt, _, ⟨rfl, rfl, rfl⟩, ih⟩⟩

/-- What an event does to the count a call has taken and not yet reported. -/
def takenStep (v : ℕ) (e : Ev) : ℕ :=
  match e with
  | ⟨.exchangeDropped, raw⟩ => (UInt32.ofNat raw).toNat
  | ⟨.stream .finish, _⟩ => 0
  | _ => v

def takenBy (es : List Ev) : ℕ := es.foldl takenStep 0

theorem debtStep_taken {g g' : Debt} {e : Ev} (h : debtStep g e g') :
    g'.taken = takenStep g.taken e := by
  obtain ⟨o, r⟩ := e
  cases o
  case exchangeDropped => rw [h.2.2]; rfl
  case emitLock => rw [h.2]; rfl
  case emitUnlock => rw [h.2.2]; rfl
  case storeSlot => rw [h.2.2]; rfl
  case stream call =>
    cases call with
    | start origin header => rw [h.2.2]; rfl
    | payload c => rw [h.2]; rfl
    | finish => rw [h.2.2]; rfl
  all_goals rw [show g' = g from h]; rfl

theorem steps_debt_taken {g g' : Debt} {es : List Ev} (h : Steps debtStep g es g') :
    g'.taken = es.foldl takenStep g.taken := by
  induction es generalizing g with
  | nil => rw [show g' = g from h]; rfl
  | cons e es ih =>
    obtain ⟨g₁, h₁, h₂⟩ := h
    rw [ih h₂, debtStep_taken h₁]
    rfl

/-! ### All threads -/

section Books

variable {Tid : Type} [DecidableEq Tid] {cfg : Config}

def owed (v : ℕ) : Multiset ℕ := if v = 0 then 0 else {v}

theorem sum_owed (v : ℕ) : (owed v).sum = v := by
  unfold owed
  split <;> simp_all

def clearedBy (e : Ev) : Multiset ℕ :=
  match e with
  | ⟨.exchangeDropped, raw⟩ => owed (UInt32.ofNat raw).toNat
  | _ => 0

/-- The non-zero counts taken from the dropped counter so far. -/
def cleared (es : List Ev) : Multiset ℕ := (es.map clearedBy).sum

/-- The counts of the DROPPED packets in `sent`. -/
def reports (sent : List Sent) : Multiset ℕ := (sent.map fun s => owed s.pkt.dropCount).sum

def reported (sent : List Sent) : ℕ := (sent.map fun s => s.pkt.dropCount).sum

theorem sum_reports (sent : List Sent) : (reports sent).sum = reported sent := by
  induction sent with
  | nil => rfl
  | cons s sent ih =>
    unfold reports reported at ih ⊢
    rw [List.map_cons, List.sum_cons, Multiset.sum_add, sum_owed, ih, List.map_cons, List.sum_cons]

theorem reports_append (l₁ l₂ : List Sent) : reports (l₁ ++ l₂) = reports l₁ + reports l₂ := by
  simp [reports]

theorem cleared_snoc (es : List Ev) (e : Ev) : cleared (es ++ [e]) = cleared es + clearedBy e := by
  simp [cleared]

/-- The debts agree with the lock and the wire: what was taken from the
counter has been reported or is still owed. -/
structure Books (cfg : Config) (s : Shared Tid) (es : List Ev) (g : Tid → Debt) : Prop where
  inside : ∀ t, (g t).inside = true ↔ s.emitOwner = some t
  current : ∀ t, (g t).current =
    if s.emitOwner = some t then (wireOf cfg es).current.map Sent.pkt else none
  idle : s.emitOwner = none → (wireOf cfg es).current = none
  count : ∃ P, SumIs (fun t => owed (g t).taken) P ∧
    cleared es = reports (wireOf cfg es).sent + P

theorem wireOf_snoc (es : List Ev) (e : Ev) :
    wireOf cfg (es ++ [e]) = wireStep cfg (wireOf cfg es) e := by
  rw [wireOf_append]
  rfl

theorem drops_snoc (es : List Ev) (e : Ev) :
    drops (es ++ [e]) = drops es + if e.op = .addDropped then 1 else 0 := by
  simp [drops, List.countP_append, List.countP_singleton]

theorem update_owed {g : Tid → Debt} {t : Tid} {d : Debt} :
    (fun u => owed (Function.update g t d u).taken) =
      Function.update (fun u => owed (g u).taken) t (owed d.taken) := by
  funext u
  by_cases h : u = t
  · subst h
    rw [Function.update_self, Function.update_self]
  · rw [Function.update_of_ne h, Function.update_of_ne h]

/-- A step of a thread that moves neither the lock nor the wire. -/
theorem Books.keep {s s' : Shared Tid} {es : List Ev} {g : Tid → Debt} (h : Books cfg s es g)
    {t : Tid} {e : Ev} {v : ℕ} (hstream : ∀ c, e.op ≠ .stream c)
    (ho : s'.emitOwner = s.emitOwner) (hv : owed v = owed (g t).taken + clearedBy e) :
    Books cfg s' (es ++ [e]) (Function.update g t { g t with taken := v }) := by
  have hone : ∀ e' ∈ [e], ∀ c, e'.op ≠ .stream c := by simpa using hstream
  obtain ⟨hcur, hsent⟩ := foldl_wireStep_noStream cfg hone (wireOf cfg es)
  rw [← wireOf_append] at hcur hsent
  have hsame : ∀ u, (Function.update g t { g t with taken := v } u).inside = (g u).inside ∧
      (Function.update g t { g t with taken := v } u).current = (g u).current := by
    intro u
    by_cases hu : u = t
    · subst hu
      rw [Function.update_self]
      exact ⟨rfl, rfl⟩
    · rw [Function.update_of_ne hu]
      exact ⟨rfl, rfl⟩
  refine ⟨fun u => ?_, fun u => ?_, ?_, ?_⟩
  · rw [(hsame u).1, ho]
    exact h.inside u
  · rw [(hsame u).2, ho, hcur]
    exact h.current u
  · rw [ho, hcur]
    exact h.idle
  · obtain ⟨P, hP, hold⟩ := h.count
    refine ⟨P + clearedBy e, ?_, ?_⟩
    · rw [update_owed]
      apply hP.update t
      rw [hv, add_assoc, add_comm (clearedBy e)]
    · rw [hsent, cleared_snoc, hold, add_assoc]

/-- A step on the wire by the thread that holds the lock. -/
theorem Books.hold {s : Shared Tid} {es : List Ev} {g : Tid → Debt} (h : Books cfg s es g)
    {t : Tid} {d : Debt} {call : StreamCall} (ht : (g t).inside = true) (hin : d.inside = true)
    (hcur : d.current = (wireOf cfg (es ++ [⟨.stream call, ()⟩])).current.map Sent.pkt)
    (hpaid : reports (wireOf cfg (es ++ [⟨.stream call, ()⟩])).sent + owed d.taken =
      reports (wireOf cfg es).sent + owed (g t).taken) :
    Books cfg s (es ++ [⟨.stream call, ()⟩]) (Function.update g t d) := by
  have ho := (h.inside t).mp ht
  refine ⟨fun u => ?_, fun u => ?_, ?_, ?_⟩
  · by_cases hu : u = t
    · subst hu
      rw [Function.update_self]
      exact ⟨fun _ => ho, fun _ => hin⟩
    · rw [Function.update_of_ne hu]
      exact h.inside u
  · by_cases hu : u = t
    · subst hu
      rw [Function.update_self, if_pos ho]
      exact hcur
    · have hne : ¬ s.emitOwner = some u := by
        rw [ho]
        intro hc
        exact hu (Option.some.inj hc).symm
      have hold := h.current u
      rw [if_neg hne] at hold
      rw [Function.update_of_ne hu, if_neg hne]
      exact hold
  · rw [ho]
    intro hc
    cases hc
  · obtain ⟨P, hP, hold⟩ := h.count
    obtain ⟨r, rfl⟩ := hP.rest t
    refine ⟨owed d.taken + r, ?_, ?_⟩
    · rw [update_owed]
      apply hP.update t
      rw [add_right_comm, add_comm (owed d.taken), add_right_comm]
    · have hnone : clearedBy ⟨.stream call, ()⟩ = 0 := rfl
      rw [cleared_snoc, hnone, add_zero, hold, ← add_assoc, ← hpaid, add_assoc]

theorem books_init : Books cfg (Shared.init : Shared Tid) [] fun _ => Debt.none where
  inside t := by simp [Debt.none, Shared.init]
  current t := by simp [Debt.none, Shared.init]
  idle _ := rfl
  count := ⟨0, sumIs_zero, rfl⟩

theorem Books.lock {s : Shared Tid} {es : List Ev} {g : Tid → Debt} (h : Books cfg s es g)
    {t : Tid} (ho : s.emitOwner = none) :
    Books cfg { s with emitOwner := some t } (es ++ [⟨.emitLock, ()⟩])
      (Function.update g t { g t with inside := true }) := by
  have hw : wireOf cfg (es ++ [⟨.emitLock, ()⟩]) = wireOf cfg es := wireOf_snoc _ _
  have hfree : ∀ u, (g u).inside = false ∧ (g u).current = none := by
    intro u
    have hin := h.inside u
    have hcur := h.current u
    rw [ho] at hin hcur
    refine ⟨by simpa using hin, ?_⟩
    rwa [if_neg (by simp)] at hcur
  refine ⟨fun u => ?_, fun u => ?_, ?_, ?_⟩
  · by_cases hu : u = t
    · subst hu
      rw [Function.update_self]
      simp
    · rw [Function.update_of_ne hu, (hfree u).1]
      simp [Ne.symm hu]
  · by_cases hu : u = t
    · subst hu
      rw [Function.update_self, if_pos rfl, hw, h.idle ho]
      exact (hfree u).2
    · rw [Function.update_of_ne hu, (hfree u).2, if_neg]
      intro hc
      exact hu (Option.some.inj hc).symm
  · intro hc
    cases hc
  · obtain ⟨P, hP, hold⟩ := h.count
    refine ⟨P, ?_, ?_⟩
    · rw [update_owed]
      exact hP.update t rfl
    · rw [hw, cleared_snoc, hold]
      exact add_zero _

theorem Books.unlock {s : Shared Tid} {es : List Ev} {g : Tid → Debt} (h : Books cfg s es g)
    {t : Tid} (ht : (g t).inside = true) (hcur : (g t).current = none) :
    Books cfg { s with emitOwner := none } (es ++ [⟨.emitUnlock, ()⟩])
      (Function.update g t { g t with inside := false }) := by
  have hw : wireOf cfg (es ++ [⟨.emitUnlock, ()⟩]) = wireOf cfg es := wireOf_snoc _ _
  have ho := (h.inside t).mp ht
  have hidle : (wireOf cfg es).current = none := by
    have hmap := h.current t
    rw [if_pos ho, hcur] at hmap
    exact Option.map_eq_none_iff.mp hmap.symm
  refine ⟨fun u => ?_, fun u => ?_, ?_, ?_⟩
  · by_cases hu : u = t
    · subst hu
      rw [Function.update_self]
      simp
    · rw [Function.update_of_ne hu, h.inside u, ho]
      simp [Ne.symm hu]
  · rw [if_neg (by simp)]
    by_cases hu : u = t
    · subst hu
      rw [Function.update_self]
      exact hcur
    · rw [Function.update_of_ne hu, h.current u, hidle]
      split <;> rfl
  · intro _
    rw [hw]
    exact hidle
  · obtain ⟨P, hP, hold⟩ := h.count
    refine ⟨P, ?_, ?_⟩
    · rw [update_owed]
      exact hP.update t rfl
    · rw [hw, cleared_snoc, hold]
      exact add_zero _

/-- The wire's packet in progress is the holder's. -/
theorem Books.wire {s : Shared Tid} {es : List Ev} {g : Tid → Debt} (h : Books cfg s es g)
    {t : Tid} (ht : (g t).inside = true) :
    (g t).current = (wireOf cfg es).current.map Sent.pkt := by
  have hcur := h.current t
  rwa [if_pos ((h.inside t).mp ht)] at hcur

theorem Books.act {s s' : Shared Tid} {es : List Ev} {g : Tid → Debt} {t : Tid} {e : Ev}
    {d : Debt} (h : Books cfg s es g) (hd : debtStep (g t) e d)
    (hs : step cfg t e.op e.ret s s') : Books cfg s' (es ++ [e]) (Function.update g t d) := by
  -- every step but those of the protocol takes nothing
  have hplain : (∀ c, e.op ≠ .stream c) → clearedBy e = 0 → d = g t →
      s'.emitOwner = s.emitOwner → Books cfg s' (es ++ [e]) (Function.update g t d) := by
    intro hstream hnone hdg ho
    rw [hdg]
    refine h.keep (v := (g t).taken) hstream ho ?_
    rw [hnone, add_zero]
  obtain ⟨o, r⟩ := e
  cases o
  case exchangeDropped =>
    obtain ⟨-, hz, rfl⟩ := hd
    obtain ⟨hr, rfl⟩ := hs
    refine h.keep (by simp) rfl ?_
    rw [hz]
    exact (zero_add _).symm
  case emitLock =>
    obtain ⟨-, rfl⟩ := hd
    obtain ⟨ho, rfl⟩ := hs
    exact h.lock ho
  case emitUnlock =>
    obtain ⟨hin, hcur, rfl⟩ := hd
    obtain rfl := hs
    exact h.unlock hin hcur
  case storeSlot =>
    obtain ⟨-, -, hd⟩ := hd
    obtain rfl := hs
    exact hplain (by simp) rfl hd rfl
  case stream call =>
    obtain rfl := hs
    cases call with
    | start origin header =>
      obtain ⟨hin, -, rfl⟩ := hd
      refine h.hold hin hin ?_ ?_
      · rw [wireOf_snoc]
        rfl
      · rw [wireOf_snoc]
        rfl
    | payload c =>
      obtain ⟨hin, rfl⟩ := hd
      refine h.hold hin hin ?_ ?_
      · rw [wireOf_snoc, h.wire hin]
        show Option.map (Packet.addChunk c) _ = Option.map Sent.pkt (Option.map (Sent.addChunk c) _)
        rw [Option.map_map, Option.map_map]
        rfl
      · rw [wireOf_snoc]
        rfl
    | finish =>
      obtain ⟨hin, ⟨pkt, hpkt, hcount⟩, rfl⟩ := hd
      refine h.hold hin hin ?_ ?_
      · rw [wireOf_snoc]
        rfl
      · rw [wireOf_snoc]
        show reports ((wireOf cfg es).sent ++ (wireOf cfg es).current.toList) + 0 = _
        have hsome := h.wire hin
        rw [hpkt] at hsome
        obtain ⟨st, hst, hstp⟩ := Option.map_eq_some_iff.mp hsome.symm
        rw [hst, reports_append, ← hcount, ← hstp]
        simp [reports]
  case loadSlot =>
    obtain ⟨-, rfl⟩ := hs
    exact hplain (by simp) rfl hd rfl
  case fetchAddSeq =>
    obtain ⟨-, rfl⟩ := hs
    exact hplain (by simp) rfl hd rfl
  case timestampMs =>
    obtain ⟨-, rfl⟩ := hs
    exact hplain (by simp) rfl hd rfl
  all_goals
    obtain rfl := hs
    exact hplain (by simp) rfl hd rfl

theorem mod_fast32 (cfg : Config) (n : ℕ) : n % 2 ^ cfg.fast32 ≡ n [MOD 2 ^ 32] :=
  (Nat.mod_modEq n _).of_dvd (Nat.pow_dvd_pow 2 cfg.fast32_ge)

/-- Every drop so far has been taken from the counter or is still in it. -/
theorem drops_cleared {c : Lib.Config Tid Call Op Op.Ret Res (Shared Tid)}
    {tr : List (Label Tid Call Op Op.Ret Res)} (h : (system Tid cfg).Run c tr) :
    drops (actEvents tr) ≡ (cleared (actEvents tr)).sum + c.state.dropped [MOD 2 ^ 32] := by
  induction h with
  | init => exact Nat.ModEq.refl 0
  | invoke t call _ _ ih => exact ih
  | ret t call v _ _ ih => exact ih
  | @act c tr t call o k r s' _ _ hs ih =>
    rw [actEvents, drops_snoc, cleared_snoc, Multiset.sum_add]
    have hs' : step cfg t o r c.state s' := hs
    have hsame : o ≠ .addDropped → clearedBy ⟨o, r⟩ = 0 → s'.dropped = c.state.dropped →
        drops (actEvents tr) + (if o = .addDropped then 1 else 0) ≡
          (cleared (actEvents tr)).sum + (clearedBy ⟨o, r⟩).sum + s'.dropped [MOD 2 ^ 32] := by
      intro ho hc hd
      rw [if_neg ho, hc, hd]
      exact ih
    cases o
    case addDropped =>
      have hd : s' = { c.state with dropped := (c.state.dropped + 1) % 2 ^ cfg.fast32 } := hs'
      rw [if_pos rfl, hd]
      have hmod := (mod_fast32 cfg (c.state.dropped + 1)).symm.add_left
        (cleared (actEvents tr)).sum
      exact (ih.add_right 1).trans hmod
    case exchangeDropped =>
      obtain ⟨hr, rfl⟩ := hs'
      have hr' : r = c.state.dropped := hr
      rw [if_neg (by simp)]
      show drops (actEvents tr) ≡
        (cleared (actEvents tr)).sum + (owed (UInt32.ofNat r).toNat).sum + 0 [MOD 2 ^ 32]
      rw [sum_owed, UInt32.toNat_ofNat', hr']
      exact ih.trans ((Nat.mod_modEq c.state.dropped (2 ^ 32)).symm.add_left _)
    case emitLock =>
      obtain ⟨-, rfl⟩ := hs'
      exact hsame (by simp) rfl rfl
    case loadSlot =>
      obtain ⟨-, rfl⟩ := hs'
      exact hsame (by simp) rfl rfl
    case fetchAddSeq =>
      obtain ⟨-, rfl⟩ := hs'
      exact hsame (by simp) rfl rfl
    case timestampMs =>
      obtain ⟨-, rfl⟩ := hs'
      exact hsame (by simp) rfl rfl
    all_goals
      obtain rfl := hs'
      exact hsame (by simp) rfl rfl

/-- Each thread of a run has the debt its own events give. -/
theorem exists_books {c : Lib.Config Tid Call Op Op.Ret Res (Shared Tid)}
    {tr : List (Label Tid Call Op Op.Ret Res)} (h : (system Tid cfg).Run c tr) :
    ∃ g : Tid → Debt, (∀ t, Steps debtStep Debt.none (callEvents t tr) (g t)) ∧
      Books cfg c.state (actEvents tr) g := by
  have hcall : ∀ call es v, (body cfg call).Path es v →
      Steps debtStep Debt.none es Debt.none := fun _ _ _ hp => (serial_body hp).steps_debt
  exact h.invariant debtStep_functional hcall
    (I := fun s tr g => Books cfg s (actEvents tr) g) books_init (fun _ _ _ _ _ hi _ => hi)
    (fun _ _ _ _ _ _ hi _ => hi) (fun _ _ _ _ _ _ _ hi hd hs => hi.act hd hs)

/-- What was taken from the counter has been reported or is still owed. -/
theorem cleared_run {c : Lib.Config Tid Call Op Op.Ret Res (Shared Tid)}
    {tr : List (Label Tid Call Op Op.Ret Res)} (h : (system Tid cfg).Run c tr) :
    ∃ P, SumIs (fun t => owed (takenBy (callEvents t tr))) P ∧
      cleared (actEvents tr) = reports (wireOf cfg (actEvents tr)).sent + P := by
  obtain ⟨g, hg, hbooks⟩ := exists_books h
  obtain ⟨P, hP, hcount⟩ := hbooks.count
  refine ⟨P, ?_, hcount⟩
  have htaken : (fun t => owed (takenBy (callEvents t tr))) = fun t => owed (g t).taken := by
    funext t
    exact congrArg owed (steps_debt_taken (hg t)).symm
  rw [htaken]
  exact hP

theorem books_run {c : Lib.Config Tid Call Op Op.Ret Res (Shared Tid)}
    {tr : List (Label Tid Call Op Op.Ret Res)} (h : (system Tid cfg).Run c tr) :
    ∃ n, SumIs (fun t => takenBy (callEvents t tr)) n ∧
      drops (actEvents tr) ≡
        reported (wireOf cfg (actEvents tr)).sent + n + c.state.dropped [MOD 2 ^ 32] := by
  obtain ⟨P, hP, hcleared⟩ := cleared_run h
  have hsum := hP.map Multiset.sumAddMonoidHom
  simp only [Multiset.coe_sumAddMonoidHom, sum_owed] at hsum
  refine ⟨P.sum, hsum, ?_⟩
  have hd := drops_cleared h
  rwa [hcleared, Multiset.sum_add, sum_reports] at hd

/-! ### Calls -/

/-- The calls that have counted a drop: a call is counted at its first. -/
def droppedCalls : List (Label Tid Call Op Op.Ret Res) → ℕ
  | [] => 0
  | .act t e :: tr => droppedCalls tr +
      if e.op = .addDropped ∧ drops (callEvents t tr) = 0 then 1 else 0
  | .invoke _ _ :: tr => droppedCalls tr
  | .ret _ _ _ :: tr => droppedCalls tr

theorem Outcome.drops_le {call : Call} {v : Res} {es : List Ev} {notices pkts : List Packet}
    {d : ℕ} {enq : List (List UInt8)} (h : Outcome cfg call v es notices pkts d enq) : d ≤ 1 := by
  cases h <;> simp

theorem droppedCalls_eq {c : Lib.Config Tid Call Op Op.Ret Res (Shared Tid)}
    {tr : List (Label Tid Call Op Op.Ret Res)} (h : (system Tid cfg).Run c tr) :
    droppedCalls tr = drops (actEvents tr) := by
  induction h with
  | init => rfl
  | invoke t call _ _ ih => exact ih
  | ret t call v _ _ ih => exact ih
  | @act c tr t call o k r s' hrun ht _ ih =>
    rw [actEvents, drops_snoc, ← ih]
    show droppedCalls tr + _ = _
    by_cases ho : o = .addDropped
    · -- the events of the call so far begin a complete path, with one drop at most
      obtain ⟨es', v, hp⟩ := Prog.reach_extends (Prog.reach_snoc rfl ((hrun.thread t).2 _ _ ht) r)
      obtain ⟨notices, pkts, d, enq, hout, heff⟩ := (performs_body hp).ends
      have hle := hout.drops_le
      have hd := heff.drops
      have happ : drops (callEvents t tr ++ [⟨o, r⟩] ++ es') =
          drops (callEvents t tr ++ [⟨o, r⟩]) + drops es' := List.countP_append
      rw [happ, drops_snoc, if_pos ho] at hd
      rw [if_pos ⟨ho, by omega⟩, if_pos ho]
    · rw [if_neg (fun hc => ho hc.1), if_neg ho]

/-- How a log, buffer or ISR call that passed the filter ended: its packets are
out, or its packet is in the ring buffer, or it counted one drop, or there is
no ISR backend. `notices` are the DROPPED packets sent on behalf of others. -/
inductive EndsOnce (call : Call) (es : List Ev) : Prop
  | emitted (notices pkts : List Packet) : call.isIsr = false → Notice notices →
      OwnPackets call pkts → streamCalls es = (notices ++ pkts).flatMap Packet.streamCalls →
      enqueued es = [] → drops es = 0 → EndsOnce call es
  | enqueued (p : List UInt8) : call.isIsr = true → streamCalls es = [] → enqueued es = [p] →
      drops es = 0 → EndsOnce call es
  | dropped (notices : List Packet) : Notice notices →
      streamCalls es = notices.flatMap Packet.streamCalls → enqueued es = [] → drops es = 1 →
      EndsOnce call es
  | noBackend : call.isIsr = true → (⟨.isrReady, false⟩ : Ev) ∈ es → streamCalls es = [] →
      enqueued es = [] → drops es = 0 → EndsOnce call es

theorem Ends.once {call : Call} {v : Res} {es : List Ev} {level : ℕ} {tag : Ptr}
    (h : Ends cfg call v es) (hf : call.filter = some (level, tag))
    (hp : Passes cfg level tag es) : EndsOnce call es := by
  obtain ⟨notices, pkts, d, enq, hout, heff⟩ := h
  have hstreams := heff.streams
  cases hout with
  | filtered _ _ level' tag' hf' hblock =>
    rw [hf] at hf'
    cases hf'
    exact absurd hp hblock
  | emitted _ _ _ _ _ _ _ hi _ hn hown =>
    exact .emitted notices pkts hi hn hown hstreams heff.enqueued heff.drops
  | dropped _ _ _ _ _ _ _ hn =>
    rw [List.append_nil] at hstreams
    exact .dropped notices hn hstreams heff.enqueued heff.drops
  | enqueued _ _ _ _ p _ hi _ => exact .enqueued p hi hstreams heff.enqueued heff.drops
  | noBackend _ _ hi hready =>
    exact .noBackend hi hready hstreams heff.enqueued heff.drops
  | relayed _ p pkt _ hcall _ _ _ =>
    subst hcall
    cases hf
  | boot _ _ _ pkt hcall =>
    subst hcall
    cases hf
  | silent _ _ hnone =>
    rw [hnone] at hf
    cases hf

/-- Drop accounting, for every interleaving: a call that passes the filter ends
in exactly one way; the calls that dropped are those reported, those whose
count some thread has taken, and those still in the counter; and no DROPPED
packet reports nothing. -/
theorem drops_accounted {c : Lib.Config Tid Call Op Op.Ret Res (Shared Tid)}
    {tr : List (Label Tid Call Op Op.Ret Res)} (h : (system Tid cfg).Run c tr) :
    (∀ t call v tr' level tag, (.ret t call v :: tr') <:+ tr →
      call.filter = some (level, tag) → Passes cfg level tag (callEvents t tr') →
      EndsOnce call (callEvents t tr')) ∧
    (∃ n, SumIs (fun t => takenBy (callEvents t tr)) n ∧
      droppedCalls tr ≡
        reported (wireOf cfg (actEvents tr)).sent + n + c.state.dropped [MOD 2 ^ 32]) ∧
    ∀ s ∈ (wireOf cfg (actEvents tr)).sent, ∀ now, s.pkt.origin = .built .dropped now →
      s.pkt.dropCount ≠ 0 := by
  refine ⟨fun t call v tr' level tag hsuf hf hp => ?_, ?_, fun s hs now ho => ?_⟩
  · obtain ⟨tr₂, rfl⟩ := hsuf
    obtain ⟨c', h'⟩ := h.suffix
    exact (performs_ret h').ends.once hf hp
  · rw [droppedCalls_eq h]
    exact books_run h
  · exact ((progress_run h).1.sound s hs).counted now ho

end Books

/-- A buffer call without a buffer is dropped and reported by the next one. -/
theorem drops_accounted_buffer : ∃ c tr, (system ℕ smallConfig).Run c tr ∧
    drops (actEvents tr) = 1 ∧ reported (wireOf smallConfig (actEvents tr)).sent = 1 ∧
    ∃ n, SumIs (fun t => takenBy (callEvents t tr)) n ∧
      droppedCalls tr ≡ reported (wireOf smallConfig (actEvents tr)).sent + n + c.state.dropped
        [MOD 2 ^ 32] := by
  obtain ⟨c, tr, hrun, -, hval⟩ := run_from_init smallConfig quietWorld (0 : ℕ)
    [.writeBuffer 1 0 0 5, .writeBuffer 1 0 0 0]
    (fun p => (drops (actEvents p.2), reported (wireOf smallConfig (actEvents p.2)).sent)) (a := (1, 1))
    (by decide +kernel)
  obtain ⟨hd, hr⟩ := Prod.mk.inj hval
  exact ⟨c, tr, hrun, hd, hr, (drops_accounted hrun).2.1⟩

end On9log
