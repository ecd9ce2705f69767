import On9log.TagReaders

/-!
# What a lookup returns (on9log.c:1382-1419)

A lookup reads the counter, the head, each node and the default level at
different times, while writers run. The level it returns was that of an
override of the tag during the lookup, or of one being set, or else it is the
default level and at some moment of the lookup the tag had no override.
-/

namespace On9log
open Lib

/-! ### Overrides -/

/-- The tag has the override `level`. -/
def TagHeap.InForce (h : TagHeap) (tag : List UInt8) (level : ℕ) : Prop :=
  ∃ i < h.len, (h.node i).active = true ∧ h.contents i = some tag ∧ (h.node i).level = level

/-- The override of the tag if it has one, else the default. -/
def TagHeap.Effective (h : TagHeap) (tag : Option (List UInt8)) (level : ℕ) : Prop :=
  (∃ a, tag = some a ∧ h.InForce a level) ∨
    (∀ a l, tag = some a → ¬ h.InForce a l) ∧ h.defaultLevel = level

variable {Tid : Type} {cfg : HazardConfig} {s s' : HazardState Tid} {t : Tid}
  {vs : List (HazardState Tid)} {tag : Option (List UInt8)} {level : ℕ}

/-- A task is under the lock in `on9log_set_tag_level` for this tag and level. -/
def HazardState.Setting (s : HazardState Tid) (tag : List UInt8) (level : ℕ) : Prop :=
  ∃ u copy q, s.inside = some (u, .set tag level copy, q)

/-- A lookup of the tag by task `t`, from its first access to the state `s`. -/
abbrev LookupSpan [DecidableEq Tid] (cfg : HazardConfig) (t : Tid) (tag : Option (List UInt8)) :
    List (HazardState Tid) → HazardState Tid → Prop :=
  Span (HazardState.Next cfg) (HazardState.Fewer cfg)
    (fun s => s.Reached cfg ∧ s.pc t = .lookup tag .loadCount)
    fun s => ∃ p, s.pc t = .lookup tag p

/-- With no other lookup the counter never overflows. -/
theorem HazardState.fewer_of_alone [DecidableEq Tid] (hbits : 0 < cfg.uintBits)
    (h : ∀ u, u ≠ t → ∀ tag p, s.pc u ≠ .lookup tag p) : s.Fewer cfg := by
  intro i n hsum
  have hone : SumIs (fun u => (s.pc u).holds i) ((s.pc t).holds i) := by
    refine ⟨{t}, fun u hu => ?_, Finset.sum_singleton _ _⟩
    have hut : u ≠ t := fun he => hu (Finset.mem_singleton.mpr he)
    dsimp only
    cases hpc : s.pc u with
    | lookup tag p => exact absurd hpc (h u hut tag p)
    | _ => rfl
  have hle := (s.pc t).holds_le_one i
  have htwo : 1 < 2 ^ cfg.uintBits := Nat.one_lt_two_pow (by omega)
  rw [hsum.unique hone]
  omega

/-! ### What the passed states say -/

/-- At some moment the tag had no override, but for one that was being set. -/
def Overlooked (vs : List (HazardState Tid)) (tag : Option (List UInt8)) : Prop :=
  ∃ v ∈ vs, ∀ a l, tag = some a → v.heap.InForce a l → v.Setting a l

/-- At some moment the tag had the override, or it was being set. -/
def Seen (vs : List (HazardState Tid)) (tag : List UInt8) (level : ℕ) : Prop :=
  ∃ v ∈ vs, v.heap.InForce tag level ∨ v.Setting tag level

def Result (vs : List (HazardState Tid)) (tag : Option (List UInt8)) (level : ℕ) : Prop :=
  (∃ a, tag = some a ∧ Seen vs a level) ∨
    (∃ v ∈ vs, v.heap.defaultLevel = level) ∧ Overlooked vs tag

/-- Node `j` has not been passed. -/
def LookupPc.ahead (j : ℕ) : LookupPc → Prop
  | .loadCount | .loadHead | .done _ => True
  | .loadActive i | .addReaders i | .recheck i | .loadTag i | .compare i _ => j ≤ i
  | .loadLevel i _ same | .subReaders i _ same _ => j < i ∨ same = true
  | .dropReaders i | .loadNext i => j < i
  | .loadDefault => False

/-- Node `j` is the override of the tag. -/
def TagHeap.Stays (h : TagHeap) (tag : List UInt8) (j : ℕ) : Prop :=
  j < h.len ∧ (h.node j).active = true ∧ h.contents j = some tag

/-- What the lookup has seen of the level it is to return. -/
def TagHeap.SeenAt (h : TagHeap) (vs : List (HazardState Tid)) (tag : Option (List UInt8)) :
    LookupPc → Prop
  | .loadTag i | .compare i _ | .loadLevel i _ _ =>
    ∀ a, h.contents i = some a → Seen vs a (h.node i).level
  | .subReaders i _ _ level => ∀ a, h.contents i = some a → Seen vs a level
  | .done level => Result vs tag level
  | _ => True

structure Walked (vs : List (HazardState Tid)) (h : TagHeap) (tag : Option (List UInt8))
    (p : LookupPc) : Prop where
  ahead : Overlooked vs tag ∨ ∃ a j, tag = some a ∧ h.Stays a j ∧ p.ahead j
  seen : h.SeenAt vs tag p

theorem Overlooked.cons (h : Overlooked vs tag) (v : HazardState Tid) : Overlooked (v :: vs) tag := by
  obtain ⟨w, hw, h⟩ := h
  exact ⟨w, List.mem_cons_of_mem _ hw, h⟩

theorem Seen.cons {a : List UInt8} (h : Seen vs a level) (v : HazardState Tid) :
    Seen (v :: vs) a level := by
  obtain ⟨w, hw, h⟩ := h
  exact ⟨w, List.mem_cons_of_mem _ hw, h⟩

theorem Result.cons (h : Result vs tag level) (v : HazardState Tid) : Result (v :: vs) tag level := by
  rcases h with ⟨a, ha, h⟩ | ⟨⟨w, hw, hdefault⟩, h⟩
  · exact Or.inl ⟨a, ha, h.cons v⟩
  · exact Or.inr ⟨⟨w, List.mem_cons_of_mem _ hw, hdefault⟩, h.cons v⟩

/-! ### One override at a time -/

namespace TagHeap

variable {h h' : TagHeap} {w : Holder} {job : Job} {q q' : WriterPc} {a : List UInt8} {j : ℕ}

theorem Inv.inForce_of_stays (hi : h.Inv cfg w) (hs : h.Stays a j) {l : ℕ} (hf : h.InForce a l) :
    (h.node j).level = l := by
  obtain ⟨i, hlt, -, hc, hl⟩ := hf
  rw [← hi.strings.distinct i j a hlt hs.1 hc hs.2.2]
  exact hl

/-- Two active nodes count two. -/
theorem active_two {i k : ℕ} (hik : i ≠ k) (hi : i < h.len) (hk : k < h.len)
    (hai : (h.node i).active = true) (hak : (h.node k).active = true) : 2 ≤ h.active := by
  have hone := active_storeActive hi false
  have hk' : k < (h.storeActive i false).len := hk
  have hak' : ((h.storeActive i false).node k).active = true := by
    rw [node_storeActive, if_neg (Ne.symm hik)]
    exact hak
  have htwo := active_storeActive hk' false
  rw [hai, Bool.toNat_true, Bool.toNat_false] at hone
  rw [hak', Bool.toNat_true, Bool.toNat_false] at htwo
  omega

/-- While the counter is zero the only override is the one being counted. -/
theorem Inv.uncounted (hi : h.Inv cfg w) (hz : h.activeCount = 0) (hs : h.Stays a j) :
    ∃ job q, w = some (job, q) ∧ job.isSet = true ∧ job.tag = a ∧ (h.node j).level = job.level := by
  have hcount := hi.counted
  unfold Counted at hcount
  have hone : 1 ≤ h.active := by
    have hoff := active_storeActive hs.1 false
    rw [hs.2.1, Bool.toNat_true, Bool.toNat_false] at hoff
    omega
  rw [hz] at hcount
  cases hw : w with
  | none =>
    rw [hw] at hcount
    simp only [Holder.flag] at hcount
    omega
  | some p =>
    obtain ⟨job, q⟩ := p
    rw [hw] at hcount
    simp only [Holder.flag] at hcount
    have ha := hi.annot job q hw
    have hset := hi.kind job q hw
    -- the node being counted is the only active one
    have hthis : ∀ i, i < h.len → (h.node i).active = true → q.uncounted ≤ 1 → i = j := by
      intro i hlt hact hle
      by_contra hij
      have htwo := active_two hij hlt hs.1 hact hs.2.1
      omega
    refine ⟨job, q, rfl, ?_⟩
    cases q with
    | addCount i | addReused i =>
      obtain ⟨⟨hlt, hc⟩, hact, hl⟩ := ha
      have hij := hthis i hlt hact (Nat.le_refl 1)
      subst hij
      exact ⟨hset rfl, Option.some.inj (hc.symm.trans hs.2.2), hl⟩
    | addInserted i =>
      obtain ⟨hlt, hc, hact, hl⟩ := ha
      have hij := hthis i (by omega) hact (Nat.le_refl 1)
      subst hij
      exact ⟨hset rfl, Option.some.inj (hc.symm.trans hs.2.2), hl⟩
    | _ =>
      simp only [WriterPc.uncounted] at hcount
      omega

/-- A node the head does not lead to yet is being inserted. -/
theorem Inv.beyond_head (hi : h.Inv cfg w) (hs : h.Stays a j)
    (hj : h.len - w.flag WriterPc.late ≤ j) :
    ∃ job q, w = some (job, q) ∧ job.isSet = true ∧ job.tag = a ∧ (h.node j).level = job.level := by
  have hlt := hs.1
  cases hw : w with
  | none =>
    rw [hw] at hj
    simp only [Holder.flag] at hj
    omega
  | some p =>
    obtain ⟨job, q⟩ := p
    rw [hw] at hj
    simp only [Holder.flag] at hj
    have ha := hi.annot job q hw
    have hset := hi.kind job q hw
    refine ⟨job, q, rfl, ?_⟩
    cases q with
    | addInserted i | storeHead i =>
      obtain ⟨hlen, hc, -, hl⟩ := ha
      have hij : i = j := by
        simp only [WriterPc.late] at hj
        omega
      subst hij
      exact ⟨hset rfl, Option.some.inj (hc.symm.trans hs.2.2), hl⟩
    | _ =>
      simp only [WriterPc.late] at hj
      omega

end TagHeap

/-- The override that stands is the one a task is setting. -/
theorem HazardState.setting_of_holder {a : List UInt8} {j : ℕ} (hi : s.Inv cfg)
    (hs : s.heap.Stays a j)
    (hh : ∃ job q, s.holder = some (job, q) ∧ job.isSet = true ∧ job.tag = a ∧
      (s.heap.node j).level = job.level) {l : ℕ} (hf : s.heap.InForce a l) : s.Setting a l := by
  obtain ⟨job, q, hw, hset, htag, hlevel⟩ := hh
  have hl := hi.heap.inForce_of_stays hs hf
  obtain ⟨⟨u, job', q'⟩, hin, he⟩ := Option.map_eq_some_iff.mp hw
  cases he
  cases job with
  | set tag' level' copy =>
    have htag' : tag' = a := htag
    have hlevel' : level' = l := hlevel.symm.trans hl
    subst htag' hlevel'
    exact ⟨u, copy, q, hin⟩
  | clear tag' => cases hset

/-! ### Steps of the lookup -/

variable {p : LookupPc}

theorem Walked.cons {h : TagHeap} (hp : Walked vs h tag p) (v : HazardState Tid) :
    Walked (v :: vs) h tag p := by
  refine ⟨hp.ahead.imp_left fun ho => ho.cons v, ?_⟩
  have hseen := hp.seen
  cases p with
  | loadTag i | compare i _ | loadLevel i _ _ | subReaders i _ _ _ =>
    exact fun a ha => (hseen a ha).cons v
  | done level => exact Result.cons hseen v
  | _ => trivial

theorem Walked.same {h h' : TagHeap} (hp : Walked vs h tag p) (hs : h.Same h') :
    Walked vs h' tag p := by
  refine ⟨?_, ?_⟩
  · rcases hp.ahead with ho | ⟨a, j, ha, hstays, hahead⟩
    · exact Or.inl ho
    · refine Or.inr ⟨a, j, ha, ?_, hahead⟩
      unfold TagHeap.Stays
      rw [hs.len, hs.active, hs.contents]
      exact hstays
  · have hseen := hp.seen
    cases p <;> simp only [TagHeap.SeenAt, hs.contents, hs.level] at hseen ⊢ <;> exact hseen

/-- One access of the lookup itself. -/
theorem Walked.look (hp : Walked vs s.heap tag p) (hs : s ∈ vs) (hi : s.Inv cfg)
    (hk : s.heap.Knows tag p) (hk' : s.heap.Knows tag (lookupStep cfg s.heap tag p).2) :
    Walked vs s.heap tag (lookupStep cfg s.heap tag p).2 := by
  obtain ⟨hahead, hseen⟩ := hp
  have hset : ∀ {a j}, tag = some a → s.heap.Stays a j → (∃ job q, s.holder = some (job, q) ∧
      job.isSet = true ∧ job.tag = a ∧ (s.heap.node j).level = job.level) → Overlooked vs tag := by
    intro a j ha hstays hh
    refine ⟨s, hs, fun a' l ha' hf => ?_⟩
    rw [ha] at ha'
    cases ha'
    exact HazardState.setting_of_holder hi hstays hh hf
  have hinForce : ∀ i a, s.heap.contents i = some a → i < s.heap.len →
      (s.heap.node i).active = true → Seen vs a (s.heap.node i).level :=
    fun i a ha hlt hact => ⟨s, hs, Or.inl ⟨i, hlt, hact, ha, rfl⟩⟩
  -- what is left of the walk from the node numbered `k - 1`
  have hwalk : ∀ k, (Overlooked vs tag ∨ ∃ a j, tag = some a ∧ s.heap.Stays a j ∧ j < k) →
      Walked vs s.heap tag (.walk (below k)) := by
    intro k hk
    cases k with
    | zero =>
      refine ⟨hk.imp_right ?_, trivial⟩
      rintro ⟨a, j, -, -, hj⟩
      exact absurd hj (Nat.not_lt_zero j)
    | succ k =>
      refine ⟨hk.imp_right ?_, trivial⟩
      rintro ⟨a, j, ha, hstays, hj⟩
      exact ⟨a, j, ha, hstays, Nat.le_of_lt_succ hj⟩
  -- an inactive node is not the override
  have hskip : ∀ i, (s.heap.node i).active ≠ true →
      (Overlooked vs tag ∨ ∃ a j, tag = some a ∧ s.heap.Stays a j ∧ j ≤ i) →
      Overlooked vs tag ∨ ∃ a j, tag = some a ∧ s.heap.Stays a j ∧ j < i := by
    rintro i hact (ho | ⟨a, j, ha, hstays, hj⟩)
    · exact Or.inl ho
    · have hij : j ≠ i := fun he => hact (he ▸ hstays.2.1)
      exact Or.inr ⟨a, j, ha, hstays, by omega⟩
  cases p with
  | loadCount =>
    simp only [lookupStep]
    split
    · rename_i hz
      refine ⟨Or.inl ?_, trivial⟩
      rcases hahead with ho | ⟨a, j, ha, hstays, -⟩
      · exact ho
      · exact hset ha hstays (hi.heap.uncounted hz hstays)
    · refine ⟨hahead.imp_right ?_, trivial⟩
      rintro ⟨a, j, ha, hstays, -⟩
      exact ⟨a, j, ha, hstays, trivial⟩
  | loadHead =>
    simp only [lookupStep]
    rw [hi.heap.chain.head]
    apply hwalk
    rcases hahead with ho | ⟨a, j, ha, hstays, -⟩
    · exact Or.inl ho
    · by_cases hj : j < s.heap.len - s.holder.flag WriterPc.late
      · exact Or.inr ⟨a, j, ha, hstays, hj⟩
      · exact Or.inl (hset ha hstays (hi.heap.beyond_head hstays (Nat.le_of_not_lt hj)))
  | loadDefault =>
    refine ⟨Or.imp_right ?_ hahead, ?_⟩
    · rintro ⟨a, j, ha, hstays, -⟩
      exact ⟨a, j, ha, hstays, trivial⟩
    rcases hahead with ho | ⟨a, j, -, -, hfalse⟩
    · exact Or.inr ⟨⟨s, hs, rfl⟩, ho⟩
    · cases hfalse
  | loadActive i =>
    simp only [lookupStep]
    split
    · exact ⟨hahead, trivial⟩
    · exact ⟨hskip i ‹_› hahead, trivial⟩
  | recheck i =>
    simp only [lookupStep]
    split
    · exact ⟨hahead, fun a ha => hinForce i a ha hk ‹_›⟩
    · exact ⟨hskip i ‹_› hahead, trivial⟩
  | addReaders i => exact ⟨hahead, trivial⟩
  | loadTag i => exact ⟨hahead, hseen⟩
  | compare i configured =>
    refine ⟨hahead.imp_right ?_, hseen⟩
    rintro ⟨a, j, ha, hstays, hj⟩
    refine ⟨a, j, ha, hstays, ?_⟩
    by_cases hij : j = i
    · rw [hij] at hstays
      exact Or.inr (hk'.2.2.mpr (hstays.2.2.trans ha.symm))
    · have hle : j ≤ i := hj
      exact Or.inl (by omega)
  | loadLevel i configured same => exact ⟨hahead, hseen⟩
  | subReaders i configured same l =>
    obtain ⟨-, -, hsame, c, hc, -⟩ := hk
    simp only [lookupStep]
    split
    · rename_i hmatch
      refine ⟨hahead.imp_right ?_, Or.inl ⟨c, (hsame.mp hmatch).symm.trans hc, hseen c hc⟩⟩
      rintro ⟨a, j, ha, hstays, -⟩
      exact ⟨a, j, ha, hstays, trivial⟩
    · rename_i hmatch
      refine ⟨hahead.imp_right ?_, trivial⟩
      rintro ⟨a, j, ha, hstays, hj⟩
      exact ⟨a, j, ha, hstays, hj.resolve_right hmatch⟩
  | dropReaders i => exact ⟨hahead, trivial⟩
  | loadNext i =>
    simp only [lookupStep]
    rw [hi.heap.chain.next i hk]
    exact hwalk i hahead
  | done l => exact ⟨hahead, hseen⟩

/-! ### Steps of the others -/

/-- The level of a node that a lookup reads, after an access of a writer. -/
theorem TagHeap.level_access {h h' : TagHeap} {job : Job} {q q' : WriterPc} {i : ℕ}
    (hi : h.Inv cfg (some (job, q))) (hlt : i < h.len) (hw : ¬ q.overwrites i)
    (hstep : TagHeap.Access cfg h job q h' q') :
    (h'.node i).level = (h.node i).level ∨
      job.isSet = true ∧ h.contents i = some job.tag ∧ (h'.node i).level = job.level := by
  have ha := hi.annot job q rfl
  have hset : ∀ {j : ℕ} {n : HazardNode}, n.level = (h.node j).level →
      ((h.setNode j n).node i).level = (h.node i).level :=
    fun hn => field_setNode HazardNode.level hn i
  cases hstep with
  | read _ | addCount _ | addReused _ | addInserted _ | subCount _ | storeHead _ => exact Or.inl rfl
  | update j wasActive =>
    rw [node_setTo]
    split
    · rename_i hij
      subst hij
      exact Or.inr ⟨hi.kind job _ rfl rfl, ha.1.2, rfl⟩
    · exact Or.inl rfl
  | reuseLevel j =>
    have hij : i ≠ j := fun he => hw he.symm
    rw [node_setTo, if_neg hij]
    exact Or.inl rfl
  | initLevel j =>
    have hj := ha.2.1
    rw [node_setTo, if_neg (by omega)]
    exact Or.inl rfl
  | storeActive j | reuseActive j | initActive j =>
    exact Or.inl (hset (n := { h.node j with active := true }) rfl)
  | clearActive j => exact Or.inl (hset (n := { h.node j with active := false }) rfl)
  | storeTag j | initTag j => exact Or.inl (hset (n := { h.node j with tag := job.copy }) rfl)
  | initReaders j => exact Or.inl (hset (n := { h.node j with readers := 0 }) rfl)
  | insertHead j => exact Or.inl (hset (n := { h.node j with next := h.first }) rfl)
  | freeTag j =>
    rw [node_free]
    exact Or.inl rfl
  | calloc hroom =>
    have hnodes : h.nodes = h.len := hi.chain.nodes
    rw [node_calloc, if_neg (by omega)]
    exact Or.inl rfl

theorem Walked.access {h' : TagHeap} {job : Job} {q q' : WriterPc} {u : Tid}
    (hp : Walked vs s.heap tag p) (hheap : s.heap.Inv cfg (some (job, q)))
    (hk : s.heap.Knows tag p) (hw : TagHeap.Unharmed (some (job, q)) p)
    (hheap' : h'.Inv cfg (some (job, q'))) (hstep : TagHeap.Access cfg s.heap job q h' q') :
    Walked ({ s with heap := h', inside := some (u, job, q') } :: vs) h' tag p := by
  have hlen := hstep.len_le hheap.chain (hheap.annot job q rfl)
  refine ⟨?_, ?_⟩
  · rcases hp.ahead with ho | ⟨a, j, ha, ⟨hlt, hact, hc⟩, hahead⟩
    · exact Or.inl (ho.cons _)
    have hkept := hstep.kept hheap hlt fun hq => by
      rw [(hheap.annot job q rfl).inactive hq] at hact
      cases hact
    have hc' : h'.contents j = some a := hkept.contents.trans hc
    cases hact' : (h'.node j).active with
    | true => exact Or.inr ⟨a, j, ha, ⟨by omega, hact', hc'⟩, hahead⟩
    | false =>
      -- the override was cleared, and no other node has the tag
      refine Or.inl ⟨_, List.mem_cons_self .., fun a' l ha' hf => ?_⟩
      rw [ha] at ha'
      cases ha'
      obtain ⟨i, hlti, hacti, hci, -⟩ := hf
      rw [hheap'.strings.distinct i j a hlti (by omega) hci hc', hact'] at hacti
      cases hacti
  · have hseen := hp.seen
    have hread : ∀ i, i < s.heap.len → p.reading i →
        (∀ a, s.heap.contents i = some a → Seen vs a (s.heap.node i).level) →
        ∀ a, h'.contents i = some a →
          Seen ({ s with heap := h', inside := some (u, job, q') } :: vs) a (h'.node i).level := by
      intro i hlt hr hold a ha
      have hnot := hw job q i rfl hr
      rw [(hstep.kept hheap hlt hnot).contents] at ha
      rcases TagHeap.level_access hheap hlt hnot hstep with hsame | ⟨hset, htag, hlevel⟩
      · rw [hsame]
        exact (hold a ha).cons _
      · rw [hlevel]
        refine ⟨_, List.mem_cons_self .., Or.inr ?_⟩
        cases job with
        | set tag' level' copy =>
          have htag' : tag' = a := Option.some.inj (htag.symm.trans ha)
          subst htag'
          exact ⟨u, copy, q', rfl⟩
        | clear tag' => cases hset
    cases p with
    | loadTag i => exact hread i hk rfl hseen
    | compare i _ | loadLevel i _ _ => exact hread i hk.1 rfl hseen
    | subReaders i _ _ l =>
      intro a ha
      rw [(hstep.kept hheap hk.1 (hw job q i rfl rfl)).contents] at ha
      exact (hseen a ha).cons _
    | done l => exact Result.cons hseen _
    | _ => trivial

/-! ### Runs -/

variable [DecidableEq Tid]

theorem HazardState.step_lookup {x : Choice} (h : s.step cfg t x = some s')
    (hp : s.pc t = .lookup tag p) :
    (∃ level, p = .done level) ∧ s'.pc t = .idle ∨
      s' = { s.goto t (.lookup tag (lookupStep cfg s.heap tag p).2) with
        heap := (lookupStep cfg s.heap tag p).1 } := by
  obtain ⟨r, hr, rfl⟩ := Option.map_eq_some_iff.mp h
  rw [hp] at hr
  cases x with
  | go ok =>
    cases p with
    | done level =>
      cases hr
      exact Or.inl ⟨⟨level, rfl⟩, Function.update_self ..⟩
    | _ =>
      cases hr
      exact Or.inr rfl
  | _ => cases p <;> cases hr

/-- What a lookup has found out is still so after a step of another task. -/
theorem Walked.other {u : Tid} (hp : Walked vs s.heap tag p) (hpc : s.pc t = .lookup tag p)
    (hi : s.Inv cfg) (hi' : s'.Inv cfg) (hstep : HazardState.Taken cfg s u s') :
    Walked (s' :: vs) s'.heap tag p := by
  cases hstep with
  | goto p' hready hquiet => exact hp.cons _
  | look tag' p' hp' => exact (hp.same (TagHeap.same_lookupStep tag' p')).cons _
  | storeDefault level hp' =>
    have hsame : s.heap.Same { s.heap with defaultLevel := level } :=
      ⟨rfl, rfl, rfl, rfl, rfl, Nat.le_refl _, fun _ => rfl, fun _ => rfl, fun _ => rfl,
        fun _ => rfl, fun _ => rfl⟩
    exact (hp.same hsame).cons _
  | acquire job hp' hfree => exact hp.cons _
  | access job q q' h' hin haccess =>
    have hholder : s.holder = some (job, q) := by
      unfold HazardState.holder
      rw [hin]
      rfl
    have hheap := hi.heap
    have hunharmed := hi.unharmed hpc
    rw [hholder] at hheap hunharmed
    exact hp.access hheap (hi.knows t tag p hpc) hunharmed hi'.heap haccess
  | release job next hin => exact hp.cons _
  | malloc job hp' => exact (hp.same (TagHeap.same_strdup hi.heap.strings job.tag)).cons _
  | freeCopy job err hp' =>
    have hown : s.Owns u job := Or.inr (Or.inl ⟨err, hp'⟩)
    have hsame := TagHeap.same_free fun i b hb => (hi.copies u job hown b hb).2.2 i
    exact (hp.same hsame).cons _

theorem Walked.own {x : Choice} {p' : LookupPc} (hp : Walked vs s.heap tag p)
    (hpc : s.pc t = .lookup tag p) (hs : s ∈ vs) (hi : s.Inv cfg) (hi' : s'.Inv cfg)
    (hstep : s.step cfg t x = some s') (hpc' : s'.pc t = .lookup tag p') :
    Walked (s' :: vs) s'.heap tag p' := by
  have hsame : s.heap.Same (lookupStep cfg s.heap tag p).1 := TagHeap.same_lookupStep tag p
  rcases HazardState.step_lookup hstep hpc with ⟨-, hidle⟩ | rfl
  · rw [hidle] at hpc'
    cases hpc'
  · have hnext : (lookupStep cfg s.heap tag p).2 = p' := by
      have hself := (Function.update_self t _ s.pc).symm.trans hpc'
      cases hself
      rfl
    subst hnext
    -- only a count of readers has changed
    have hknows := hi.knows t tag p hpc
    have hnext := hknows.next hi.heap (hi.unharmed hpc)
    exact ((hp.look hs hi hknows hnext).same hsame).cons _

theorem LookupSpan.walked (h : LookupSpan cfg t tag vs s) :
    ∃ p, s.pc t = .lookup tag p ∧ Walked vs s.heap tag p := by
  refine Span.invariant (J := fun vs s => ∃ p, s.pc t = .lookup tag p ∧ Walked vs s.heap tag p)
    h (fun s hs => hs.1) ?_ ?_
  · rintro s ⟨-, hpc⟩
    refine ⟨.loadCount, hpc, ?_, trivial⟩
    by_cases hstays : ∃ a j, tag = some a ∧ s.heap.Stays a j
    · obtain ⟨a, j, ha, hj⟩ := hstays
      exact Or.inr ⟨a, j, ha, hj, trivial⟩
    · refine Or.inl ⟨s, List.mem_singleton_self s, fun a l ha hf => ?_⟩
      obtain ⟨i, hlt, hact, hc, -⟩ := hf
      exact absurd ⟨a, i, ha, hlt, hact, hc⟩ hstays
  · rintro vs s s' hreach hmem ⟨p, hpc, hp⟩ hfew ⟨u, x, hx⟩ ⟨p', hpc'⟩
    have hi : s.Inv cfg := HazardState.Reached.inv hreach
    have hi' : s'.Inv cfg := HazardState.Reached.inv (.step hreach hfew ⟨u, x, hx⟩)
    refine ⟨p', hpc', ?_⟩
    by_cases hut : u = t
    · subst hut
      exact hp.own hpc hmem hi hi' hx hpc'
    · have hkept := HazardState.step_other hx (Ne.symm hut)
      rw [hkept, hpc] at hpc'
      cases hpc'
      exact hp.other hpc hi hi' (HazardState.taken_of_step hx)

/-- The level a lookup returns. -/
theorem lookup_result (h : LookupSpan cfg t tag vs s) (hdone : s.pc t = .lookup tag (.done level)) :
    Result vs tag level := by
  obtain ⟨p, hpc, hp⟩ := h.walked
  rw [hdone] at hpc
  cases hpc
  exact hp.seen

/-! ### Spans given by what the tasks do in turn -/

/-- The states passed while `turns` are taken, as long as task `t` is in its lookup. -/
def HazardState.visit (cfg : HazardConfig) (t : Tid) (tag : Option (List UInt8))
    (turns : List (Tid × Choice)) (r : List (HazardState Tid) × HazardState Tid) :
    Option (List (HazardState Tid) × HazardState Tid) :=
  turns.foldlM (fun r turn => (r.2.step cfg turn.1 turn.2).bind fun s' =>
    match s'.pc t with
    | .lookup tag' _ => if tag' = tag then some (s' :: r.1, s') else none
    | _ => none) r

/-- Task `t` is about to look the tag up after `before`. -/
def HazardState.visitFrom (cfg : HazardConfig) (t : Tid) (tag : Option (List UInt8))
    (before turns : List (Tid × Choice)) : Option (List (HazardState Tid) × HazardState Tid) :=
  (HazardState.init.run cfg before).bind fun s =>
    (s.step cfg t (.lookup tag)).bind fun s' => HazardState.visit cfg t tag turns ([s'], s')

theorem LookupSpan.visit {T : Finset Tid} {turns : List (Tid × Choice)}
    {r : List (HazardState Tid) × HazardState Tid} (hT : T.card < 2 ^ cfg.uintBits)
    (hturns : ∀ turn ∈ turns, turn.1 ∈ T) (h : LookupSpan cfg t tag vs s) (hs : s.Only T)
    (hrun : HazardState.visit cfg t tag turns (vs, s) = some r) :
    LookupSpan cfg t tag r.1 r.2 := by
  induction turns generalizing vs s with
  | nil =>
    cases hrun
    exact h
  | cons turn turns ih =>
    obtain ⟨r₁, hone, hrest⟩ := Option.bind_eq_some_iff.mp hrun
    obtain ⟨s₁, hstep, hgoes⟩ := Option.bind_eq_some_iff.mp hone
    have hs₁ := hs.step (hturns turn (List.mem_cons_self ..)) hstep
    dsimp only at hgoes
    split at hgoes
    · rename_i tag' p hpc
      split at hgoes
      · rename_i htag
        cases hgoes
        have hspan : LookupSpan cfg t tag (s₁ :: vs) s₁ :=
          .step h (hs.fewer hT) ⟨turn.1, turn.2, hstep⟩ ⟨p, by rw [hpc, htag]⟩
        exact ih (fun turn' hturn => hturns turn' (List.mem_cons_of_mem _ hturn)) hspan hs₁ hrest
      · cases hgoes
    · cases hgoes

theorem LookupSpan.visitFrom {T : Finset Tid} {before turns : List (Tid × Choice)}
    {r : List (HazardState Tid) × HazardState Tid} (hT : T.card < 2 ^ cfg.uintBits) (ht : t ∈ T)
    (hbefore : ∀ turn ∈ before, turn.1 ∈ T) (hturns : ∀ turn ∈ turns, turn.1 ∈ T)
    (hrun : HazardState.visitFrom cfg t tag before turns = some r) :
    LookupSpan cfg t tag r.1 r.2 := by
  obtain ⟨s, hs, hrest⟩ := Option.bind_eq_some_iff.mp hrun
  obtain ⟨s', hstep, hvisit⟩ := Option.bind_eq_some_iff.mp hrest
  have hreach := HazardState.reach_run (P := HazardState.Fewer cfg) (I := HazardState.Only T)
    (fun s hs => hs.fewer hT)
    (fun turn hturn s s' hs hstep => hs.step (hbefore turn hturn) hstep) Reach.init
    (fun _ _ => rfl) hs
  have hpc : s'.pc t = .lookup tag .loadCount := by
    obtain ⟨q, hq, rfl⟩ := Option.map_eq_some_iff.mp hstep
    cases hidle : s.pc t with
    | idle =>
      rw [hidle] at hq
      cases hq
      exact Function.update_self ..
    | lookup tag' p =>
      rw [hidle] at hq
      cases p <;> cases hq
    | _ =>
      rw [hidle] at hq
      cases hq
  have hreached : s'.Reached cfg := .step hreach.1 (hreach.2.fewer hT) ⟨t, _, hstep⟩
  exact LookupSpan.visit hT hturns (.start ⟨hreached, hpc⟩) (hreach.2.step ht hstep) hvisit

theorem lookup_result_read : ∃ (vs : List (HazardState ℕ)) (s : HazardState ℕ),
    LookupSpan crowdConfig 1 (some [97]) vs s ∧ s.pc 1 = .lookup (some [97]) (.done 1) ∧
    Result vs (some [97]) 1 := by
  have hseen : (HazardState.visitFrom crowdConfig 1 (some [97]) (addTag.map (Prod.mk 0))
      (List.replicate 9 (1, .go true))).map (fun r => r.2.pc 1) =
      some (.lookup (some [97]) (.done 1)) := by
    decide +kernel
  obtain ⟨⟨vs, s⟩, hr, hpc⟩ := Option.map_eq_some_iff.mp hseen
  have hspan : LookupSpan crowdConfig 1 (some [97]) vs s :=
    LookupSpan.visitFrom (T := {0, 1}) (by decide) (by decide) (by decide) (by decide) hr
  exact ⟨vs, s, hspan, hpc, lookup_result hspan hpc⟩

/-! ### Levels that were never in force -/

instance (h : TagHeap) (tag : List UInt8) (level : ℕ) : Decidable (h.InForce tag level) :=
  inferInstanceAs (Decidable (∃ i < h.len, _ ∧ _ ∧ _))

/-- The tag has another override, or no override and another default. -/
def TagHeap.deviates (h : TagHeap) (tag : List UInt8) (level : ℕ) : Bool :=
  decide (¬ h.InForce tag level) &&
    (decide (∃ i < h.len, h.InForce tag (h.node i).level) || decide (h.defaultLevel ≠ level))

theorem TagHeap.not_effective {h : TagHeap} {a : List UInt8} (hd : h.deviates a level = true) :
    ¬ h.Effective (some a) level := by
  simp only [deviates, Bool.and_eq_true, Bool.or_eq_true, decide_eq_true_eq] at hd
  rintro (⟨a', ha, hf⟩ | ⟨hnone, hdefault⟩)
  · cases ha
    exact hd.1 hf
  · rcases hd.2 with ⟨i, -, hf⟩ | hne
    · exact hnone a _ rfl hf
    · exact hne hdefault

/-- A lookup returns a level that its tag has at no moment of the lookup. -/
def Astray (level : ℕ) : Prop :=
  ∃ (vs : List (HazardState ℕ)) (s : HazardState ℕ), LookupSpan crowdConfig 1 (some [97]) vs s ∧
    s.pc 1 = .lookup (some [97]) (.done level) ∧
    ∀ v ∈ vs, ¬ v.heap.Effective (some [97]) level

theorem astray_of_visit (before turns : List (ℕ × Choice))
    (hbefore : ∀ turn ∈ before, turn.1 ∈ ({0, 1} : Finset ℕ))
    (hturns : ∀ turn ∈ turns, turn.1 ∈ ({0, 1} : Finset ℕ))
    (h : (HazardState.visitFrom crowdConfig 1 (some [97]) before turns).map
      (fun r => (r.2.pc 1, r.1.all fun v => v.heap.deviates [97] level)) =
        some (.lookup (some [97]) (.done level), true)) : Astray level := by
  obtain ⟨⟨vs, s⟩, hr, hseen⟩ := Option.map_eq_some_iff.mp h
  rw [Prod.mk.injEq, List.all_eq_true] at hseen
  refine ⟨vs, s, ?_, hseen.1, fun v hv => TagHeap.not_effective (hseen.2 v hv)⟩
  exact LookupSpan.visitFrom (by decide) (by decide) hbefore hturns hr

/-- The tag is set to 1 and the default level to 2 after the lookup has found no
override counted. -/
def setBehind : List (ℕ × Choice) :=
  (1, .go true) :: addTag.map (Prod.mk 0) ++
    [(0, .write (.setLevel 2)), (0, .go true), (1, .go true)]

/-- The tag is cleared, and its level stored by a set that has not made it
active again. -/
def setAgain : List (ℕ × Choice) :=
  List.replicate 5 (1, .go true) ++ (0, .write (.clearTagLevel (some [97]))) ::
    List.replicate 6 (0, .go true) ++ (0, .write (.setTagLevel (some [97]) 3)) ::
      List.replicate 4 (0, .go true) ++ List.replicate 4 (1, .go true)

/-- The writer has inserted the node of the tag and not counted it. -/
def uncounted : List (ℕ × Choice) := (addTag.take 14).map (Prod.mk 0)

/-- Two moments mixed, an override that is being set, and one not counted yet. -/
theorem lookup_astray : Astray 2 ∧ Astray 3 ∧ Astray 5 := by
  refine ⟨?_, ?_, ?_⟩
  · exact astray_of_visit [] setBehind nofun (by decide) (by decide +kernel)
  · exact astray_of_visit (addTag.map (Prod.mk 0)) setAgain (by decide) (by decide)
      (by decide +kernel)
  · exact astray_of_visit uncounted (List.replicate 2 (1, .go true)) (by decide) (by decide)
      (by decide +kernel)

end On9log
