import On9log.Lib.ThreadSum
import On9log.TagMachine

/-!
# What holds of the filter list at every access

The list as a chain of the nodes numbered downwards, the strings its nodes own,
the settings it shows and the counter of active nodes, each as the writer inside
the lock has left it so far. `TagHeap.Annot` is what that writer knows at its
next access.
-/

namespace On9log
open Lib

/-- The node before `i` nodes of the list. -/
def below : ℕ → Option ℕ
  | 0 => none
  | i + 1 => some i

/-- The number of nodes in `s_tag_filters`. -/
def TagHeap.len (h : TagHeap) : ℕ :=
  match h.first with
  | none => 0
  | some i => i + 1

theorem TagHeap.first_eq (h : TagHeap) : h.first = below h.len := by
  unfold TagHeap.len
  cases h.first <;> rfl

/-! ### The writer inside the lock -/

def WriterPc.fresh : WriterPc → ℕ
  | .initTag _ | .initLevel _ | .initActive _ | .initReaders _ | .insertHead _ => 1
  | _ => 0

def WriterPc.late : WriterPc → ℕ
  | .addInserted _ | .storeHead _ => 1
  | _ => 0

def WriterPc.uncounted : WriterPc → ℕ
  | .addCount _ | .addReused _ | .addInserted _ => 1
  | _ => 0

def WriterPc.overcounted : WriterPc → ℕ
  | .subCount _ => 1
  | _ => 0

/-- The copy of the tag belongs to a node by now, or there is none. -/
def WriterPc.given : WriterPc → Bool
  | .reuseLevel _ | .reuseActive _ | .addReused _ | .initLevel _ | .initActive _ | .initReaders _
  | .insertHead _ | .addInserted _ | .storeHead _ | .unlock .malloc | .unlock (.ret _) => true
  | _ => false

/-- From seeing no readers to activating the node. -/
def WriterPc.overwrites (i : ℕ) : WriterPc → Prop
  | .freeTag j | .storeTag j | .reuseLevel j | .reuseActive j => j = i
  | _ => False

/-- Only a call that sets a level comes here. -/
def WriterPc.sets : WriterPc → Bool
  | .scan _ | .scanNext _ | .exchangeActive _ | .subCount _ | .unlock _ => false
  | _ => true

def Job.isSet : Job → Bool
  | .set _ _ _ => true
  | .clear _ => false

abbrev Holder := Option (Job × WriterPc)

def Holder.flag (f : WriterPc → ℕ) : Holder → ℕ
  | none => 0
  | some (_, q) => f q

namespace TagHeap

variable {cfg : HazardConfig} {h h' : TagHeap} {w : Holder} {job : Job} {q : WriterPc} {ok : Bool}

def AbsentFrom (h : TagHeap) (tag : List UInt8) (i : ℕ) : Prop :=
  ∀ k, i ≤ k → k < h.len → h.contents k ≠ some tag

def ActiveFrom (h : TagHeap) (i : ℕ) : Prop :=
  ∀ k, i ≤ k → k < h.len → (h.node k).active = true

/-- Node `i` is in the list and has the tag of the call. -/
def Found (h : TagHeap) (job : Job) (i : ℕ) : Prop := i < h.len ∧ h.contents i = some job.tag

/-- The tag of the call is nowhere in the list, and there is a copy of it to give. -/
def Missing (h : TagHeap) (job : Job) : Prop := job.copy ≠ none ∧ h.AbsentFrom job.tag 0

def Annot (h : TagHeap) (job : Job) : WriterPc → Prop
  | .scan node => ∃ j ≤ h.len, node = below j ∧ h.AbsentFrom job.tag j
  | .scanNext i => i < h.len ∧ h.AbsentFrom job.tag i
  | .loadActive i => h.Found job i
  | .storeLevel i wasActive => h.Found job i ∧ (h.node i).active = wasActive
  | .storeActive i => h.Found job i ∧ (h.node i).active = false ∧ (h.node i).level = job.level
  | .addCount i => h.Found job i ∧ (h.node i).active = true ∧ (h.node i).level = job.level
  | .findReuse node => h.Missing job ∧ ∃ j ≤ h.len, node = below j ∧ h.ActiveFrom j
  | .findNext i => h.Missing job ∧ i < h.len ∧ h.ActiveFrom i
  | .wait i | .freeTag i => h.Missing job ∧ i < h.len ∧ (h.node i).active = false
  | .storeTag i =>
    h.Missing job ∧ i < h.len ∧ (h.node i).active = false ∧ h.contents i = none
  | .reuseLevel i => h.Found job i ∧ (h.node i).active = false
  | .reuseActive i => h.Found job i ∧ (h.node i).active = false ∧ (h.node i).level = job.level
  | .addReused i => h.Found job i ∧ (h.node i).active = true ∧ (h.node i).level = job.level
  | .calloc => h.Missing job
  | .initTag i => h.Missing job ∧ i = h.len
  | .initLevel i => h.AbsentFrom job.tag 0 ∧ i = h.len ∧ h.contents i = some job.tag
  | .initActive i => h.AbsentFrom job.tag 0 ∧ i = h.len ∧ h.contents i = some job.tag ∧
      (h.node i).level = job.level ∧ (i, job.tag, job.level) ∈ h.settings
  | .initReaders i | .insertHead i => h.AbsentFrom job.tag 0 ∧ i = h.len ∧
      h.contents i = some job.tag ∧ (h.node i).level = job.level ∧
      (i, job.tag, job.level) ∈ h.settings ∧ (h.node i).active = true
  | .addInserted i | .storeHead i => i + 1 = h.len ∧ h.contents i = some job.tag ∧
      (h.node i).active = true ∧ (h.node i).level = job.level
  | .exchangeActive i => i < h.len
  | .subCount i => i < h.len ∧ (h.node i).active = false
  | .unlock _ => True

/-! ### The list -/

structure Chain (cfg : HazardConfig) (h : TagHeap) (w : Holder) : Prop where
  next : ∀ i < h.len, (h.node i).next = below i
  nodes : h.nodes = h.len + w.flag WriterPc.fresh
  bound : h.nodes ≤ cfg.nodeMax
  head : h.head = below (h.len - w.flag WriterPc.late)

structure Strings (h : TagHeap) (w : Holder) : Prop where
  blocks : ∀ i b, (h.node i).tag = some b → b < h.blocks
  live : ∀ i < h.len, (∀ job, w ≠ some (job, .storeTag i)) → h.contents i ≠ none
  distinct : ∀ i j c, i < h.len → j < h.len → h.contents i = some c → h.contents j = some c → i = j

/-- Every node shows a tag and a level it was set to. -/
def Settled (h : TagHeap) (w : Holder) : Prop :=
  ∀ i c, i < h.len → h.contents i = some c → (∀ job, w ≠ some (job, .reuseLevel i)) →
    (i, c, (h.node i).level) ∈ h.settings

def active (h : TagHeap) : ℕ := ∑ i ∈ Finset.range h.len, (h.node i).active.toNat

def Counted (h : TagHeap) (w : Holder) : Prop :=
  h.activeCount + w.flag WriterPc.uncounted = h.active + w.flag WriterPc.overcounted

structure Inv (cfg : HazardConfig) (h : TagHeap) (w : Holder) : Prop where
  chain : h.Chain cfg w
  strings : h.Strings w
  settled : h.Settled w
  counted : h.Counted w
  annot : ∀ job q, w = some (job, q) → h.Annot job q
  kind : ∀ job q, w = some (job, q) → q.sets = true → job.isSet = true

/-- What the writer inside the lock owns of its copy. -/
def HasCopy (h : TagHeap) (job : Job) : Prop :=
  ∀ b, job.copy = some b → b < h.blocks ∧ h.block b = some job.tag ∧ ∀ i, (h.node i).tag ≠ some b

/-! ### One access of the writer -/

@[simp] theorem node_setNode (i j : ℕ) (n : HazardNode) :
    (h.setNode i n).node j = if j = i then n else h.node j := by
  exact Function.update_apply h.node i n j

theorem field_setNode {β : Type} (f : HazardNode → β) {i : ℕ} {n : HazardNode}
    (hf : f n = f (h.node i)) (j : ℕ) : f ((h.setNode i n).node j) = f (h.node j) := by
  rw [node_setNode]
  split
  · rename_i hj
    rw [hf, hj]
  · rfl

@[simp] theorem node_setTo (i j : ℕ) (tag : List UInt8) (level : ℕ) :
    (h.setTo i tag level).node j = if j = i then { h.node i with level := level } else h.node j :=
  node_setNode ..

@[simp] theorem node_storeActive (i j : ℕ) (b : Bool) :
    (h.storeActive i b).node j = if j = i then { h.node i with active := b } else h.node j :=
  node_setNode ..

@[simp] theorem node_storeTag (i j : ℕ) (p : Option ℕ) :
    (h.storeTag i p).node j = if j = i then { h.node i with tag := p } else h.node j :=
  node_setNode ..

@[simp] theorem node_storeReaders (i j n : ℕ) :
    (h.storeReaders i n).node j = if j = i then { h.node i with readers := n } else h.node j :=
  node_setNode ..

@[simp] theorem node_calloc (j : ℕ) :
    h.calloc.node j = if j = h.nodes then .zero else h.node j :=
  node_setNode ..

@[simp] theorem node_insertHead (i j : ℕ) :
    (h.insertHead i).node j = if j = i then { h.node i with next := h.first } else h.node j :=
  node_setNode ..

theorem contents_congr (htag : ∀ i, (h'.node i).tag = (h.node i).tag) (hblock : h'.block = h.block)
    (i : ℕ) : h'.contents i = h.contents i := by
  unfold contents
  rw [htag, hblock]

theorem contents_setNode {i : ℕ} {n : HazardNode} (ht : n.tag = (h.node i).tag) (j : ℕ) :
    (h.setNode i n).contents j = h.contents j := by
  apply contents_congr (field_setNode HazardNode.tag ht)
  rfl

@[simp] theorem contents_setTo (i j : ℕ) (tag : List UInt8) (level : ℕ) :
    (h.setTo i tag level).contents j = h.contents j :=
  contents_setNode (n := { h.node i with level := level }) rfl j

@[simp] theorem contents_storeActive (i j : ℕ) (b : Bool) :
    (h.storeActive i b).contents j = h.contents j :=
  contents_setNode (n := { h.node i with active := b }) rfl j

@[simp] theorem contents_storeReaders (i j n : ℕ) :
    (h.storeReaders i n).contents j = h.contents j :=
  contents_setNode (n := { h.node i with readers := n }) rfl j

@[simp] theorem contents_insertHead (i j : ℕ) : (h.insertHead i).contents j = h.contents j :=
  contents_setNode (n := { h.node i with next := h.first }) rfl j

theorem contents_storeTag_of_ne {i j : ℕ} (hij : i ≠ j) (p : Option ℕ) :
    (h.storeTag j p).contents i = h.contents i := by
  unfold contents
  rw [node_storeTag, if_neg hij]
  rfl

theorem contents_calloc {j : ℕ} (hj : j ≠ h.nodes) : h.calloc.contents j = h.contents j := by
  unfold contents
  rw [node_calloc, if_neg hj]
  rfl

/-- An access that changes nothing. -/
inductive Reads (h : TagHeap) (job : Job) : WriterPc → WriterPc → Prop
  | allocate : Reads h job (.scan none) (.unlock .malloc)
  | toReuse : job.copy ≠ none → Reads h job (.scan none) (.findReuse h.first)
  | notFound : Reads h job (.scan none) (.unlock (.ret .notFound))
  | hitSet (i : ℕ) : h.tagMatches (h.node i).tag (some job.tag) = true → job.isSet = true →
      Reads h job (.scan (some i)) (.loadActive i)
  | hitClear (i : ℕ) : Reads h job (.scan (some i)) (.exchangeActive i)
  | miss (i : ℕ) : h.tagMatches (h.node i).tag (some job.tag) = false →
      Reads h job (.scan (some i)) (.scanNext i)
  | scanNext (i : ℕ) : Reads h job (.scanNext i) (.scan (h.node i).next)
  | loadActive (i : ℕ) : Reads h job (.loadActive i) (.storeLevel i (h.node i).active)
  | noReuse : Reads h job (.findReuse none) .calloc
  | inUse (i : ℕ) : (h.node i).active = true → Reads h job (.findReuse (some i)) (.findNext i)
  | reusable (i : ℕ) : (h.node i).active = false → Reads h job (.findReuse (some i)) (.wait i)
  | findNext (i : ℕ) : Reads h job (.findNext i) (.findReuse (h.node i).next)
  | waiting (i : ℕ) : Reads h job (.wait i) (.wait i)
  | waited (i : ℕ) : (h.node i).readers = 0 → Reads h job (.wait i) (.freeTag i)
  | noNode : Reads h job .calloc (.unlock (.freeCopy .noMem))

inductive Access (cfg : HazardConfig) (h : TagHeap) (job : Job) :
    WriterPc → TagHeap → WriterPc → Prop
  | read {q q' : WriterPc} : Reads h job q q' → Access cfg h job q h q'
  | update (i : ℕ) (wasActive : Bool) : Access cfg h job (.storeLevel i wasActive)
      (h.setTo i job.tag job.level) (if wasActive then .unlock job.updated else .storeActive i)
  | reuseLevel (i : ℕ) :
      Access cfg h job (.reuseLevel i) (h.setTo i job.tag job.level) (.reuseActive i)
  | initLevel (i : ℕ) :
      Access cfg h job (.initLevel i) (h.setTo i job.tag job.level) (.initActive i)
  | storeActive (i : ℕ) : Access cfg h job (.storeActive i)
      (h.storeActive i true) (.addCount i)
  | reuseActive (i : ℕ) : Access cfg h job (.reuseActive i)
      (h.storeActive i true) (.addReused i)
  | initActive (i : ℕ) : Access cfg h job (.initActive i)
      (h.storeActive i true) (.initReaders i)
  | clearActive (i : ℕ) : Access cfg h job (.exchangeActive i)
      (h.storeActive i false)
      (if (h.node i).active then .subCount i else .unlock (.ret .ok))
  | addCount (i : ℕ) : Access cfg h job (.addCount i)
      { h with activeCount := addActive cfg.toFilterConfig h.activeCount } (.unlock job.updated)
  | addReused (i : ℕ) : Access cfg h job (.addReused i)
      { h with activeCount := addActive cfg.toFilterConfig h.activeCount } (.unlock (.ret .ok))
  | addInserted (i : ℕ) : Access cfg h job (.addInserted i)
      { h with activeCount := addActive cfg.toFilterConfig h.activeCount } (.storeHead i)
  | subCount (i : ℕ) : Access cfg h job (.subCount i)
      { h with activeCount := subActive cfg.toFilterConfig h.activeCount } (.unlock (.ret .ok))
  | freeTag (i : ℕ) : Access cfg h job (.freeTag i) (h.free (h.node i).tag) (.storeTag i)
  | storeTag (i : ℕ) : Access cfg h job (.storeTag i)
      (h.storeTag i job.copy) (.reuseLevel i)
  | initTag (i : ℕ) : Access cfg h job (.initTag i)
      (h.storeTag i job.copy) (.initLevel i)
  | calloc : h.nodes < cfg.nodeMax → Access cfg h job .calloc h.calloc (.initTag h.nodes)
  | initReaders (i : ℕ) : Access cfg h job (.initReaders i)
      (h.storeReaders i 0) (.insertHead i)
  | insertHead (i : ℕ) : Access cfg h job (.insertHead i) (h.insertHead i) (.addInserted i)
  | storeHead (i : ℕ) : Access cfg h job (.storeHead i) { h with head := h.first } (.unlock (.ret .ok))

theorem access_sectionStep (hq : ∀ next, q ≠ .unlock next) :
    Access cfg h job q (sectionStep cfg h job ok q).1 (sectionStep cfg h job ok q).2 := by
  cases q with
  | unlock next => exact absurd rfl (hq next)
  | scan node =>
    cases node with
    | none =>
      cases job with
      | clear tag => exact .read .notFound
      | set tag level copy =>
        cases copy with
        | none => exact .read .allocate
        | some b => exact .read (.toReuse nofun)
    | some i =>
      simp only [sectionStep]
      split
      · rename_i hm
        cases job with
        | set tag level copy => exact .read (.hitSet i hm rfl)
        | clear tag => exact .read (.hitClear i)
      · rename_i hm
        exact .read (.miss i (Bool.eq_false_of_not_eq_true hm))
  | findReuse node =>
    cases node with
    | none => exact .read .noReuse
    | some i =>
      simp only [sectionStep]
      split
      · exact .read (.inUse i ‹_›)
      · exact .read (.reusable i (Bool.eq_false_of_not_eq_true ‹_›))
  | wait i =>
    simp only [sectionStep]
    split
    · exact .read (.waited i ‹_›)
    · exact .read (.waiting i)
  | calloc =>
    simp only [sectionStep]
    split
    · rename_i hroom
      exact .calloc hroom.2
    · exact .read .noNode
  | scanNext i => exact .read (.scanNext i)
  | loadActive i => exact .read (.loadActive i)
  | findNext i => exact .read (.findNext i)
  | storeLevel i wasActive => exact .update i wasActive
  | reuseLevel i => exact .reuseLevel i
  | initLevel i => exact .initLevel i
  | storeActive i => exact .storeActive i
  | reuseActive i => exact .reuseActive i
  | initActive i => exact .initActive i
  | exchangeActive i => exact .clearActive i
  | addCount i => exact .addCount i
  | addReused i => exact .addReused i
  | addInserted i => exact .addInserted i
  | subCount i => exact .subCount i
  | freeTag i => exact .freeTag i
  | storeTag i => exact .storeTag i
  | initTag i => exact .initTag i
  | initReaders i => exact .initReaders i
  | insertHead i => exact .insertHead i
  | storeHead i => exact .storeHead i

variable {q' : WriterPc} {w' : Holder}

/-! ### The list under one access -/

theorem Chain.keep (hc : h.Chain cfg w) (hfirst : h'.first = h.first)
    (hnext : ∀ i, (h'.node i).next = (h.node i).next) (hhead : h'.head = h.head)
    (hnodes : h'.nodes = h.nodes) (hfresh : w'.flag WriterPc.fresh = w.flag WriterPc.fresh)
    (hlate : w'.flag WriterPc.late = w.flag WriterPc.late) : h'.Chain cfg w' := by
  have hlen : h'.len = h.len := by
    unfold len
    rw [hfirst]
  refine ⟨fun i hi => ?_, ?_, ?_, ?_⟩
  · rw [hnext i]
    exact hc.next i (hlen ▸ hi)
  · rw [hnodes, hlen, hfresh]
    exact hc.nodes
  · rw [hnodes]
    exact hc.bound
  · rw [hhead, hlen, hlate]
    exact hc.head

theorem Chain.access (hc : h.Chain cfg (some (job, q))) (ha : h.Annot job q)
    (hstep : Access cfg h job q h' q') : h'.Chain cfg (some (job, q')) := by
  have hset : ∀ {i : ℕ} {n : HazardNode} {p : WriterPc}, n.next = (h.node i).next →
      p.fresh = q.fresh → p.late = q.late → (h.setNode i n).Chain cfg (some (job, p)) :=
    fun hn hfresh hlate =>
      hc.keep rfl (field_setNode HazardNode.next hn) rfl rfl hfresh hlate
  cases hstep with
  | read hr => cases hr <;> exact hc.keep rfl (fun _ => rfl) rfl rfl rfl rfl
  | update i wasActive =>
    have hnext := field_setNode (h := h) HazardNode.next
      (n := { h.node i with level := job.level }) (i := i) rfl
    cases wasActive <;> exact hc.keep rfl hnext rfl rfl rfl rfl
  | reuseLevel i | initLevel i =>
    have hnext := field_setNode (h := h) HazardNode.next
      (n := { h.node i with level := job.level }) (i := i) rfl
    exact hc.keep rfl hnext rfl rfl rfl rfl
  | storeActive i | reuseActive i | initActive i | storeTag i | initTag i | initReaders i =>
    exact hset rfl rfl rfl
  | clearActive i =>
    split
    · exact hset rfl rfl rfl
    · exact hset rfl rfl rfl
  | addCount i | addReused i | subCount i => exact hc.keep rfl (fun _ => rfl) rfl rfl rfl rfl
  | addInserted i => exact hc.keep rfl (fun _ => rfl) rfl rfl rfl rfl
  | freeTag i =>
    cases (h.node i).tag <;> exact hc.keep rfl (fun _ => rfl) rfl rfl rfl rfl
  | calloc hroom =>
    have hnodes : h.nodes = h.len := hc.nodes
    refine ⟨fun j hj => ?_, congrArg (· + 1) hnodes, hroom, hc.head⟩
    have hlt : j < h.len := hj
    rw [node_calloc, if_neg (by omega)]
    exact hc.next j hj
  | insertHead i =>
    obtain ⟨-, rfl, -⟩ := ha
    refine ⟨fun j hj => ?_, hc.nodes, hc.bound, hc.head⟩
    have hlt : j < h.len + 1 := hj
    rw [node_insertHead]
    split
    · rename_i hje
      rw [hje]
      exact h.first_eq
    · exact hc.next j (by omega)
  | storeHead i => exact ⟨hc.next, hc.nodes, hc.bound, h.first_eq⟩

/-! ### The strings under one access -/

theorem Strings.keep (hs : h.Strings w) (hlen : h'.len = h.len)
    (htag : ∀ i, (h'.node i).tag = (h.node i).tag) (hblock : h'.block = h.block)
    (hblocks : h'.blocks = h.blocks) (hw : ∀ job i, w ≠ some (job, .storeTag i)) :
    h'.Strings w' := by
  have hcontents := contents_congr htag hblock
  refine ⟨fun i b hb => ?_, fun i hi _ => ?_, fun i j c hi hj => ?_⟩
  · rw [htag] at hb
    rw [hblocks]
    exact hs.blocks i b hb
  · rw [hcontents]
    exact hs.live i (hlen ▸ hi) fun job => hw job i
  · rw [hcontents, hcontents]
    exact hs.distinct i j c (hlen ▸ hi) (hlen ▸ hj)

theorem contents_free_self (i : ℕ) : (h.free (h.node i).tag).contents i = none := by
  cases ht : (h.node i).tag with
  | none => simp [free, contents, ht]
  | some b => simp [free, contents, ht]

theorem contents_free_other {p : Option ℕ} {j : ℕ} (hp : ∀ b, p = some b → (h.node j).tag ≠ some b) :
    (h.free p).contents j = h.contents j := by
  cases p with
  | none => rfl
  | some b =>
    unfold free contents
    cases ht : (h.node j).tag with
    | none => rfl
    | some b' =>
      have hne : b' ≠ b := fun he => hp b rfl (he ▸ ht)
      exact Function.update_of_ne hne _ _

@[simp] theorem node_free (p : Option ℕ) : (h.free p).node = h.node := by
  cases p <;> rfl

@[simp] theorem len_free (p : Option ℕ) : (h.free p).len = h.len := by
  cases p <;> rfl

@[simp] theorem blocks_free (p : Option ℕ) : (h.free p).blocks = h.blocks := by
  cases p <;> rfl

@[simp] theorem settings_free (p : Option ℕ) : (h.free p).settings = h.settings := by
  cases p <;> rfl

/-- Two nodes of the list never share a string. -/
theorem Strings.tag_ne (hs : h.Strings w) (hw : ∀ job i, w ≠ some (job, .storeTag i)) {i j b : ℕ}
    (hi : i < h.len) (hj : j < h.len) (hij : j ≠ i) (hb : (h.node i).tag = some b) :
    (h.node j).tag ≠ some b := by
  intro hj'
  have hlive := hs.live j hj fun job => hw job j
  obtain ⟨c, hc⟩ := Option.ne_none_iff_exists'.mp hlive
  apply hij
  apply hs.distinct j i c hj hi hc
  rw [← hc]
  unfold contents
  rw [hb, hj']

theorem Strings.contents_freed (hs : h.Strings w) (hw : ∀ job i, w ≠ some (job, .storeTag i))
    {i j : ℕ} (hi : i < h.len) (hj : j < h.len) (hji : j ≠ i) :
    (h.free (h.node i).tag).contents j = h.contents j :=
  contents_free_other fun _ hb => hs.tag_ne hw hi hj hji hb

/-- The copy given to a node. -/
theorem contents_storeTag {i b : ℕ} (hb : job.copy = some b) (hcopy : h.HasCopy job) (j : ℕ) :
    (h.storeTag i job.copy).contents j =
      if j = i then some job.tag else h.contents j := by
  unfold contents
  rw [node_storeTag]
  split
  · dsimp only
    rw [hb]
    exact (hcopy b hb).2.1
  · rfl

theorem Strings.give (hs : h.Strings w) {b : ℕ} (hb : job.copy = some b) (hcopy : h.HasCopy job)
    (i j b' : ℕ) (hb' : ((h.storeTag i job.copy).node j).tag = some b') :
    b' < h.blocks := by
  rw [node_storeTag] at hb'
  split at hb'
  · have he : b = b' := Option.some.inj (hb.symm.trans hb')
    rw [← he]
    exact (hcopy b hb).1
  · exact hs.blocks j b' hb'

theorem Strings.access (hs : h.Strings (some (job, q))) (hc : h.Chain cfg (some (job, q)))
    (ha : h.Annot job q) (hcopy : q.given = false → h.HasCopy job)
    (hstep : Access cfg h job q h' q') : h'.Strings (some (job, q')) := by
  have hset : ∀ {i : ℕ} {n : HazardNode} {p : WriterPc}, n.tag = (h.node i).tag →
      (∀ i, q ≠ .storeTag i) → (h.setNode i n).Strings (some (job, p)) := by
    intro i n p hn hq
    refine hs.keep rfl (field_setNode HazardNode.tag hn) rfl rfl fun job' i' he => ?_
    exact hq i' (Prod.mk.inj (Option.some.inj he)).2
  have hsame : ∀ {p : WriterPc}, (∀ i, q ≠ .storeTag i) →
      h'.len = h.len → (∀ i, (h'.node i).tag = (h.node i).tag) → h'.block = h.block →
      h'.blocks = h.blocks → h'.Strings (some (job, p)) := by
    intro p hq hlen htag hblock hblocks
    apply hs.keep hlen htag hblock hblocks
    intro job' i' he
    exact hq i' (Prod.mk.inj (Option.some.inj he)).2
  cases hstep with
  | read hr => cases hr <;> exact hsame nofun rfl (fun _ => rfl) rfl rfl
  | update i wasActive | reuseLevel i | initLevel i =>
    have htag := field_setNode (h := h) HazardNode.tag
      (n := { h.node i with level := job.level }) (i := i) rfl
    exact hsame nofun rfl htag rfl rfl
  | storeActive i | reuseActive i | initActive i | clearActive i | initReaders i =>
    exact hset rfl nofun
  | addCount i | addReused i | addInserted i | subCount i | storeHead i =>
    exact hsame nofun rfl (fun _ => rfl) rfl rfl
  | freeTag i =>
    obtain ⟨-, hi, -⟩ := ha
    have hw : ∀ job' i', (some (job, WriterPc.freeTag i) : Holder) ≠ some (job', .storeTag i') :=
      fun _ _ he => nomatch he
    have hother := fun j => hs.contents_freed hw hi (j := j)
    refine ⟨fun j b hb => ?_, fun j hj hnot => ?_, fun j k c hj hk hcj hck => ?_⟩
    · rw [node_free] at hb
      rw [blocks_free]
      exact hs.blocks j b hb
    · have hji : j ≠ i := fun he => hnot job (he ▸ rfl)
      rw [len_free] at hj
      rw [hother j hj hji]
      exact hs.live j hj fun job' => hw job' j
    · rw [len_free] at hj hk
      have hji : j ≠ i := fun he => by simp [he, contents_free_self] at hcj
      have hki : k ≠ i := fun he => by simp [he, contents_free_self] at hck
      rw [hother j hj hji] at hcj
      rw [hother k hk hki] at hck
      exact hs.distinct j k c hj hk hcj hck
  | storeTag i =>
    obtain ⟨⟨hsome, habsent⟩, hi, -, -⟩ := ha
    obtain ⟨b, hb⟩ := Option.ne_none_iff_exists'.mp hsome
    have hgive := hs.give hb (hcopy rfl) i
    have hcontents := contents_storeTag hb (hcopy rfl) (i := i)
    refine ⟨hgive, fun j hj _ => ?_, fun j k c hj hk hcj hck => ?_⟩
    · rw [hcontents]
      split
      · exact nofun
      · apply hs.live j hj
        intro job' he
        cases he
        exact absurd rfl ‹¬ _›
    · rw [hcontents] at hcj hck
      have hfresh : ∀ m, m < h.len → h.contents m ≠ some job.tag := fun m => habsent m (Nat.zero_le m)
      split at hcj
      · split at hck
        · omega
        · exact absurd (hck.trans hcj.symm) (hfresh k hk)
      · split at hck
        · exact absurd (hcj.trans hck.symm) (hfresh j hj)
        · exact hs.distinct j k c hj hk hcj hck
  | initTag i =>
    obtain ⟨⟨hsome, -⟩, rfl⟩ := ha
    obtain ⟨b, hb⟩ := Option.ne_none_iff_exists'.mp hsome
    have hgive := hs.give hb (hcopy rfl) h.len
    have hcontents := contents_storeTag hb (hcopy rfl) (i := h.len)
    have hold : ∀ j < h.len, (h.storeTag h.len job.copy).contents j =
        h.contents j := by
      intro j hj
      rw [hcontents, if_neg (Nat.ne_of_lt hj)]
    refine ⟨hgive, fun j hj _ => ?_, fun j k c hj hk hcj hck => ?_⟩
    · rw [hold j hj]
      exact hs.live j hj fun job' he => nomatch he
    · rw [hold j hj] at hcj
      rw [hold k hk] at hck
      exact hs.distinct j k c hj hk hcj hck
  | calloc hroom =>
    have hnodes : h.nodes = h.len := hc.nodes
    refine ⟨fun j b hb => ?_, fun j hj _ => ?_, fun j k c hj hk hcj hck => ?_⟩
    · rw [node_calloc] at hb
      split at hb
      · exact nomatch hb
      · exact hs.blocks j b hb
    · have hlt : j < h.len := hj
      rw [contents_calloc (by omega)]
      exact hs.live j hj fun job' he => nomatch he
    · have hjlt : j < h.len := hj
      have hklt : k < h.len := hk
      rw [contents_calloc (by omega)] at hcj hck
      exact hs.distinct j k c hj hk hcj hck
  | insertHead i =>
    obtain ⟨habsent, rfl, hnew, -⟩ := ha
    have hfresh : ∀ m c, m < h.len → h.contents m = some c → h.contents h.len ≠ some c := by
      intro m c hm hcm hlen
      exact habsent m (Nat.zero_le m) hm (hcm.trans (hlen.symm.trans hnew))
    refine ⟨fun j b hb => ?_, fun j hj _ => ?_, fun j k c hj hk hcj hck => ?_⟩
    · have htag := field_setNode HazardNode.tag (n := { h.node h.len with next := h.first }) rfl j
      exact hs.blocks j b (htag.symm.trans hb)
    · rw [contents_insertHead]
      have hlt : j < h.len + 1 := hj
      by_cases hje : j = h.len
      · rw [hje, hnew]
        exact nofun
      · exact hs.live j (by omega) fun job' he => nomatch he
    · rw [contents_insertHead] at hcj hck
      have hjlt : j < h.len + 1 := hj
      have hklt : k < h.len + 1 := hk
      by_cases hje : j = h.len
      · by_cases hke : k = h.len
        · omega
        · rw [hje] at hcj
          exact absurd hcj (hfresh k c (by omega) hck)
      · by_cases hke : k = h.len
        · rw [hke] at hck
          exact absurd hck (hfresh j c (by omega) hcj)
        · exact hs.distinct j k c (by omega) (by omega) hcj hck

/-! ### The settings under one access -/

theorem Settled.keep (hs : h.Settled w) (hlen : h'.len = h.len)
    (hcontents : ∀ i < h.len, h'.contents i = h.contents i)
    (hlevel : ∀ i < h.len, (h'.node i).level = (h.node i).level)
    (hsettings : h'.settings = h.settings) (hw : ∀ job i, w ≠ some (job, .reuseLevel i)) :
    h'.Settled w' := by
  intro i c hi hc _
  rw [hlen] at hi
  rw [hlevel i hi, hsettings]
  rw [hcontents i hi] at hc
  exact hs i c hi hc fun job => hw job i

theorem Settled.setTo (hs : h.Settled w) {i : ℕ} (hw : ∀ job j, w = some (job, .reuseLevel j) → j = i)
    (hi : i < h.len → h.contents i = some job.tag) : (h.setTo i job.tag job.level).Settled w' := by
  intro j c hj hc _
  rw [contents_setTo] at hc
  rw [node_setTo]
  by_cases hji : j = i
  · rw [if_pos hji]
    rw [hji] at hj hc ⊢
    rw [← Option.some.inj ((hi hj).symm.trans hc)]
    exact List.mem_cons_self ..
  · rw [if_neg hji]
    exact List.mem_cons_of_mem _ (hs j c hj hc fun job' he => hji (hw job' j he))

theorem Settled.access (hs : h.Settled (some (job, q))) (hc : h.Chain cfg (some (job, q)))
    (hstr : h.Strings (some (job, q))) (ha : h.Annot job q)
    (hcopy : q.given = false → h.HasCopy job) (hstep : Access cfg h job q h' q') :
    h'.Settled (some (job, q')) := by
  have hset : ∀ {i : ℕ} {n : HazardNode} {p : WriterPc}, n.tag = (h.node i).tag →
      n.level = (h.node i).level → (∀ i, q ≠ .reuseLevel i) →
      (h.setNode i n).Settled (some (job, p)) := by
    intro i n p htag hlevel hq
    refine hs.keep rfl (fun j _ => contents_setNode htag j)
      (fun j _ => field_setNode HazardNode.level hlevel j) rfl fun job' i' he => ?_
    exact hq i' (Prod.mk.inj (Option.some.inj he)).2
  have hsame : ∀ {p : WriterPc}, (∀ i, q ≠ .reuseLevel i) → h'.len = h.len →
      (∀ i < h.len, h'.contents i = h.contents i) →
      (∀ i < h.len, (h'.node i).level = (h.node i).level) → h'.settings = h.settings →
      h'.Settled (some (job, p)) := by
    intro p hq hlen hcontents hlevel hsettings
    refine hs.keep hlen hcontents hlevel hsettings fun job' i' he => ?_
    exact hq i' (Prod.mk.inj (Option.some.inj he)).2
  cases hstep with
  | read hr => cases hr <;> exact hsame nofun rfl (fun _ _ => rfl) (fun _ _ => rfl) rfl
  | update i wasActive => exact hs.setTo (fun _ _ he => nomatch he) fun _ => ha.1.2
  | reuseLevel i =>
    refine hs.setTo (fun job' j he => ?_) fun _ => ha.1.2
    cases he
    rfl
  | initLevel i => exact hs.setTo (fun _ _ he => nomatch he) fun _ => ha.2.2
  | storeActive i | reuseActive i | initActive i | clearActive i | initReaders i =>
    exact hset rfl rfl nofun
  | addCount i | addReused i | addInserted i | subCount i | storeHead i =>
    exact hsame nofun rfl (fun _ _ => rfl) (fun _ _ => rfl) rfl
  | freeTag i =>
    intro j c hj hcj _
    rw [len_free] at hj
    have hji : j ≠ i := fun he => by simp [he, contents_free_self] at hcj
    rw [hstr.contents_freed (fun _ _ he => nomatch he) ha.2.1 hj hji] at hcj
    rw [node_free, settings_free]
    exact hs j c hj hcj fun _ he => nomatch he
  | storeTag i =>
    obtain ⟨b, hb⟩ := Option.ne_none_iff_exists'.mp ha.1.1
    intro j c hj hcj hnot
    have hji : j ≠ i := fun he => hnot job (he ▸ rfl)
    rw [contents_storeTag hb (hcopy rfl), if_neg hji] at hcj
    rw [node_storeTag, if_neg hji]
    exact hs j c hj hcj fun _ he => nomatch he
  | initTag i =>
    obtain ⟨b, hb⟩ := Option.ne_none_iff_exists'.mp ha.1.1
    intro j c hj hcj _
    have hlt : j < h.len := hj
    have hji : j ≠ i := by
      have hi := ha.2
      omega
    rw [contents_storeTag hb (hcopy rfl), if_neg hji] at hcj
    rw [node_storeTag, if_neg hji]
    exact hs j c hj hcj fun _ he => nomatch he
  | calloc hroom =>
    have hnodes : h.nodes = h.len := hc.nodes
    intro j c hj hcj _
    have hlt : j < h.len := hj
    rw [contents_calloc (by omega)] at hcj
    rw [node_calloc, if_neg (by omega)]
    exact hs j c hj hcj fun _ he => nomatch he
  | insertHead i =>
    obtain ⟨-, rfl, hnew, hlevel, hmem, -⟩ := ha
    intro j c hj hcj _
    have hlt : j < h.len + 1 := hj
    rw [contents_insertHead] at hcj
    rw [node_insertHead]
    by_cases hje : j = h.len
    · rw [if_pos hje]
      rw [hje] at hcj ⊢
      rw [← Option.some.inj (hnew.symm.trans hcj), hlevel]
      exact hmem
    · rw [if_neg hje]
      exact hs j c (by omega) hcj fun _ he => nomatch he

/-! ### The counter under one access -/

theorem active_le (h : TagHeap) : h.active ≤ h.len := by
  have hsum := Finset.sum_le_card_nsmul (Finset.range h.len) (fun i => (h.node i).active.toNat) 1
    fun i _ => Bool.toNat_le _
  simpa [active] using hsum

theorem active_congr (hlen : h'.len = h.len) (hact : ∀ i, (h'.node i).active = (h.node i).active) :
    h'.active = h.active := by
  unfold active
  rw [hlen]
  apply Finset.sum_congr rfl
  intro i _
  rw [hact]

theorem active_storeActive {i : ℕ} (hi : i < h.len) (b : Bool) :
    (h.storeActive i b).active + (h.node i).active.toNat = h.active + b.toNat := by
  have hmem : i ∈ Finset.range h.len := Finset.mem_range.mpr hi
  have hlen : (h.storeActive i b).len = h.len := rfl
  have hnew := Finset.add_sum_erase _ (fun j => ((h.storeActive i b).node j).active.toNat) hmem
  have hold := Finset.add_sum_erase _ (fun j => (h.node j).active.toNat) hmem
  have hrest : ∑ j ∈ (Finset.range h.len).erase i, ((h.storeActive i b).node j).active.toNat =
      ∑ j ∈ (Finset.range h.len).erase i, (h.node j).active.toNat := by
    apply Finset.sum_congr rfl
    intro j hj
    rw [node_storeActive, if_neg (Finset.ne_of_mem_erase hj)]
  have hself : ((h.storeActive i b).node i).active = b := by rw [node_storeActive, if_pos rfl]
  rw [hrest, hself] at hnew
  unfold active
  rw [hlen]
  omega

theorem active_lt {i : ℕ} (hi : i < h.len) (hact : (h.node i).active = false) :
    h.active < h.len := by
  -- with the node activated there are still no more than all
  have hone := active_storeActive hi true
  have hle := (h.storeActive i true).active_le
  have hlen : (h.storeActive i true).len = h.len := rfl
  rw [hact, Bool.toNat_false, Bool.toNat_true] at hone
  omega

theorem active_insertHead : (h.insertHead h.len).active = h.active + (h.node h.len).active.toNat := by
  have hlen : (h.insertHead h.len).len = h.len + 1 := rfl
  have hact : ∀ i, ((h.insertHead h.len).node i).active = (h.node i).active :=
    field_setNode HazardNode.active (n := { h.node h.len with next := h.first }) rfl
  unfold active
  rw [hlen, Finset.sum_range_succ, hact]
  congr 1
  apply Finset.sum_congr rfl
  intro i _
  rw [hact]

theorem Counted.access (hcount : h.Counted (some (job, q))) (hc : h.Chain cfg (some (job, q)))
    (ha : h.Annot job q) (hstep : Access cfg h job q h' q') : h'.Counted (some (job, q')) := by
  have hle := h.active_le
  have hnodes := hc.nodes
  have hbound := hc.bound
  have hsame : ∀ {p : WriterPc}, h'.len = h.len → (∀ i, (h'.node i).active = (h.node i).active) →
      h'.activeCount = h.activeCount → p.uncounted = q.uncounted → p.overcounted = q.overcounted →
      h'.Counted (some (job, p)) := by
    intro p hlen hact hactive hun hover
    unfold Counted at hcount ⊢
    simp only [Holder.flag] at hcount ⊢
    rw [active_congr hlen hact, hactive, hun, hover]
    exact hcount
  unfold Counted at hcount ⊢
  simp only [Holder.flag] at hcount hnodes ⊢
  cases hstep with
  | read hr => cases hr <;> exact hsame rfl (fun _ => rfl) rfl rfl rfl
  | update i wasActive =>
    have hact := field_setNode (h := h) HazardNode.active
      (n := { h.node i with level := job.level }) (i := i) rfl
    cases wasActive <;> exact hsame rfl hact rfl rfl rfl
  | reuseLevel i | initLevel i =>
    have hact := field_setNode (h := h) HazardNode.active
      (n := { h.node i with level := job.level }) (i := i) rfl
    exact hsame rfl hact rfl rfl rfl
  | storeTag i | initTag i =>
    have hact := field_setNode (h := h) HazardNode.active
      (n := { h.node i with tag := job.copy }) (i := i) rfl
    exact hsame rfl hact rfl rfl rfl
  | initReaders i =>
    have hact := field_setNode (h := h) HazardNode.active
      (n := { h.node i with readers := 0 }) (i := i) rfl
    exact hsame rfl hact rfl rfl rfl
  | freeTag i =>
    apply hsame (len_free _) (fun j => by rw [node_free]) _ rfl rfl
    cases (h.node i).tag <;> rfl
  | storeHead i => exact hsame rfl (fun _ => rfl) rfl rfl rfl
  | calloc hroom =>
    have hlen : h.nodes = h.len := by simpa [WriterPc.fresh] using hnodes
    have hsum : h.calloc.active = h.active := by
      apply Finset.sum_congr rfl
      intro j hj
      have hlt : j < h.len := Finset.mem_range.mp hj
      rw [node_calloc, if_neg (by omega)]
    rw [hsum]
    exact hcount
  | initActive i =>
    obtain ⟨-, rfl, -⟩ := ha
    have hsum : (h.storeActive h.len true).active = h.active := by
      apply Finset.sum_congr rfl
      intro j hj
      have hlt : j < h.len := Finset.mem_range.mp hj
      rw [node_storeActive, if_neg (by omega)]
    rw [hsum]
    exact hcount
  | insertHead i =>
    obtain ⟨-, rfl, -, -, -, hact⟩ := ha
    rw [active_insertHead, hact]
    simp only [WriterPc.uncounted, WriterPc.overcounted, Bool.toNat_true] at hcount ⊢
    exact congrArg (· + 1) hcount
  | storeActive i | reuseActive i =>
    obtain ⟨⟨hi, -⟩, hact, -⟩ := ha
    have hone := active_storeActive hi true
    have hsame : (h.storeActive i true).activeCount = h.activeCount := rfl
    rw [hact, Bool.toNat_false, Bool.toNat_true] at hone
    simp only [WriterPc.uncounted, WriterPc.overcounted] at hcount ⊢
    omega
  | clearActive i =>
    have hone := active_storeActive ha false
    have hsame : (h.storeActive i false).activeCount = h.activeCount := rfl
    simp only [WriterPc.uncounted, WriterPc.overcounted] at hcount
    split
    · rename_i hact
      rw [hact, Bool.toNat_false, Bool.toNat_true] at hone
      simp only [WriterPc.uncounted, WriterPc.overcounted]
      omega
    · rename_i hact
      rw [Bool.eq_false_of_not_eq_true hact, Bool.toNat_false] at hone
      simp only [WriterPc.uncounted, WriterPc.overcounted]
      omega
  | addCount i | addReused i | addInserted i =>
    simp only [WriterPc.uncounted, WriterPc.overcounted] at hcount ⊢
    have hroom : h.activeCount < cfg.nodeMax := by omega
    have hadd := addActive_eq hroom
    have hsame : TagHeap.active { h with activeCount := h.activeCount + 1 } = h.active := rfl
    rw [hadd, hsame]
    omega
  | subCount i =>
    have hlt := active_lt ha.1 ha.2
    simp only [WriterPc.uncounted, WriterPc.overcounted] at hcount ⊢
    have hpos : 0 < h.activeCount := by omega
    have hroom : h.activeCount ≤ cfg.nodeMax := by omega
    have hsub := subActive_eq hpos hroom
    have hsame : TagHeap.active { h with activeCount := h.activeCount - 1 } = h.active := rfl
    rw [hsub, hsame]
    omega

/-! ### What the writer knows under one access -/

theorem tagMatches_iff {i : ℕ} {tag : List UInt8} :
    h.tagMatches (h.node i).tag (some tag) = true ↔ h.contents i = some tag := by
  unfold tagMatches contents
  cases (h.node i).tag with
  | none => simp
  | some b => simp

theorem below_eq_none {j : ℕ} (h : none = below j) : j = 0 := by
  cases j with
  | zero => rfl
  | succ j => cases h

theorem below_eq_some {i j : ℕ} (h : some i = below j) : j = i + 1 := by
  cases j with
  | zero => cases h
  | succ j => exact congrArg (· + 1) (Option.some.inj h).symm

theorem AbsentFrom.step {tag : List UInt8} {i : ℕ} (ha : h.AbsentFrom tag (i + 1))
    (hi : h.contents i ≠ some tag) : h.AbsentFrom tag i := by
  intro k hik hk
  by_cases hki : k = i
  · rw [hki]
    exact hi
  · exact ha k (by omega) hk

theorem ActiveFrom.step {i : ℕ} (ha : h.ActiveFrom (i + 1)) (hi : (h.node i).active = true) :
    h.ActiveFrom i := by
  intro k hik hk
  by_cases hki : k = i
  · rw [hki]
    exact hi
  · exact ha k (by omega) hk

theorem Annot.read (ha : h.Annot job q) (hc : h.Chain cfg (some (job, q)))
    (hr : Reads h job q q') : h.Annot job q' := by
  cases hr with
  | allocate | notFound | noNode => trivial
  | toReuse hcopy =>
    obtain ⟨j, -, hj, habsent⟩ := ha
    rw [below_eq_none hj] at habsent
    exact ⟨⟨hcopy, habsent⟩, h.len, Nat.le_refl _, h.first_eq, fun k hk hlt => by omega⟩
  | hitSet i hmatch _ =>
    obtain ⟨j, hle, hj, -⟩ := ha
    rw [below_eq_some hj] at hle
    exact ⟨hle, tagMatches_iff.mp hmatch⟩
  | hitClear i =>
    obtain ⟨j, hle, hj, -⟩ := ha
    rw [below_eq_some hj] at hle
    exact hle
  | miss i hmatch =>
    obtain ⟨j, hle, hj, habsent⟩ := ha
    rw [below_eq_some hj] at hle habsent
    refine ⟨hle, habsent.step fun hc => ?_⟩
    rw [tagMatches_iff.mpr hc] at hmatch
    cases hmatch
  | scanNext i => exact ⟨i, Nat.le_of_lt ha.1, hc.next i ha.1, ha.2⟩
  | loadActive i => exact ⟨ha, rfl⟩
  | noReuse => exact ha.1
  | inUse i hact =>
    obtain ⟨hmissing, j, hle, hj, hactive⟩ := ha
    rw [below_eq_some hj] at hle hactive
    exact ⟨hmissing, hle, hactive.step hact⟩
  | reusable i hact =>
    obtain ⟨hmissing, j, hle, hj, -⟩ := ha
    rw [below_eq_some hj] at hle
    exact ⟨hmissing, hle, hact⟩
  | findNext i => exact ⟨ha.1, i, Nat.le_of_lt ha.2.1, hc.next i ha.2.1, ha.2.2⟩
  | waiting i => exact ha
  | waited i _ => exact ha

theorem Annot.access (ha : h.Annot job q) (hc : h.Chain cfg (some (job, q)))
    (hstr : h.Strings (some (job, q))) (hcopy : q.given = false → h.HasCopy job)
    (hstep : Access cfg h job q h' q') : h'.Annot job q' := by
  cases hstep with
  | read hr => exact ha.read hc hr
  | update i wasActive =>
    cases wasActive with
    | true => trivial
    | false =>
      obtain ⟨⟨hi, hcontents⟩, hact⟩ := ha
      refine ⟨⟨hi, ?_⟩, ?_, ?_⟩
      · rw [contents_setTo, hcontents]
      · rw [node_setTo, if_pos rfl]
        exact hact
      · rw [node_setTo, if_pos rfl]
  | reuseLevel i =>
    obtain ⟨⟨hi, hcontents⟩, hact⟩ := ha
    refine ⟨⟨hi, ?_⟩, ?_, ?_⟩
    · rw [contents_setTo, hcontents]
    · rw [node_setTo, if_pos rfl]
      exact hact
    · rw [node_setTo, if_pos rfl]
  | initLevel i =>
    obtain ⟨habsent, hi, hcontents⟩ := ha
    refine ⟨fun k hk hlt => ?_, hi, ?_, ?_, List.mem_cons_self ..⟩
    · rw [contents_setTo]
      exact habsent k hk hlt
    · rw [contents_setTo, hcontents]
    · rw [node_setTo, if_pos rfl]
  | storeActive i | reuseActive i =>
    obtain ⟨⟨hi, hcontents⟩, -, hlevel⟩ := ha
    refine ⟨⟨hi, ?_⟩, ?_, ?_⟩
    · rw [contents_storeActive, hcontents]
    · rw [node_storeActive, if_pos rfl]
    · rw [node_storeActive, if_pos rfl]
      exact hlevel
  | initActive i =>
    obtain ⟨habsent, hi, hcontents, hlevel, hmem⟩ := ha
    refine ⟨fun k hk hlt => ?_, hi, ?_, ?_, hmem, ?_⟩
    · rw [contents_storeActive]
      exact habsent k hk hlt
    · rw [contents_storeActive, hcontents]
    · rw [node_storeActive, if_pos rfl]
      exact hlevel
    · rw [node_storeActive, if_pos rfl]
  | initReaders i =>
    obtain ⟨habsent, hi, hcontents, hlevel, hmem, hact⟩ := ha
    refine ⟨fun k hk hlt => ?_, hi, ?_, ?_, hmem, ?_⟩
    · rw [contents_storeReaders]
      exact habsent k hk hlt
    · rw [contents_storeReaders, hcontents]
    · rw [node_storeReaders, if_pos rfl]
      exact hlevel
    · rw [node_storeReaders, if_pos rfl]
      exact hact
  | clearActive i =>
    split
    · refine ⟨ha, ?_⟩
      rw [node_storeActive, if_pos rfl]
    · trivial
  | addCount i | addReused i | subCount i | storeHead i => trivial
  | addInserted i => exact ha
  | freeTag i =>
    obtain ⟨⟨hsome, habsent⟩, hi, hact⟩ := ha
    refine ⟨⟨hsome, fun k hk hlt => ?_⟩, ?_, ?_, contents_free_self i⟩
    · rw [len_free] at hlt
      by_cases hki : k = i
      · rw [hki, contents_free_self]
        exact nofun
      · rw [hstr.contents_freed (fun _ _ he => nomatch he) hi hlt hki]
        exact habsent k hk hlt
    · rw [len_free]
      exact hi
    · rw [node_free]
      exact hact
  | storeTag i =>
    obtain ⟨⟨hsome, -⟩, hi, hact, -⟩ := ha
    obtain ⟨b, hb⟩ := Option.ne_none_iff_exists'.mp hsome
    refine ⟨⟨hi, ?_⟩, ?_⟩
    · rw [contents_storeTag hb (hcopy rfl), if_pos rfl]
    · rw [node_storeTag, if_pos rfl]
      exact hact
  | initTag i =>
    obtain ⟨⟨hsome, habsent⟩, hi⟩ := ha
    obtain ⟨b, hb⟩ := Option.ne_none_iff_exists'.mp hsome
    refine ⟨fun k hk hlt => ?_, hi, ?_⟩
    · have hki : k ≠ i := by
        have hlt' : k < h.len := hlt
        omega
      rw [contents_storeTag hb (hcopy rfl), if_neg hki]
      exact habsent k hk hlt
    · rw [contents_storeTag hb (hcopy rfl), if_pos rfl]
  | calloc hroom =>
    have hnodes : h.nodes = h.len := hc.nodes
    refine ⟨⟨ha.1, fun k hk hlt => ?_⟩, hnodes⟩
    have hlt' : k < h.len := hlt
    rw [contents_calloc (by omega)]
    exact ha.2 k hk hlt
  | insertHead i =>
    obtain ⟨-, hi, hcontents, hlevel, -, hact⟩ := ha
    refine ⟨rfl, ?_, ?_, ?_⟩
    · rw [contents_insertHead, hcontents]
    · rw [node_insertHead, if_pos rfl]
      exact hact
    · rw [node_insertHead, if_pos rfl]
      exact hlevel

theorem Access.kind (hkind : q.sets = true → job.isSet = true)
    (hstep : Access cfg h job q h' q') (hq : q'.sets = true) : job.isSet = true := by
  cases hstep with
  | read hr =>
    cases hr with
    | toReuse hcopy =>
      cases job with
      | set tag level copy => rfl
      | clear tag => exact absurd rfl hcopy
    | hitSet i _ hset => exact hset
    | allocate | notFound | hitClear i | miss i _ | scanNext i | noNode => cases hq
    | _ => exact hkind rfl
  | clearActive i => split at hq <;> cases hq
  | subCount i => cases hq
  | _ => exact hkind rfl

/-- One access of the writer inside the lock. -/
theorem Inv.access (hi : h.Inv cfg (some (job, q))) (hcopy : q.given = false → h.HasCopy job)
    (hstep : Access cfg h job q h' q') : h'.Inv cfg (some (job, q')) := by
  have ha := hi.annot job q rfl
  refine ⟨hi.chain.access ha hstep, hi.strings.access hi.chain ha hcopy hstep,
    hi.settled.access hi.chain hi.strings ha hcopy hstep, hi.counted.access hi.chain ha hstep,
    fun job' p he => ?_, fun job' p he => ?_⟩
  · cases he
    exact ha.access hi.chain hi.strings hcopy hstep
  · cases he
    exact hstep.kind (hi.kind job q rfl)

end TagHeap

end On9log
