import On9log.Lib.Reach
import On9log.TagInvariant

/-!
# No tag is freed while a lookup compares it (on9log.c:1391-1416, 1670-1690, 1731-1743)

Lookups count themselves in and then check again that the node is active; a
writer that is to overwrite a cleared node waits until it sees no reader. So
from that moment until the node is active again no lookup is past its second
check, and the string a lookup compares belongs to the node.
-/

namespace On9log
open Lib

/-! ### Lookups -/

/-- What a lookup adds to the readers of node `i`. -/
def LookupPc.holds (i : ℕ) : LookupPc → ℕ
  | .recheck j | .loadTag j | .compare j _ | .loadLevel j _ _ | .subReaders j _ _ _
  | .dropReaders j => if j = i then 1 else 0
  | _ => 0

/-- Between the second successful check of node `i` and its decrement. -/
def LookupPc.reading (i : ℕ) : LookupPc → Prop
  | .loadTag j | .compare j _ | .loadLevel j _ _ | .subReaders j _ _ _ => j = i
  | _ => False

def Pc.holds (i : ℕ) : Pc → ℕ
  | .lookup _ p => p.holds i
  | _ => 0

def Pc.reading (i : ℕ) : Pc → Prop
  | .lookup _ p => p.reading i
  | _ => False

theorem LookupPc.holds_of_reading {i : ℕ} {p : LookupPc} (h : p.reading i) : p.holds i = 1 := by
  cases p <;> first | exact if_pos h | cases h

/-- What a lookup knows at its next access. -/
def TagHeap.Knows (h : TagHeap) (tag : Option (List UInt8)) : LookupPc → Prop
  | .loadActive i | .addReaders i | .recheck i | .dropReaders i | .loadNext i | .loadTag i =>
    i < h.len
  | .compare i p => i < h.len ∧ p = (h.node i).tag
  | .loadLevel i p same => i < h.len ∧ p = (h.node i).tag ∧ (same = true ↔ h.contents i = tag)
  | .subReaders i p same level => i < h.len ∧ p = (h.node i).tag ∧
    (same = true ↔ h.contents i = tag) ∧ ∃ c, h.contents i = some c ∧ (i, c, level) ∈ h.settings
  | _ => True

namespace TagHeap

variable {cfg : HazardConfig} {h h' : TagHeap} {w : Holder} {job : Job} {q q' : WriterPc}

/-! ### Steps that leave the list alone -/

structure Same (h h' : TagHeap) : Prop where
  first : h'.first = h.first
  head : h'.head = h.head
  nodes : h'.nodes = h.nodes
  activeCount : h'.activeCount = h.activeCount
  settings : h'.settings = h.settings
  blocks : h.blocks ≤ h'.blocks
  next : ∀ i, (h'.node i).next = (h.node i).next
  tag : ∀ i, (h'.node i).tag = (h.node i).tag
  level : ∀ i, (h'.node i).level = (h.node i).level
  active : ∀ i, (h'.node i).active = (h.node i).active
  contents : ∀ i, h'.contents i = h.contents i

theorem Same.len (hs : h.Same h') : h'.len = h.len := by
  unfold TagHeap.len
  rw [hs.first]

theorem Annot.same (ha : h.Annot job q) (hs : h.Same h') : h'.Annot job q := by
  cases q <;>
    simp only [Annot, Found, Missing, AbsentFrom, ActiveFrom, hs.len, hs.contents, hs.active,
      hs.level, hs.settings] at ha ⊢ <;>
    exact ha

theorem Inv.same (hi : h.Inv cfg w) (hs : h.Same h') : h'.Inv cfg w := by
  refine ⟨hi.chain.keep hs.first hs.next hs.head hs.nodes rfl rfl, ⟨fun i b hb => ?_,
    fun i hlt hw => ?_, fun i j c => ?_⟩, fun i c hlt hc hw => ?_, ?_, fun job q he => ?_,
    hi.kind⟩
  · rw [hs.tag] at hb
    exact Nat.lt_of_lt_of_le (hi.strings.blocks i b hb) hs.blocks
  · rw [hs.contents]
    exact hi.strings.live i (hs.len ▸ hlt) hw
  · rw [hs.contents, hs.contents, hs.len]
    exact hi.strings.distinct i j c
  · rw [hs.contents] at hc
    rw [hs.level, hs.settings]
    exact hi.settled i c (hs.len ▸ hlt) hc hw
  · unfold Counted
    rw [hs.activeCount, active_congr hs.len hs.active]
    exact hi.counted
  · exact (hi.annot job q he).same hs

theorem Knows.same {tag : Option (List UInt8)} {p : LookupPc} (hk : h.Knows tag p)
    (hs : h.Same h') : h'.Knows tag p := by
  cases p <;> simp only [Knows, hs.len, hs.contents, hs.tag, hs.settings] at hk ⊢ <;> exact hk

theorem same_storeReaders (i n : ℕ) : h.Same (h.storeReaders i n) where
  first := rfl
  head := rfl
  nodes := rfl
  activeCount := rfl
  settings := rfl
  blocks := Nat.le_refl _
  next := field_setNode (n := { h.node i with readers := n }) HazardNode.next rfl
  tag := field_setNode (n := { h.node i with readers := n }) HazardNode.tag rfl
  level := field_setNode (n := { h.node i with readers := n }) HazardNode.level rfl
  active := field_setNode (n := { h.node i with readers := n }) HazardNode.active rfl
  contents j := contents_storeReaders i j n

theorem Same.refl (h : TagHeap) : h.Same h :=
  ⟨rfl, rfl, rfl, rfl, rfl, Nat.le_refl _, fun _ => rfl, fun _ => rfl, fun _ => rfl, fun _ => rfl,
    fun _ => rfl⟩

theorem same_lookupStep (tag : Option (List UInt8)) (p : LookupPc) :
    h.Same (lookupStep cfg h tag p).1 := by
  cases p with
  | addReaders i | subReaders i _ _ _ | dropReaders i => exact same_storeReaders ..
  | _ => exact Same.refl h

theorem same_strdup (hi : h.Strings w) (tag : List UInt8) : h.Same (h.strdup tag) := by
  refine ⟨rfl, rfl, rfl, rfl, rfl, Nat.le_succ _, fun _ => rfl, fun _ => rfl, fun _ => rfl,
    fun _ => rfl, fun i => ?_⟩
  unfold contents strdup
  cases ht : (h.node i).tag with
  | none => rfl
  | some b =>
    have hlt := hi.blocks i b ht
    exact Function.update_of_ne (by omega) _ _

theorem same_free {p : Option ℕ} (hp : ∀ i b, p = some b → (h.node i).tag ≠ some b) :
    h.Same (h.free p) := by
  have hcontents : ∀ i, (h.free p).contents i = h.contents i :=
    fun i => contents_free_other (hp i)
  cases p with
  | none => exact Same.refl h
  | some b =>
    exact ⟨rfl, rfl, rfl, rfl, rfl, Nat.le_refl _, fun _ => rfl, fun _ => rfl, fun _ => rfl,
      fun _ => rfl, hcontents⟩

/-! ### What a lookup knows -/

variable {tag : Option (List UInt8)} {p : LookupPc}

theorem knows_walk (j : ℕ) (hj : j ≤ h.len) : h.Knows tag (.walk (below j)) := by
  cases j with
  | zero => trivial
  | succ j => exact hj

/-- No writer is overwriting the node the lookup reads. -/
def Unharmed (w : Holder) (p : LookupPc) : Prop :=
  ∀ job q i, w = some (job, q) → p.reading i → ¬ q.overwrites i

theorem Inv.live_of_reading (hi : h.Inv cfg w) (hw : Unharmed w p) {i : ℕ} (hp : p.reading i)
    (hlt : i < h.len) : ∃ c, h.contents i = some c := by
  apply Option.ne_none_iff_exists'.mp
  apply hi.strings.live i hlt
  intro job he
  exact hw job _ i he hp rfl

theorem Knows.next (hk : h.Knows tag p) (hi : h.Inv cfg w) (hw : Unharmed w p) :
    h.Knows tag (lookupStep cfg h tag p).2 := by
  cases p with
  | loadCount =>
    simp only [lookupStep]
    split <;> trivial
  | loadHead =>
    simp only [lookupStep]
    rw [hi.chain.head]
    exact knows_walk _ (Nat.sub_le ..)
  | loadDefault => trivial
  | loadActive i =>
    simp only [lookupStep]
    split <;> exact hk
  | addReaders i => exact hk
  | recheck i =>
    simp only [lookupStep]
    split <;> exact hk
  | loadTag i => exact ⟨hk, rfl⟩
  | compare i configured =>
    obtain ⟨hlt, rfl⟩ := hk
    refine ⟨hlt, rfl, ?_⟩
    cases tag with
    | some tag => exact tagMatches_iff
    | none =>
      obtain ⟨c, hc⟩ := hi.live_of_reading hw rfl hlt
      rw [hc]
      cases ht : (h.node i).tag with
      | none => simp [contents, ht] at hc
      | some b => simp [tagMatches]
  | loadLevel i configured same =>
    obtain ⟨hlt, hptr, hsame⟩ := hk
    obtain ⟨c, hc⟩ := hi.live_of_reading hw rfl hlt
    exact ⟨hlt, hptr, hsame, c, hc, hi.settled i c hlt hc fun job he => hw job _ i he rfl rfl⟩
  | subReaders i configured same level =>
    simp only [lookupStep]
    split
    · trivial
    · exact hk.1
  | dropReaders i => exact hk
  | loadNext i =>
    simp only [lookupStep]
    rw [hi.chain.next i hk]
    exact knows_walk _ (Nat.le_of_lt hk)
  | done level => trivial

theorem Knows.look (hk : h.Knows tag p) (hi : h.Inv cfg w) (hw : Unharmed w p) :
    (lookupStep cfg h tag p).1.Knows tag (lookupStep cfg h tag p).2 :=
  (hk.next hi hw).same (same_lookupStep tag p)

theorem Annot.inactive {i : ℕ} (ha : h.Annot job q) (hq : q.overwrites i) :
    (h.node i).active = false := by
  cases q with
  | freeTag j =>
    cases hq
    exact ha.2.2
  | storeTag j =>
    cases hq
    exact ha.2.2.1
  | reuseLevel j =>
    cases hq
    exact ha.2
  | reuseActive j =>
    cases hq
    exact ha.2.1
  | _ => cases hq

theorem HasCopy.congr (hcopy : h.HasCopy job) (hblock : h'.block = h.block)
    (hblocks : h'.blocks = h.blocks) (htag : ∀ i, (h'.node i).tag = (h.node i).tag) :
    h'.HasCopy job := by
  intro b hb
  rw [hblock, hblocks]
  refine ⟨(hcopy b hb).1, (hcopy b hb).2.1, fun i => ?_⟩
  rw [htag]
  exact (hcopy b hb).2.2 i

/-- The counter of a node after one access of a lookup. -/
theorem readers_lookupStep (h : TagHeap) (tag : Option (List UInt8)) (p : LookupPc) {i n : ℕ}
    (hn : (h.node i).readers = n % 2 ^ cfg.uintBits) (hle : p.holds i ≤ n) :
    ∃ n', n' + p.holds i = n + (lookupStep cfg h tag p).2.holds i ∧
      ((lookupStep cfg h tag p).1.node i).readers = n' % 2 ^ cfg.uintBits := by
  have hpos : 0 < 2 ^ cfg.uintBits := Nat.two_pow_pos _
  have hdrop : ∀ j, (if j = i then 1 else 0) ≤ n → ∃ n', n' + (if j = i then 1 else 0) = n + 0 ∧
      ((h.subReaders cfg j).node i).readers = n' % 2 ^ cfg.uintBits := by
    intro j hj
    unfold subReaders
    rw [node_storeReaders]
    by_cases hij : i = j
    · subst hij
      rw [if_pos rfl] at hj ⊢
      have hsum : n + (2 ^ cfg.uintBits - 1) = n - 1 + 2 ^ cfg.uintBits := by omega
      refine ⟨n - 1, by omega, ?_⟩
      rw [if_pos rfl]
      dsimp only
      rw [hn, Nat.mod_add_mod, hsum, Nat.add_mod_right]
    · rw [if_neg hij, if_neg (Ne.symm hij)]
      exact ⟨n, rfl, hn⟩
  cases p with
  | addReaders j =>
    simp only [lookupStep, LookupPc.holds, addReaders, node_storeReaders]
    by_cases hij : i = j
    · subst hij
      refine ⟨n + 1, by simp, ?_⟩
      rw [if_pos rfl]
      dsimp only
      rw [hn, Nat.mod_add_mod]
    · rw [if_neg hij, if_neg (Ne.symm hij)]
      exact ⟨n, rfl, hn⟩
  | subReaders j configured same level =>
    have hnext : (if same = true then LookupPc.done level else .loadNext j).holds i = 0 := by
      cases same <;> rfl
    simp only [lookupStep]
    rw [hnext]
    exact hdrop j hle
  | dropReaders j => exact hdrop j hle
  | loadCount | loadActive j | recheck j =>
    simp only [lookupStep]
    split <;> exact ⟨n, rfl, hn⟩
  | loadHead =>
    simp only [lookupStep]
    cases h.head <;> exact ⟨n, rfl, hn⟩
  | loadNext j =>
    simp only [lookupStep]
    cases (h.node j).next <;> exact ⟨n, rfl, hn⟩
  | loadDefault | loadTag j | compare j _ | loadLevel j _ _ | done _ => exact ⟨n, rfl, hn⟩

/-- What one access of the writer leaves of a node that a lookup may be reading. -/
structure Kept (h h' : TagHeap) (i : ℕ) : Prop where
  tag : (h'.node i).tag = (h.node i).tag
  contents : h'.contents i = h.contents i

theorem Access.len_le (hc : h.Chain cfg (some (job, q))) (ha : h.Annot job q)
    (hstep : Access cfg h job q h' q') : h.len ≤ h'.len := by
  cases hstep with
  | insertHead i =>
    have hi := ha.2.1
    have hlen : (h.insertHead i).len = i + 1 := rfl
    omega
  | freeTag i => rw [len_free]
  | _ => exact Nat.le_refl _

theorem Access.settings_subset (hstep : Access cfg h job q h' q') : h.settings ⊆ h'.settings := by
  cases hstep with
  | update i | reuseLevel i | initLevel i => exact List.subset_cons_self ..
  | freeTag i => rw [settings_free]; exact List.Subset.refl _
  | _ => exact List.Subset.refl _

theorem Access.kept (hi : h.Inv cfg (some (job, q))) {i : ℕ} (hlt : i < h.len)
    (hw : ¬ q.overwrites i) (hstep : Access cfg h job q h' q') : h.Kept h' i := by
  have ha := hi.annot job q rfl
  have hset : ∀ {j : ℕ} {n : HazardNode}, n.tag = (h.node j).tag → h.Kept (h.setNode j n) i :=
    fun ht => ⟨field_setNode HazardNode.tag ht i, contents_setNode ht i⟩
  cases hstep with
  | update j | reuseLevel j | initLevel j =>
    exact ⟨field_setNode HazardNode.tag (n := { h.node j with level := job.level }) rfl i,
      contents_setTo j i _ _⟩
  | storeActive j | reuseActive j | initActive j | clearActive j | initReaders j => exact hset rfl
  | freeTag j =>
    have hij : i ≠ j := fun he => hw he.symm
    refine ⟨by rw [node_free], ?_⟩
    exact hi.strings.contents_freed (fun _ _ he => nomatch he) ha.2.1 hlt hij
  | storeTag j =>
    have hij : i ≠ j := fun he => hw he.symm
    exact ⟨by rw [node_storeTag, if_neg hij], contents_storeTag_of_ne hij _⟩
  | initTag j =>
    have hij : i ≠ j := by
      have hj := ha.2
      omega
    exact ⟨by rw [node_storeTag, if_neg hij], contents_storeTag_of_ne hij _⟩
  | calloc hroom =>
    have hnodes : h.nodes = h.len := hi.chain.nodes
    exact ⟨by rw [node_calloc, if_neg (by omega)], contents_calloc (by omega)⟩
  | insertHead j =>
    exact ⟨field_setNode HazardNode.tag (n := { h.node j with next := h.first }) rfl i,
      contents_insertHead j i⟩
  | read _ | addCount _ | addReused _ | addInserted _ | subCount _ | storeHead _ => exact ⟨rfl, rfl⟩

theorem Knows.access (hk : h.Knows tag p) (hi : h.Inv cfg (some (job, q)))
    (hw : Unharmed (some (job, q)) p) (hstep : Access cfg h job q h' q') : h'.Knows tag p := by
  have hlen := hstep.len_le hi.chain (hi.annot job q rfl)
  have hkept : ∀ i, i < h.len → p.reading i → h.Kept h' i :=
    fun i hlt hp => hstep.kept hi hlt (hw job q i rfl hp)
  cases p with
  | loadActive i | addReaders i | recheck i | dropReaders i | loadNext i | loadTag i =>
    exact Nat.lt_of_lt_of_le hk hlen
  | compare i configured =>
    obtain ⟨hlt, hptr⟩ := hk
    have hsame := hkept i hlt rfl
    exact ⟨by omega, by rw [hsame.tag, hptr]⟩
  | loadLevel i configured same =>
    obtain ⟨hlt, hptr, hmatch⟩ := hk
    have hsame := hkept i hlt rfl
    exact ⟨by omega, by rw [hsame.tag, hptr], by rw [hsame.contents, hmatch]⟩
  | subReaders i configured same level =>
    obtain ⟨hlt, hptr, hmatch, c, hc, hmem⟩ := hk
    have hsame := hkept i hlt rfl
    refine ⟨by omega, by rw [hsame.tag, hptr], by rw [hsame.contents, hmatch], c, ?_,
      hstep.settings_subset hmem⟩
    rw [hsame.contents, hc]
  | _ => trivial

/-- The copy of another writer, or of this one as long as it keeps it. -/
theorem HasCopy.access {job' : Job} (hcopy : h.HasCopy job') (hstep : Access cfg h job q h' q')
    (hother : ∀ b, job'.copy = some b → (∃ i, q = .storeTag i ∨ q = .initTag i) →
      job.copy ≠ some b) : h'.HasCopy job' := by
  intro b hb
  obtain ⟨hlt, hblock, htag⟩ := hcopy b hb
  have hset : ∀ {i : ℕ} {n : HazardNode}, n.tag = (h.node i).tag →
      b < h.blocks ∧ h.block b = some job'.tag ∧ ∀ j, ((h.setNode i n).node j).tag ≠ some b := by
    intro i n hn
    refine ⟨hlt, hblock, fun j => ?_⟩
    rw [field_setNode HazardNode.tag hn j]
    exact htag j
  have hgive : ∀ i, job.copy ≠ some b →
      b < h.blocks ∧ h.block b = some job'.tag ∧ ∀ j, ((h.storeTag i job.copy).node j).tag ≠ some b := by
    intro i hne
    refine ⟨hlt, hblock, fun j => ?_⟩
    rw [node_storeTag]
    split
    · exact hne
    · exact htag j
  cases hstep with
  | read _ | addCount _ | addReused _ | addInserted _ | subCount _ | storeHead _ =>
    exact ⟨hlt, hblock, htag⟩
  | update i | reuseLevel i | initLevel i =>
    exact hset (n := { h.node i with level := job.level }) rfl
  | storeActive i | reuseActive i | initActive i => exact hset (n := { h.node i with active := true }) rfl
  | clearActive i => exact hset (n := { h.node i with active := false }) rfl
  | initReaders i => exact hset (n := { h.node i with readers := 0 }) rfl
  | insertHead i => exact hset (n := { h.node i with next := h.first }) rfl
  | storeTag i => exact hgive i (hother b hb ⟨i, Or.inl rfl⟩)
  | initTag i => exact hgive i (hother b hb ⟨i, Or.inr rfl⟩)
  | freeTag i =>
    refine ⟨by rw [blocks_free]; exact hlt, ?_, fun j => by rw [node_free]; exact htag j⟩
    cases ht : (h.node i).tag with
    | none => exact hblock
    | some b' =>
      have hne : b ≠ b' := fun he => htag i (he ▸ ht)
      exact (Function.update_of_ne hne _ _).trans hblock
  | calloc hroom =>
    refine ⟨hlt, hblock, fun j => ?_⟩
    rw [node_calloc]
    split
    · exact nofun
    · exact htag j

theorem Access.given (hstep : Access cfg h job q h' q') (hq : q'.given = false) :
    q.given = false ∧ ∀ i, q ≠ .storeTag i ∧ q ≠ .initTag i := by
  cases hstep with
  | read hr =>
    cases hr with
    | allocate | notFound => cases hq
    | _ => exact ⟨rfl, fun i => ⟨nofun, nofun⟩⟩
  | update i wasActive => exact ⟨rfl, fun i => ⟨nofun, nofun⟩⟩
  | storeActive i | addCount i | freeTag i | calloc _ | clearActive i | subCount i =>
    exact ⟨rfl, fun i => ⟨nofun, nofun⟩⟩
  | _ => cases hq

theorem Access.readers (hc : h.Chain cfg (some (job, q))) (ha : h.Annot job q)
    (hstep : Access cfg h job q h' q') (i : ℕ) :
    (h'.node i).readers = (h.node i).readers ∨ i = h.len ∧ (h'.node i).readers = 0 := by
  cases hstep with
  | read _ | addCount _ | addReused _ | addInserted _ | subCount _ | storeHead _ => exact Or.inl rfl
  | update j | reuseLevel j | initLevel j =>
    exact Or.inl (field_setNode HazardNode.readers (n := { h.node j with level := job.level }) rfl i)
  | storeActive j | reuseActive j | initActive j =>
    exact Or.inl (field_setNode HazardNode.readers (n := { h.node j with active := true }) rfl i)
  | clearActive j =>
    exact Or.inl (field_setNode HazardNode.readers (n := { h.node j with active := false }) rfl i)
  | storeTag j | initTag j =>
    exact Or.inl (field_setNode HazardNode.readers (n := { h.node j with tag := job.copy }) rfl i)
  | insertHead j =>
    exact Or.inl (field_setNode HazardNode.readers (n := { h.node j with next := h.first }) rfl i)
  | freeTag j =>
    rw [node_free]
    exact Or.inl rfl
  | calloc hroom =>
    have hnodes : h.nodes = h.len := hc.nodes
    rw [node_calloc]
    split
    · exact Or.inr ⟨by omega, rfl⟩
    · exact Or.inl rfl
  | initReaders j =>
    have hj := ha.2.1
    rw [node_storeReaders]
    split
    · exact Or.inr ⟨by omega, rfl⟩
    · exact Or.inl rfl

/-- A writer begins to overwrite a node when it sees no reader. -/
theorem Access.overwrites {i : ℕ} (hstep : Access cfg h job q h' q') (hq : q'.overwrites i) :
    q.overwrites i ∨ q = .wait i ∧ (h.node i).readers = 0 := by
  cases hstep with
  | read hr =>
    cases hr with
    | waited j hz =>
      cases hq
      exact Or.inr ⟨rfl, hz⟩
    | _ => cases hq
  | freeTag j | storeTag j | reuseLevel j => exact Or.inl hq
  | update j wasActive => cases wasActive <;> cases hq
  | clearActive j => split at hq <;> cases hq
  | _ => cases hq

theorem Knows.lt_of_holds (hk : h.Knows tag p) {i : ℕ} (hp : p.holds i ≠ 0) : i < h.len := by
  have hnode : ∀ j, (if j = i then 1 else 0) ≠ 0 → j < h.len → i < h.len := by
    intro j hj hlt
    split at hj
    · omega
    · exact absurd rfl hj
  cases p with
  | recheck j | loadTag j | dropReaders j => exact hnode j hp hk
  | compare j _ | loadLevel j _ _ | subReaders j _ _ _ => exact hnode j hp hk.1
  | _ => exact absurd rfl hp

/-! ### Taking the lock and giving it back -/

theorem Inv.acquire (hi : h.Inv cfg none) (job : Job) : h.Inv cfg (some (job, .scan h.first)) := by
  refine ⟨⟨hi.chain.next, hi.chain.nodes, hi.chain.bound, hi.chain.head⟩,
    ⟨hi.strings.blocks, fun i hlt _ => hi.strings.live i hlt nofun, hi.strings.distinct⟩,
    fun i c hlt hc _ => hi.settled i c hlt hc nofun, hi.counted, fun job' q he => ?_,
    fun job' q he hq => ?_⟩
  · cases he
    exact ⟨h.len, Nat.le_refl _, h.first_eq, fun k hk hlt => by omega⟩
  · cases he
    cases hq

theorem Inv.release {next : After} (hi : h.Inv cfg (some (job, .unlock next))) : h.Inv cfg none := by
  refine ⟨⟨hi.chain.next, hi.chain.nodes, hi.chain.bound, hi.chain.head⟩,
    ⟨hi.strings.blocks, fun i hlt _ => hi.strings.live i hlt fun _ => nofun, hi.strings.distinct⟩,
    fun i c hlt hc _ => hi.settled i c hlt hc fun _ => nofun, hi.counted, nofun, nofun⟩

end TagHeap

/-! ### What one step does -/

/-- Nothing of the call is left but to return, or nothing has begun. -/
def Pc.ready : Pc → Prop
  | .idle | .returned _ | .malloc _ | .lookup _ (.done _) => True
  | _ => False

/-- The call has no reader counted and no copy of a tag. -/
def Pc.quiet : Pc → Prop
  | .idle | .storeDefault _ | .malloc _ | .returned _ | .lookup _ .loadCount => True
  | .lock job => job.copy = none
  | _ => False

namespace HazardState

variable {Tid : Type} [DecidableEq Tid] {cfg : HazardConfig} {s s' : HazardState Tid} {t : Tid}

inductive Taken (cfg : HazardConfig) (s : HazardState Tid) (t : Tid) : HazardState Tid → Prop
  | goto (p : Pc) : (s.pc t).ready → p.quiet → Taken cfg s t (s.goto t p)
  | look (tag : Option (List UInt8)) (p : LookupPc) : s.pc t = .lookup tag p →
      Taken cfg s t { s.goto t (.lookup tag (lookupStep cfg s.heap tag p).2) with
        heap := (lookupStep cfg s.heap tag p).1 }
  | storeDefault (level : ℕ) : s.pc t = .storeDefault level →
      Taken cfg s t { s.goto t (.returned .ok) with heap := { s.heap with defaultLevel := level } }
  | acquire (job : Job) : s.pc t = .lock job → s.inside = none →
      Taken cfg s t { s.goto t .inside with inside := some (t, job, .scan s.heap.first) }
  | access (job : Job) (q q' : WriterPc) (h' : TagHeap) : s.inside = some (t, job, q) →
      TagHeap.Access cfg s.heap job q h' q' →
      Taken cfg s t { s with heap := h', inside := some (t, job, q') }
  | release (job : Job) (next : After) : s.inside = some (t, job, .unlock next) →
      Taken cfg s t { s.goto t (next.pc job) with inside := none }
  | malloc (job : Job) : s.pc t = .malloc job →
      Taken cfg s t { s.goto t (.lock (job.withCopy s.heap.blocks)) with
        heap := s.heap.strdup job.tag }
  | freeCopy (job : Job) (err : Err) : s.pc t = .freeCopy job err →
      Taken cfg s t { s.goto t (.returned err) with heap := s.heap.free job.copy }

theorem quiet_start (c : WriterCall) : c.start.quiet := by
  cases c with
  | setLevel level =>
    simp only [WriterCall.start]
    split <;> trivial
  | setTagLevel tag level =>
    cases tag with
    | none => trivial
    | some tag =>
      simp only [WriterCall.start]
      split
      · rfl
      · trivial
  | clearTagLevel tag =>
    cases tag with
    | none => trivial
    | some tag => rfl

theorem taken_of_step {x : Choice} (h : s.step cfg t x = some s') : Taken cfg s t s' := by
  obtain ⟨r, hr, rfl⟩ := Option.map_eq_some_iff.mp h
  cases hpc : s.pc t <;> rw [hpc] at hr
  case idle =>
    have hready : (s.pc t).ready := by rw [hpc]; trivial
    cases x with
    | lookup tag =>
      cases hr
      exact .goto _ hready trivial
    | write c =>
      cases hr
      exact .goto _ hready (quiet_start c)
    | go ok => cases hr
  case returned err =>
    have hready : (s.pc t).ready := by rw [hpc]; trivial
    cases x <;> cases hr
    exact .goto _ hready trivial
  case lookup tag p =>
    cases x with
    | go ok =>
      cases p with
      | done level =>
        have hready : (s.pc t).ready := by rw [hpc]; trivial
        cases hr
        exact .goto _ hready trivial
      | _ =>
        cases hr
        exact .look _ _ hpc
    | _ => cases p <;> cases hr
  case storeDefault level =>
    cases x <;> cases hr
    exact .storeDefault _ hpc
  case freeCopy job err =>
    cases x <;> cases hr
    exact .freeCopy _ _ hpc
  case malloc job =>
    cases x with
    | go ok =>
      cases ok with
      | true =>
        cases hr
        exact .malloc _ hpc
      | false =>
        have hready : (s.pc t).ready := by rw [hpc]; trivial
        cases hr
        exact .goto _ hready trivial
    | _ => cases hr
  case lock job =>
    cases x with
    | go ok =>
      cases hin : s.inside with
      | none =>
        rw [hin] at hr
        cases hr
        exact .acquire _ hpc hin
      | some w =>
        rw [hin] at hr
        cases hr
    | _ => cases hr
  case inside =>
    cases x with
    | go ok =>
      cases hin : s.inside with
      | none =>
        rw [hin] at hr
        cases hr
      | some w =>
        obtain ⟨u, job, q⟩ := w
        rw [hin] at hr
        have hut : u = t := by
          by_contra hne
          cases q <;> simp [taskStep, hne] at hr
        subst hut
        cases q with
        | unlock next =>
          simp only [taskStep, if_true, Option.some.injEq] at hr
          rw [← hr]
          exact .release _ _ hin
        | _ =>
          simp only [taskStep, if_true, Option.some.injEq] at hr
          rw [← hr, ← hpc, Function.update_eq_self]
          exact .access _ _ _ _ hin (TagHeap.access_sectionStep nofun)
    | _ => cases hr

/-! ### The invariant -/

def holder (s : HazardState Tid) : Holder := s.inside.map Prod.snd

/-- Task `t` has a copy of a tag that no node has yet. -/
def Owns (s : HazardState Tid) (t : Tid) (job : Job) : Prop :=
  s.pc t = .lock job ∨ (∃ err, s.pc t = .freeCopy job err) ∨
    ∃ q, s.inside = some (t, job, q) ∧ q.given = false

structure Inv (cfg : HazardConfig) (s : HazardState Tid) : Prop where
  heap : s.heap.Inv cfg s.holder
  inside : ∀ t job q, s.inside = some (t, job, q) → s.pc t = .inside
  copies : ∀ t job, s.Owns t job → s.heap.HasCopy job
  apart : ∀ t u job job' b, s.Owns t job → s.Owns u job' → job.copy = some b →
    job'.copy = some b → t = u
  knows : ∀ t tag p, s.pc t = .lookup tag p → s.heap.Knows tag p
  readers : ∀ i, ∃ n, SumIs (fun t => (s.pc t).holds i) n ∧
    (s.heap.node i).readers = n % 2 ^ cfg.uintBits
  hazard : ∀ t i job q, (s.pc t).reading i → s.holder = some (job, q) → ¬ q.overwrites i

/-- Fewer lookups than the counter can count are in one node. -/
def Fewer (cfg : HazardConfig) (s : HazardState Tid) : Prop :=
  ∀ i n, SumIs (fun t => (s.pc t).holds i) n → n < 2 ^ cfg.uintBits

theorem holds_update (s : HazardState Tid) (t : Tid) (p : Pc) (i : ℕ) :
    (fun u => (Function.update s.pc t p u).holds i) =
      Function.update (fun u => (s.pc u).holds i) t (p.holds i) := by
  funext u
  by_cases hut : u = t
  · subst hut
    rw [Function.update_self, Function.update_self]
  · rw [Function.update_of_ne hut, Function.update_of_ne hut]

theorem Owns.of_goto {p : Pc} {h' : TagHeap} {u : Tid} {job : Job} (hi : s.Inv cfg)
    (hpc : s.pc t ≠ .inside) (ho : ({ s.goto t p with heap := h' } : HazardState Tid).Owns u job) :
    u = t ∧ (p = .lock job ∨ ∃ err, p = .freeCopy job err) ∨ u ≠ t ∧ s.Owns u job := by
  by_cases hut : u = t
  · subst hut
    refine Or.inl ⟨rfl, ?_⟩
    unfold Owns at ho
    simp only [goto, Function.update_self] at ho
    rcases ho with ho | ho | ⟨q, hin, -⟩
    · exact Or.inl ho
    · exact Or.inr ho
    · exact absurd (hi.inside _ _ _ hin) hpc
  · refine Or.inr ⟨hut, ?_⟩
    unfold Owns at ho ⊢
    simpa only [goto, Function.update_of_ne hut] using ho

/-- A task goes on to `p`, and the list stays as it is. -/
theorem Inv.goto (hi : s.Inv cfg) {p : Pc} {h' : TagHeap} (hpc : s.pc t ≠ .inside)
    (hsame : s.heap.Same h') (hknows : ∀ tag q, p = .lookup tag q → h'.Knows tag q)
    (hreaders : ∀ i n, (s.heap.node i).readers = n % 2 ^ cfg.uintBits → (s.pc t).holds i ≤ n →
      ∃ n', n' + (s.pc t).holds i = n + p.holds i ∧
        (h'.node i).readers = n' % 2 ^ cfg.uintBits)
    (hhazard : ∀ i, p.reading i → (s.pc t).reading i ∨ (s.heap.node i).active = true)
    (howns : ∀ job, p = .lock job ∨ (∃ err, p = .freeCopy job err) → h'.HasCopy job ∧
      ∀ u job' b, u ≠ t → s.Owns u job' → job.copy = some b → job'.copy ≠ some b)
    (hcopies : ∀ u job, u ≠ t → s.Owns u job → h'.HasCopy job) :
    ({ s.goto t p with heap := h' } : HazardState Tid).Inv cfg := by
  refine ⟨hi.heap.same hsame, fun u job q hin => ?_, fun u job ho => ?_,
    fun u v job job' b ho ho' hb hb' => ?_, fun u tag q hq => ?_, fun i => ?_,
    fun u i job q hr hw => ?_⟩
  · have hold := hi.inside u job q hin
    have hut : u ≠ t := fun he => hpc (he ▸ hold)
    exact (Function.update_of_ne hut _ _).trans hold
  · rcases ho.of_goto hi hpc with ⟨-, hp⟩ | ⟨hut, ho⟩
    · exact (howns job hp).1
    · exact hcopies u job hut ho
  · rcases ho.of_goto hi hpc with ⟨rfl, hp⟩ | ⟨hut, hou⟩
    · rcases ho'.of_goto hi hpc with ⟨rfl, -⟩ | ⟨hvt, hov⟩
      · rfl
      · exact absurd hb' ((howns job hp).2 v job' b hvt hov hb)
    · rcases ho'.of_goto hi hpc with ⟨rfl, hp⟩ | ⟨hvt, hov⟩
      · exact absurd hb ((howns job' hp).2 u job b hut hou hb')
      · exact hi.apart u v job job' b hou hov hb hb'
  · have hupdate : Function.update s.pc t p u = .lookup tag q := hq
    by_cases hut : u = t
    · rw [hut, Function.update_self] at hupdate
      exact hknows tag q hupdate
    · rw [Function.update_of_ne hut] at hupdate
      exact (hi.knows u tag q hupdate).same hsame
  · obtain ⟨n, hsum, hn⟩ := hi.readers i
    obtain ⟨r, hr⟩ := hsum.rest t
    obtain ⟨n', hn', hread⟩ := hreaders i n hn (by omega)
    refine ⟨n', ?_, hread⟩
    show SumIs (fun u => (Function.update s.pc t p u).holds i) n'
    rw [holds_update]
    exact hsum.update t hn'
  · by_cases hut : u = t
    · subst hut
      have hp : p.reading i := by
        have hself := Function.update_self u p s.pc
        exact hself ▸ hr
      rcases hhazard i hp with hold | hact
      · exact hi.hazard u i job q hold hw
      · intro hq
        rw [(hi.heap.annot job q hw).inactive hq] at hact
        cases hact
    · have hold : (s.pc u).reading i := by
        have hother := Function.update_of_ne hut p s.pc
        exact hother ▸ hr
      exact hi.hazard u i job q hold hw

omit [DecidableEq Tid] in
theorem Inv.unharmed (hi : s.Inv cfg) {tag : Option (List UInt8)} {p : LookupPc}
    (hp : s.pc t = .lookup tag p) : TagHeap.Unharmed s.holder p := by
  intro job q i hw hr
  apply hi.hazard t i job q _ hw
  rw [hp]
  exact hr

theorem Inv.look (hi : s.Inv cfg) {tag : Option (List UInt8)} {p : LookupPc}
    (hp : s.pc t = .lookup tag p) :
    ({ s.goto t (.lookup tag (lookupStep cfg s.heap tag p).2) with
      heap := (lookupStep cfg s.heap tag p).1 } : HazardState Tid).Inv cfg := by
  have hsame : s.heap.Same (lookupStep cfg s.heap tag p).1 := TagHeap.same_lookupStep tag p
  apply hi.goto (by rw [hp]; exact nofun) hsame
  · intro tag' q hq
    cases hq
    exact (hi.knows t tag p hp).look hi.heap (hi.unharmed hp)
  · intro i n hn hle
    rw [hp] at hle ⊢
    exact TagHeap.readers_lookupStep s.heap tag p hn hle
  · intro i hr
    rw [hp]
    cases p with
    | recheck j =>
      simp only [lookupStep, Pc.reading] at hr
      split at hr
      · cases hr
        exact Or.inr ‹_›
      · cases hr
    | loadTag j | compare j _ | loadLevel j _ _ => exact Or.inl hr
    | subReaders j _ same _ =>
      simp only [lookupStep, Pc.reading] at hr
      split at hr <;> cases hr
    | loadCount | loadActive j =>
      simp only [lookupStep, Pc.reading] at hr
      split at hr <;> cases hr
    | loadHead =>
      simp only [lookupStep, Pc.reading] at hr
      cases hh : s.heap.head <;> rw [hh] at hr <;> cases hr
    | loadNext j =>
      simp only [lookupStep, Pc.reading] at hr
      cases hh : (s.heap.node j).next <;> rw [hh] at hr <;> cases hr
    | loadDefault | addReaders j | dropReaders j | done _ => cases hr
  · intro job hj
    rcases hj with hj | ⟨err, hj⟩ <;> cases hj
  · intro u job _ ho
    have hblock : (lookupStep cfg s.heap tag p).1.block = s.heap.block := by
      cases p <;> rfl
    have hblocks : (lookupStep cfg s.heap tag p).1.blocks = s.heap.blocks := by
      cases p <;> rfl
    exact (hi.copies u job ho).congr hblock hblocks hsame.tag

/-- A step of a task that counts no reader, before or after. -/
theorem Inv.plain (hi : s.Inv cfg) {p : Pc} {h' : TagHeap} (hpc : s.pc t ≠ .inside)
    (hsame : s.heap.Same h') (hreaders : ∀ i, (h'.node i).readers = (s.heap.node i).readers)
    (hold : ∀ i, (s.pc t).holds i = 0) (hnew : ∀ i, p.holds i = 0) (hreading : ∀ i, ¬ p.reading i)
    (hknows : ∀ tag q, p = .lookup tag q → h'.Knows tag q)
    (howns : ∀ job, p = .lock job ∨ (∃ err, p = .freeCopy job err) → h'.HasCopy job ∧
      ∀ u job' b, u ≠ t → s.Owns u job' → job.copy = some b → job'.copy ≠ some b)
    (hcopies : ∀ u job, u ≠ t → s.Owns u job → h'.HasCopy job) :
    ({ s.goto t p with heap := h' } : HazardState Tid).Inv cfg := by
  apply hi.goto hpc hsame hknows _ _ howns hcopies
  · intro i n hn _
    refine ⟨n, by rw [hold, hnew], ?_⟩
    rw [hreaders, hn]
  · exact fun i hr => absurd hr (hreading i)

theorem Inv.ready (hi : s.Inv cfg) {p : Pc} (hready : (s.pc t).ready) (hquiet : p.quiet) :
    (s.goto t p).Inv cfg := by
  have hpc : s.pc t ≠ .inside := by
    intro he
    rw [he] at hready
    exact hready
  have hold : ∀ i, (s.pc t).holds i = 0 := by
    intro i
    cases hs : s.pc t with
    | lookup tag q =>
      rw [hs] at hready
      cases q <;> first | rfl | cases hready
    | _ => rfl
  have hnew : ∀ i, p.holds i = 0 ∧ ¬ p.reading i := by
    intro i
    cases p with
    | lookup tag q => cases q <;> first | exact ⟨rfl, nofun⟩ | cases hquiet
    | _ => exact ⟨rfl, nofun⟩
  apply hi.plain hpc (TagHeap.Same.refl _) (fun _ => rfl) hold (fun i => (hnew i).1)
    fun i => (hnew i).2
  · intro tag q he
    rw [he] at hquiet
    cases q <;> trivial
  · intro job hjob
    have hcopy : job.copy = none := by
      rcases hjob with rfl | ⟨err, rfl⟩
      · exact hquiet
      · cases hquiet
    refine ⟨fun b hb => ?_, fun u job' b _ _ hb => ?_⟩
    · rw [hcopy] at hb
      cases hb
    · rw [hcopy] at hb
      cases hb
  · exact fun u job _ ho => hi.copies u job ho

theorem Inv.storeDefault (hi : s.Inv cfg) {level : ℕ} (hp : s.pc t = .storeDefault level) :
    ({ s.goto t (.returned .ok) with heap := { s.heap with defaultLevel := level } } :
      HazardState Tid).Inv cfg := by
  have hsame : s.heap.Same { s.heap with defaultLevel := level } :=
    ⟨rfl, rfl, rfl, rfl, rfl, Nat.le_refl _, fun _ => rfl, fun _ => rfl, fun _ => rfl,
      fun _ => rfl, fun _ => rfl⟩
  refine hi.plain (by rw [hp]; exact nofun) hsame (fun _ => rfl) (fun i => by rw [hp]; rfl)
    (fun _ => rfl) (fun _ => nofun) (fun _ _ => nofun) ?_ ?_
  · intro job hjob
    rcases hjob with hjob | ⟨err, hjob⟩ <;> cases hjob
  · exact fun u job _ ho => hi.copies u job ho

theorem Inv.malloc (hi : s.Inv cfg) {job : Job} (hp : s.pc t = .malloc job) :
    ({ s.goto t (.lock (job.withCopy s.heap.blocks)) with heap := s.heap.strdup job.tag } :
      HazardState Tid).Inv cfg := by
  have hsame := TagHeap.same_strdup hi.heap.strings job.tag
  refine hi.plain (by rw [hp]; exact nofun) hsame (fun _ => rfl) (fun i => by rw [hp]; rfl)
    (fun _ => rfl) (fun _ => nofun) (fun _ _ => nofun) ?_ ?_
  · intro job' hjob
    have hjob' : job' = job.withCopy s.heap.blocks := by
      rcases hjob with hjob | ⟨err, hjob⟩
      · cases hjob
        rfl
      · cases hjob
    subst hjob'
    have hcopy : ∀ b, (job.withCopy s.heap.blocks).copy = some b → b = s.heap.blocks := by
      intro b hb
      cases job with
      | set tag level copy => exact (Option.some.inj hb).symm
      | clear tag => cases hb
    have htag : (job.withCopy s.heap.blocks).tag = job.tag := by cases job <;> rfl
    refine ⟨fun b hb => ?_, fun u job' b _ ho hb hb' => ?_⟩
    · rw [hcopy b hb, htag]
      refine ⟨Nat.lt_succ_self _, Function.update_self .., fun i hi' => ?_⟩
      exact absurd (hi.heap.strings.blocks i _ hi') (Nat.lt_irrefl _)
    · have hlt := (hi.copies u job' ho b hb').1
      have heq := hcopy b hb
      omega
  · intro u job' _ ho b hb
    obtain ⟨hlt, hblock, htag⟩ := hi.copies u job' ho b hb
    refine ⟨Nat.lt_succ_of_lt hlt, ?_, htag⟩
    exact (Function.update_of_ne (Nat.ne_of_lt hlt) _ _).trans hblock

theorem Inv.freeCopy (hi : s.Inv cfg) {job : Job} {err : Err} (hp : s.pc t = .freeCopy job err) :
    ({ s.goto t (.returned err) with heap := s.heap.free job.copy } : HazardState Tid).Inv cfg := by
  have hown : s.Owns t job := Or.inr (Or.inl ⟨err, hp⟩)
  have hsame := TagHeap.same_free fun i b hb => (hi.copies t job hown b hb).2.2 i
  refine hi.plain (by rw [hp]; exact nofun) hsame (fun i => by rw [TagHeap.node_free])
    (fun i => by rw [hp]; rfl) (fun _ => rfl) (fun _ => nofun) (fun _ _ => nofun) ?_ ?_
  · intro job' hjob
    rcases hjob with hjob | ⟨err', hjob⟩ <;> cases hjob
  · intro u job' hut ho b hb
    obtain ⟨hlt, hblock, htag⟩ := hi.copies u job' ho b hb
    refine ⟨by rw [TagHeap.blocks_free]; exact hlt, ?_, fun i => by
      rw [TagHeap.node_free]; exact htag i⟩
    cases hc : job.copy with
    | none => exact hblock
    | some b' =>
      have hne : b ≠ b' := by
        intro he
        rw [← he] at hc
        exact hut (hi.apart u t job' job b ho hown hb hc)
      exact (Function.update_of_ne hne _ _).trans hblock

/-- The lock changes hands, and the list stays as it is. -/
theorem Inv.hand (hi : s.Inv cfg) {p : Pc} {inside : Option (Tid × Job × WriterPc)}
    (hheap : s.heap.Inv cfg (inside.map Prod.snd))
    (hinside : ∀ u job q, inside = some (u, job, q) → Function.update s.pc t p u = .inside)
    (howns : ∀ u job, ({ s.goto t p with inside := inside } : HazardState Tid).Owns u job →
      s.Owns u job)
    (hold : ∀ i, (s.pc t).holds i = 0) (hnew : ∀ i, p.holds i = 0 ∧ ¬ p.reading i)
    (hknows : ∀ tag q, p ≠ .lookup tag q)
    (hover : ∀ job q i, inside.map Prod.snd = some (job, q) → ¬ q.overwrites i) :
    ({ s.goto t p with inside := inside } : HazardState Tid).Inv cfg := by
  refine ⟨hheap, hinside, fun u job ho => hi.copies u job (howns u job ho),
    fun u v job job' b ho ho' => hi.apart u v job job' b (howns u job ho) (howns v job' ho'),
    fun u tag q hq => ?_, fun i => ?_, fun u i job q _ hw => hover job q i hw⟩
  · have hupdate : Function.update s.pc t p u = .lookup tag q := hq
    by_cases hut : u = t
    · rw [hut, Function.update_self] at hupdate
      exact absurd hupdate (hknows tag q)
    · rw [Function.update_of_ne hut] at hupdate
      exact hi.knows u tag q hupdate
  · obtain ⟨n, hsum, hn⟩ := hi.readers i
    refine ⟨n, ?_, hn⟩
    show SumIs (fun u => (Function.update s.pc t p u).holds i) n
    rw [holds_update]
    apply hsum.update t
    rw [hold, (hnew i).1]

theorem Inv.acquire (hi : s.Inv cfg) {job : Job} (hp : s.pc t = .lock job) (hfree : s.inside = none) :
    ({ s.goto t .inside with inside := some (t, job, .scan s.heap.first) } :
      HazardState Tid).Inv cfg := by
  have hnone : s.holder = none := by
    unfold holder
    rw [hfree]
    rfl
  have hheap := hi.heap
  rw [hnone] at hheap
  refine hi.hand (hheap.acquire job) ?_ ?_ (fun i => by rw [hp]; rfl) (fun i => ⟨rfl, nofun⟩) nofun ?_
  · intro u job' q he
    cases he
    exact Function.update_self ..
  · intro u job' ho
    unfold Owns at ho
    by_cases hut : u = t
    · subst hut
      simp only [HazardState.goto, Function.update_self] at ho
      rcases ho with ho | ⟨err, ho⟩ | ⟨q, ho, -⟩
      · cases ho
      · cases ho
      · cases ho
        exact Or.inl hp
    · simp only [HazardState.goto, Function.update_of_ne hut] at ho
      rcases ho with ho | ho | ⟨q, ho, -⟩
      · exact Or.inl ho
      · exact Or.inr (Or.inl ho)
      · cases ho
        exact absurd rfl hut
  · intro job' q i he hq
    cases he
    cases hq

theorem Inv.release (hi : s.Inv cfg) {job : Job} {next : After}
    (hin : s.inside = some (t, job, .unlock next)) :
    ({ s.goto t (next.pc job) with inside := none } : HazardState Tid).Inv cfg := by
  have hheap := hi.heap
  have hpc := hi.inside t job _ hin
  unfold holder at hheap
  rw [hin] at hheap
  have hnew : ∀ i, (next.pc job).holds i = 0 ∧ ¬ (next.pc job).reading i := by
    intro i
    cases next <;> exact ⟨rfl, nofun⟩
  refine hi.hand (TagHeap.Inv.release hheap) nofun ?_ (fun i => by rw [hpc]; rfl) hnew
    (fun tag q => by cases next <;> exact nofun) nofun
  intro u job' ho
  unfold Owns at ho
  by_cases hut : u = t
  · subst hut
    simp only [HazardState.goto, Function.update_self] at ho
    rcases ho with ho | ⟨err, ho⟩ | ⟨q, ho, -⟩
    · cases next <;> cases ho
    · cases next with
      | freeCopy err' =>
        cases ho
        exact Or.inr (Or.inr ⟨_, hin, rfl⟩)
      | _ => cases ho
    · cases ho
  · simp only [HazardState.goto, Function.update_of_ne hut] at ho
    rcases ho with ho | ho | ⟨q, ho, -⟩
    · exact Or.inl ho
    · exact Or.inr (Or.inl ho)
    · cases ho

theorem Inv.access (hi : s.Inv cfg) (hfew : s.Fewer cfg) {job : Job} {q q' : WriterPc}
    {h' : TagHeap} (hin : s.inside = some (t, job, q)) (hstep : TagHeap.Access cfg s.heap job q h' q') :
    ({ s with heap := h', inside := some (t, job, q') } : HazardState Tid).Inv cfg := by
  have hheap := hi.heap
  have hholder : s.holder = some (job, q) := by
    unfold holder
    rw [hin]
    rfl
  rw [hholder] at hheap
  have ha := hheap.annot job q rfl
  have hpc := hi.inside t job q hin
  have howns : ∀ u job', ({ s with heap := h', inside := some (t, job, q') } :
      HazardState Tid).Owns u job' → s.Owns u job' ∧ (u = t → ∀ i, q ≠ .storeTag i ∧ q ≠ .initTag i) := by
    intro u job' ho
    rcases ho with ho | ⟨err, ho⟩ | ⟨p, hp, hgiven⟩
    · refine ⟨Or.inl ho, fun hut => ?_⟩
      rw [hut, hpc] at ho
      cases ho
    · refine ⟨Or.inr (Or.inl ⟨err, ho⟩), fun hut => ?_⟩
      rw [hut, hpc] at ho
      cases ho
    · cases hp
      have hq := hstep.given hgiven
      exact ⟨Or.inr (Or.inr ⟨q, hin, hq.1⟩), fun _ => hq.2⟩
  refine ⟨hheap.access (fun hq => hi.copies t job (Or.inr (Or.inr ⟨q, hin, hq⟩))) hstep,
    fun u job' p he => ?_, fun u job' ho => ?_, fun u v job₁ job₂ b ho ho' => ?_,
    fun u tag p hp => ?_, fun i => ?_, fun u i job' p hr he => ?_⟩
  · cases he
    exact hpc
  · obtain ⟨hold, hself⟩ := howns u job' ho
    apply (hi.copies u job' hold).access hstep
    rintro b hb ⟨i, hq⟩ hb'
    -- the copy given away is the holder's own
    have hown : s.Owns t job := by
      refine Or.inr (Or.inr ⟨q, hin, ?_⟩)
      rcases hq with rfl | rfl <;> rfl
    have hut := hi.apart u t job' job b hold hown hb hb'
    rcases hq with rfl | rfl
    · exact (hself hut i).1 rfl
    · exact (hself hut i).2 rfl
  · exact hi.apart u v job₁ job₂ b (howns u job₁ ho).1 (howns v job₂ ho').1
  · have hw := hi.unharmed hp
    rw [hholder] at hw
    exact (hi.knows u tag p hp).access hheap hw hstep
  · obtain ⟨n, hsum, hn⟩ := hi.readers i
    refine ⟨n, hsum, ?_⟩
    rcases hstep.readers hheap.chain ha i with hsame | ⟨rfl, hzero⟩
    · exact hsame.trans hn
    · -- no lookup is in a node that is not in the list yet
      have hnone : (fun u => (s.pc u).holds s.heap.len) = fun _ => 0 := by
        funext u
        by_contra hne
        cases hu : s.pc u with
        | lookup tag p =>
          have hp : p.holds s.heap.len ≠ 0 := by simpa [hu, Pc.holds] using hne
          exact Nat.lt_irrefl _ ((hi.knows u tag p hu).lt_of_holds hp)
        | _ => simp [hu, Pc.holds] at hne
      rw [hnone] at hsum
      rw [hsum.unique sumIs_zero, Nat.zero_mod]
      exact hzero
  · cases he
    intro hq
    rcases hstep.overwrites hq with hold | ⟨-, hzero⟩
    · exact hi.hazard u i job q hr hholder hold
    · obtain ⟨n, hsum, hn⟩ := hi.readers i
      have hlt := hfew i n hsum
      obtain ⟨r, hrest⟩ := hsum.rest u
      rw [hzero, Nat.mod_eq_of_lt hlt] at hn
      have hone : (s.pc u).holds i = 1 := by
        cases hu : s.pc u with
        | lookup tag p =>
          rw [hu] at hr
          exact LookupPc.holds_of_reading hr
        | _ =>
          rw [hu] at hr
          cases hr
      omega

/-- Every step keeps the invariant. -/
theorem Inv.taken (hi : s.Inv cfg) (hfew : s.Fewer cfg) (ht : Taken cfg s t s') : s'.Inv cfg := by
  cases ht with
  | goto p hready hquiet => exact hi.ready hready hquiet
  | look tag p hp => exact hi.look hp
  | storeDefault level hp => exact hi.storeDefault hp
  | acquire job hp hfree => exact hi.acquire hp hfree
  | access job q q' h' hin hstep => exact hi.access hfew hin hstep
  | release job next hin => exact hi.release hin
  | malloc job hp => exact hi.malloc hp
  | freeCopy job err hp => exact hi.freeCopy hp

omit [DecidableEq Tid] in
theorem inv_init : (init : HazardState Tid).Inv cfg := by
  refine ⟨⟨⟨fun i hi => absurd hi (Nat.not_lt_zero i), rfl, Nat.zero_le _, rfl⟩,
    ⟨nofun, fun i hi => absurd hi (Nat.not_lt_zero i), fun i j c hi => absurd hi (Nat.not_lt_zero i)⟩,
    fun i c hi => absurd hi (Nat.not_lt_zero i), rfl, nofun, nofun⟩, nofun, fun t job ho => ?_,
    fun t u job job' b ho => ?_, nofun, fun i => ⟨0, sumIs_zero, (Nat.zero_mod _).symm⟩, nofun⟩
  · rcases ho with ho | ⟨err, ho⟩ | ⟨q, ho, -⟩ <;> cases ho
  · rcases ho with ho | ⟨err, ho⟩ | ⟨q, ho, -⟩ <;> cases ho

end HazardState

end On9log
