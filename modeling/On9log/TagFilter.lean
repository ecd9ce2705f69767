import On9log.Lib.UpdateFirst
import On9log.Config

/-!
# Tag filters (on9log.c:97-122, 1382-1449, 1590-1747)

The filter list as a task finds it between two critical sections, and what the
sections make of it. Tags are their contents: the copy in a node is never NULL,
and equal pointers have equal contents. A node's address is its number, since
nodes are never freed. Readers are left out: no lookup is inside a section here.

`LevelMap` is what the list is for: an override for some tags, and a default.
-/

namespace On9log
open Lib

/-- How many nodes the heap can hold; the counter of active ones counts further. -/
structure FilterConfig extends Config where
  nodeMax : ℕ
  nodeMax_lt : nodeMax < 2 ^ fast32

/-- `on9log_tag_filter_node_t`. -/
structure FilterNode where
  addr : ℕ
  tag : List UInt8
  level : ℕ
  active : Bool
  deriving DecidableEq

/-- `s_tag_filters` from the first node on, `s_tag_filter_head`,
`s_active_tag_filter_count` and `s_default_level`. -/
structure Filters where
  nodes : List FilterNode
  head : Option ℕ
  activeCount : ℕ
  defaultLevel : ℕ
  deriving DecidableEq

def Filters.init : Filters := ⟨[], none, 0, levelVerbose⟩

variable {cfg : FilterConfig} {s s' : Filters} {tag : List UInt8} {level : ℕ}

/-- `on9log_tag_matches` on the tag of a node. -/
def tagMatches (configured : List UInt8) : Option (List UInt8) → Bool
  | none => false
  | some tag => decide (configured = tag)

/-! ### The lookup -/

/-- The nodes a walk from `s_tag_filter_head` passes. -/
def Filters.fromHead (s : Filters) : List FilterNode :=
  match s.head with
  | none => []
  | some a => s.nodes.dropWhile fun n => n.addr ≠ a

/-- `on9log_filter_level_for_tag`. -/
def Filters.levelForTag (s : Filters) (tag : Option (List UInt8)) : ℕ :=
  if s.activeCount = 0 then s.defaultLevel
  else
    match s.fromHead.find? fun n => n.active && tagMatches n.tag tag with
    | some n => n.level
    | none => s.defaultLevel

/-! ### Critical sections -/

def addActive (cfg : FilterConfig) (count : ℕ) : ℕ := (count + 1) % 2 ^ cfg.fast32

def subActive (cfg : FilterConfig) (count : ℕ) : ℕ := (count + (2 ^ cfg.fast32 - 1)) % 2 ^ cfg.fast32

/-- The branch both sections of `on9log_set_tag_level` take for a node with the tag. -/
def Filters.setMatching (cfg : FilterConfig) (s : Filters) (tag : List UInt8) (level : ℕ) :
    Option Filters :=
  (s.nodes.find? fun n => tagMatches n.tag (some tag)).map fun node =>
    { s with
      nodes := updateFirst (fun n => tagMatches n.tag (some tag))
        (fun n => { n with level := level, active := true }) s.nodes
      activeCount := if node.active then s.activeCount else addActive cfg s.activeCount }

def Filters.reuse (cfg : FilterConfig) (s : Filters) (tag : List UInt8) (level : ℕ) :
    Option Filters :=
  (s.nodes.find? fun n => !n.active).map fun _ =>
    { s with
      nodes := updateFirst (fun n => !n.active)
        (fun n => { n with tag := tag, level := level, active := true }) s.nodes
      activeCount := addActive cfg s.activeCount }

def Filters.insert (cfg : FilterConfig) (s : Filters) (tag : List UInt8) (level : ℕ) : Filters :=
  { s with
    nodes := ⟨s.nodes.length, tag, level, true⟩ :: s.nodes
    head := some s.nodes.length
    activeCount := addActive cfg s.activeCount }

/-- The second section of `on9log_set_tag_level`; `callocOk` is whether the heap
gives a node, if it can. -/
def Filters.setAllocated (cfg : FilterConfig) (s : Filters) (tag : List UInt8) (level : ℕ)
    (callocOk : Bool) : Err × Filters :=
  match s.setMatching cfg tag level with
  | some s' => (.ok, s')
  | none =>
    match s.reuse cfg tag level with
    | some s' => (.ok, s')
    | none =>
      if callocOk ∧ s.nodes.length < cfg.nodeMax then (.ok, s.insert cfg tag level) else (.noMem, s)

/-- The section of `on9log_clear_tag_level`. -/
def Filters.clearMatching (cfg : FilterConfig) (s : Filters) (tag : List UInt8) : Err × Filters :=
  match s.nodes.find? fun n => tagMatches n.tag (some tag) with
  | none => (.notFound, s)
  | some node =>
    (.ok, { s with
      nodes := updateFirst (fun n => tagMatches n.tag (some tag))
        (fun n => { n with active := false }) s.nodes
      activeCount := if node.active then subActive cfg s.activeCount else s.activeCount })

/-! ### Calls one after another -/

def Filters.setLevel (s : Filters) (level : ℕ) : Filters :=
  if validLevel level then { s with defaultLevel := level } else s

def Filters.setTagLevel (cfg : FilterConfig) (s : Filters) (tag : Option (List UInt8)) (level : ℕ)
    (mallocOk callocOk : Bool) : Err × Filters :=
  match tag with
  | none => (.invalidArg, s)
  | some tag =>
    if validLevel level = false then (.invalidArg, s)
    else
      match s.setMatching cfg tag level with
      | some s' => (.ok, s')
      | none => if mallocOk then s.setAllocated cfg tag level callocOk else (.noMem, s)

def Filters.clearTagLevel (cfg : FilterConfig) (s : Filters) (tag : Option (List UInt8)) :
    Err × Filters :=
  match tag with
  | none => (.invalidArg, s)
  | some tag => s.clearMatching cfg tag

/-! ### What the list is for -/

structure LevelMap where
  override : List UInt8 → Option ℕ
  default : ℕ

def LevelMap.effective (m : LevelMap) (tag : Option (List UInt8)) : ℕ :=
  (tag.bind m.override).getD m.default

def Filters.levelMap (s : Filters) : LevelMap :=
  ⟨fun tag => (s.nodes.find? fun n => n.active && tagMatches n.tag (some tag)).map FilterNode.level,
    s.defaultLevel⟩

/-- The list between two sections. -/
structure Filters.WF (cfg : FilterConfig) (s : Filters) : Prop where
  distinct : (s.nodes.map FilterNode.tag).Nodup
  head : s.head = s.nodes.head?.map FilterNode.addr
  count : s.activeCount = s.nodes.countP FilterNode.active
  bound : s.nodes.length ≤ cfg.nodeMax
  levels : ∀ n ∈ s.nodes, n.level ≤ levelVerbose
  default : s.defaultLevel ≤ levelVerbose

theorem wf_init (cfg : FilterConfig) : Filters.init.WF cfg where
  distinct := List.nodup_nil
  head := rfl
  count := rfl
  bound := Nat.zero_le _
  levels := by simp [Filters.init]
  default := Nat.le_refl _

theorem Filters.WF.fromHead_eq (h : s.WF cfg) : s.fromHead = s.nodes := by
  have hhead := h.head
  unfold Filters.fromHead
  cases hn : s.nodes with
  | nil => rw [hhead, hn]; rfl
  | cons n ns =>
    rw [hhead, hn]
    exact List.dropWhile_cons_of_neg (by simp)

/-- The walk finds what the map says, and the counter only stops it when there is
no override. -/
theorem Filters.WF.levelForTag_eq (h : s.WF cfg) (tag : Option (List UInt8)) :
    s.levelForTag tag = s.levelMap.effective tag := by
  have hfind : (match s.nodes.find? fun n => n.active && tagMatches n.tag tag with
      | some n => n.level
      | none => s.defaultLevel) = s.levelMap.effective tag := by
    unfold LevelMap.effective Filters.levelMap
    cases tag with
    | none =>
      have hnone : s.nodes.find? (fun n => n.active && tagMatches n.tag none) = none := by
        simp [tagMatches]
      rw [hnone]
      rfl
    | some tag =>
      dsimp only [Option.bind_some]
      cases s.nodes.find? fun n => n.active && tagMatches n.tag (some tag) <;> rfl
  unfold Filters.levelForTag
  rw [h.fromHead_eq]
  by_cases hz : s.activeCount = 0
  · have hdead : ∀ n ∈ s.nodes, n.active = false := by
      have hcount := h.count
      rw [hz] at hcount
      intro n hn
      simpa using List.countP_eq_zero.mp hcount.symm n hn
    have hnone : s.nodes.find? (fun n => n.active && tagMatches n.tag tag) = none := by
      rw [List.find?_eq_none]
      intro n hn
      simp [hdead n hn]
    rw [hnone] at hfind
    rw [if_pos hz]
    exact hfind
  · rw [if_neg hz]
    exact hfind

/-! ### One node changed -/

theorem addActive_eq {count : ℕ} (h : count < cfg.nodeMax) : addActive cfg count = count + 1 := by
  have hmax := cfg.nodeMax_lt
  unfold addActive
  apply Nat.mod_eq_of_lt
  omega

theorem subActive_eq {count : ℕ} (hpos : 0 < count) (h : count ≤ cfg.nodeMax) :
    subActive cfg count = count - 1 := by
  have hmax := cfg.nodeMax_lt
  have hsum : count + (2 ^ cfg.fast32 - 1) = count - 1 + 2 ^ cfg.fast32 := by omega
  unfold subActive
  rw [hsum, Nat.add_mod_right]
  apply Nat.mod_eq_of_lt
  omega

theorem tag_ne_of_mid {l₁ l₂ : List FilterNode} {n m : FilterNode}
    (hd : ((l₁ ++ n :: l₂).map FilterNode.tag).Nodup) (hm : m ∈ l₁ ++ l₂) : m.tag ≠ n.tag := by
  rw [List.map_append, List.map_cons, List.nodup_middle, List.nodup_cons, ← List.map_append] at hd
  intro he
  apply hd.1
  rw [← he]
  exact List.mem_map_of_mem hm

theorem find?_active_none {l : List FilterNode} (h : ∀ m ∈ l, m.tag ≠ tag) :
    l.find? (fun m => m.active && tagMatches m.tag (some tag)) = none := by
  rw [List.find?_eq_none]
  intro m hm
  simp [tagMatches, h m hm]

/-- With distinct tags a node answers for its own tag and no other. -/
theorem find?_active_mid {l₁ l₂ : List FilterNode} {n : FilterNode}
    (hd : ((l₁ ++ n :: l₂).map FilterNode.tag).Nodup) (tag : List UInt8) :
    (l₁ ++ n :: l₂).find? (fun m => m.active && tagMatches m.tag (some tag)) =
      if n.tag = tag then (if n.active then some n else none)
      else (l₁ ++ l₂).find? fun m => m.active && tagMatches m.tag (some tag) := by
  by_cases ht : n.tag = tag
  · have hother : ∀ m ∈ l₁ ++ l₂, m.tag ≠ tag := by
      intro m hm
      rw [← ht]
      exact tag_ne_of_mid hd hm
    have h₁ := find?_active_none fun m hm => hother m (List.mem_append_left l₂ hm)
    have h₂ := find?_active_none fun m hm => hother m (List.mem_append_right l₁ hm)
    rw [if_pos ht, List.find?_append, h₁, Option.none_or]
    cases hact : n.active with
    | true => simp [tagMatches, hact, ht]
    | false => simpa [tagMatches, hact] using h₂
  · have hn : (n.active && tagMatches n.tag (some tag)) = false := by simp [tagMatches, ht]
    rw [if_neg ht, List.find?_append, List.find?_append, List.find?_cons_of_neg (by simp [hn])]

/-- A section that gives one tag the override `level`, or takes it away. A node
is only added when all the others are active. -/
structure Moves (cfg : FilterConfig) (s s' : Filters) (tag : List UInt8) (level : Option ℕ) :
    Prop where
  wf : s'.WF cfg
  map : s'.levelMap = ⟨Function.update s.levelMap.override tag level, s.levelMap.default⟩
  grows : s'.nodes.length = s.nodes.length ∨ s'.nodes.length = s'.activeCount

theorem Filters.WF.replace (h : s.WF cfg) {l₁ l₂ : List FilterNode} {n : FilterNode}
    {count : ℕ} (n' : FilterNode) (hs : s.nodes = l₁ ++ n :: l₂) (haddr : n'.addr = n.addr)
    (htag : n'.tag = n.tag ∨ n.active = false ∧ ∀ m ∈ s.nodes, m.tag ≠ n'.tag)
    (hlevel : n'.level ≤ levelVerbose)
    (hcount : count + n.active.toNat = s.activeCount + n'.active.toNat) :
    Moves cfg s { s with nodes := l₁ ++ n' :: l₂, activeCount := count } n'.tag
      (if n'.active then some n'.level else none) := by
  have hold := h.distinct
  have hlen := h.bound
  rw [hs] at hold hlen
  have hnew : ((l₁ ++ n' :: l₂).map FilterNode.tag).Nodup := by
    rcases htag with htag | ⟨-, hfresh⟩
    · simpa [htag] using hold
    · rw [List.map_append, List.map_cons, List.nodup_middle, List.nodup_cons] at hold ⊢
      refine ⟨fun hmem => ?_, hold.2⟩
      rw [← List.map_append] at hmem
      obtain ⟨m, hm, he⟩ := List.mem_map.mp hmem
      apply hfresh m _ he
      rw [hs]
      simp only [List.mem_append, List.mem_cons] at hm ⊢
      tauto
  refine ⟨⟨hnew, ?_, ?_, by simpa using hlen, ?_, h.default⟩, ?_, Or.inl (by simp [hs])⟩
  · have hhead := h.head
    rw [hs] at hhead
    cases l₁ with
    | nil => simpa [haddr] using hhead
    | cons m l₁ => exact hhead
  · have hact := h.count
    rw [hs] at hact
    simp only [List.countP_append, List.countP_cons] at hact ⊢
    have hbit : ∀ b : Bool, b.toNat = if b = true then 1 else 0 := by decide
    rw [hbit, hbit] at hcount
    omega
  · intro m hm
    have hlevels := h.levels
    rw [hs] at hlevels
    simp only [List.mem_append, List.mem_cons] at hm hlevels
    rcases hm with hm | rfl | hm
    · exact hlevels m (Or.inl hm)
    · exact hlevel
    · exact hlevels m (Or.inr (Or.inr hm))
  · unfold Filters.levelMap
    rw [LevelMap.mk.injEq]
    refine ⟨funext fun tag => ?_, rfl⟩
    dsimp only
    rw [hs, Function.update_apply, find?_active_mid hnew, find?_active_mid hold]
    by_cases htag' : n'.tag = tag
    · rw [if_pos htag', if_pos htag'.symm]
      cases n'.active <;> rfl
    · rw [if_neg htag', if_neg (Ne.symm htag')]
      by_cases hntag : n.tag = tag
      · -- the tag of a node about to be reused had no override, and has none now
        rcases htag with htag | ⟨hdead, -⟩
        · exact absurd (htag.trans hntag) htag'
        · have hnone := find?_active_none fun m (hm : m ∈ l₁ ++ l₂) => tag_ne_of_mid hold hm
          rw [hntag] at hnone
          rw [if_pos hntag, hdead, hnone]
          rfl
      · rw [if_neg hntag]

theorem Filters.WF.room (h : s.WF cfg) {l₁ l₂ : List FilterNode} {n : FilterNode}
    (hs : s.nodes = l₁ ++ n :: l₂) (hn : n.active = false) : s.activeCount < cfg.nodeMax := by
  have hcount := h.count
  have hbound := h.bound
  rw [hs] at hcount hbound
  have hle₁ := List.countP_le_length (p := FilterNode.active) (l := l₁)
  have hle₂ := List.countP_le_length (p := FilterNode.active) (l := l₂)
  rw [List.countP_append, List.countP_cons_of_neg (by simp [hn])] at hcount
  rw [List.length_append, List.length_cons] at hbound
  omega

theorem Filters.setMatching_moves (h : s.WF cfg) (hl : level ≤ levelVerbose)
    (hs : s.setMatching cfg tag level = some s') : Moves cfg s s' tag (some level) := by
  obtain ⟨n, hn, rfl⟩ := Option.map_eq_some_iff.mp hs
  obtain ⟨l₁, l₂, hnodes, hmatch, hupdate⟩ := find?_split hn
  have htag : n.tag = tag := by simpa [tagMatches] using hmatch
  rw [hupdate, ← htag]
  apply h.replace { n with level := level, active := true } hnodes rfl (Or.inl rfl) hl
  cases hact : n.active with
  | true => simp
  | false => simp [addActive_eq (h.room hnodes hact)]

theorem Filters.fresh_of_setMatching (hs : s.setMatching cfg tag level = none) {m : FilterNode}
    (hm : m ∈ s.nodes) : m.tag ≠ tag := by
  have hfind := find?_none (Option.map_eq_none_iff.mp hs) hm
  simpa [tagMatches] using hfind

theorem Filters.reuse_moves (h : s.WF cfg) (hl : level ≤ levelVerbose)
    (hnone : s.setMatching cfg tag level = none) (hs : s.reuse cfg tag level = some s') :
    Moves cfg s s' tag (some level) := by
  obtain ⟨n, hn, rfl⟩ := Option.map_eq_some_iff.mp hs
  obtain ⟨l₁, l₂, hnodes, hmatch, hupdate⟩ := find?_split hn
  have hact : n.active = false := by simpa using hmatch
  rw [hupdate]
  apply h.replace { n with tag := tag, level := level, active := true } hnodes rfl
    (Or.inr ⟨hact, fun m hm => fresh_of_setMatching hnone hm⟩) hl
  rw [addActive_eq (h.room hnodes hact), hact]
  rfl

/-- No node to reuse: every node is active. -/
theorem Filters.active_of_reuse (hs : s.reuse cfg tag level = none) {m : FilterNode}
    (hm : m ∈ s.nodes) : m.active = true := by
  have hfind := find?_none (Option.map_eq_none_iff.mp hs) hm
  simpa using hfind

theorem Filters.insert_moves (h : s.WF cfg) (hl : level ≤ levelVerbose)
    (hnone : s.setMatching cfg tag level = none) (hreuse : s.reuse cfg tag level = none)
    (hroom : s.nodes.length < cfg.nodeMax) :
    Moves cfg s (s.insert cfg tag level) tag (some level) := by
  have hall : s.nodes.countP FilterNode.active = s.nodes.length := by
    rw [List.countP_eq_length]
    exact fun m hm => active_of_reuse hreuse hm
  have hcount : addActive cfg s.activeCount = s.nodes.length + 1 := by
    rw [h.count, hall, addActive_eq hroom]
  have hdistinct : ((s.insert cfg tag level).nodes.map FilterNode.tag).Nodup := by
    rw [insert, List.map_cons, List.nodup_cons]
    refine ⟨fun hmem => ?_, h.distinct⟩
    obtain ⟨m, hm, he⟩ := List.mem_map.mp hmem
    exact fresh_of_setMatching hnone hm he
  refine ⟨⟨hdistinct, rfl, ?_, hroom, ?_, h.default⟩, ?_, Or.inr hcount.symm⟩
  · rw [insert, hcount, List.countP_cons_of_pos rfl, hall]
  · intro m hm
    rcases List.mem_cons.mp hm with rfl | hm
    · exact hl
    · exact h.levels m hm
  · unfold levelMap
    rw [LevelMap.mk.injEq]
    refine ⟨funext fun q => ?_, rfl⟩
    rw [Function.update_apply]
    by_cases hq : tag = q
    · simp [insert, tagMatches, hq]
    · simp [insert, tagMatches, hq, Ne.symm hq]

theorem Filters.setAllocated_moves (h : s.WF cfg) (hl : level ≤ levelVerbose) (callocOk : Bool) :
    let r := s.setAllocated cfg tag level callocOk
    r.1 = .ok ∧ Moves cfg s r.2 tag (some level) ∨ r.1 ≠ .ok ∧ r.2 = s := by
  unfold setAllocated
  cases hmatch : s.setMatching cfg tag level with
  | some s' => exact Or.inl ⟨rfl, setMatching_moves h hl hmatch⟩
  | none =>
    cases hreuse : s.reuse cfg tag level with
    | some s' => exact Or.inl ⟨rfl, reuse_moves h hl hmatch hreuse⟩
    | none =>
      by_cases hcalloc : callocOk ∧ s.nodes.length < cfg.nodeMax
      · simp only [if_pos hcalloc]
        exact Or.inl ⟨trivial, insert_moves h hl hmatch hreuse hcalloc.2⟩
      · simp only [if_neg hcalloc]
        exact Or.inr ⟨by decide, trivial⟩

theorem Filters.clearMatching_moves (h : s.WF cfg) :
    let r := s.clearMatching cfg tag
    r.1 = .ok ∧ Moves cfg s r.2 tag none ∨
      r.1 = .notFound ∧ r.2 = s ∧ s.levelMap.override tag = none := by
  unfold clearMatching
  cases hn : s.nodes.find? fun n => tagMatches n.tag (some tag) with
  | none =>
    refine Or.inr ⟨rfl, rfl, ?_⟩
    have hnone := find?_active_none fun m hm => by simpa [tagMatches] using find?_none hn hm
    simp only [levelMap, hnone, Option.map_none]
  | some n =>
    obtain ⟨l₁, l₂, hnodes, hmatch, hupdate⟩ := find?_split hn
    have htag : n.tag = tag := by simpa [tagMatches] using hmatch
    have hle : n.level ≤ levelVerbose := h.levels n (List.mem_of_find?_eq_some hn)
    refine Or.inl ⟨rfl, ?_⟩
    dsimp only
    rw [hupdate, ← htag]
    apply h.replace { n with active := false } hnodes rfl (Or.inl rfl) hle
    cases hact : n.active with
    | false => simp
    | true =>
      have hpos : 0 < s.activeCount := by
        rw [h.count, List.countP_pos_iff]
        exact ⟨n, List.mem_of_find?_eq_some hn, hact⟩
      have hle : s.activeCount ≤ cfg.nodeMax := by
        rw [h.count]
        exact List.countP_le_length.trans h.bound
      simp only [subActive_eq hpos hle, if_true, Bool.toNat_true, Bool.toNat_false]
      omega

end On9log
