import On9log.FilterMap

/-!
# What clearing a tag returns (on9log.c:1725-1747)

A cleared node stays in the list under its tag, and clearing it again is fine,
until another tag takes the node. So the code depends on the overrides in force
and on the cleared tags whose nodes are kept, and on nothing else.
-/

namespace On9log
open Lib

variable {cfg : FilterConfig} {s : Filters} {calls : List (FilterCall × Err)} {tag q : List UInt8}
  {level : ℕ} {mallocOk callocOk : Bool}

/-- The tags of all nodes, cleared or not. -/
def Filters.tags (s : Filters) : List (List UInt8) := s.nodes.map FilterNode.tag

/-- The cleared tags no other tag has taken the node of. -/
def Filters.kept (s : Filters) : List (List UInt8) :=
  (s.nodes.filter fun n => !n.active).map FilterNode.tag

theorem Filters.mem_tags : tag ∈ s.tags ↔ ∃ n ∈ s.nodes, n.tag = tag := List.mem_map

theorem Filters.find?_tag :
    (s.nodes.find? fun n => tagMatches n.tag (some tag)).isSome ↔ tag ∈ s.tags := by
  rw [List.find?_isSome, mem_tags]
  simp only [tagMatches, decide_eq_true_eq]

theorem Filters.clear_code (cfg : FilterConfig) (s : Filters) (tag : List UInt8) :
    (s.clearTagLevel cfg (some tag)).1 = if tag ∈ s.tags then .ok else .notFound := by
  unfold clearTagLevel clearMatching
  dsimp only
  cases hn : s.nodes.find? fun n => tagMatches n.tag (some tag) with
  | none =>
    rw [if_neg]
    rw [← find?_tag, hn]
    exact Bool.false_ne_true
  | some n =>
    rw [if_pos]
    rw [← find?_tag, hn]
    rfl

/-! ### Tags in the list -/

theorem tags_updateFirst {p : FilterNode → Bool} {f : FilterNode → FilterNode}
    (hf : ∀ n, (f n).tag = n.tag) (l : List FilterNode) :
    (updateFirst p f l).map FilterNode.tag = l.map FilterNode.tag := by
  induction l with
  | nil => rfl
  | cons n l ih =>
    unfold updateFirst
    split
    · rw [List.map_cons, List.map_cons, hf]
    · rw [List.map_cons, List.map_cons, ih]

theorem Filters.clear_tags (cfg : FilterConfig) (s : Filters) (t : Option (List UInt8)) :
    (s.clearTagLevel cfg t).2.tags = s.tags := by
  unfold clearTagLevel clearMatching
  cases t with
  | none => rfl
  | some tag =>
    dsimp only
    cases s.nodes.find? fun n => tagMatches n.tag (some tag) with
    | none => rfl
    | some n => exact tags_updateFirst (by intro n; rfl) s.nodes

theorem Filters.setMatching_tags {s' : Filters} (h : s.setMatching cfg tag level = some s') :
    tag ∈ s.tags ∧ s'.tags = s.tags := by
  obtain ⟨n, hn, rfl⟩ := Option.map_eq_some_iff.mp h
  refine ⟨find?_tag.mp (by rw [hn]; rfl), ?_⟩
  exact tags_updateFirst (by intro n; rfl) s.nodes

theorem Filters.setMatching_none (h : s.setMatching cfg tag level = none) : tag ∉ s.tags := by
  intro hmem
  obtain ⟨n, hn, rfl⟩ := mem_tags.mp hmem
  exact fresh_of_setMatching h hn rfl

/-- A node taken again gives up its tag for the new one. -/
theorem Filters.reuse_tags {s' : Filters} (h : s.reuse cfg tag level = some s') :
    tag ∈ s'.tags ∧ ∀ q ∈ s'.tags, q = tag ∨ q ∈ s.tags := by
  obtain ⟨n, hn, rfl⟩ := Option.map_eq_some_iff.mp h
  obtain ⟨l₁, l₂, hnodes, -, hupdate⟩ := find?_split hn
  have hnew : ∀ q, (∃ m ∈ updateFirst (fun n => !n.active) (fun n =>
      { n with tag := tag, level := level, active := true }) s.nodes, m.tag = q) ↔
        (∃ m ∈ l₁, m.tag = q) ∨ tag = q ∨ ∃ m ∈ l₂, m.tag = q := by
    intro q
    rw [hupdate]
    simp only [List.mem_append, List.mem_cons, or_and_right, exists_or, exists_eq_left]
  have hold : ∀ m, m ∈ l₁ ∨ m ∈ l₂ → m ∈ s.nodes := by
    intro m hm
    rw [hnodes, List.mem_append, List.mem_cons]
    tauto
  refine ⟨mem_tags.mpr ((hnew tag).mpr (Or.inr (Or.inl rfl))), fun q hq => ?_⟩
  rcases (hnew q).mp (mem_tags.mp hq) with ⟨m, hm, rfl⟩ | rfl | ⟨m, hm, rfl⟩
  · exact Or.inr (mem_tags.mpr ⟨m, hold m (Or.inl hm), rfl⟩)
  · exact Or.inl rfl
  · exact Or.inr (mem_tags.mpr ⟨m, hold m (Or.inr hm), rfl⟩)

/-- A set that succeeds adds its tag and no other, and takes a node from another tag only if
its own had none. -/
theorem Filters.setTagLevel_tags
    (hok : (s.setTagLevel cfg (some tag) level mallocOk callocOk).1 = .ok) :
    tag ∈ (s.setTagLevel cfg (some tag) level mallocOk callocOk).2.tags ∧
      (∀ q ∈ (s.setTagLevel cfg (some tag) level mallocOk callocOk).2.tags, q = tag ∨ q ∈ s.tags) ∧
      (tag ∈ s.tags → (s.setTagLevel cfg (some tag) level mallocOk callocOk).2.tags = s.tags) := by
  unfold setTagLevel at hok ⊢
  dsimp only at hok ⊢
  split at hok
  · cases hok
  rename_i hvalid
  rw [if_neg hvalid]
  cases hmatch : s.setMatching cfg tag level with
  | some s' =>
    obtain ⟨hmem, htags⟩ := setMatching_tags hmatch
    dsimp only
    rw [htags]
    exact ⟨hmem, fun q hq => Or.inr hq, fun _ => rfl⟩
  | none =>
    have hfresh := setMatching_none hmatch
    cases mallocOk with
    | false =>
      rw [hmatch] at hok
      cases hok
    | true =>
      rw [hmatch] at hok
      unfold setAllocated at hok ⊢
      dsimp only [if_true] at hok ⊢
      rw [hmatch] at hok ⊢
      cases hreuse : s.reuse cfg tag level with
      | some s' =>
        obtain ⟨hmem, hnew⟩ := reuse_tags hreuse
        exact ⟨hmem, hnew, fun hmem => absurd hmem hfresh⟩
      | none =>
        rw [hreuse] at hok
        by_cases hcalloc : callocOk = true ∧ s.nodes.length < cfg.nodeMax
        · dsimp only
          rw [if_pos hcalloc]
          refine ⟨List.mem_cons_self, fun q hq => ?_, fun hmem => absurd hmem hfresh⟩
          exact List.mem_cons.mp hq
        · dsimp only at hok
          rw [if_neg hcalloc] at hok
          cases hok

/-- A tag has a node if it has an override, or was cleared and kept its node. -/
theorem Filters.mem_tags_iff :
    tag ∈ s.tags ↔ (s.levelMap.override tag).isSome ∨ tag ∈ s.kept := by
  have hforced : (s.levelMap.override tag).isSome ↔ ∃ n ∈ s.nodes, n.active ∧ n.tag = tag := by
    unfold levelMap
    simp only [Option.isSome_map, List.find?_isSome, tagMatches, Bool.and_eq_true,
      decide_eq_true_eq]
  have hkept : tag ∈ s.kept ↔ ∃ n ∈ s.nodes, n.active = false ∧ n.tag = tag := by
    unfold kept
    simp only [List.mem_map, List.mem_filter, Bool.not_eq_true', and_assoc]
  rw [hforced, hkept, mem_tags]
  constructor
  · rintro ⟨n, hn, htag⟩
    cases hact : n.active with
    | true => exact Or.inl ⟨n, hn, hact, htag⟩
    | false => exact Or.inr ⟨n, hn, hact, htag⟩
  · rintro (⟨n, hn, -, htag⟩ | ⟨n, hn, -, htag⟩) <;> exact ⟨n, hn, htag⟩

theorem Filters.WF.not_kept (h : s.WF cfg) (hforced : (s.levelMap.override tag).isSome) :
    tag ∉ s.kept := by
  unfold levelMap at hforced
  simp only [Option.isSome_map, List.find?_isSome, tagMatches, Bool.and_eq_true,
    decide_eq_true_eq] at hforced
  obtain ⟨n, hn, hact, htag⟩ := hforced
  intro hkept
  obtain ⟨m, hm, hmtag⟩ := List.mem_map.mp hkept
  obtain ⟨hm, hdead⟩ := List.mem_filter.mp hm
  have heq : m = n := List.inj_on_of_nodup_map h.distinct hm hn (hmtag.trans htag.symm)
  rw [heq, hact] at hdead
  cases hdead

/-! ### After a run -/

/-- No call has set the tag. -/
def NeverSet (tag : List UInt8) (calls : List (FilterCall × Err)) : Prop :=
  ∀ level mallocOk callocOk, (FilterCall.setTagLevel (some tag) level mallocOk callocOk, Err.ok) ∉ calls

/-- The tag was set, and since then only tags with an override in force were. -/
def KeepsNode (tag : List UInt8) : List (FilterCall × Err) → Prop
  | [] => False
  | (.setTagLevel (some t) _ _ _, .ok) :: calls =>
    t = tag ∨ (lastOverride t calls).isSome ∧ KeepsNode tag calls
  | _ :: calls => KeepsNode tag calls

theorem filterRun_tags (h : FilterRun cfg s calls) :
    (tag ∈ s.tags → ¬ NeverSet tag calls) ∧ (KeepsNode tag calls → tag ∈ s.tags) := by
  induction h with
  | init => exact ⟨fun hmem => absurd hmem List.not_mem_nil, False.elim⟩
  | @call c s calls hrun ih =>
    obtain ⟨hset, hkeeps⟩ := ih
    have hwf := (filterRun_levelMap hrun).1
    have hmap := (filterRun_levelMap hrun).2
    have hold : ∀ entry, ¬ NeverSet tag calls → ¬ NeverSet tag (entry :: calls) :=
      fun entry hnot hnever => hnot fun level mallocOk callocOk hmem =>
        hnever level mallocOk callocOk (List.mem_cons_of_mem entry hmem)
    cases c with
    | setLevel level =>
      have hsame : (s.setLevel level).tags = s.tags := by
        unfold Filters.setLevel
        split <;> rfl
      simp only [FilterCall.apply, KeepsNode, hsame]
      exact ⟨fun hmem => hold _ (hset hmem), hkeeps⟩
    | clearTagLevel t =>
      simp only [FilterCall.apply, KeepsNode, Filters.clear_tags]
      exact ⟨fun hmem => hold _ (hset hmem), hkeeps⟩
    | setTagLevel t level mallocOk callocOk =>
      by_cases herr : (FilterCall.apply cfg s (.setTagLevel t level mallocOk callocOk)).1 = .ok
      · cases t with
        | none => cases herr
        | some t =>
          obtain ⟨hmem, hnew, hkept⟩ := Filters.setTagLevel_tags herr
          rw [herr]
          refine ⟨fun htag hnever => ?_, fun hkeep => ?_⟩
          · rcases hnew tag htag with rfl | hmem
            · exact hnever level mallocOk callocOk List.mem_cons_self
            · exact hold _ (hset hmem) hnever
          · rcases hkeep with rfl | ⟨hforced, hkeep⟩
            · exact hmem
            · have hforced : (s.levelMap.override t).isSome := by
                rw [hmap]
                exact hforced
              have htags := hkept (Filters.mem_tags_iff.mpr (Or.inl hforced))
              show tag ∈ (s.setTagLevel cfg (some t) level mallocOk callocOk).2.tags
              rw [htags]
              exact hkeeps hkeep
      · have hsame := FilterCall.error_unchanged _ hwf herr
        rw [hsame]
        refine ⟨fun hmem => hold _ (hset hmem), fun hkeep => hkeeps ?_⟩
        unfold KeepsNode at hkeep
        split at hkeep
        · exact hkeep.elim
        · rename_i heq
          exact absurd (Prod.mk.inj (List.cons.inj heq).1).2 herr
        · rename_i heq
          obtain ⟨-, rfl⟩ := List.cons.inj heq
          exact hkeep

/-- What a clear returns, as far as the calls alone tell. -/
structure ClearCodes (cfg : FilterConfig) (s : Filters) (calls : List (FilterCall × Err)) : Prop where
  null : (s.clearTagLevel cfg none).1 = .invalidArg
  forced : ∀ tag, (lastOverride tag calls).isSome → (s.clearTagLevel cfg (some tag)).1 = .ok
  cleared : ∀ tag, KeepsNode tag calls → (s.clearTagLevel cfg (some tag)).1 = .ok
  never : ∀ tag, NeverSet tag calls → (s.clearTagLevel cfg (some tag)).1 = .notFound

theorem clearCodes (h : FilterRun cfg s calls) : ClearCodes cfg s calls := by
  obtain ⟨hwf, hmap⟩ := filterRun_levelMap h
  refine ⟨rfl, fun tag hforced => ?_, fun tag hkeep => ?_, fun tag hnever => ?_⟩
  · have hmem : tag ∈ s.tags := by
      rw [Filters.mem_tags_iff, hmap]
      exact Or.inl hforced
    rw [Filters.clear_code, if_pos hmem]
  · rw [Filters.clear_code, if_pos ((filterRun_tags h).2 hkeep)]
  · have hmem : tag ∉ s.tags := fun hmem => (filterRun_tags h).1 hmem hnever
    rw [Filters.clear_code, if_neg hmem]

/-- After two runs that leave overrides for the same tags, a clear returns the same where the
calls alone decide, and for any other tag iff both runs keep its cleared node or neither does. -/
theorem clear_codes_agree {s₁ s₂ : Filters} {calls₁ calls₂ : List (FilterCall × Err)}
    (h₁ : FilterRun cfg s₁ calls₁) (h₂ : FilterRun cfg s₂ calls₂)
    (hsame : ∀ tag, (lastOverride tag calls₁).isSome = (lastOverride tag calls₂).isSome) :
    ClearCodes cfg s₁ calls₁ ∧ ClearCodes cfg s₂ calls₂ ∧
    ∀ tag, (s₁.clearTagLevel cfg (some tag)).1 = (s₂.clearTagLevel cfg (some tag)).1 ↔
      (tag ∈ s₁.kept ↔ tag ∈ s₂.kept) := by
  refine ⟨clearCodes h₁, clearCodes h₂, fun tag => ?_⟩
  obtain ⟨hwf₁, hmap₁⟩ := filterRun_levelMap h₁
  obtain ⟨hwf₂, hmap₂⟩ := filterRun_levelMap h₂
  have htag := hsame tag
  have hiff : (s₁.clearTagLevel cfg (some tag)).1 = (s₂.clearTagLevel cfg (some tag)).1 ↔
      (tag ∈ s₁.tags ↔ tag ∈ s₂.tags) := by
    rw [Filters.clear_code, Filters.clear_code]
    by_cases hm₁ : tag ∈ s₁.tags <;> by_cases hm₂ : tag ∈ s₂.tags <;> simp [hm₁, hm₂]
  have hforced₁ : (s₁.levelMap.override tag).isSome = (lastOverride tag calls₁).isSome := by
    rw [hmap₁]
  have hforced₂ : (s₂.levelMap.override tag).isSome = (lastOverride tag calls₁).isSome := by
    rw [hmap₂, htag]
  rw [hiff, Filters.mem_tags_iff, Filters.mem_tags_iff, hforced₁, hforced₂]
  by_cases hforced : (lastOverride tag calls₁).isSome
  · have hnot₁ := hwf₁.not_kept (hforced₁.trans hforced)
    have hnot₂ := hwf₂.not_kept (hforced₂.trans hforced)
    simp [hforced, hnot₁, hnot₂]
  · simp [hforced]

theorem lastOverride_cleared (tag t : List UInt8) (level : ℕ) (mallocOk callocOk : Bool)
    (err err' : Err) (calls : List (FilterCall × Err)) :
    lastOverride tag ((.clearTagLevel (some t), err) ::
      (.setTagLevel (some t) level mallocOk callocOk, err') :: calls) =
        if t = tag then none else lastOverride tag calls := by
  show (if some t = some tag then none
    else if err' = .ok ∧ some t = some tag then some level else lastOverride tag calls) = _
  by_cases ht : t = tag
  · rw [if_pos (by rw [ht]), if_pos ht]
  · have hne : some t ≠ some tag := fun he => ht (Option.some.inj he)
    rw [if_neg hne, if_neg ht, if_neg fun h => hne h.2]

/-- Two runs without an override, of which one has cleared a tag. -/
theorem clear_codes_differ : ∃ s₁ calls₁ s₂ calls₂,
    FilterRun roomyConfig s₁ calls₁ ∧ FilterRun roomyConfig s₂ calls₂ ∧
    calls₁.map Prod.fst = [] ∧
    calls₂.map Prod.fst = [.clearTagLevel (some [97]), .setTagLevel (some [97]) 1 true true] ∧
    calls₂.map Prod.snd = [.ok, .ok] ∧
    (∀ tag, lastOverride tag calls₁ = lastOverride tag calls₂) ∧
    (s₁.clearTagLevel roomyConfig (some [97])).1 = .notFound ∧
    (s₂.clearTagLevel roomyConfig (some [97])).1 = .ok := by
  have hrun : FilterRun roomyConfig _ _ := .call (.clearTagLevel (some [97]))
    (.call (.setTagLevel (some [97]) 1 true true) .init)
  refine ⟨_, _, _, _, .init, hrun, rfl, rfl, by decide +kernel, fun tag => ?_, by decide +kernel,
    by decide +kernel⟩
  rw [lastOverride_cleared]
  split <;> rfl

/-- A tag cleared twice, and one whose node another tag has taken. -/
theorem clear_codes_agree_taken : ∃ s₁ calls₁ s₂ calls₂,
    FilterRun roomyConfig s₁ calls₁ ∧ FilterRun roomyConfig s₂ calls₂ ∧
    (s₁.clearTagLevel roomyConfig (some [97])).1 = .ok ∧
    (s₂.clearTagLevel roomyConfig (some [98])).1 = .ok ∧
    (s₁.clearTagLevel roomyConfig (some [97])).1 ≠
      (s₂.clearTagLevel roomyConfig (some [97])).1 := by
  have hrun₁ : FilterRun roomyConfig _ _ := .call (.clearTagLevel (some [97]))
    (.call (.setTagLevel (some [97]) 1 true true) .init)
  have hrun₂ : FilterRun roomyConfig _ _ := .call (.clearTagLevel (some [98]))
    (.call (.setTagLevel (some [98]) 1 true true) (.call (.clearTagLevel (some [97]))
      (.call (.setTagLevel (some [97]) 1 true true) .init)))
  obtain ⟨h₁, h₂, hagree⟩ := clear_codes_agree hrun₁ hrun₂ (by
    intro tag
    rw [lastOverride_cleared, lastOverride_cleared, lastOverride_cleared]
    repeat' split
    all_goals rfl)
  exact ⟨_, _, _, _, hrun₁, hrun₂, h₁.cleared [97] (Or.inl rfl), h₂.cleared [98] (Or.inl rfl),
    fun he => absurd ((hagree [97]).mp he) (by decide +kernel)⟩

end On9log
