import On9log.Solo
import On9log.TagFilter

/-!
# The list as a finite map (on9log.c:1382-1449, 1590-1747)

Calls made one after another, with allocations that may fail. What a lookup
answers is read off the calls alone: the last successful set of the tag, unless
it was cleared since, or else the last valid default.
-/

namespace On9log
open Lib

variable {cfg : FilterConfig} {s s' : Filters} {tag : List UInt8} {level : ℕ}

inductive FilterCall where
  | setLevel (level : ℕ)
  | setTagLevel (tag : Option (List UInt8)) (level : ℕ) (mallocOk callocOk : Bool)
  | clearTagLevel (tag : Option (List UInt8))

def FilterCall.apply (cfg : FilterConfig) (s : Filters) : FilterCall → Err × Filters
  | .setLevel level => (.ok, s.setLevel level)
  | .setTagLevel tag level mallocOk callocOk => s.setTagLevel cfg tag level mallocOk callocOk
  | .clearTagLevel tag => s.clearTagLevel cfg tag

/-- `FilterRun cfg s calls`: the list can be `s` after `calls`, newest first,
each with what it returned. -/
inductive FilterRun (cfg : FilterConfig) : Filters → List (FilterCall × Err) → Prop
  | init : FilterRun cfg Filters.init []
  | call (c : FilterCall) {s : Filters} {calls : List (FilterCall × Err)} : FilterRun cfg s calls →
      FilterRun cfg (c.apply cfg s).2 ((c, (c.apply cfg s).1) :: calls)

/-- The level of the last successful set for the tag, unless the tag was cleared
since. -/
def lastOverride (tag : List UInt8) : List (FilterCall × Err) → Option ℕ
  | [] => none
  | (.setTagLevel t level _ _, err) :: calls =>
    if err = .ok ∧ t = some tag then some level else lastOverride tag calls
  | (.clearTagLevel t, _) :: calls => if t = some tag then none else lastOverride tag calls
  | _ :: calls => lastOverride tag calls

/-- The last valid default level. -/
def lastDefault : List (FilterCall × Err) → ℕ
  | [] => levelVerbose
  | (.setLevel level, _) :: calls => if validLevel level then level else lastDefault calls
  | _ :: calls => lastDefault calls

def lastLevel (tag : Option (List UInt8)) (calls : List (FilterCall × Err)) : ℕ :=
  (tag.bind fun t => lastOverride t calls).getD (lastDefault calls)

theorem Filters.setTagLevel_moves (h : s.WF cfg) (t : Option (List UInt8))
    (mallocOk callocOk : Bool) :
    let r := s.setTagLevel cfg t level mallocOk callocOk
    (r.1 = .ok ∧ ∃ tag, t = some tag ∧ Moves cfg s r.2 tag (some level)) ∨ r.1 ≠ .ok ∧ r.2 = s := by
  unfold setTagLevel
  cases t with
  | none => exact Or.inr ⟨nofun, rfl⟩
  | some tag =>
    by_cases hv : validLevel level = false
    · simp only [if_pos hv]
      exact Or.inr ⟨by decide, trivial⟩
    have hl : level ≤ levelVerbose := by
      rw [validLevel_eq_false] at hv
      omega
    simp only [if_neg hv]
    cases hmatch : s.setMatching cfg tag level with
    | some s' => exact Or.inl ⟨rfl, tag, rfl, setMatching_moves h hl hmatch⟩
    | none =>
      cases mallocOk with
      | false => exact Or.inr ⟨nofun, rfl⟩
      | true =>
        rcases setAllocated_moves h hl callocOk with ⟨hok, hmoves⟩ | hfail
        · exact Or.inl ⟨hok, tag, rfl, hmoves⟩
        · exact Or.inr hfail

theorem Filters.clearTagLevel_moves (h : s.WF cfg) (t : Option (List UInt8)) :
    let r := s.clearTagLevel cfg t
    (r.1 = .ok ∧ ∃ tag, t = some tag ∧ Moves cfg s r.2 tag none) ∨
      r.1 ≠ .ok ∧ r.2 = s ∧ ∀ tag, t = some tag → s.levelMap.override tag = none := by
  unfold clearTagLevel
  cases t with
  | none => exact Or.inr ⟨nofun, rfl, by simp⟩
  | some tag =>
    rcases clearMatching_moves h with ⟨hok, hmoves⟩ | ⟨hfail, hs, hnone⟩
    · exact Or.inl ⟨hok, tag, rfl, hmoves⟩
    · refine Or.inr ⟨by rw [hfail]; decide, hs, fun t ht => ?_⟩
      rw [← Option.some.inj ht]
      exact hnone

theorem Filters.setLevel_wf (h : s.WF cfg) (level : ℕ) : (s.setLevel level).WF cfg := by
  unfold setLevel
  split
  · rename_i hv
    exact ⟨h.distinct, h.head, h.count, h.bound, h.levels, (of_decide_eq_true hv).2⟩
  · exact h

theorem FilterCall.error_unchanged (c : FilterCall) (h : s.WF cfg)
    (herr : (c.apply cfg s).1 ≠ .ok) : (c.apply cfg s).2 = s := by
  cases c with
  | setLevel level => exact absurd rfl herr
  | setTagLevel t level mallocOk callocOk =>
    rcases Filters.setTagLevel_moves h t mallocOk callocOk with ⟨hok, -⟩ | ⟨-, hs⟩
    · exact absurd hok herr
    · exact hs
  | clearTagLevel t =>
    rcases Filters.clearTagLevel_moves h t with ⟨hok, -⟩ | ⟨-, hs, -⟩
    · exact absurd hok herr
    · exact hs

/-- The list is the map of the last successful calls. -/
theorem filterRun_levelMap {calls : List (FilterCall × Err)} (h : FilterRun cfg s calls) :
    s.WF cfg ∧ s.levelMap = ⟨fun tag => lastOverride tag calls, lastDefault calls⟩ := by
  induction h with
  | init => exact ⟨wf_init cfg, rfl⟩
  | @call c s calls hrun ih =>
    obtain ⟨hwf, hmap⟩ := ih
    cases c with
    | setLevel level =>
      refine ⟨Filters.setLevel_wf hwf level, ?_⟩
      unfold Filters.levelMap at hmap ⊢
      rw [LevelMap.mk.injEq] at hmap ⊢
      simp only [FilterCall.apply, Filters.setLevel, lastDefault]
      split
      · exact ⟨hmap.1, rfl⟩
      · exact hmap
    | setTagLevel t level mallocOk callocOk =>
      simp only [FilterCall.apply, lastOverride]
      rcases Filters.setTagLevel_moves hwf t mallocOk callocOk with ⟨hok, tag, rfl, hm⟩ | ⟨herr, hs⟩
      · refine ⟨hm.wf, ?_⟩
        rw [hm.map, hmap, LevelMap.mk.injEq]
        refine ⟨funext fun q => ?_, rfl⟩
        simp only [Function.update_apply, hok, Option.some.injEq, true_and, eq_comm]
      · simp only [herr, false_and, if_false, hs]
        exact ⟨hwf, hmap⟩
    | clearTagLevel t =>
      simp only [FilterCall.apply, lastOverride]
      rcases Filters.clearTagLevel_moves hwf t with ⟨-, tag, rfl, hm⟩ | ⟨-, hs, hnone⟩
      · refine ⟨hm.wf, ?_⟩
        rw [hm.map, hmap, LevelMap.mk.injEq]
        refine ⟨funext fun q => ?_, rfl⟩
        simp only [Function.update_apply, Option.some.injEq, eq_comm]
      · rw [hs]
        refine ⟨hwf, ?_⟩
        rw [hmap] at hnone ⊢
        rw [LevelMap.mk.injEq]
        refine ⟨funext fun q => ?_, rfl⟩
        split
        · exact hnone q ‹_›
        · rfl

/-- The lookups of a call find the list as it is. `contents` are the strings at
the addresses, `none` at NULL. -/
def LooksUp (s : Filters) (contents : Ptr → Option (List UInt8)) (es : List Ev) : Prop :=
  ∀ p r, (⟨.filterLevelForTag p, r⟩ : Ev) ∈ es → r = s.levelForTag (contents p)

theorem Filters.WF.levelForTag_le (h : s.WF cfg) (tag : Option (List UInt8)) :
    s.levelForTag tag ≤ levelVerbose := by
  unfold Filters.levelForTag
  rw [h.fromHead_eq]
  split
  · exact h.default
  · split
    · exact h.levels _ (List.mem_of_find?_eq_some ‹_›)
    · exact h.default

theorem levelForTag_eq_lastLevel {calls : List (FilterCall × Err)} (h : FilterRun cfg s calls)
    (tag : Option (List UInt8)) : s.levelForTag tag = lastLevel tag calls := by
  obtain ⟨hwf, hmap⟩ := filterRun_levelMap h
  rw [hwf.levelForTag_eq, hmap]
  rfl

/-- The list is a finite map from tags to levels with a default. -/
theorem filters_finite_map {calls : List (FilterCall × Err)} (h : FilterRun cfg s calls) :
    (∀ (contents : Ptr → Option (List UInt8)) (level : ℕ) (tag : Ptr) (es : List Ev) (v : Bool),
      (levelEnabled cfg.toConfig level tag).Path es v → LooksUp s contents es →
      (v = true ↔ 1 ≤ level ∧ level ≤ cfg.localLevel ∧ level ≤ lastLevel (contents tag) calls)) ∧
    ∀ c : FilterCall, (c.apply cfg s).1 ≠ .ok → (c.apply cfg s).2 = s := by
  have hwf := (filterRun_levelMap h).1
  refine ⟨fun contents level tag es v hpath hlook => ?_, fun c => c.error_unchanged hwf⟩
  have hle := hwf.levelForTag_le (contents tag)
  rw [levelForTag_eq_lastLevel h] at hle
  cases gate_levelEnabled hpath with
  | compileTime hrange =>
    unfold levelInRange levelNone at hrange
    simp only [Bool.false_eq_true, false_iff]
    omega
  | runtime runtimeLevel hrange =>
    have hr := hlook tag runtimeLevel (List.mem_singleton_self _)
    rw [levelForTag_eq_lastLevel h] at hr
    unfold levelInRange levelNone at hrange
    rw [decide_eq_true_iff, hr]
    unfold levelNone
    omega

def roomyConfig : FilterConfig := { smallConfig with nodeMax := 1, nodeMax_lt := by decide }

def reusedCalls : List FilterCall :=
  [.setTagLevel (some [98]) 2 true false, .clearTagLevel (some [97]),
    .setTagLevel (some [97]) 1 true true]

/-- The node of a cleared tag reused for another, with no room for a second node. -/
theorem filters_finite_map_reused : ∃ s calls, FilterRun roomyConfig s calls ∧
    calls.map Prod.fst = reusedCalls ∧ calls.map Prod.snd = [.ok, .ok, .ok] ∧
    (true = true ↔ 1 ≤ 2 ∧ 2 ≤ roomyConfig.localLevel ∧ 2 ≤ lastLevel (some [98]) calls) := by
  have hrun : FilterRun roomyConfig _ _ := .call (.setTagLevel (some [98]) 2 true false)
    (.call (.clearTagLevel (some [97])) (.call (.setTagLevel (some [97]) 1 true true) .init))
  have hpath : (levelEnabled roomyConfig.toConfig 2 7).Path [⟨.filterLevelForTag 7, 2⟩] true :=
    (Prog.path_step _ _ _ _).mpr ⟨2, [], rfl, (Prog.path_pure _ _ _).mpr ⟨rfl, rfl⟩⟩
  refine ⟨_, _, hrun, rfl, by decide +kernel,
    (filters_finite_map hrun).1 (fun _ => some [98]) 2 7 _ true hpath ?_⟩
  intro p r hr
  cases List.mem_singleton.mp hr
  decide +kernel

end On9log
