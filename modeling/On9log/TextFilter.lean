import Mathlib.Tactic

/-!
# The CR filter of plain-text lines (on9log.c:368-397)

`filteredOutput` passes text on in chunks and puts a CR before each LF that has
none. It keeps the last byte between calls, so what comes out does not depend on
how the text is cut. An output callback is the list of the chunks it is given.
-/

namespace On9log

abbrev Text := List UInt8

def textPretty : UInt8 := 1
def textPrettyLine : UInt8 := 2
def textShowLevel : UInt8 := 4
def textShowTopic : UInt8 := 8
def textShowTimestamp : UInt8 := 16
def textCr : UInt8 := 32

def textDefaultFlags : UInt8 := textPretty ||| textShowTopic ||| textShowTimestamp ||| textCr

def cr : UInt8 := 0x0d

def lf : UInt8 := 0x0a

structure TextFilter where
  flags : UInt8
  lastChar : UInt8 := 0

/-- The variables of the loop, with the chunks passed on so far. -/
structure FilterLoop where
  lastChar : UInt8
  chunkStart : ℕ := 0
  out : List Text := []

def filterByte (data : Text) (s : FilterLoop) (i : ℕ) : FilterLoop :=
  if data.getD i 0 = lf ∧ s.lastChar ≠ cr then
    { lastChar := data.getD i 0
      chunkStart := i
      out := s.out ++
        (if i ≠ s.chunkStart then [(data.drop s.chunkStart).take (i - s.chunkStart)] else []) ++
        [[cr]] }
  else { s with lastChar := data.getD i 0 }

def filteredOutput (filter : TextFilter) (data : Text) : TextFilter × List Text :=
  if filter.flags &&& textCr = 0 then
    ({ filter with lastChar := data.getLastD filter.lastChar }, [data])
  else
    let s := (List.range data.length).foldl (filterByte data) ⟨filter.lastChar, 0, []⟩
    ({ filter with lastChar := s.lastChar },
      s.out ++ if s.chunkStart ≠ data.length then [data.drop s.chunkStart] else [])

/-- Calls of the filter one after another. -/
def filterPieces (filter : TextFilter) : List Text → TextFilter × List Text
  | [] => (filter, [])
  | piece :: pieces =>
    let (filter, out) := filteredOutput filter piece
    let (filter, rest) := filterPieces filter pieces
    (filter, out ++ rest)

/-- The chunks a line's own filter passes on. -/
def filterLine (flags : UInt8) (pieces : List Text) : List Text :=
  (filterPieces { flags := flags } pieces).2

/-! ### The whole text -/

/-- The byte at `i` is an LF that no CR stands before. -/
def IsBareLf (text : Text) (i : ℕ) : Prop :=
  text.getD i 0 = lf ∧ ¬(0 < i ∧ text.getD (i - 1) 0 = cr)

instance (text : Text) (i : ℕ) : Decidable (IsBareLf text i) :=
  inferInstanceAs (Decidable (_ ∧ ¬_))

/-- The text with a CR before each bare LF. -/
def crInserted (text : Text) : Text :=
  (List.range text.length).flatMap fun i =>
    if IsBareLf text i then [cr, text.getD i 0] else [text.getD i 0]

/-- The same from a text that ends in `last` on. -/
def insertCr (last : UInt8) : Text → Text
  | [] => []
  | c :: text => (if c = lf ∧ last ≠ cr then [cr, c] else [c]) ++ insertCr c text

theorem insertCr_eq_flatMap (last : UInt8) (text : Text) :
    insertCr last text = (List.range text.length).flatMap fun i =>
      if text.getD i 0 = lf ∧ (last :: text).getD i 0 ≠ cr then [cr, text.getD i 0]
      else [text.getD i 0] := by
  induction text generalizing last with
  | nil => rfl
  | cons c text ih =>
    rw [insertCr, ih, List.length_cons, List.range_succ_eq_map, List.flatMap_cons,
      List.flatMap_map]
    simp only [List.getD_cons_zero, List.getD_cons_succ]

theorem crInserted_eq (text : Text) : crInserted text = insertCr 0 text := by
  rw [insertCr_eq_flatMap, crInserted]
  refine List.flatMap_congr ?_
  intro i _
  have hbare : IsBareLf text i ↔ text.getD i 0 = lf ∧ (0 :: text).getD i 0 ≠ cr := by
    unfold IsBareLf
    cases i with
    | zero => simp [cr]
    | succ i => simp
  simp only [hbare]

theorem insertCr_append (last : UInt8) (a b : Text) :
    insertCr last (a ++ b) = insertCr last a ++ insertCr (a.getLastD last) b := by
  induction a generalizing last with
  | nil => rfl
  | cons c a ih =>
    rw [List.cons_append, insertCr, insertCr, ih, List.append_assoc, List.getLastD_cons]

theorem insertCr_insertCr (last : UInt8) (text : Text) :
    insertCr last (insertCr last text) = insertCr last text := by
  induction text generalizing last with
  | nil => rfl
  | cons c text ih =>
    by_cases h : c = lf ∧ last ≠ cr
    · have hcr : ¬(cr = lf ∧ last ≠ cr) := by simp [cr, lf]
      simp only [insertCr, if_pos h, if_neg hcr, List.cons_append, List.nil_append, ne_eq,
        not_true_eq_false, and_false, if_false, ih]
    · simp only [insertCr, if_neg h, List.cons_append, List.nil_append, ih]

/-! ### One call -/

/-- The loop after the first `i` bytes: what is passed on, with the chunk not yet passed on, is
those bytes with their CRs. -/
structure LoopAt (last : UInt8) (data : Text) (i : ℕ) (s : FilterLoop) : Prop where
  started : s.chunkStart ≤ i
  text : s.out.flatten ++ (data.take i).drop s.chunkStart = insertCr last (data.take i)
  last : s.lastChar = (data.take i).getLastD last

theorem filterByte_step {last : UInt8} {data : Text} {i : ℕ} {s : FilterLoop}
    (hi : i < data.length) (h : LoopAt last data i s) :
    LoopAt last data (i + 1) (filterByte data s i) := by
  obtain ⟨hstart, htext, hlast⟩ := h
  have hget : data.getD i 0 = data[i] := by
    rw [List.getD_eq_getElem?_getD, List.getElem?_eq_getElem hi, Option.getD_some]
  have htake : data.take (i + 1) = data.take i ++ [data[i]] := List.take_succ_eq_append_getElem hi
  have hlen : (data.take i).length = i := List.length_take_of_le (by omega)
  have hnew : (data.take (i + 1)).getLastD last = data[i] := by
    rw [htake, List.getLastD_concat]
  have hinsert : insertCr last (data.take (i + 1)) =
      insertCr last (data.take i) ++ (if data[i] = lf ∧ s.lastChar ≠ cr then [cr, data[i]]
        else [data[i]]) := by
    rw [htake, insertCr_append, ← hlast, insertCr, insertCr, List.append_nil]
  unfold filterByte
  rw [hget]
  by_cases hbare : data[i] = lf ∧ s.lastChar ≠ cr
  · rw [if_pos hbare] at hinsert ⊢
    refine ⟨by simp, ?_, hnew.symm⟩
    have hchunk : (if i ≠ s.chunkStart then
        [(data.drop s.chunkStart).take (i - s.chunkStart)] else []).flatten =
        (data.take i).drop s.chunkStart := by
      by_cases hi : i = s.chunkStart
      · rw [if_neg (not_not.mpr hi), ← hi, List.drop_of_length_le (by omega), List.flatten_nil]
      · rw [if_pos hi, List.flatten_singleton, List.drop_take]
    have hlast : (data.take (i + 1)).drop i = [data[i]] := by
      rw [htake, List.drop_left' hlen]
    rw [hinsert, ← htext]
    simp only [List.flatten_append, hchunk, hlast, List.flatten_singleton, List.append_assoc,
      List.cons_append, List.nil_append]
  · rw [if_neg hbare] at hinsert ⊢
    refine ⟨by simp only; omega, ?_, hnew.symm⟩
    have hgrow : (data.take (i + 1)).drop s.chunkStart =
        (data.take i).drop s.chunkStart ++ [data[i]] := by
      rw [htake, List.drop_append_of_le_length (by omega)]
    simp only [hgrow, hinsert, ← htext, List.append_assoc]

theorem filterLoop_at {last : UInt8} {data : Text} {n : ℕ} (hn : n ≤ data.length) :
    LoopAt last data n ((List.range n).foldl (filterByte data) ⟨last, 0, []⟩) := by
  induction n with
  | zero => exact ⟨by simp, by simp [insertCr], by simp⟩
  | succ n ih =>
    rw [List.range_succ, List.foldl_append]
    exact filterByte_step (by omega) (ih (by omega))

theorem filteredOutput_keeps (filter : TextFilter) (data : Text) :
    (filteredOutput filter data).1 =
      { filter with lastChar := data.getLastD filter.lastChar } := by
  unfold filteredOutput
  split
  case isTrue => rfl
  case isFalse =>
    have h := (@filterLoop_at filter.lastChar data data.length le_rfl).last
    rw [List.take_length] at h
    simp only [h]

/-- What one call passes on. -/
def filteredText (filter : TextFilter) (data : Text) : Text :=
  if filter.flags &&& textCr = 0 then data else insertCr filter.lastChar data

theorem filteredOutput_text (filter : TextFilter) (data : Text) :
    (filteredOutput filter data).2.flatten = filteredText filter data := by
  unfold filteredOutput filteredText
  split
  case isTrue => exact List.append_nil data
  case isFalse =>
    have h := (@filterLoop_at filter.lastChar data data.length le_rfl).text
    rw [List.take_length] at h
    rw [List.flatten_append, ← h]
    congr 1
    split
    case isTrue => exact List.append_nil _
    case isFalse hend =>
      rw [List.drop_of_length_le (by omega)]
      rfl

/-! ### A sequence of calls -/

theorem filterPieces_text (filter : TextFilter) (pieces : List Text) :
    (filterPieces filter pieces).2.flatten = filteredText filter pieces.flatten := by
  induction pieces generalizing filter with
  | nil =>
    unfold filterPieces filteredText
    split <;> rfl
  | cons piece pieces ih =>
    simp only [filterPieces, List.flatten_append, List.flatten_cons, ih, filteredOutput_text,
      filteredOutput_keeps]
    unfold filteredText
    split
    case isTrue => rfl
    case isFalse => rw [insertCr_append]

theorem filterLine_text (flags : UInt8) (pieces : List Text) :
    (filterLine flags pieces).flatten =
      if flags &&& textCr = 0 then pieces.flatten else crInserted pieces.flatten := by
  rw [filterLine, filterPieces_text, filteredText, crInserted_eq]

/-- However a text is cut, the same comes out; and what came out goes through unchanged. -/
theorem filterLine_chunks (flags : UInt8) (pieces : List Text) :
    (flags &&& textCr ≠ 0 → (filterLine flags pieces).flatten = crInserted pieces.flatten) ∧
    (flags &&& textCr = 0 → (filterLine flags pieces).flatten = pieces.flatten) ∧
    ∀ again : List Text, again.flatten = (filterLine flags pieces).flatten →
      (filterLine flags again).flatten = (filterLine flags pieces).flatten := by
  refine ⟨fun h => ?_, fun h => ?_, fun again hagain => ?_⟩
  · rw [filterLine_text, if_neg h]
  · rw [filterLine_text, if_pos h]
  · rw [filterLine_text flags again, hagain]
    by_cases h : flags &&& textCr = 0
    · rw [if_pos h]
    · rw [if_neg h, filterLine_text, if_neg h, crInserted_eq, crInserted_eq, insertCr_insertCr]

example : crInserted [0x61, lf, cr, lf, lf] = [0x61, cr, lf, cr, lf, cr, lf] := by decide

end On9log
