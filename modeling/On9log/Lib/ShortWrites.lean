import Mathlib.Tactic

/-!
# Writing with short writes

An output answers each call of `write` with a count, or fails. `accepts` is what
it takes of `len` bytes from a caller that makes interrupted calls again, goes
on after a short count and gives up at a failure. `taken` is what it takes of
pieces that are written to it one after another, each in this way. Nothing here
depends on what the pieces contain.
-/

namespace On9log.Lib

/-- What a call of `write` returns, and whether a signal interrupted it. -/
structure WriteReply where
  written : ℤ
  eintr : Bool

def WriteReply.Interrupted (reply : WriteReply) : Prop := reply.written < 0 ∧ reply.eintr = true

instance : DecidablePred WriteReply.Interrupted := fun _ => inferInstanceAs (Decidable (_ ∧ _))

/-- The replies of one output, call by call. Signals do not interrupt all calls
from some call on. -/
structure Replies where
  reply : ℕ → WriteReply
  resumes : ∀ n, ∃ k, ¬ (reply (n + k)).Interrupted

namespace Replies

variable (r : Replies)

/-- The calls from the `n`-th on that are interrupted, up to the first that is not. -/
def wait (n : ℕ) : ℕ := Nat.find (r.resumes n)

theorem wait_succ_lt {n : ℕ} (h : (r.reply n).Interrupted) : r.wait (n + 1) < r.wait n := by
  have hspec : ¬ (r.reply (n + r.wait n)).Interrupted := Nat.find_spec (r.resumes n)
  have hpos : r.wait n ≠ 0 := by
    intro hz
    rw [hz] at hspec
    exact hspec h
  have hnext : ¬ (r.reply (n + 1 + (r.wait n - 1))).Interrupted := by
    have heq : n + 1 + (r.wait n - 1) = n + r.wait n := by omega
    rw [heq]
    exact hspec
  have hle : r.wait (n + 1) ≤ r.wait n - 1 := Nat.find_min' (r.resumes (n + 1)) hnext
  omega

/-- How many of `len` bytes the output takes from its `n`-th call on, and the number
of the call after that. -/
def accepts (n len : ℕ) : ℕ × ℕ :=
  if len = 0 then (0, n)
  else if (r.reply n).Interrupted then accepts (n + 1) len
  else if (r.reply n).written ≤ 0 then (0, n + 1)
  else
    let rest := accepts (n + 1) (len - (r.reply n).written.toNat)
    (min (r.reply n).written.toNat len + rest.1, rest.2)
termination_by (len, r.wait n)
decreasing_by
  · exact Prod.Lex.right _ (r.wait_succ_lt ‹_›)
  · exact Prod.Lex.left _ _ (by omega)

theorem accepts_zero (n : ℕ) : r.accepts n 0 = (0, n) := by
  rw [accepts, if_pos rfl]

theorem accepts_failed {n len : ℕ} (hlen : len ≠ 0) (hint : ¬ (r.reply n).Interrupted)
    (hfail : (r.reply n).written ≤ 0) : r.accepts n len = (0, n + 1) := by
  rw [accepts, if_neg hlen, if_neg hint, if_pos hfail]

/-- One call is enough. -/
theorem accepts_whole {n len : ℕ} (hlen : len ≠ 0) (hle : (len : ℤ) ≤ (r.reply n).written) :
    r.accepts n len = (len, n + 1) := by
  have hint : ¬ (r.reply n).Interrupted := fun h => by
    have hneg := h.1
    omega
  have hrest : len - (r.reply n).written.toNat = 0 := by omega
  rw [accepts, if_neg hlen, if_neg hint, if_neg (by omega), hrest, accepts_zero,
    Nat.min_eq_right (by omega)]
  rfl

theorem accepts_le (n len : ℕ) : (r.accepts n len).1 ≤ len := by
  induction n, len using accepts.induct r with
  | case1 n =>
    rw [accepts, if_pos rfl]
  | case2 n len hlen hint ih =>
    rw [accepts, if_neg hlen, if_pos hint]
    exact ih
  | case3 n len hlen hint hfail =>
    rw [accepts, if_neg hlen, if_neg hint, if_pos hfail]
    exact Nat.zero_le _
  | case4 n len hlen hint htook ih =>
    rw [accepts, if_neg hlen, if_neg hint, if_neg htook]
    dsimp only
    omega

variable {α : Type}

/-- What is taken of each piece. -/
def taken : ℕ → List (List α) → List (List α)
  | _, [] => []
  | n, piece :: pieces =>
    piece.take (r.accepts n piece.length).1 :: taken (r.accepts n piece.length).2 pieces

/-- Nothing is taken of pieces of these lengths. -/
def TakesNone : ℕ → List ℕ → Prop
  | _, [] => True
  | n, len :: lens => (r.accepts n len).1 = 0 ∧ TakesNone (r.accepts n len).2 lens

/-- Once a write of a piece failed, nothing is taken of the pieces behind it. -/
def StopsOnFailure : ℕ → List ℕ → Prop
  | _, [] => True
  | n, len :: lens =>
    if (r.accepts n len).1 = len then StopsOnFailure (r.accepts n len).2 lens
    else r.TakesNone (r.accepts n len).2 lens

variable {r}

theorem taken_sublist (n : ℕ) (pieces : List (List α)) :
    (r.taken n pieces).flatten.Sublist pieces.flatten := by
  induction pieces generalizing n with
  | nil => exact List.Sublist.refl _
  | cons piece pieces ih =>
    rw [taken, List.flatten_cons, List.flatten_cons]
    exact (List.take_sublist _ _).append (ih _)

/-- All bytes are taken exactly when every piece is taken whole. -/
theorem taken_flatten_eq_iff (n : ℕ) (pieces : List (List α)) :
    (r.taken n pieces).flatten = pieces.flatten ↔ r.taken n pieces = pieces := by
  constructor
  · intro h
    induction pieces generalizing n with
    | nil => rfl
    | cons piece pieces ih =>
      rw [taken, List.flatten_cons, List.flatten_cons] at h
      have hlen := congrArg List.length h
      have hrest := (taken_sublist (r := r) (r.accepts n piece.length).2 pieces).length_le
      have hle := r.accepts_le n piece.length
      rw [List.length_append, List.length_append, List.length_take] at hlen
      have hall : piece.take (r.accepts n piece.length).1 = piece :=
        List.take_of_length_le (by omega)
      rw [hall] at h
      rw [taken, hall, ih _ (List.append_cancel_left h)]
  · intro h
    rw [h]

theorem takesNone_iff (n : ℕ) (pieces : List (List α)) :
    r.TakesNone n (pieces.map List.length) ↔ (r.taken n pieces).flatten = [] := by
  induction pieces generalizing n with
  | nil => simp [TakesNone, taken]
  | cons piece pieces ih =>
    have hle := r.accepts_le n piece.length
    have hnil : piece.take (r.accepts n piece.length).1 = [] ↔
        (r.accepts n piece.length).1 = 0 := by
      rw [← List.length_eq_zero_iff, List.length_take]
      omega
    rw [taken, List.map_cons, TakesNone, List.flatten_cons, List.append_eq_nil_iff, hnil, ih]

/-- Then what is taken is cut short, and nothing else. -/
theorem StopsOnFailure.prefix {n : ℕ} {pieces : List (List α)}
    (h : r.StopsOnFailure n (pieces.map List.length)) :
    (r.taken n pieces).flatten <+: pieces.flatten := by
  induction pieces generalizing n with
  | nil => exact List.prefix_rfl
  | cons piece pieces ih =>
    rw [List.map_cons, StopsOnFailure] at h
    rw [taken, List.flatten_cons, List.flatten_cons]
    split at h
    case isTrue hall =>
      rw [hall, List.take_length]
      exact (List.prefix_append_right_inj piece).mpr (ih h)
    case isFalse hcut =>
      rw [(takesNone_iff _ _).mp h, List.append_nil]
      exact (List.take_prefix _ _).trans (List.prefix_append _ _)

/-- Where no two bytes are the same, what is taken has a gap if it does not stop. -/
theorem stopsOnFailure_of_prefix {n : ℕ} {pieces : List (List α)} (hnd : pieces.flatten.Nodup)
    (h : (r.taken n pieces).flatten <+: pieces.flatten) :
    r.StopsOnFailure n (pieces.map List.length) := by
  induction pieces generalizing n with
  | nil => trivial
  | cons piece pieces ih =>
    rw [List.flatten_cons] at hnd
    rw [taken, List.flatten_cons, List.flatten_cons] at h
    rw [List.map_cons, StopsOnFailure]
    split
    case isTrue hall =>
      rw [hall, List.take_length] at h
      exact ih hnd.of_append_right ((List.prefix_append_right_inj piece).mp h)
    case isFalse hcut =>
      have hle := r.accepts_le n piece.length
      rw [takesNone_iff, List.eq_nil_iff_forall_not_mem]
      intro b hb
      -- what comes behind the cut is of this piece, and all later bytes are of others
      obtain ⟨late, hlate⟩ : ∃ late, (r.taken (r.accepts n piece.length).2 pieces).flatten = late :=
        ⟨_, rfl⟩
      rw [hlate] at hb h
      have hhead : ∃ c late', late = c :: late' := List.exists_cons_of_ne_nil (List.ne_nil_of_mem hb)
      obtain ⟨c, late', rfl⟩ := hhead
      obtain ⟨rest, hrest⟩ := h
      have hsplit : piece ++ pieces.flatten = piece.take (r.accepts n piece.length).1 ++
          (piece.drop (r.accepts n piece.length).1 ++ pieces.flatten) := by
        rw [← List.append_assoc, List.take_append_drop]
      rw [hsplit, List.append_assoc] at hrest
      have hdrop := List.append_cancel_left hrest
      obtain ⟨d, ds, hd⟩ : ∃ d ds, piece.drop (r.accepts n piece.length).1 = d :: ds := by
        apply List.exists_cons_of_ne_nil
        intro hnil
        have hlen := congrArg List.length hnil
        rw [List.length_drop, List.length_nil] at hlen
        omega
      rw [hd] at hdrop
      have hcd : c = d := (List.cons.inj hdrop).1
      have hin : c ∈ piece := by
        rw [hcd]
        apply List.mem_of_mem_drop
        rw [hd]
        exact List.mem_cons_self
      have hout : c ∈ pieces.flatten := by
        apply (taken_sublist _ _).subset
        rw [hlate]
        exact List.mem_cons_self
      exact List.disjoint_of_nodup_append hnd hin hout

/-- The places of the bytes of some pieces, counted from `n`. -/
def places : ℕ → List (List α) → List (List ℕ)
  | _, [] => []
  | n, piece :: pieces => List.range' n piece.length :: places (n + piece.length) pieces

theorem places_lengths (n : ℕ) (pieces : List (List α)) :
    (places n pieces).map List.length = pieces.map List.length := by
  induction pieces generalizing n with
  | nil => rfl
  | cons piece pieces ih =>
    rw [places, List.map_cons, List.map_cons, List.length_range', ih]

theorem places_flatten (n : ℕ) (pieces : List (List α)) :
    (places n pieces).flatten = List.range' n pieces.flatten.length := by
  induction pieces generalizing n with
  | nil => rfl
  | cons piece pieces ih =>
    rw [places, List.flatten_cons, List.flatten_cons, ih, List.length_append,
      List.range'_append_1]

/-- The bytes taken are the first ones, none left out, exactly when the output
stops at a failure. -/
theorem places_prefix_iff (n : ℕ) (pieces : List (List α)) :
    (r.taken n (places 0 pieces)).flatten <+: List.range pieces.flatten.length ↔
      r.StopsOnFailure n (pieces.map List.length) := by
  have hflat : (places 0 pieces).flatten = List.range pieces.flatten.length := by
    rw [places_flatten, List.range_eq_range']
  rw [← hflat, ← places_lengths 0 pieces]
  constructor
  · intro h
    apply stopsOnFailure_of_prefix _ h
    rw [hflat]
    exact List.nodup_range
  · intro h
    exact h.prefix

end Replies

end On9log.Lib
