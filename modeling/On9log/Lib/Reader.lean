import On9log.Lib.LittleEndian

/-!
# Readers

A reader takes a value off the front of a byte list, or fails. `Takes r bs a`
says that `r` takes exactly `bs` and returns `a`, whatever follows; readers
compose by `Takes.bind`, and `takes_many` cuts a concatenation into its parts.
-/

namespace On9log.Lib
open LittleEndian

def Reader (α : Type) := List UInt8 → Option (α × List UInt8)

namespace Reader

variable {α β : Type}

instance : Monad Reader where
  pure a := fun bs => some (a, bs)
  bind r f := fun bs =>
    match r bs with
    | none => none
    | some (a, rest) => f a rest

def fail : Reader α := fun _ => none

def bytes (n : ℕ) : Reader (List UInt8) := fun bs =>
  if bs.length < n then none else some (bs.take n, bs.drop n)

/-- A little-endian number of `n` bytes. -/
def nat (n : ℕ) : Reader ℕ := do
  let bs ← bytes n
  pure (valLE bs)

/-- One value for each element of a list. -/
def each (r : β → Reader α) : List β → Reader (List α)
  | [] => pure []
  | b :: bs => do
    let a ← r b
    let as ← each r bs
    pure (a :: as)

/-- Values up to the end of the input, at most `fuel` of them. -/
def many (r : Reader α) : ℕ → List UInt8 → Option (List α)
  | _, [] => some []
  | 0, _ :: _ => none
  | fuel + 1, b :: bs =>
    match r (b :: bs) with
    | none => none
    | some (a, rest) => (many r fuel rest).map (a :: ·)

/-- The value, if it takes the whole input. -/
def run (r : Reader α) (bs : List UInt8) : Option α :=
  match r bs with
  | some (a, []) => some a
  | _ => none

def Takes (r : Reader α) (bs : List UInt8) (a : α) : Prop := ∀ rest, r (bs ++ rest) = some (a, rest)

theorem takes_pure (a : α) : Takes (pure a) [] a := fun _ => rfl

theorem Takes.bind {r : Reader α} {f : α → Reader β} {bs₁ bs₂ : List UInt8} {a : α} {b : β}
    (h₁ : Takes r bs₁ a) (h₂ : Takes (f a) bs₂ b) : Takes (r >>= f) (bs₁ ++ bs₂) b := by
  intro rest
  show (match r (bs₁ ++ bs₂ ++ rest) with
    | none => none
    | some (a, rest) => f a rest) = _
  rw [List.append_assoc, h₁]
  exact h₂ rest

theorem Takes.then_pure {r : Reader α} {bs : List UInt8} {a : α} (h : Takes r bs a) (f : α → β) :
    Takes (r >>= fun a => pure (f a)) bs (f a) := by
  have hb : Takes (r >>= fun a => pure (f a)) (bs ++ []) (f a) := h.bind (takes_pure (f a))
  rwa [List.append_nil] at hb

theorem takes_bytes (bs : List UInt8) : Takes (bytes bs.length) bs bs := by
  intro rest
  unfold bytes
  rw [if_neg (by simp), List.take_left, List.drop_left]

theorem takes_nat {n v : ℕ} (h : v < 256 ^ n) : Takes (nat n) (bytesLE n v) v := by
  have hb := takes_bytes (bytesLE n v)
  rw [length_bytesLE] at hb
  have hn := hb.then_pure valLE
  rwa [valLE_bytesLE n v h] at hn

theorem takes_each {r : β → Reader α} {l : List β} {enc : β → List UInt8} {val : β → α}
    (h : ∀ b ∈ l, Takes (r b) (enc b) (val b)) : Takes (each r l) (l.flatMap enc) (l.map val) := by
  induction l with
  | nil => exact takes_pure []
  | cons b l ih =>
    have hb := h b (List.mem_cons_self ..)
    have hl := ih fun x hx => h x (List.mem_cons_of_mem _ hx)
    exact hb.bind (hl.then_pure _)

theorem Takes.run {r : Reader α} {bs : List UInt8} {a : α} (h : Takes r bs a) :
    r.run bs = some a := by
  have h0 := h []
  rw [List.append_nil] at h0
  unfold Reader.run
  rw [h0]

/-- A concatenation of non-empty encodings is read back one after another. -/
theorem many_flatMap {r : Reader α} {l : List β} {enc : β → List UInt8} {val : β → α}
    (h : ∀ b ∈ l, Takes r (enc b) (val b) ∧ enc b ≠ []) {fuel : ℕ}
    (hfuel : (l.flatMap enc).length ≤ fuel) : many r fuel (l.flatMap enc) = some (l.map val) := by
  induction l generalizing fuel with
  | nil => cases fuel <;> rfl
  | cons b l ih =>
    obtain ⟨htakes, hne⟩ := h b (List.mem_cons_self ..)
    have hl : ∀ b ∈ l, Takes r (enc b) (val b) ∧ enc b ≠ [] := fun x hx =>
      h x (List.mem_cons_of_mem _ hx)
    obtain ⟨x, xs, hx⟩ := List.exists_cons_of_ne_nil hne
    rw [List.flatMap_cons, List.length_append] at hfuel
    have hpos : 0 < (enc b).length := List.length_pos_iff.mpr hne
    obtain ⟨fuel, rfl⟩ : ∃ f, fuel = f + 1 := ⟨fuel - 1, by omega⟩
    have hread := htakes (l.flatMap enc)
    rw [List.flatMap_cons]
    rw [hx, List.cons_append] at hread ⊢
    unfold many
    rw [hread]
    show Option.map _ (many r fuel (l.flatMap enc)) = _
    rw [ih hl (by omega)]
    rfl

end Reader

end On9log.Lib
