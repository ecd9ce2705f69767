import On9log.TextDigits

/-!
# The time stamp of a line (on9log.c:474-494)

Hours, minutes, seconds and milliseconds, each written by one of the two digit
loops. The field has one form only and tells the time exactly.
-/

namespace On9log
open Lib

/-- From a hundred hours on the field is as wide as the number. -/
def outputHours (digits : List UInt8) (hours : UInt32) : Option Text :=
  if hours < 100 then outputPadded digits hours 2 else outputU32 digits hours

/-- The field as the loops write it; `stack i` is the array of the `i`-th call. -/
def outputTimestamp (stack : ℕ → List UInt8) (timestampMs : UInt32) : Option (List Text) := do
  let hours := timestampMs / 3600000
  let remainder := timestampMs % 3600000
  let minutes := remainder / 60000
  let remainder := remainder % 60000
  let seconds := remainder / 1000
  let millis := remainder % 1000
  let hours ← outputHours (stack 0) hours
  let minutes ← outputPadded (stack 1) minutes 2
  let seconds ← outputPadded (stack 2) seconds 2
  let millis ← outputPadded (stack 3) millis 3
  some [hours, [chr ':'], minutes, [chr ':'], seconds, [chr '.'], millis]

theorem outputHours_eq {digits : List UInt8} (hsize : digits.length = digitsSize)
    (hours : UInt32) : outputHours digits hours =
      some (if hours.toNat < 100 then textPadded hours.toNat 2 else textU32 hours.toNat) := by
  have hlt : hours < 100 ↔ hours.toNat < 100 := UInt32.lt_iff_toNat_lt
  unfold outputHours
  by_cases h : hours.toNat < 100
  · rw [if_pos (hlt.mpr h), if_pos h, outputPadded_eq hsize _ (by decide)]
  · rw [if_neg fun hc => h (hlt.mp hc), if_neg h, outputU32_eq hsize]

theorem outputTimestamp_eq {stack : ℕ → List UInt8} (hsize : ∀ i, (stack i).length = digitsSize)
    (timestampMs : UInt32) : outputTimestamp stack timestampMs = some (timestampPieces timestampMs) := by
  have htwo : 2 ≤ digitsSize := by decide
  have hthree : 3 ≤ digitsSize := by decide
  unfold outputTimestamp
  simp only [outputHours_eq (hsize 0), outputPadded_eq (hsize _) _ htwo, outputPadded_eq (hsize _) _ hthree,
    Option.bind_eq_bind, Option.bind_some, UInt32.toNat_div, UInt32.toNat_mod]
  rfl

/-! ### The form of the field -/

/-- The four numbers of `H:MM:SS.mmm`. -/
structure Stamp where
  hours : Text
  minutes : Text
  seconds : Text
  millis : Text

def Stamp.text (s : Stamp) : Text :=
  s.hours ++ (chr ':' :: s.minutes ++ (chr ':' :: s.seconds ++ (chr '.' :: s.millis)))

/-- The time a stamp tells, in milliseconds. -/
def Stamp.time (s : Stamp) : ℕ :=
  ((decimalValue s.hours * 60 + decimalValue s.minutes) * 60 + decimalValue s.seconds) * 1000 +
    decimalValue s.millis

structure Stamp.Exact (s : Stamp) (timeMs : ℕ) : Prop where
  digits : IsDigits s.hours ∧ IsDigits s.minutes ∧ IsDigits s.seconds ∧ IsDigits s.millis
  hours : decimalValue s.hours = timeMs / 3600000
  hours_width : 2 ≤ s.hours.length
  hours_leading : 2 < s.hours.length → s.hours.head? ≠ some (chr '0')
  minutes : s.minutes.length = 2 ∧ decimalValue s.minutes < 60
  seconds : s.seconds.length = 2 ∧ decimalValue s.seconds < 60
  millis : s.millis.length = 3
  time : s.time = timeMs

theorem decimalValue_lt {text : Text} (h : IsDigits text) : decimalValue text < 10 ^ text.length := by
  have hdigit : ∀ d ∈ text.reverse.map digitValue, d < 10 := by
    intro d hd
    obtain ⟨c, hc, rfl⟩ := List.mem_map.mp hd
    have h9 := UInt8.le_iff_toNat_le.mp (h c (List.mem_reverse.mp hc)).2
    have hnine : (chr '9').toNat = 57 := rfl
    unfold digitValue
    omega
  have hlt := Nat.ofDigits_lt_base_pow_length (by omega) hdigit
  rwa [List.length_map, List.length_reverse] at hlt

/-- The stamp of a time, by its numbers. -/
def stampOf (timestampMs : UInt32) : Stamp where
  hours := if timestampMs.toNat / 3600000 < 100 then textPadded (timestampMs.toNat / 3600000) 2
    else textU32 (timestampMs.toNat / 3600000)
  minutes := textPadded (timestampMs.toNat % 3600000 / 60000) 2
  seconds := textPadded (timestampMs.toNat % 3600000 % 60000 / 1000) 2
  millis := textPadded (timestampMs.toNat % 3600000 % 60000 % 1000) 3

theorem timestampPieces_stamp (timestampMs : UInt32) :
    (timestampPieces timestampMs).flatten = (stampOf timestampMs).text := by
  unfold timestampPieces stampOf Stamp.text
  simp only [List.flatten_cons, List.flatten_nil, List.append_nil, List.nil_append,
    List.cons_append]

/-- The hours: two digits below a hundred, as many as they have from there on. -/
theorem stampOf_hours (timestampMs : UInt32) :
    IsDigits (stampOf timestampMs).hours ∧
      decimalValue (stampOf timestampMs).hours = timestampMs.toNat / 3600000 ∧
      2 ≤ (stampOf timestampMs).hours.length ∧
      (2 < (stampOf timestampMs).hours.length →
        (stampOf timestampMs).hours.head? ≠ some (chr '0')) := by
  have hdiv : (timestampMs / 3600000).toNat = timestampMs.toNat / 3600000 := UInt32.toNat_div ..
  unfold stampOf
  by_cases h : timestampMs.toNat / 3600000 < 100
  · simp only [if_pos h]
    refine ⟨isDigits_textPadded _ 2, ?_, (length_textPadded _ 2).ge, ?_⟩
    · rw [decimalValue_textPadded]
      exact Nat.mod_eq_of_lt h
    · intro hlen
      rw [length_textPadded] at hlen
      omega
  · simp only [if_neg h]
    rw [← hdiv] at h ⊢
    refine ⟨isDigits_textU32 _, decimalValue_textU32 _, ?_, fun _ => head_textU32 _ (by omega)⟩
    by_contra hlen
    have hlt := decimalValue_lt (isDigits_textU32 (timestampMs / 3600000))
    rw [decimalValue_textU32] at hlt
    have hpow : 10 ^ (textU32 (timestampMs / 3600000).toNat).length ≤ 10 ^ 2 :=
      Nat.pow_le_pow_right (by omega) (by omega)
    omega

theorem stampOf_exact (timestampMs : UInt32) : (stampOf timestampMs).Exact timestampMs.toNat := by
  obtain ⟨hdigits, hvalue, hwidth, hleading⟩ := stampOf_hours timestampMs
  have hminutes : decimalValue (stampOf timestampMs).minutes =
      timestampMs.toNat % 3600000 / 60000 := by
    rw [stampOf, decimalValue_textPadded]
    omega
  have hseconds : decimalValue (stampOf timestampMs).seconds =
      timestampMs.toNat % 3600000 % 60000 / 1000 := by
    rw [stampOf, decimalValue_textPadded]
    omega
  have hmillis : decimalValue (stampOf timestampMs).millis =
      timestampMs.toNat % 3600000 % 60000 % 1000 := by
    rw [stampOf, decimalValue_textPadded]
    omega
  exact
    { digits :=
        ⟨hdigits, isDigits_textPadded _ 2, isDigits_textPadded _ 2, isDigits_textPadded _ 3⟩
      hours := hvalue
      hours_width := hwidth
      hours_leading := hleading
      minutes := ⟨length_textPadded .., by omega⟩
      seconds := ⟨length_textPadded .., by omega⟩
      millis := length_textPadded ..
      time := by
        unfold Stamp.time
        omega }

/-- What follows the hours has a length of its own, so a text is one stamp only. -/
theorem Stamp.text_injective {s s' : Stamp} {t t' : ℕ} (h : s.Exact t) (h' : s'.Exact t')
    (htext : s.text = s'.text) : t = t' := by
  unfold Stamp.text at htext
  obtain ⟨hhours, htail⟩ := List.append_inj' htext (by
    simp only [List.length_append, List.length_cons, h.minutes.1, h'.minutes.1, h.seconds.1,
      h'.seconds.1, h.millis, h'.millis])
  obtain ⟨hminutes, htail⟩ := List.append_inj htail (by
    rw [List.length_cons, List.length_cons, h.minutes.1, h'.minutes.1])
  obtain ⟨hseconds, htail⟩ := List.append_inj htail (by
    rw [List.length_cons, List.length_cons, h.seconds.1, h'.seconds.1])
  have htime : s.time = s'.time := by
    unfold Stamp.time
    rw [hhours, List.tail_eq_of_cons_eq hminutes, List.tail_eq_of_cons_eq hseconds,
      List.tail_eq_of_cons_eq htail]
  rw [← h.time, ← h'.time, htime]

/-! ### The field in the prefix -/

variable {level : ℕ} {tag : Option CStr} {flags : UInt8} {stack : ℕ → List UInt8}

/-- Only the stamp depends on the time. -/
theorem prefixPieces_timestamp (level : ℕ) (tag : Option CStr)
    (hflag : hasFlag flags textShowTimestamp = true) : ∃ before after : List Text,
      ∀ timestampMs, prefixPieces level timestampMs tag flags =
        before ++ timestampPieces timestampMs ++ after := by
  have hsplit : ∀ color field letter topic colon plain : List Text,
      color ++ field ++ letter ++ topic ++ colon ++ plain =
        color ++ field ++ (letter ++ topic ++ colon ++ plain) := by
    intro color field letter topic colon plain
    simp only [List.append_assoc]
  unfold prefixPieces
  simp only [hflag, if_true]
  exact ⟨_, _, fun timestampMs => hsplit ..⟩

/-- The time stamp of a prefix has the form `H:MM:SS.mmm` and tells the time. -/
theorem timestamp_exact (hsize : ∀ i, (stack i).length = digitsSize)
    (hflag : hasFlag flags textShowTimestamp = true) : ∃ before after : List Text,
      (∀ timestampMs, ∃ field, outputTimestamp stack timestampMs = some field ∧
        prefixPieces level timestampMs tag flags = before ++ field ++ after ∧
        ∃ s : Stamp, field.flatten = s.text ∧ s.Exact timestampMs.toNat) ∧
      ∀ t t' field field', outputTimestamp stack t = some field →
        outputTimestamp stack t' = some field' → field.flatten = field'.flatten → t = t' := by
  obtain ⟨before, after, hprefix⟩ := prefixPieces_timestamp level tag hflag
  refine ⟨before, after, fun timestampMs => ?_, fun t t' field field' ht ht' htext => ?_⟩
  · exact ⟨_, outputTimestamp_eq hsize timestampMs, hprefix timestampMs, stampOf timestampMs,
      timestampPieces_stamp timestampMs, stampOf_exact timestampMs⟩
  · rw [outputTimestamp_eq hsize] at ht ht'
    rw [← Option.some.inj ht, ← Option.some.inj ht', timestampPieces_stamp,
      timestampPieces_stamp] at htext
    exact UInt32.toNat_inj.mp (Stamp.text_injective (stampOf_exact t) (stampOf_exact t') htext)

/-- The largest time. -/
theorem timestamp_exact_largest : ∃ field before after,
    outputTimestamp (fun _ => List.replicate 10 0) 0xffffffff = some field ∧
    prefixPieces levelInfo 0xffffffff none textDefaultFlags = before ++ field ++ after ∧
    field.flatten =
      chars ['1', '1', '9', '3', ':', '0', '2', ':', '4', '7', '.', '2', '9', '5'] := by
  have hsize : ∀ _ : ℕ, (List.replicate 10 (0 : UInt8)).length = digitsSize := fun _ => rfl
  obtain ⟨before, after, hfield, -⟩ :=
    @timestamp_exact levelInfo none _ _ hsize
      (show hasFlag textDefaultFlags textShowTimestamp = true by decide)
  obtain ⟨field, hout, hprefix, -⟩ := hfield 0xffffffff
  refine ⟨field, before, after, hout, hprefix, ?_⟩
  rw [outputTimestamp_eq hsize] at hout
  rw [← Option.some.inj hout]
  decide

end On9log
