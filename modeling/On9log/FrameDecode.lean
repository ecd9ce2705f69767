import On9log.UnixStdio

/-!
# Reading frames back (tests/on9log_test.cpp:203-245)

`decodeFrames` skips what is outside frames and reads each frame up to its end
byte. On what the stdio sink writes it gives the packets back. `restartFrames`
is no function of the source: a decoder that takes every start byte it sees for
the start of a frame.
-/

namespace On9log

structure Frame where
  type : UInt8 := 0
  payload : List UInt8 := []
  valid : Bool := false
  deriving DecidableEq

/-- What is read of a frame up to its end byte, and the stream after it. -/
structure FrameRead where
  body : List UInt8
  clean : Bool
  ended : Bool
  rest : List UInt8

def unslip (code : UInt8) : Option UInt8 :=
  if code = 0xde then some 0xa5
  else if code = 0xdc then some 0xc0
  else if code = 0xdd then some 0xdb
  else if code = 0xd0 then some 0x0d
  else if code = 0xd1 then some 0x0a
  else none

/-- The inner loop of `decode_frames`. -/
def unescape (body : List UInt8) (clean : Bool) : List UInt8 → FrameRead
  | [] => ⟨body, clean, false, []⟩
  | byte :: rest =>
    if byte = 0xc0 then ⟨body, clean, true, rest⟩
    else if byte = 0xdb then
      match rest with
      | [] => ⟨body ++ [byte], false, false, []⟩
      | code :: rest =>
        match unslip code with
        | some byte => unescape (body ++ [byte]) clean rest
        | none => unescape body false rest
    else
      unescape (body ++ [byte])
        (clean && decide (byte ≠ 0xa5 ∧ byte ≠ 0x0a ∧ byte ≠ 0x0d)) rest

def FrameRead.crc (r : FrameRead) : BitVec 16 :=
  (r.body.getD (r.body.length - 2) 0).toBitVec.setWidth 16 |||
    (r.body.getD (r.body.length - 1) 0).toBitVec.setWidth 16 <<< 8

def FrameRead.frame (r : FrameRead) : Frame :=
  if r.ended ∧ 3 ≤ r.body.length then
    let body := r.body.take (r.body.length - 2)
    { type := body.headD 0
      payload := body.tail
      valid := r.clean && decide (r.crc = crc16Ccitt body) }
  else {}

/-- The outer loop; each turn takes a byte of the stream or more. -/
def decodeFramesFrom : ℕ → List UInt8 → List Frame
  | 0, _ | _, [] => []
  | n + 1, byte :: rest =>
    if byte = 0xa5 then
      (unescape [] true rest).frame :: decodeFramesFrom n (unescape [] true rest).rest
    else decodeFramesFrom n rest

/-- `decode_frames`. -/
def decodeFrames (stream : List UInt8) : List Frame := decodeFramesFrom stream.length stream

/-- A decoder that starts again at every start byte. -/
def restartFrames : List UInt8 → List Frame
  | [] => []
  | byte :: rest =>
    if byte = 0xa5 then
      (unescape [] true (rest.takeWhile (· ≠ 0xa5))).frame :: restartFrames rest
    else restartFrames rest

/-! ### Equations -/

theorem unescape_rest_le (body : List UInt8) (clean : Bool) (stream : List UInt8) :
    (unescape body clean stream).rest.length ≤ stream.length := by
  fun_induction unescape body clean stream with
  | case1 body clean => exact Nat.le_refl _
  | case2 body clean rest => exact Nat.le_succ _
  | case3 body clean => exact Nat.zero_le _
  | case4 body clean code rest _ byte hcode ih =>
    simp only [List.length_cons]
    omega
  | case5 body clean code rest _ hcode ih =>
    simp only [List.length_cons]
    omega
  | case6 body clean byte rest _ _ ih =>
    simp only [List.length_cons]
    omega

theorem decodeFramesFrom_fuel {n m : ℕ} {stream : List UInt8} (hn : stream.length ≤ n)
    (hm : stream.length ≤ m) : decodeFramesFrom n stream = decodeFramesFrom m stream := by
  induction n generalizing m stream with
  | zero =>
    have hnil : stream = [] := List.eq_nil_of_length_eq_zero (by omega)
    rw [hnil]
    cases m <;> rfl
  | succ n ih =>
    cases stream with
    | nil => cases m <;> rfl
    | cons byte rest =>
      rw [List.length_cons] at hn hm
      obtain ⟨m, rfl⟩ : ∃ k, m = k + 1 := ⟨m - 1, by omega⟩
      have hrest := unescape_rest_le [] true rest
      have hskip : decodeFramesFrom n rest = decodeFramesFrom m rest := ih (by omega) (by omega)
      have hnext : decodeFramesFrom n (unescape [] true rest).rest =
          decodeFramesFrom m (unescape [] true rest).rest := ih (by omega) (by omega)
      simp only [decodeFramesFrom]
      rw [hskip, hnext]

theorem decodeFrames_start (rest : List UInt8) :
    decodeFrames (0xa5 :: rest) =
      (unescape [] true rest).frame :: decodeFrames (unescape [] true rest).rest := by
  have hrest := unescape_rest_le [] true rest
  rw [decodeFrames, List.length_cons, decodeFramesFrom, if_pos rfl,
    decodeFramesFrom_fuel hrest (Nat.le_refl _)]
  rfl

theorem decodeFrames_skip {byte : UInt8} (h : byte ≠ 0xa5) (rest : List UInt8) :
    decodeFrames (byte :: rest) = decodeFrames rest := by
  rw [decodeFrames, List.length_cons, decodeFramesFrom, if_neg h]
  rfl

theorem decodeFrames_text {text : List UInt8} (h : ∀ byte ∈ text, byte ≠ 0xa5)
    (rest : List UInt8) : decodeFrames (text ++ rest) = decodeFrames rest := by
  induction text with
  | nil => rfl
  | cons byte text ih =>
    rw [List.cons_append, decodeFrames_skip (h byte (List.mem_cons_self ..))]
    exact ih fun b hb => h b (List.mem_cons_of_mem _ hb)

/-! ### One frame -/

theorem unescape_plain {byte : UInt8} (hend : byte ≠ 0xc0) (hesc : byte ≠ 0xdb)
    (body : List UInt8) (clean : Bool) (rest : List UInt8) :
    unescape body clean (byte :: rest) = unescape (body ++ [byte])
      (clean && decide (byte ≠ 0xa5 ∧ byte ≠ 0x0a ∧ byte ≠ 0x0d)) rest := by
  rw [unescape.eq_def]
  dsimp only
  rw [if_neg hend, if_neg hesc]

theorem unescape_slip (body : List UInt8) (clean : Bool) (byte : UInt8) (rest : List UInt8) :
    unescape body clean (slip byte ++ rest) = unescape (body ++ [byte]) clean rest := by
  unfold slip frameEscape
  split_ifs with h₁ h₂ h₃ h₄ h₅
  · subst h₁
    simp [unescape, unslip]
  · subst h₂
    simp [unescape, unslip]
  · subst h₃
    simp [unescape, unslip]
  · subst h₄
    simp [unescape, unslip]
  · subst h₅
    simp [unescape, unslip]
  · rw [List.singleton_append, unescape_plain h₂ h₃]
    simp [h₁, h₄, h₅]

theorem unescape_body (body : List UInt8) (clean : Bool) (bytes rest : List UInt8) :
    unescape body clean (bytes.flatMap slip ++ frameEnd :: rest) =
      ⟨body ++ bytes, clean, true, rest⟩ := by
  induction bytes generalizing body with
  | nil =>
    rw [List.append_nil, List.flatMap_nil, List.nil_append, unescape.eq_def]
    exact if_pos rfl
  | cons byte bytes ih =>
    rw [List.flatMap_cons, List.append_assoc, unescape_slip, ih, List.append_assoc]
    rfl

theorem getLsbD_mask (i : ℕ) : (0xff#16).getLsbD i = decide (i < 8) := by
  rw [BitVec.getLsbD_ofNat]
  have h255 : (255 : ℕ) = 2 ^ 8 - 1 := rfl
  rw [h255, Nat.testBit_two_pow_sub_one]
  by_cases h : i < 8
  · simp [h]
    omega
  · simp [h]

theorem crc_split (crc : BitVec 16) :
    (crcLow crc).toBitVec.setWidth 16 ||| (crcHigh crc).toBitVec.setWidth 16 <<< 8 = crc := by
  apply BitVec.eq_of_getLsbD_eq
  intro i hi
  simp only [crcLow, crcHigh, BitVec.getLsbD_or, BitVec.getLsbD_shiftLeft, BitVec.getLsbD_setWidth,
    BitVec.getLsbD_and, BitVec.getLsbD_ushiftRight]
  rw [getLsbD_mask]
  by_cases hlow : i < 8
  · simp [hlow, hi]
  · have hsub : 8 + (i - 8) = i := by omega
    have hlt : i - 8 < 8 := by omega
    simp [hlow, hi, hsub, hlt]
    omega

/-- A frame that was read whole. -/
def goodFrame (type : UInt8) (payload : List UInt8) : Frame := ⟨type, payload, true⟩

theorem frame_of_body (type : UInt8) (payload rest : List UInt8) :
    FrameRead.frame ⟨frameBody type payload, true, true, rest⟩ = goodFrame type payload := by
  have hlen : (frameBody type payload).length = (type :: payload).length + 2 := by
    simp [frameBody]
  have htake : (frameBody type payload).take ((frameBody type payload).length - 2) =
      type :: payload := by
    rw [hlen, Nat.add_sub_cancel, frameBody, List.cons_append, ← List.cons_append,
      List.take_left' rfl]
  have hcrc : FrameRead.crc ⟨frameBody type payload, true, true, rest⟩ =
      crc16Ccitt (type :: payload) := by
    have hlow : (frameBody type payload).getD (type :: payload).length 0 =
        crcLow (crc16Ccitt (type :: payload)) := by
      rw [frameBody, List.getD_eq_getElem?_getD, List.getElem?_append_right (Nat.le_refl _),
        Nat.sub_self]
      rfl
    have hhigh : (frameBody type payload).getD ((type :: payload).length + 1) 0 =
        crcHigh (crc16Ccitt (type :: payload)) := by
      rw [frameBody, List.getD_eq_getElem?_getD, List.getElem?_append_right (Nat.le_add_right _ 1),
        Nat.add_sub_cancel_left]
      rfl
    have hlast : (type :: payload).length + 2 - 1 = (type :: payload).length + 1 := rfl
    unfold FrameRead.crc
    dsimp only
    rw [hlen, Nat.add_sub_cancel, hlast, hlow, hhigh, crc_split]
  unfold FrameRead.frame
  dsimp only
  rw [if_pos ⟨rfl, by rw [hlen, List.length_cons]; omega⟩, htake, hcrc]
  simp [goodFrame]

theorem decodeFrames_frame (type : UInt8) (payload rest : List UInt8) :
    decodeFrames (frameBytes type payload ++ rest) = goodFrame type payload :: decodeFrames rest := by
  have hread : unescape [] true ((frameBody type payload).flatMap slip ++ frameEnd :: rest) =
      ⟨frameBody type payload, true, true, rest⟩ := unescape_body [] true _ rest
  rw [frameBytes, List.cons_append, List.cons_append, List.append_assoc, List.cons_append,
    List.nil_append, frameStart, decodeFrames_start, hread, frame_of_body]

/-! ### Starting again -/

theorem restartFrames_sublist (garbage rest : List UInt8) :
    (restartFrames rest).Sublist (restartFrames (garbage ++ rest)) := by
  induction garbage with
  | nil => exact List.Sublist.refl _
  | cons byte garbage ih =>
    rw [List.cons_append, restartFrames]
    split
    · exact ih.cons _
    · exact ih

theorem restartFrames_frame (type : UInt8) (payload rest : List UInt8) :
    restartFrames (frameBytes type payload ++ rest) = goodFrame type payload :: restartFrames rest := by
  have hbody : ∀ byte ∈ (frameBody type payload).flatMap slip ++ [frameEnd],
      (byte ≠ 0xa5) := by
    intro byte hmem hstart
    subst hstart
    rcases List.mem_append.mp hmem with hmem | hmem
    · exact not_mem_body (Or.inl rfl) type payload hmem
    · cases List.mem_singleton.mp hmem
  have hskip : ∀ (l rest : List UInt8), (∀ byte ∈ l, byte ≠ 0xa5) →
      restartFrames (l ++ rest) = restartFrames rest := by
    intro l rest h
    induction l with
    | nil => rfl
    | cons byte l ih =>
      rw [List.cons_append, restartFrames, if_neg (h byte (List.mem_cons_self ..))]
      exact ih fun b hb => h b (List.mem_cons_of_mem _ hb)
  have htake : (((frameBody type payload).flatMap slip ++ [frameEnd]) ++ rest).takeWhile
      (fun byte => decide (byte ≠ 0xa5)) =
        (frameBody type payload).flatMap slip ++ frameEnd :: rest.takeWhile (· ≠ 0xa5) := by
    rw [List.takeWhile_append_of_pos fun byte hmem => decide_eq_true (hbody byte hmem),
      List.append_assoc]
    rfl
  have hread : unescape [] true ((frameBody type payload).flatMap slip ++
      frameEnd :: rest.takeWhile (· ≠ 0xa5)) =
        ⟨frameBody type payload, true, true, rest.takeWhile (· ≠ 0xa5)⟩ :=
    unescape_body [] true _ _
  rw [frameBytes, List.cons_append, List.cons_append, frameStart, restartFrames, if_pos rfl, htake,
    hread, frame_of_body, hskip _ _ hbody]

/-! ### What is on the stream -/

/-- What goes to the stream: text of the application, or a packet. -/
inductive StreamItem where
  | text (bytes : List UInt8)
  | packet (p : SinkPacket)

/-- The stream is the sink's alone but for whole pieces of text between packets. -/
def StdioState.item (fputc : ℕ → Bool) (s : StdioState) : StreamItem → StdioState
  | .text bytes => { s with stream := s.stream ++ bytes }
  | .packet p => s.deliver fputc p

def StdioState.items (fputc : ℕ → Bool) (s : StdioState) (items : List StreamItem) : StdioState :=
  items.foldl (StdioState.item fputc) s

/-- The bytes of a packet that is not dropped. -/
def StreamItem.kept : StreamItem → Option (List UInt8)
  | .text _ => none
  | .packet p => fits p.content

def StreamItem.bytes : StreamItem → List UInt8
  | .text bytes => bytes
  | .packet p => (fits p.content).elim [] (frameBytes frameTypeOn9log)

theorem StdioState.items_stream {fputc : ℕ → Bool} (hputs : ∀ n, fputc n = true) (s : StdioState)
    (items : List StreamItem) :
    (s.items fputc items).stream = s.stream ++ items.flatMap StreamItem.bytes := by
  unfold StdioState.items
  induction items generalizing s with
  | nil => exact (List.append_nil _).symm
  | cons item items ih =>
    have hone : (s.item fputc item).stream = s.stream ++ item.bytes := by
      cases item with
      | text bytes => rfl
      | packet p => exact StdioState.deliver_stream hputs s p
    rw [List.foldl_cons, ih, hone, List.flatMap_cons, List.append_assoc]

theorem decodeFrames_items {items : List StreamItem}
    (htext : ∀ bytes, .text bytes ∈ items → 0xa5 ∉ bytes) :
    decodeFrames (items.flatMap StreamItem.bytes) =
      (items.filterMap StreamItem.kept).map (goodFrame frameTypeOn9log) := by
  induction items with
  | nil => rfl
  | cons item items ih =>
    have hrest := ih fun bytes hmem => htext bytes (List.mem_cons_of_mem _ hmem)
    rw [List.flatMap_cons]
    cases item with
    | text bytes =>
      have hclear : ∀ byte ∈ bytes, byte ≠ 0xa5 := by
        intro byte hmem he
        exact htext bytes (List.mem_cons_self ..) (he ▸ hmem)
      rw [StreamItem.bytes, decodeFrames_text hclear, hrest]
      rfl
    | packet p =>
      have hkept : (StreamItem.packet p).kept = fits p.content := rfl
      cases hfits : fits p.content with
      | none =>
        rw [hfits] at hkept
        rw [StreamItem.bytes, hfits, Option.elim_none, List.nil_append, hrest,
          List.filterMap_cons_none hkept]
      | some bytes =>
        rw [hfits] at hkept
        rw [StreamItem.bytes, hfits, Option.elim_some, decodeFrames_frame, hrest,
          List.filterMap_cons_some hkept, List.map_cons]

theorem restartFrames_items (items : List StreamItem) :
    ((items.filterMap StreamItem.kept).map (goodFrame frameTypeOn9log)).Sublist
      (restartFrames (items.flatMap StreamItem.bytes)) := by
  induction items with
  | nil => exact List.Sublist.refl _
  | cons item items ih =>
    rw [List.flatMap_cons]
    cases item with
    | text bytes => exact ih.trans (restartFrames_sublist bytes _)
    | packet p =>
      have hkept : (StreamItem.packet p).kept = fits p.content := rfl
      cases hfits : fits p.content with
      | none =>
        rw [hfits] at hkept
        rw [StreamItem.bytes, hfits, Option.elim_none, List.nil_append,
          List.filterMap_cons_none hkept]
        exact ih
      | some bytes =>
        rw [hfits] at hkept
        rw [StreamItem.bytes, hfits, Option.elim_some, restartFrames_frame,
          List.filterMap_cons_some hkept, List.map_cons]
        exact ih.cons_cons _

/-- The frames of the stdio sink read back as the packets that fit, whatever
text without a start byte stands between them. -/
theorem stdio_frames_decode {fputc : ℕ → Bool} (hputs : ∀ n, fputc n = true) {s : StdioState}
    (hs : s.stream = []) (items : List StreamItem) :
    ((∀ bytes, .text bytes ∈ items → 0xa5 ∉ bytes) →
      decodeFrames (s.items fputc items).stream =
        (items.filterMap StreamItem.kept).map (goodFrame frameTypeOn9log)) ∧
    ((items.filterMap StreamItem.kept).map (goodFrame frameTypeOn9log)).Sublist
      (restartFrames (s.items fputc items).stream) ∧
    ∀ (s : StdioState) (p : SinkPacket), ∃ bytes,
      (s.deliver fputc p).stream = s.stream ++ bytes ∧
      (fits p.content = none → bytes = []) ∧
      (fits p.content ≠ none → ∃ inside, bytes = 0xa5 :: inside ++ [0xc0] ∧
        0xa5 ∉ inside ∧ 0xc0 ∉ inside ∧ 0x0d ∉ inside ∧ 0x0a ∉ inside) := by
  have hstream := StdioState.items_stream hputs s items
  rw [hs, List.nil_append] at hstream
  refine ⟨fun htext => ?_, ?_, fun s p => ⟨_, StdioState.deliver_stream hputs s p, ?_, ?_⟩⟩
  · rw [hstream]
    exact decodeFrames_items htext
  · rw [hstream]
    exact restartFrames_items items
  · intro hnone
    rw [hnone]
    rfl
  · intro hsome
    obtain ⟨content, hcontent⟩ := Option.ne_none_iff_exists'.mp hsome
    refine ⟨(frameBody frameTypeOn9log content).flatMap slip, ?_, ?_, ?_, ?_, ?_⟩
    · rw [hcontent]
      rfl
    · exact not_mem_body (Or.inl rfl) _ _
    · exact not_mem_body (Or.inr (Or.inl rfl)) _ _
    · exact not_mem_body (Or.inr (Or.inr (Or.inl rfl))) _ _
    · exact not_mem_body (Or.inr (Or.inr (Or.inr rfl))) _ _

/-- A packet with the marks in it, one that is too long, and text between them. -/
def smokeItems : List StreamItem :=
  [.text [0x68, 0x0a], .packet ⟨some [0xa5, 0xc0], [some [0xdb, 0x0a], some [0x0d, 0x9a]]⟩,
    .packet ⟨some [1], [some (List.replicate 3072 0)]⟩, .packet ⟨some [7], []⟩]

theorem stdio_frames_decode_smoke :
    decodeFrames (StdioState.init.items (fun _ => true) smokeItems).stream =
      [goodFrame 1 [0xa5, 0xc0, 0xdb, 0x0a, 0x0d, 0x9a], goodFrame 1 [7]] := by
  have hkept : (smokeItems.filterMap StreamItem.kept).map (goodFrame frameTypeOn9log) =
      [goodFrame 1 [0xa5, 0xc0, 0xdb, 0x0a, 0x0d, 0x9a], goodFrame 1 [7]] := by
    decide +kernel
  have hputs : ∀ n, (fun _ : ℕ => true) n = true := fun _ => rfl
  have hdecode := (stdio_frames_decode hputs (s := .init) rfl smokeItems).1
  rw [← hkept]
  apply hdecode
  intro bytes hmem
  simp only [smokeItems, List.mem_cons, reduceCtorEq, StreamItem.text.injEq, List.not_mem_nil,
    or_false] at hmem
  rw [hmem]
  decide

end On9log
