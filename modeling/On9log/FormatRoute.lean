import On9log.TextLine

/-!
# printf or fmt (on9log.hpp:574-673, 702-763)

In plain-text mode the C++ wrapper looks at a format and sends it to printf or
to fmt. fmt is not part of the repository: `Fmt` takes its field parser and its
`format_to` as parameters, with what its documentation says of them. A position
in a format is the list of the bytes from there to the NUL.
-/

namespace On9log

/-! ### The two scanners -/

/-- The bytes `has_fmt_replacement` takes for the start of a replacement field. -/
def opensField (next : UInt8) : Bool :=
  next = chr '}' ∨ next = chr ':' ∨ next = chr '_' ∨ (chr '0' ≤ next ∧ next ≤ chr '9') ∨
    (chr 'A' ≤ next ∧ next ≤ chr 'Z') ∨ (chr 'a' ≤ next ∧ next ≤ chr 'z')

/-- The loop of `has_fmt_replacement`; behind the last byte stands the NUL, which opens nothing. -/
def hasReplacementFrom : Text → Bool
  | [] => false
  | [_] => false
  | c :: next :: p =>
    if c ≠ chr '{' then hasReplacementFrom (next :: p)
    else if next = chr '{' then hasReplacementFrom p
    else if opensField next then true
    else hasReplacementFrom (next :: p)

def hasFmtReplacement : Option CStr → Bool
  | none => false
  | some format => hasReplacementFrom format.bytes

/-- The flags of this scanner; that of the binary build knows no apostrophe. -/
def isConversionFlag (c : UInt8) : Bool := isPrintfFlag c || c = 0x27

def skipStarOrDigits (p : Text) : Text :=
  if p.head? = some (chr '*') then p.tail else skipPrintfInteger p

/-- From behind a `%` to the conversion character. -/
def conversionAt (p : Text) : Text :=
  let p := skipStarOrDigits (p.dropWhile isConversionFlag)
  let p := if p.head? = some (chr '.') then skipStarOrDigits p.tail else p
  skipPrintfLength p

def isConversion (c : UInt8) : Bool :=
  c ∈ chars ['d', 'i', 'o', 'u', 'x', 'X', 'f', 'F', 'e', 'E', 'g', 'G', 'a', 'A', 'c', 's', 'p',
    'n']

/-- The loop of `has_printf_conversion`. It goes on behind the character it stopped at. -/
def hasConversionFrom : ℕ → Text → Bool
  | 0, _ | _, [] => false
  | n + 1, c :: p =>
    if c ≠ chr '%' then hasConversionFrom n p
    else if p.head? = some (chr '%') then true
    else
      match conversionAt p with
      | [] => false
      | conv :: rest => if isConversion conv then true else hasConversionFrom n rest

/-- Every turn takes a byte or more, so the length of the format is fuel enough. -/
def hasPrintfConversion : Option CStr → Bool
  | none => false
  | some format => hasConversionFrom format.bytes.length format.bytes

def usesPrintfFormat (format : Option CStr) : Bool :=
  !hasFmtReplacement format && hasPrintfConversion format

/-! ### Arguments -/

/-- The argument types the wrapper tells apart; integers and enums by their size. -/
inductive ArgKind
  | integral (bytes : ℕ)
  | floating
  | enum (bytes : ℕ)
  | charPointer
  | pointer
  | charArray
  | array
  | nullPointer
  | stringView
  deriving DecidableEq

structure CppArg where
  kind : ArgKind
  value : ℕ
  deriving DecidableEq

/-- `arg_type_code`. -/
def CppArg.typeCode (arg : CppArg) : ArgsType :=
  match arg.kind with
  | .stringView => .dynamicStringView
  | .charPointer | .charArray => .dynamicString
  | .array | .nullPointer | .pointer => .pointer
  | .floating => .bits64
  | .integral bytes | .enum bytes => if bytes > 4 then .bits64 else .bits32

/-- `is_printf_arg_v`. -/
def CppArg.isPrintfArg (arg : CppArg) : Bool := arg.kind ≠ .stringView

inductive TextRoute
  | printf
  | fmt
  deriving DecidableEq

/-- Where `write_log` and `write_log_isr` send a format. -/
def textRoute (format : Option CStr) (args : List CppArg) : TextRoute :=
  if args.all CppArg.isPrintfArg ∧ usesPrintfFormat format then .printf else .fmt

/-- `format != nullptr ? format : ""`. -/
def formatBytes : Option CStr → Text
  | none => []
  | some format => format.bytes

/-! ### fmt -/

/-- The format strings of fmt's documentation, with `field` for what stands behind an opening
brace: literal bytes, doubled braces and replacement fields. -/
inductive FmtString {σ : Type} (field : σ → Text → Option (σ × Text)) : σ → Text → Prop
  | nil (st : σ) : FmtString field st []
  | literal (st : σ) (c : UInt8) (text : Text) : c ≠ chr '{' → c ≠ chr '}' →
      FmtString field st text → FmtString field st (c :: text)
  | openBrace (st : σ) (text : Text) : FmtString field st text →
      FmtString field st (chr '{' :: chr '{' :: text)
  | closeBrace (st : σ) (text : Text) : FmtString field st text →
      FmtString field st (chr '}' :: chr '}' :: text)
  | replacement (st st' : σ) (text rest : Text) : text.head? ≠ some (chr '{') →
      field st text = some (st', rest) → FmtString field st' rest →
      FmtString field st (chr '{' :: text)

/-- fmt, as far as the wrapper relies on it. `field` reads a replacement field up to its closing
brace and fails if it is malformed or names no argument; the state numbers the arguments. -/
structure Fmt where
  State : Type
  start : State
  field : List CppArg → State → Text → Option (State × Text)
  /-- `format_to`, `none` for `format_error`. -/
  formatTo : Text → List CppArg → Option Text
  /-- A field is closed, or starts with a colon, a number or a name. -/
  field_starts : ∀ {args st text r}, field args st text = some r →
    opensField (text.headD 0) = true
  formatTo_accepts : ∀ format args, (formatTo format args).isSome = true ↔
    FmtString (field args) start format

/-- Every brace is doubled. -/
def bracesDoubled : Text → Bool
  | [] => true
  | [c] => c ≠ chr '{' ∧ c ≠ chr '}'
  | c :: d :: p =>
    if c = chr '{' ∨ c = chr '}' then decide (d = c) && bracesDoubled p else bracesDoubled (d :: p)

/-- What a format string can start with. -/
theorem FmtString.cons_cases {σ : Type} {field : σ → Text → Option (σ × Text)} {st : σ}
    {c : UInt8} {text : Text} (h : FmtString field st (c :: text)) :
    (c ≠ chr '{' ∧ c ≠ chr '}' ∧ FmtString field st text) ∨
    ((c = chr '{' ∨ c = chr '}') ∧ ∃ p, text = c :: p ∧ FmtString field st p) ∨
    (c = chr '{' ∧ text.head? ≠ some (chr '{') ∧ ∃ r, field st text = some r) := by
  cases h with
  | literal _ _ _ hopen hclose h => exact .inl ⟨hopen, hclose, h⟩
  | openBrace _ p h => exact .inr (.inl ⟨.inl rfl, p, rfl, h⟩)
  | closeBrace _ p h => exact .inr (.inl ⟨.inr rfl, p, rfl, h⟩)
  | replacement _ st' _ rest hhead hread _ => exact .inr (.inr ⟨rfl, hhead, _, hread⟩)

theorem FmtString.doubled {σ : Type} {field : σ → Text → Option (σ × Text)} {st : σ} {c : UInt8}
    {text : Text} (hc : c = chr '{' ∨ c = chr '}') (h : FmtString field st text) :
    FmtString field st (c :: c :: text) := by
  rcases hc with rfl | rfl
  · exact .openBrace st text h
  · exact .closeBrace st text h

theorem hasReplacementFrom_skip {c : UInt8} (hc : c ≠ chr '{') (text : Text) :
    hasReplacementFrom (c :: text) = hasReplacementFrom text := by
  cases text with
  | nil => rfl
  | cons d p => rw [hasReplacementFrom, if_pos hc]

/-- Without what looks like a replacement field, fmt accepts a format just when its braces are
doubled. -/
theorem fmtString_iff_doubled {σ : Type} {field : σ → Text → Option (σ × Text)}
    (hfield : ∀ {st text r}, field st text = some r → opensField (text.headD 0) = true)
    (st : σ) (format : Text) (h : hasReplacementFrom format = false) :
    FmtString field st format ↔ bracesDoubled format = true := by
  have hend : opensField 0 = false := by decide
  fun_induction bracesDoubled format with
  | case1 => simp [FmtString.nil]
  | case2 c =>
    rw [decide_eq_true_iff]
    constructor
    · intro hfmt
      rcases hfmt.cons_cases with ⟨hopen, hclose, -⟩ | ⟨-, p, hp, -⟩ | ⟨-, -, r, hr⟩
      · exact ⟨hopen, hclose⟩
      · cases hp
      · exact absurd (hfield hr) (by rw [List.headD_nil, hend]; decide)
    · rintro ⟨hopen, hclose⟩
      exact .literal st c [] hopen hclose (.nil st)
  | case3 c d p hbrace ih =>
    rw [Bool.and_eq_true, decide_eq_true_iff]
    have hstray : c = chr '{' → d ≠ c → opensField d = false := by
      rintro rfl hd
      rw [hasReplacementFrom, if_neg (not_not.mpr rfl), if_neg hd] at h
      by_contra hopens
      rw [Bool.not_eq_false] at hopens
      rw [if_pos hopens] at h
      exact absurd h (by decide)
    have hskip : d = c → hasReplacementFrom p = false := by
      rintro rfl
      by_cases hopen : d = chr '{'
      · rwa [hopen, hasReplacementFrom, if_neg (not_not.mpr rfl), if_pos rfl] at h
      · rwa [hasReplacementFrom_skip hopen, hasReplacementFrom_skip hopen] at h
    constructor
    · intro hfmt
      rcases hfmt.cons_cases with ⟨hopen, hclose, -⟩ | ⟨-, q, hq, hrest⟩ | ⟨hopen, hhead, r, hr⟩
      · exact absurd hbrace (not_or.mpr ⟨hopen, hclose⟩)
      · cases hq
        exact ⟨rfl, (ih (hskip rfl)).mp hrest⟩
      · have hne : d ≠ c := by
          rintro rfl
          exact hhead (by rw [List.head?_cons, hopen])
        have hopens := hfield hr
        rw [List.headD_cons, hstray hopen hne] at hopens
        exact absurd hopens (by decide)
    · rintro ⟨rfl, hp⟩
      exact .doubled hbrace ((ih (hskip rfl)).mpr hp)
  | case4 c d p hplain ih =>
    rw [not_or] at hplain
    rw [hasReplacementFrom_skip hplain.1] at h
    refine Iff.trans ?_ (ih h)
    constructor
    · intro hfmt
      rcases hfmt.cons_cases with ⟨-, -, hrest⟩ | ⟨hbrace, -⟩ | ⟨hopen, -⟩
      · exact hrest
      · exact absurd hbrace (not_or.mpr hplain)
      · exact absurd hopen hplain.1
    · exact .literal st c _ hplain.1 hplain.2

/-- `write_log` sends a format to fmt only if fmt accepts it, just when one of these holds: printf
gets it; it has nothing like a replacement field and its braces are doubled; or it is a format
string of fmt for the arguments. -/
theorem fmt_route_accepts (fmt : Fmt) (format : Option CStr) (args : List CppArg)
    (hargs : args.all CppArg.isPrintfArg = true) :
    (textRoute format args = .fmt → (fmt.formatTo (formatBytes format) args).isSome = true) ↔
      usesPrintfFormat format = true ∨
      (hasFmtReplacement format = false ∧ bracesDoubled (formatBytes format) = true) ∨
      (hasFmtReplacement format = true ∧
        FmtString (fmt.field args) fmt.start (formatBytes format)) := by
  have hroute : textRoute format args = .fmt ↔ ¬usesPrintfFormat format = true := by
    unfold textRoute
    by_cases huses : usesPrintfFormat format = true <;> simp [hargs, huses]
  rw [hroute, fmt.formatTo_accepts]
  by_cases huses : usesPrintfFormat format = true
  · simp only [huses, not_true_eq_false, false_implies, true_or]
  · rw [Bool.not_eq_true] at huses
    simp only [huses, Bool.false_eq_true, not_false_eq_true, forall_const, false_or]
    cases hlook : hasFmtReplacement format with
    | true => simp
    | false =>
      have hfrom : hasReplacementFrom (formatBytes format) = false := by
        cases format with
        | none => rfl
        | some format => exact hlook
      simp [fmtString_iff_doubled fmt.field_starts fmt.start _ hfrom]

/-! ### A fmt with plain fields -/

/-- The grammar as a scanner; a field takes at least its closing brace. -/
def fmtScan {σ : Type} (field : σ → Text → Option (σ × Text)) : ℕ → σ → Text → Bool
  | _, _, [] => true
  | 0, _, _ :: _ => false
  | n + 1, st, c :: text =>
    if c = chr '{' then
      if text.head? = some (chr '{') then fmtScan field n st text.tail
      else
        match field st text with
        | some (st, rest) => fmtScan field n st rest
        | none => false
    else if c = chr '}' then
      if text.head? = some (chr '}') then fmtScan field n st text.tail else false
    else fmtScan field n st text

theorem fmtScan_iff {σ : Type} {field : σ → Text → Option (σ × Text)}
    (htakes : ∀ {st text st' rest}, field st text = some (st', rest) → rest.length < text.length)
    (n : ℕ) (st : σ) (text : Text) (hn : text.length ≤ n) :
    fmtScan field n st text = true ↔ FmtString field st text := by
  induction n generalizing st text with
  | zero =>
    rw [List.length_eq_zero_iff.mp (Nat.le_zero.mp hn)]
    simp [fmtScan, FmtString.nil]
  | succ n ih =>
    cases text with
    | nil => simp [fmtScan, FmtString.nil]
    | cons c text =>
      rw [List.length_cons] at hn
      have hdouble : ∀ {b : UInt8}, (b = chr '{' ∨ b = chr '}') → text.head? = some b →
          FmtString field st text.tail → FmtString field st (b :: text) := by
        intro b hb hhead hrest
        obtain ⟨p, rfl⟩ := List.head?_eq_some_iff.mp hhead
        exact hrest.doubled hb
      unfold fmtScan
      constructor
      · intro h
        split at h
        case isTrue hopen =>
          subst hopen
          split at h
          case isTrue hhead =>
            exact hdouble (.inl rfl) hhead ((ih st text.tail (by simp; omega)).mp h)
          case isFalse hhead =>
            split at h
            next st' rest hread =>
              have := htakes hread
              exact .replacement st st' text rest hhead hread ((ih st' rest (by omega)).mp h)
            next => cases h
        case isFalse hopen =>
          split at h
          case isTrue hclose =>
            subst hclose
            split at h
            case isTrue hhead =>
              exact hdouble (.inr rfl) hhead ((ih st text.tail (by simp; omega)).mp h)
            case isFalse => cases h
          case isFalse hclose => exact .literal st c text hopen hclose ((ih st text (by omega)).mp h)
      · have hbraces : chr '}' ≠ chr '{' := by decide
        intro h
        cases h with
        | literal _ _ _ hopen hclose hrest =>
          rw [if_neg hopen, if_neg hclose]
          exact (ih st text (by omega)).mpr hrest
        | openBrace _ p hrest =>
          rw [List.length_cons] at hn
          rw [if_pos rfl, if_pos (List.head?_cons ..), List.tail_cons]
          exact (ih st p (by omega)).mpr hrest
        | closeBrace _ p hrest =>
          rw [List.length_cons] at hn
          rw [if_neg hbraces, if_pos rfl, if_pos (List.head?_cons ..), List.tail_cons]
          exact (ih st p (by omega)).mpr hrest
        | replacement _ st' _ rest hhead hread hrest =>
          have := htakes hread
          rw [if_pos rfl, if_neg hhead, hread]
          exact (ih st' rest (by omega)).mpr hrest

/-- A field with nothing between its braces: the next argument. -/
def plainField (args : List CppArg) (next : ℕ) : Text → Option (ℕ × Text)
  | [] => none
  | c :: rest => if c = chr '}' ∧ next < args.length then some (next + 1, rest) else none

theorem plainField_closes {args : List CppArg} {next next' : ℕ} {text rest : Text}
    (h : plainField args next text = some (next', rest)) : text = chr '}' :: rest := by
  cases text with
  | nil => cases h
  | cons c text =>
    rw [plainField] at h
    split at h
    case isTrue hc =>
      cases h
      rw [hc.1]
    case isFalse => cases h

/-- The text of a format that is accepted, every field an integer. -/
def plainText (args : List CppArg) : ℕ → ℕ → Text → Text
  | n + 1, next, c :: text =>
    if (c = chr '{' ∨ c = chr '}') ∧ text.head? = some c then c :: plainText args n next text.tail
    else if c = chr '{' then
      textU32 ((args.map CppArg.value).getD next 0) ++ plainText args n (next + 1) text.tail
    else c :: plainText args n next text
  | _, _, _ => []

/-- A fmt that knows only such fields and such arguments. -/
def plainFmt : Fmt where
  State := ℕ
  start := 0
  field := plainField
  formatTo format args :=
    if fmtScan (plainField args) format.length 0 format then
      some (plainText args format.length 0 format)
    else none
  field_starts := by
    intro args next text r h
    rw [plainField_closes h, List.headD_cons]
    decide
  formatTo_accepts format args := by
    have hscan := @fmtScan_iff ℕ (plainField args)
      (fun h => by rw [plainField_closes h, List.length_cons]; omega) format.length 0 format le_rfl
    rw [← hscan]
    split <;> simp [*]

def intArg : CppArg := ⟨.integral 4, 7⟩

/-- `{x}=%d`, a printf format with braces. -/
def bracedFormat : CStr := ⟨chars ['{', 'x', '}', '=', '%', 'd'], by decide⟩

theorem fmt_route_rejected : textRoute (some bracedFormat) [intArg] = .fmt ∧
    [intArg].all CppArg.isPrintfArg = true ∧
    (plainFmt.formatTo (formatBytes (some bracedFormat)) [intArg]).isSome = false := by
  decide

def doubledFormat : CStr := ⟨chars ['{', '{', 'x', '}', '}'], by decide⟩

theorem fmt_route_accepts_doubled :
    (plainFmt.formatTo (formatBytes (some doubledFormat)) [intArg]).isSome = true :=
  (fmt_route_accepts plainFmt (some doubledFormat) [intArg] (by decide)).mpr
    (.inr (.inl (by decide))) (by decide)

end On9log
