import SwapPricing.Document.Json

/-!
# Reading printed documents

A document that consists of words, strings, lists and records reads back from
its indented form.  A reader that stands in front of a printed value takes all
of it and leaves what follows, as long as that cannot go on a number.
-/

namespace SwapPricing
namespace Document

namespace Value

mutual

/-- Whether a value consists of words, strings, lists and records. -/
def isPlain : Value → Bool
  | null => true
  | bool _ => true
  | integer n => 0 ≤ n ∧ n < UInt64.size
  | text _ => true
  | list items => itemsPlain items
  | record fields => fieldsPlain fields
  | _ => false

def itemsPlain : List Value → Bool
  | [] => true
  | item :: rest => isPlain item && itemsPlain rest

def fieldsPlain : List (String × Value) → Bool
  | [] => true
  | (_, value) :: rest => isPlain value && fieldsPlain rest

end

end Value

/-!
# Scans
-/

namespace Scan

theorem bind_apply {α β : Type} (x : Scan α) (f : α → Scan β) (text : List Char) :
    (x >>= f) text = (x text).bind fun read => f read.1 read.2 :=
  rfl

theorem bind_of_eq_some {α β : Type} {x : Scan α} {text rest : List Char} {a : α}
    (h : x text = some (a, rest)) (f : α → Scan β) : (x >>= f) text = f a rest := by
  rw [bind_apply, h]
  rfl

theorem bind_congr {α β : Type} {x : Scan α} {text other : List Char} (h : x text = x other)
    (f : α → Scan β) : (x >>= f) text = (x >>= f) other := by
  rw [bind_apply, bind_apply, h]

theorem orElse_of_eq_some {α : Type} {x : Scan α} {text rest : List Char} {a : α}
    (h : x text = some (a, rest)) (y : Scan α) : (x <|> y) text = some (a, rest) := by
  show (x text <|> y text) = some (a, rest)
  rw [h]
  rfl

theorem orElse_of_eq_none {α : Type} {x : Scan α} {text : List Char} (h : x text = none)
    (y : Scan α) : (x <|> y) text = y text := by
  show (x text <|> y text) = y text
  rw [h]
  rfl

theorem word_append (expected : String) (rest : List Char) :
    word expected (expected.toList ++ rest) = some ((), rest) := by
  unfold word
  simp

theorem word_of_ne {expected : String} {first c : Char} {letters : List Char}
    (hexpected : expected.toList = first :: letters) (h : c ≠ first) (rest : List Char) :
    word expected (c :: rest) = none := by
  unfold word
  simp [hexpected, h.symm]

theorem char_self (c : Char) (rest : List Char) : char c (c :: rest) = some ((), rest) := by
  have hone : oneOf (· == c) (c :: rest) = some (c, rest) := by simp [oneOf]
  exact bind_of_eq_some hone _

theorem accept_self (c : Char) (rest : List Char) : accept c (c :: rest) = some (true, rest) := by
  unfold accept attempt
  rw [bind_apply, char_self]
  rfl

theorem accept_of_head? {c : Char} {text : List Char} (h : text.head? ≠ some c) :
    accept c text = some (false, text) := by
  have hchar : char c text = none := by
    cases text with
    | nil => rfl
    | cons d rest =>
        have hne : d ≠ c := fun heq => h (by rw [heq]; rfl)
        have hone : oneOf (· == c) (d :: rest) = none := by simp [oneOf, hne]
        unfold char
        rw [bind_apply, hone]
        rfl
  unfold accept attempt
  rw [bind_apply, hchar]
  rfl

theorem accept_of_ne {c d : Char} (h : d ≠ c) (rest : List Char) :
    accept c (d :: rest) = some (false, d :: rest) :=
  accept_of_head? fun heq => h (Option.some.inj heq)

theorem dropWhile_eq_self {p : Char → Bool} {text : List Char}
    (h : ∀ c ∈ text.head?, p c = false) : text.dropWhile p = text := by
  cases text with
  | nil => rfl
  | cons c rest => simp [h c rfl]

theorem run1_append {p : Char → Bool} {taken rest : List Char} (hne : taken ≠ [])
    (htaken : ∀ c ∈ taken, p c = true) (hrest : ∀ c ∈ rest.head?, p c = false) :
    run1 p (taken ++ rest) = some (taken, rest) := by
  have htake : rest.takeWhile p = [] := by
    cases rest with
    | nil => rfl
    | cons c rest => simp [hrest c rfl]
  unfold run1
  rw [List.takeWhile_append_of_pos htaken, List.dropWhile_append_of_pos htaken, htake,
    dropWhile_eq_self hrest, List.append_nil]
  simp [hne]

end Scan

namespace Json

open Text.Numeral (digit?)
open Scan (bind_apply bind_of_eq_some accept_self accept_of_ne char_self)

/-!
# Strings
-/

theorem pieces_cons {c : Char} {text rest : List Char} {ps : List Piece} (hquote : c ≠ '"')
    (hslash : c ≠ '\\') (hcontrol : ¬ c.toNat < 0x20) (h : pieces text = some (ps, rest)) :
    pieces (c :: text) = some (.char c :: ps, rest) := by
  rw [pieces.eq_5 c text hquote (fun _ _ _ _ _ heq _ => hslash heq) fun _ _ heq _ => hslash heq,
    if_neg hcontrol, h]
  rfl

theorem pieces_escaped {letter c : Char} {text rest : List Char} {ps : List Piece}
    (hletter : escaped? letter = some c) (h : pieces text = some (ps, rest)) :
    pieces ('\\' :: letter :: text) = some (.char c :: ps, rest) := by
  have hunit : letter ≠ 'u' := by
    intro heq
    rw [heq] at hletter
    cases hletter
  rw [pieces.eq_4 letter text fun _ _ _ _ _ heq _ => hunit heq, hletter, h]
  rfl

/-- The digits of a control character. -/
theorem number_control {n : Nat} (h : n < 0x20) :
    (Text.Hex.number 4 n).toList =
      ['0', '0', Text.Hex.digit (n / 16), Text.Hex.digit (n % 16)] := by
  have hdigits : Text.Hex.digitsBefore n [] =
      if n < 16 then [Text.Hex.digit n]
      else [Text.Hex.digit (n / 16), Text.Hex.digit (n % 16)] := by
    rw [Text.Hex.digitsBefore]
    split
    · rfl
    · rw [Text.Hex.digitsBefore, dif_pos (by omega)]
  unfold Text.Hex.number
  rw [hdigits, String.toList_ofList]
  split
  · rename_i hsmall
    rw [Nat.div_eq_of_lt hsmall, Nat.mod_eq_of_lt hsmall]
    rfl
  · rfl

theorem unitOf_control {n : Nat} (h : n < 0x20) :
    unitOf ['0', '0', Text.Hex.digit (n / 16), Text.Hex.digit (n % 16)] =
      some (.char (Char.ofNat n)) := by
  have hall : ∀ n < 0x20,
      (['0', '0', Text.Hex.digit (n / 16), Text.Hex.digit (n % 16)].all fun c =>
        (Text.Hex.charValue? c).isSome) = true ∧
      digitsValue 16 Text.Hex.charValue?
        ['0', '0', Text.Hex.digit (n / 16), Text.Hex.digit (n % 16)] = n := by
    decide
  unfold unitOf Piece.ofUnit
  rw [if_pos (hall n h).1, (hall n h).2, if_neg (by omega)]

theorem pieces_escape (c : Char) {text rest : List Char} {ps : List Piece}
    (h : pieces text = some (ps, rest)) :
    pieces (escape c ++ text) = some (.char c :: ps, rest) := by
  fun_cases escape c with
  | case1 hc =>
      subst hc
      exact pieces_escaped rfl h
  | case2 _ hc =>
      subst hc
      exact pieces_escaped rfl h
  | case3 _ _ hc =>
      subst hc
      exact pieces_escaped rfl h
  | case4 _ _ _ hc =>
      subst hc
      exact pieces_escaped rfl h
  | case5 _ _ _ _ hc =>
      subst hc
      exact pieces_escaped rfl h
  | case6 _ _ _ _ _ hc =>
      subst hc
      exact pieces_escaped rfl h
  | case7 _ _ _ _ _ _ hc =>
      subst hc
      exact pieces_escaped rfl h
  | case8 _ _ _ _ _ _ _ hcontrol =>
      rw [number_control hcontrol]
      show pieces ('\\' :: 'u' :: '0' :: '0' :: Text.Hex.digit (c.toNat / 16) ::
        Text.Hex.digit (c.toNat % 16) :: text) = _
      rw [pieces.eq_3, unitOf_control hcontrol, h, Char.ofNat_toNat]
      rfl
  | case9 hquote hslash _ _ _ _ _ hcontrol => exact pieces_cons hquote hslash hcontrol h

theorem pieces_quoted (chars rest : List Char) :
    pieces (chars.flatMap escape ++ '"' :: rest) = some (chars.map .char, rest) := by
  induction chars with
  | nil => exact pieces.eq_2 rest
  | cons c chars ih =>
      rw [List.flatMap_cons, List.append_assoc]
      exact pieces_escape c ih

theorem joined?_chars (chars : List Char) : joined? (chars.map .char) = some chars := by
  induction chars with
  | nil => rfl
  | cons c chars ih =>
      rw [List.map_cons, joined?, ih]
      rfl

theorem toList_quoted (s : String) :
    (quoted s).toList = '"' :: (s.toList.flatMap escape ++ ['"']) := by
  unfold quoted
  rw [String.toList_ofList]
  rfl

theorem string_quoted (s : String) (rest : List Char) :
    string (s.toList.flatMap escape ++ '"' :: rest) = some (.text s, rest) := by
  unfold string
  rw [bind_of_eq_some (pieces_quoted _ _)]
  simp only [joined?_chars, String.ofList_toList]
  rfl

theorem fieldName_quoted (name : String) (rest : List Char) :
    fieldName (name.toList.flatMap escape ++ '"' :: rest) = some (some name, rest) := by
  unfold fieldName
  rw [bind_of_eq_some (pieces_quoted _ _)]
  simp only [joined?_chars, Option.map_some, String.ofList_toList]
  rfl

/-!
# Numbers
-/

theorem head?_toDigits_append (n : Nat) (rest : List Char) :
    (Nat.toDigits 10 n ++ rest).head? = (Nat.toDigits 10 n).head? := by
  cases h : Nat.toDigits 10 n with
  | nil => exact absurd h Nat.toDigits_ne_nil
  | cons c digits => rfl

theorem head?_toDigits_ne_zero {n : Nat} (hn : n ≠ 0) : (Nat.toDigits 10 n).head? ≠ some '0' := by
  have hdigit : ∀ d < 10, d ≠ 0 → Nat.digitChar d ≠ '0' := by decide
  induction n using Nat.strongRecOn with
  | ind n ih =>
      by_cases hsmall : n < 10
      · rw [Nat.toDigits_of_lt_base hsmall]
        intro h
        exact hdigit n hsmall hn (Option.some.inj h)
      · rw [Nat.toDigits_of_base_le (by decide) (by omega), head?_toDigits_append]
        exact ih (n / 10) (by omega) (by omega)

theorem digitsValue_eq_ofDigitChars {digits : List Char} (h : ∀ c ∈ digits, c.isDigit = true)
    (n : Nat) :
    digits.foldl (fun n c => n * 10 + (digit? c).getD 0) n = Nat.ofDigitChars 10 digits n := by
  induction digits generalizing n with
  | nil => rfl
  | cons c rest ih =>
      have hc : '0' ≤ c ∧ c ≤ '9' := by
        have hdigit := h c List.mem_cons_self
        simp only [Char.isDigit, Bool.and_eq_true, decide_eq_true_eq] at hdigit
        exact hdigit
      have hvalue : (digit? c).getD 0 = c.toNat - '0'.toNat := by
        rw [digit?, if_pos hc]
        rfl
      rw [List.foldl_cons, ih fun c hc => h c (List.mem_cons_of_mem _ hc), hvalue, Nat.mul_comm,
        Nat.ofDigitChars_cons]

theorem digitsValue_toDigits (n : Nat) : digitsValue 10 digit? (Nat.toDigits 10 n) = n := by
  unfold digitsValue
  rw [digitsValue_eq_ofDigitChars fun _ => Nat.isDigit_of_mem_toDigits (by decide) (by decide),
    Nat.ofDigitChars_ten_toDigits]

/-- Whether a number cannot go on into a text. -/
def Stops (text : List Char) : Prop :=
  ∀ c ∈ text.head?, c.isDigit = false ∧ c ≠ '.' ∧ c ≠ 'e' ∧ c ≠ 'E'

theorem fractionDigits_of_stops {rest : List Char} (h : Stops rest) :
    fractionDigits rest = some ([], rest) := by
  have hpoint : rest.head? ≠ some '.' := fun heq => (h '.' heq).2.1 rfl
  unfold fractionDigits
  rw [bind_of_eq_some (Scan.accept_of_head? hpoint)]
  rfl

theorem exponentDigits_of_stops {rest : List Char} (h : Stops rest) :
    exponentDigits rest = some ([], rest) := by
  unfold exponentDigits
  cases rest with
  | nil => rfl
  | cons c rest =>
      have hc := h c rfl
      have hletter : Scan.oneOf (fun c => c == 'e' || c == 'E') (c :: rest) = none := by
        simp [Scan.oneOf, hc.2.2.1, hc.2.2.2]
      rw [bind_apply, Scan.attempt, hletter]
      rfl

theorem number_toDigits {n : Nat} (hn : n < UInt64.size) {rest : List Char} (hrest : Stops rest) :
    number (Nat.toDigits 10 n ++ rest) = some (.integer n, rest) := by
  have hdigit : ∀ c ∈ Nat.toDigits 10 n, c.isDigit = true := fun _ =>
    Nat.isDigit_of_mem_toDigits (by decide) (by decide)
  have hsign : (Nat.toDigits 10 n ++ rest).head? ≠ some '-' := by
    rw [head?_toDigits_append]
    intro h
    cases hdigit '-' (List.mem_of_mem_head? h)
  have hwhole : ¬ ((Nat.toDigits 10 n).head? = some '0' ∧ Nat.toDigits 10 n ≠ ['0']) := by
    rintro ⟨hhead, hne⟩
    by_cases hzero : n = 0
    · rw [hzero] at hne
      exact hne rfl
    · exact head?_toDigits_ne_zero hzero hhead
  have hdigits : wholeDigits (Nat.toDigits 10 n ++ rest) = some (Nat.toDigits 10 n, rest) := by
    unfold wholeDigits
    rw [bind_of_eq_some
      (Scan.run1_append Nat.toDigits_ne_nil hdigit fun c hc => (hrest c hc).1), if_neg hwhole]
    rfl
  have hinteger : integer? false (Nat.toDigits 10 n) = some (.integer n) := by
    unfold integer?
    simp only [digitsValue_toDigits, Bool.false_eq_true, if_false, if_pos hn]
  unfold number
  rw [bind_of_eq_some (Scan.accept_of_head? hsign), bind_of_eq_some hdigits,
    bind_of_eq_some (fractionDigits_of_stops hrest),
    bind_of_eq_some (exponentDigits_of_stops hrest)]
  simp only [hinteger]
  rfl

/-!
# Words
-/

theorem keyword_null (rest : List Char) :
    keyword ('n' :: 'u' :: 'l' :: 'l' :: rest) = some (.null, rest) := by
  apply Scan.orElse_of_eq_some
  exact bind_of_eq_some (Scan.word_append "null" rest) _

theorem bind_word_of_ne {expected : String} {first c : Char} {letters : List Char}
    (hexpected : expected.toList = first :: letters) (h : c ≠ first) (rest : List Char)
    (v : Value) :
    (Scan.word expected >>= fun _ => pure v : Scan Value) (c :: rest) = none := by
  rw [bind_apply, Scan.word_of_ne hexpected h]
  rfl

theorem keyword_true (rest : List Char) :
    keyword ('t' :: 'r' :: 'u' :: 'e' :: rest) = some (.bool true, rest) := by
  unfold keyword
  rw [Scan.orElse_of_eq_none (bind_word_of_ne rfl (by decide) _ _)]
  apply Scan.orElse_of_eq_some
  exact bind_of_eq_some (Scan.word_append "true" rest) _

theorem keyword_false (rest : List Char) :
    keyword ('f' :: 'a' :: 'l' :: 's' :: 'e' :: rest) = some (.bool false, rest) := by
  unfold keyword
  rw [Scan.orElse_of_eq_none (bind_word_of_ne rfl (by decide) _ _),
    Scan.orElse_of_eq_none (bind_word_of_ne rfl (by decide) _ _)]
  exact bind_of_eq_some (Scan.word_append "false" rest) _

theorem ne_of_isDigit {c d : Char} (hc : c.isDigit = true) (hd : d.isDigit = false) : c ≠ d := by
  intro heq
  rw [heq, hd] at hc
  cases hc

theorem keyword_of_isDigit {c : Char} (hc : c.isDigit = true) (rest : List Char) :
    keyword (c :: rest) = none := by
  unfold keyword
  rw [Scan.orElse_of_eq_none (bind_word_of_ne rfl (ne_of_isDigit hc (by decide)) _ _),
    Scan.orElse_of_eq_none (bind_word_of_ne rfl (ne_of_isDigit hc (by decide)) _ _)]
  exact bind_word_of_ne rfl (ne_of_isDigit hc (by decide)) _ _

theorem isBlank_of_isDigit {c : Char} (hc : c.isDigit = true) : isBlank c = false := by
  unfold isBlank
  simp [ne_of_isDigit hc (by decide : ' '.isDigit = false),
    ne_of_isDigit hc (by decide : '\t'.isDigit = false),
    ne_of_isDigit hc (by decide : '\n'.isDigit = false),
    ne_of_isDigit hc (by decide : '\r'.isDigit = false)]

/-!
# Steps of the reader
-/

theorem blanks_append {ws : List Char} (hws : ∀ c ∈ ws, isBlank c = true) (text : List Char) :
    blanks (ws ++ text) = blanks text := by
  show some ((), (ws ++ text).dropWhile isBlank) = some ((), text.dropWhile isBlank)
  rw [List.dropWhile_append_of_pos hws]

theorem blanks_of_head? {text : List Char} (h : ∀ c ∈ text.head?, isBlank c = false) :
    blanks text = some ((), text) := by
  show some ((), text.dropWhile isBlank) = some ((), text)
  rw [Scan.dropWhile_eq_self h]

theorem blanks_cons {c : Char} (h : isBlank c = false) (rest : List Char) :
    blanks (c :: rest) = some ((), c :: rest) :=
  blanks_of_head? fun d hd => by rwa [← Option.some.inj hd]

theorem value_append_blanks {ws : List Char} (hws : ∀ c ∈ ws, isBlank c = true) (bound : Nat)
    (text : List Char) : value bound (ws ++ text) = value bound text := by
  cases bound with
  | zero =>
      rw [value.eq_1]
      rfl
  | succ bound =>
      rw [value.eq_2]
      exact Scan.bind_congr (blanks_append hws text) _

theorem value_space (bound : Nat) (text : List Char) :
    value bound (' ' :: text) = value bound text := by
  have hspace : ∀ c ∈ [' '], isBlank c = true := by
    intro c hc
    rw [List.mem_singleton.mp hc]
    rfl
  exact value_append_blanks hspace bound text

theorem items_append_blanks {ws : List Char} (hws : ∀ c ∈ ws, isBlank c = true) (bound : Nat)
    (text : List Char) : items bound (ws ++ text) = items bound text := by
  cases bound with
  | zero =>
      rw [items.eq_1]
      rfl
  | succ bound =>
      rw [items.eq_2]
      exact Scan.bind_congr (value_append_blanks hws bound text) _

theorem fields_append_blanks {ws : List Char} (hws : ∀ c ∈ ws, isBlank c = true) (bound : Nat)
    (text : List Char) : fields bound (ws ++ text) = fields bound text := by
  cases bound with
  | zero =>
      rw [fields.eq_1]
      rfl
  | succ bound =>
      rw [fields.eq_2]
      exact Scan.bind_congr (blanks_append hws text) _

section Steps

variable {bound : Nat} {text more rest ws : List Char} {v : Value}

theorem value_quote : value (bound + 1) ('"' :: rest) = string rest := by
  rw [value.eq_2, bind_of_eq_some (blanks_cons (by decide) rest),
    bind_of_eq_some (accept_self _ _), if_pos rfl]

/-- Behind an opening bracket stands a closing one, or a list of items. -/
theorem value_bracket :
    value (bound + 1) ('[' :: rest) =
      (do
        blanks
        if ← Scan.accept ']' then return .list [] else return .list (← items bound) :
          Scan Value) rest := by
  rw [value.eq_2, bind_of_eq_some (blanks_cons (by decide) rest),
    bind_of_eq_some (accept_of_ne (by decide) _), if_neg Bool.false_ne_true,
    bind_of_eq_some (accept_self _ _), if_pos rfl]

/-- Behind an opening brace stands a closing one, or a list of fields. -/
theorem value_brace :
    value (bound + 1) ('\x7b' :: rest) =
      (do
        blanks
        if ← Scan.accept '\x7d' then return .record [] else return recordOf (← fields bound) :
          Scan Value) rest := by
  rw [value.eq_2, bind_of_eq_some (blanks_cons (by decide) rest),
    bind_of_eq_some (accept_of_ne (by decide) _), if_neg Bool.false_ne_true,
    bind_of_eq_some (accept_of_ne (by decide) _), if_neg Bool.false_ne_true,
    bind_of_eq_some (accept_self _ _), if_pos rfl]

/-- Whatever opens neither a string nor a list nor a record is a word or a number. -/
theorem value_scalar {c : Char} (hblank : isBlank c = false) (hquote : c ≠ '"')
    (hbracket : c ≠ '[') (hbrace : c ≠ '\x7b') :
    value (bound + 1) (c :: rest) = (keyword <|> number : Scan Value) (c :: rest) := by
  rw [value.eq_2, bind_of_eq_some (blanks_cons hblank rest),
    bind_of_eq_some (accept_of_ne hquote _), if_neg Bool.false_ne_true,
    bind_of_eq_some (accept_of_ne hbracket _), if_neg Bool.false_ne_true,
    bind_of_eq_some (accept_of_ne hbrace _), if_neg Bool.false_ne_true]

theorem value_keyword {c : Char} (hblank : isBlank c = false) (hquote : c ≠ '"')
    (hbracket : c ≠ '[') (hbrace : c ≠ '\x7b') (h : keyword (c :: text) = some (v, rest)) :
    value (bound + 1) (c :: text) = some (v, rest) := by
  rw [value_scalar hblank hquote hbracket hbrace]
  exact Scan.orElse_of_eq_some h _

theorem value_toDigits {n : Nat} (hn : n < UInt64.size) (hrest : Stops rest) :
    value (bound + 1) (Nat.toDigits 10 n ++ rest) = some (.integer n, rest) := by
  have hnumber := number_toDigits hn hrest
  have hall : ∀ c ∈ Nat.toDigits 10 n, c.isDigit = true := fun _ =>
    Nat.isDigit_of_mem_toDigits (by decide) (by decide)
  cases hdigits : Nat.toDigits 10 n with
  | nil => exact absurd hdigits Nat.toDigits_ne_nil
  | cons c digits =>
      rw [hdigits] at hnumber hall
      have hc := hall c List.mem_cons_self
      rw [List.cons_append, value_scalar (isBlank_of_isDigit hc) (ne_of_isDigit hc (by decide))
        (ne_of_isDigit hc (by decide)) (ne_of_isDigit hc (by decide)),
        Scan.orElse_of_eq_none (keyword_of_isDigit hc _)]
      exact hnumber

theorem value_emptyList : value (bound + 1) ('[' :: ']' :: rest) = some (.list [], rest) := by
  rw [value_bracket, bind_of_eq_some (blanks_cons (by decide) rest),
    bind_of_eq_some (accept_self _ _)]
  rfl

theorem value_items {vs : List Value} (hws : ∀ c ∈ ws, isBlank c = true)
    (hblank : ∀ c ∈ text.head?, isBlank c = false) (hclose : text.head? ≠ some ']')
    (h : items bound (ws ++ text) = some (vs, rest)) :
    value (bound + 1) ('[' :: (ws ++ text)) = some (.list vs, rest) := by
  have hblanks : blanks (ws ++ text) = some ((), text) :=
    (blanks_append hws text).trans (blanks_of_head? hblank)
  rw [items_append_blanks hws] at h
  rw [value_bracket, bind_of_eq_some hblanks, bind_of_eq_some (Scan.accept_of_head? hclose),
    if_neg Bool.false_ne_true, bind_of_eq_some h]
  rfl

theorem items_last (hws : ∀ c ∈ ws, isBlank c = true)
    (h : value bound text = some (v, ws ++ ']' :: rest)) :
    items (bound + 1) text = some ([v], rest) := by
  have hblanks : blanks (ws ++ ']' :: rest) = some ((), ']' :: rest) :=
    (blanks_append hws _).trans (blanks_cons (by decide) rest)
  rw [items.eq_2, bind_of_eq_some h, bind_of_eq_some hblanks,
    bind_of_eq_some (accept_of_ne (by decide) _), if_neg Bool.false_ne_true,
    bind_of_eq_some (char_self _ _)]
  rfl

theorem items_cons {vs : List Value} (h : value bound text = some (v, ',' :: more))
    (hmore : items bound more = some (vs, rest)) :
    items (bound + 1) text = some (v :: vs, rest) := by
  rw [items.eq_2, bind_of_eq_some h, bind_of_eq_some (blanks_cons (by decide) more),
    bind_of_eq_some (accept_self _ _), if_pos rfl, bind_of_eq_some hmore]
  rfl

theorem value_emptyRecord :
    value (bound + 1) ('\x7b' :: '\x7d' :: rest) = some (.record [], rest) := by
  rw [value_brace, bind_of_eq_some (blanks_cons (by decide) rest),
    bind_of_eq_some (accept_self _ _)]
  rfl

theorem value_fields {fs : List (String × Value)} (hws : ∀ c ∈ ws, isBlank c = true)
    (h : fields bound (ws ++ '"' :: text) = some (some fs, rest)) :
    value (bound + 1) ('\x7b' :: (ws ++ '"' :: text)) = some (.record fs, rest) := by
  have hblanks : blanks (ws ++ '"' :: text) = some ((), '"' :: text) :=
    (blanks_append hws _).trans (blanks_cons (by decide) text)
  rw [fields_append_blanks hws] at h
  rw [value_brace, bind_of_eq_some hblanks, bind_of_eq_some (accept_of_ne (by decide) _),
    if_neg Bool.false_ne_true, bind_of_eq_some h]
  rfl

/-- A name, a colon and a value, and what comes after them. -/
theorem fields_name (name : String) (h : value bound text = some (v, more)) :
    fields (bound + 1) ('"' :: (name.toList.flatMap escape ++ '"' :: ':' :: text)) =
      (do
        blanks
        if ← Scan.accept ',' then
          let fs ← fields bound
          return (do return (name, v) :: (← fs))
        else
          Scan.char '\x7d'
          return some [(name, v)] : Scan (Option (List (String × Value)))) more := by
  rw [fields.eq_2, bind_of_eq_some (blanks_cons (by decide) _), bind_of_eq_some (char_self _ _),
    bind_of_eq_some (fieldName_quoted name _), bind_of_eq_some (blanks_cons (by decide) _),
    bind_of_eq_some (char_self _ _), bind_of_eq_some h]
  rfl

theorem fields_last (name : String) (hws : ∀ c ∈ ws, isBlank c = true)
    (h : value bound text = some (v, ws ++ '\x7d' :: rest)) :
    fields (bound + 1) ('"' :: (name.toList.flatMap escape ++ '"' :: ':' :: text)) =
      some (some [(name, v)], rest) := by
  have hblanks : blanks (ws ++ '\x7d' :: rest) = some ((), '\x7d' :: rest) :=
    (blanks_append hws _).trans (blanks_cons (by decide) rest)
  rw [fields_name name h, bind_of_eq_some hblanks, bind_of_eq_some (accept_of_ne (by decide) _),
    if_neg Bool.false_ne_true, bind_of_eq_some (char_self _ _)]
  rfl

theorem fields_cons (name : String) {fs : List (String × Value)}
    (h : value bound text = some (v, ',' :: more))
    (hmore : fields bound more = some (some fs, rest)) :
    fields (bound + 1) ('"' :: (name.toList.flatMap escape ++ '"' :: ':' :: text)) =
      some (some ((name, v) :: fs), rest) := by
  rw [fields_name name h, bind_of_eq_some (blanks_cons (by decide) more),
    bind_of_eq_some (accept_self _ _), if_pos rfl, bind_of_eq_some hmore]
  rfl

end Steps

/-!
# Printed values
-/

section Printed

variable {depth : Nat}

-- The equations of the printer are derived here, and not by each proof that is the first
-- to need them.
attribute [local simp] indented indentedItems indentedFields scalar

theorem toList_newLine : (newLine depth).toList = '\n' :: List.replicate (2 * depth) ' ' := by
  simp [newLine]

theorem toList_indented_null : (indented depth .null).toList = ['n', 'u', 'l', 'l'] := by
  simp [indented, scalar]

theorem toList_indented_true :
    (indented depth (.bool true)).toList = ['t', 'r', 'u', 'e'] := by
  simp [indented, scalar]

theorem toList_indented_false :
    (indented depth (.bool false)).toList = ['f', 'a', 'l', 's', 'e'] := by
  simp [indented, scalar]

theorem toList_indented_nil : (indented depth (.list [])).toList = ['[', ']'] := by
  simp [indented]

theorem toList_indented_emptyRecord :
    (indented depth (.record [])).toList = ['\x7b', '\x7d'] := by
  simp [indented]

theorem toList_indented_text (s : String) :
    (indented depth (.text s)).toList = '"' :: (s.toList.flatMap escape ++ ['"']) := by
  simp only [indented, scalar, toList_quoted]

theorem toList_indented_integer (n : Nat) :
    (indented depth (.integer n)).toList = Nat.toDigits 10 n :=
  Nat.toList_repr

theorem toList_indented_list (item : Value) (more : List Value) :
    (indented depth (.list (item :: more))).toList =
      '[' :: ((indentedItems (depth + 1) (item :: more)).toList ++
        ((newLine depth).toList ++ [']'])) := by
  simp [indented]

theorem toList_indented_record (field : String × Value) (more : List (String × Value)) :
    (indented depth (.record (field :: more))).toList =
      '\x7b' :: ((indentedFields (depth + 1) (field :: more)).toList ++
        ((newLine depth).toList ++ ['\x7d'])) := by
  simp [indented]

theorem toList_indentedItems_singleton (item : Value) :
    (indentedItems depth [item]).toList =
      (newLine depth).toList ++ (indented depth item).toList := by
  simp [indentedItems]

theorem toList_indentedItems_cons (item next : Value) (more : List Value) :
    (indentedItems depth (item :: next :: more)).toList =
      (newLine depth).toList ++ ((indented depth item).toList ++
        (',' :: (indentedItems depth (next :: more)).toList)) := by
  simp [indentedItems]

theorem toList_indentedFields_singleton (name : String) (v : Value) :
    (indentedFields depth [(name, v)]).toList =
      (newLine depth).toList ++ ('"' :: (name.toList.flatMap escape ++
        ('"' :: ':' :: ' ' :: (indented depth v).toList))) := by
  simp [indentedFields, toList_quoted]

theorem toList_indentedFields_cons (name : String) (v : Value) (next : String × Value)
    (more : List (String × Value)) :
    (indentedFields depth ((name, v) :: next :: more)).toList =
      (newLine depth).toList ++ ('"' :: (name.toList.flatMap escape ++
        ('"' :: ':' :: ' ' :: ((indented depth v).toList ++
          (',' :: (indentedFields depth (next :: more)).toList))))) := by
  simp [indentedFields, toList_quoted]

theorem isBlank_newLine : ∀ c ∈ (newLine depth).toList, isBlank c = true := by
  intro c hc
  rw [toList_newLine] at hc
  rcases List.mem_cons.mp hc with rfl | hspace
  · rfl
  · rw [List.eq_of_mem_replicate hspace]
    rfl

theorem stops_newLine (rest : List Char) : Stops ((newLine depth).toList ++ rest) := by
  intro c hc
  rw [toList_newLine] at hc
  cases hc
  decide

theorem stops_comma (rest : List Char) : Stops (',' :: rest) := by
  intro c hc
  cases hc
  decide

/-- A printed value starts with a character that is neither blank nor a closing
bracket. -/
theorem indented_eq_cons (depth : Nat) {v : Value} (hv : v.isPlain = true) :
    ∃ c chars, (indented depth v).toList = c :: chars ∧ isBlank c = false ∧ c ≠ ']' := by
  cases v with
  | null => exact ⟨'n', _, toList_indented_null, rfl, by decide⟩
  | bool b =>
      cases b with
      | false => exact ⟨'f', _, toList_indented_false, rfl, by decide⟩
      | true => exact ⟨'t', _, toList_indented_true, rfl, by decide⟩
  | integer n =>
      have hn : 0 ≤ n ∧ n < UInt64.size := of_decide_eq_true hv
      rcases Int.eq_ofNat_of_zero_le hn.1 with ⟨m, rfl⟩
      rw [toList_indented_integer]
      cases hdigits : Nat.toDigits 10 m with
      | nil => exact absurd hdigits Nat.toDigits_ne_nil
      | cons c digits =>
          have hmem : c ∈ Nat.toDigits 10 m := by
            rw [hdigits]
            exact List.mem_cons_self
          have hc : c.isDigit = true := Nat.isDigit_of_mem_toDigits (by decide) (by decide) hmem
          exact ⟨c, digits, rfl, isBlank_of_isDigit hc, ne_of_isDigit hc (by decide)⟩
  | text s => exact ⟨'"', _, toList_indented_text s, rfl, by decide⟩
  | list items =>
      cases items with
      | nil => exact ⟨'[', _, toList_indented_nil, rfl, by decide⟩
      | cons item more => exact ⟨'[', _, toList_indented_list item more, rfl, by decide⟩
  | record fields =>
      cases fields with
      | nil => exact ⟨'\x7b', _, toList_indented_emptyRecord, rfl, by decide⟩
      | cons field more => exact ⟨'\x7b', _, toList_indented_record field more, rfl, by decide⟩
  | _ => cases hv

/-- The first printed item starts a line. -/
theorem indentedItems_eq_append (depth : Nat) {item : Value} (more : List Value)
    (hitem : item.isPlain = true) :
    ∃ c chars, (indentedItems depth (item :: more)).toList = (newLine depth).toList ++ c :: chars ∧
      isBlank c = false ∧ c ≠ ']' := by
  rcases indented_eq_cons depth hitem with ⟨c, chars, hchars, hblank, hclose⟩
  cases more with
  | nil =>
      rw [toList_indentedItems_singleton, hchars]
      exact ⟨c, chars, rfl, hblank, hclose⟩
  | cons next more =>
      rw [toList_indentedItems_cons, hchars]
      exact ⟨c, _, rfl, hblank, hclose⟩

/-- The name of the first printed field starts a line. -/
theorem indentedFields_eq_append (depth : Nat) (field : String × Value)
    (more : List (String × Value)) :
    ∃ chars, (indentedFields depth (field :: more)).toList =
      (newLine depth).toList ++ '"' :: chars := by
  cases more with
  | nil => exact ⟨_, toList_indentedFields_singleton field.1 field.2⟩
  | cons next more => exact ⟨_, toList_indentedFields_cons field.1 field.2 next more⟩

end Printed

/-!
# Reading back
-/

/-- A printed list reads back if its items do. -/
theorem value_indented_list {item : Value} (hitem : item.isPlain = true) {more : List Value}
    {depth bound : Nat} {rest : List Char}
    (h : items bound ((indentedItems (depth + 1) (item :: more)).toList ++
      ((newLine depth).toList ++ ']' :: rest)) = some (item :: more, rest)) :
    value (bound + 1) ((indented depth (.list (item :: more))).toList ++ rest) =
      some (.list (item :: more), rest) := by
  rcases indentedItems_eq_append (depth + 1) more hitem with ⟨c, chars, hchars, hblank, hclose⟩
  rw [toList_indented_list, List.cons_append, List.append_assoc, List.append_assoc]
  rw [hchars, List.append_assoc] at h ⊢
  apply value_items isBlank_newLine
  · intro d hd
    rwa [← Option.some.inj hd]
  · exact fun heq => hclose (Option.some.inj heq)
  · exact h

/-- A printed record reads back if its fields do. -/
theorem value_indented_record {field : String × Value} {more : List (String × Value)}
    {depth bound : Nat} {rest : List Char}
    (h : fields bound ((indentedFields (depth + 1) (field :: more)).toList ++
      ((newLine depth).toList ++ '\x7d' :: rest)) = some (some (field :: more), rest)) :
    value (bound + 1) ((indented depth (.record (field :: more))).toList ++ rest) =
      some (.record (field :: more), rest) := by
  rcases indentedFields_eq_append (depth + 1) field more with ⟨chars, hchars⟩
  rw [toList_indented_record, List.cons_append, List.append_assoc, List.append_assoc]
  rw [hchars, List.append_assoc] at h ⊢
  exact value_fields isBlank_newLine h

mutual

/-- A plain value reads back from its indented form. -/
theorem value_indented (v : Value) (hv : v.isPlain = true) (depth bound : Nat)
    (hbound : (indented depth v).toList.length ≤ bound) {rest : List Char} (hrest : Stops rest) :
    value bound ((indented depth v).toList ++ rest) = some (v, rest) := by
  -- Each level of the reader takes one off the bound, and each printed value has a
  -- character to pay for it.
  have hpos : bound ≠ 0 := by
    rcases indented_eq_cons depth hv with ⟨c, chars, hchars, -⟩
    rw [hchars, List.length_cons] at hbound
    omega
  obtain ⟨bound, rfl⟩ := Nat.exists_eq_succ_of_ne_zero hpos
  cases v with
  | null =>
      rw [toList_indented_null]
      exact value_keyword rfl (by decide) (by decide) (by decide) (keyword_null rest)
  | bool b =>
      cases b with
      | false =>
          rw [toList_indented_false]
          exact value_keyword rfl (by decide) (by decide) (by decide) (keyword_false rest)
      | true =>
          rw [toList_indented_true]
          exact value_keyword rfl (by decide) (by decide) (by decide) (keyword_true rest)
  | integer n =>
      have hn : 0 ≤ n ∧ n < UInt64.size := of_decide_eq_true hv
      rcases Int.eq_ofNat_of_zero_le hn.1 with ⟨m, rfl⟩
      rw [toList_indented_integer]
      exact value_toDigits (by omega) hrest
  | text s =>
      rw [toList_indented_text, List.cons_append, List.append_assoc, value_quote]
      exact string_quoted s rest
  | list items =>
      cases items with
      | nil =>
          rw [toList_indented_nil]
          exact value_emptyList
      | cons item more =>
          have hplain : Value.itemsPlain (item :: more) = true := hv
          have hitem : item.isPlain = true := ((Bool.and_eq_true _ _).mp hplain).1
          rw [toList_indented_list, List.length_cons, List.length_append] at hbound
          exact value_indented_list hitem (items_indented (item :: more) (List.cons_ne_nil _ _)
            hplain (depth + 1) depth bound (by omega) rest)
  | record fs =>
      cases fs with
      | nil =>
          rw [toList_indented_emptyRecord]
          exact value_emptyRecord
      | cons field more =>
          rw [toList_indented_record, List.length_cons, List.length_append] at hbound
          exact value_indented_record (fields_indented (field :: more) (List.cons_ne_nil _ _)
            hv (depth + 1) depth bound (by omega) rest)
  | _ => cases hv

theorem items_indented (vs : List Value) (hne : vs ≠ []) (hvs : Value.itemsPlain vs = true)
    (depth outer bound : Nat) (hbound : (indentedItems depth vs).toList.length ≤ bound)
    (rest : List Char) :
    items bound ((indentedItems depth vs).toList ++ ((newLine outer).toList ++ ']' :: rest)) =
      some (vs, rest) := by
  cases vs with
  | nil => exact absurd rfl hne
  | cons item more =>
      rw [Value.itemsPlain, Bool.and_eq_true] at hvs
      cases more with
      | nil =>
          rw [toList_indentedItems_singleton] at hbound ⊢
          rw [toList_newLine, List.length_append, List.length_cons] at hbound
          obtain ⟨bound, rfl⟩ := Nat.exists_eq_succ_of_ne_zero (by omega : bound ≠ 0)
          rw [List.append_assoc, items_append_blanks isBlank_newLine]
          exact items_last isBlank_newLine
            (value_indented item hvs.1 depth _ (by omega) (stops_newLine _))
      | cons next more =>
          rw [toList_indentedItems_cons] at hbound ⊢
          rw [toList_newLine] at hbound
          simp only [List.length_append, List.length_cons] at hbound
          obtain ⟨bound, rfl⟩ := Nat.exists_eq_succ_of_ne_zero (by omega : bound ≠ 0)
          rw [List.append_assoc, items_append_blanks isBlank_newLine, List.append_assoc]
          apply items_cons
          · exact value_indented item hvs.1 depth _ (by omega) (stops_comma _)
          · exact items_indented (next :: more) (List.cons_ne_nil _ _) hvs.2 depth outer
              _ (by omega) rest

theorem fields_indented (fs : List (String × Value)) (hne : fs ≠ [])
    (hfs : Value.fieldsPlain fs = true) (depth outer bound : Nat)
    (hbound : (indentedFields depth fs).toList.length ≤ bound) (rest : List Char) :
    fields bound ((indentedFields depth fs).toList ++ ((newLine outer).toList ++ '\x7d' :: rest)) =
      some (some fs, rest) := by
  cases fs with
  | nil => exact absurd rfl hne
  | cons field more =>
      rcases field with ⟨name, v⟩
      rw [Value.fieldsPlain, Bool.and_eq_true] at hfs
      cases more with
      | nil =>
          rw [toList_indentedFields_singleton] at hbound ⊢
          rw [toList_newLine] at hbound
          simp only [List.length_append, List.length_cons] at hbound
          obtain ⟨bound, rfl⟩ := Nat.exists_eq_succ_of_ne_zero (by omega : bound ≠ 0)
          rw [List.append_assoc, fields_append_blanks isBlank_newLine]
          simp only [List.cons_append, List.append_assoc]
          apply fields_last name isBlank_newLine
          rw [value_space]
          exact value_indented v hfs.1 depth _ (by omega) (stops_newLine _)
      | cons next more =>
          rw [toList_indentedFields_cons] at hbound ⊢
          rw [toList_newLine] at hbound
          simp only [List.length_append, List.length_cons] at hbound
          obtain ⟨bound, rfl⟩ := Nat.exists_eq_succ_of_ne_zero (by omega : bound ≠ 0)
          rw [List.append_assoc, fields_append_blanks isBlank_newLine]
          simp only [List.cons_append, List.append_assoc]
          apply fields_cons name
          · rw [value_space]
            exact value_indented v hfs.1 depth _ (by omega) (stops_comma _)
          · exact fields_indented (next :: more) (List.cons_ne_nil _ _) hfs.2 depth outer
              _ (by omega) rest

end

/-- A plain document reads back from its printed text. -/
theorem parse?_pretty {v : Value} (hv : v.isPlain = true) : parse? (pretty v) = some v := by
  have hread : value ((pretty v).toList.length + 1) (pretty v).toList = some (v, []) := by
    rw [← List.append_nil (pretty v).toList]
    exact value_indented v hv 0 _ (by simp [pretty]) nofun
  have hblanks : blanks [] = some ((), []) := rfl
  unfold parse? Scan.whole
  simp only
  rw [bind_of_eq_some hread, bind_of_eq_some hblanks]
  rfl

end Json
end Document
end SwapPricing
