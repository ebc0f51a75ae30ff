import Mathlib.Data.Nat.Digits.Lemmas
import PackedStruct.Proofs.NumberPlaces

/-! Lexemes: a text that has tokens is taken apart into white space and the lexemes of its tokens. A
text that has none is taken apart in this way up to the first place where no lexeme stands. -/

namespace PackedStruct

namespace Text

/-- The number that digits denote in a radix, the most significant digit first. -/
structure Denotes (radix : Nat) (digits : List Char) (n : Nat) : Prop where
  nonempty : digits ≠ []
  value : ∃ values : List Nat, digits.map (digit? radix) = values.map some ∧
    n = Nat.ofDigits radix values.reverse

/-- A digit in front counts for as many powers of the radix as there are digits behind it. -/
theorem ofDigits_reverse_cons (radix value digit : Nat) (values : List Nat) :
    value * radix ^ (values.length + 1) + Nat.ofDigits radix (digit :: values).reverse =
      (value * radix + digit) * radix ^ values.length + Nat.ofDigits radix values.reverse := by
  rw [List.reverse_cons, Nat.ofDigits_append, Nat.ofDigits_singleton, List.length_reverse]
  ring

theorem foldlM_appendDigit_eq_some_iff {radix value n : Nat} {digits : List Char} :
    digits.foldlM (appendDigit radix) value = some n ↔
      ∃ values : List Nat, digits.map (digit? radix) = values.map some ∧
        n = value * radix ^ values.length + Nat.ofDigits radix values.reverse := by
  induction digits generalizing value with
  | nil =>
    constructor
    · rintro ⟨⟩
      exact ⟨[], rfl, by simp⟩
    · rintro ⟨values, same, rfl⟩
      obtain rfl := List.map_eq_nil_iff.mp same.symm
      simp
  | cons c rest ih =>
    rw [List.foldlM_cons]
    constructor
    · intro read
      obtain ⟨next, appended, later⟩ := Option.bind_eq_some_iff.mp read
      obtain ⟨digit, found, rfl⟩ := Option.map_eq_some_iff.mp appended
      obtain ⟨values, same, rfl⟩ := ih.mp later
      refine ⟨digit :: values, by rw [List.map_cons, found, same, List.map_cons], ?_⟩
      exact (ofDigits_reverse_cons radix value digit values).symm
    · rintro ⟨values, same, rfl⟩
      obtain ⟨digit, others, rfl, found, later⟩ := List.map_eq_cons_iff.mp same.symm
      refine Option.bind_eq_some_iff.mpr ⟨value * radix + digit, ?_, ?_⟩
      · rw [appendDigit, ← found, Option.map_some]
      · exact ih.mpr ⟨others, later.symm, ofDigits_reverse_cons radix value digit others⟩

/-- A numeral is read as the number that its digits denote. -/
theorem numeral?_eq_some_iff_denotes {radix n : Nat} {digits : List Char} :
    numeral? radix digits = some n ↔ Denotes radix digits n := by
  rw [numeral?_eq_some_iff, foldlM_appendDigit_eq_some_iff]
  simp only [Nat.zero_mul, Nat.zero_add]
  exact ⟨fun both => ⟨both.1, both.2⟩, fun denotes => ⟨denotes.nonempty, denotes.value⟩⟩

theorem Denotes.isSome_digit? {radix n : Nat} {digits : List Char}
    (denotes : Denotes radix digits n) : ∀ c ∈ digits, (digit? radix c).isSome := by
  obtain ⟨values, same, _⟩ := denotes.value
  intro c member
  have found : digit? radix c ∈ values.map some := same ▸ List.mem_map_of_mem member
  obtain ⟨value, _, read⟩ := List.mem_map.mp found
  exact Option.isSome_of_eq_some read.symm

theorem isIdentifierChar_of_hexDigit? {c : Char} (digit : (hexDigit? c).isSome) :
    isIdentifierChar c = true := by
  obtain ⟨value, read⟩ := Option.isSome_iff_exists.mp digit
  rw [hexDigit?_eq_some_iff] at read
  rw [isIdentifierChar, Char.isAlphanum, Bool.or_eq_true, Bool.or_eq_true, isAlpha_iff_toNat,
    Char.isDigit_iff_toNat]
  left
  have marks : '0'.toNat = 48 ∧ '9'.toNat = 57 := by decide
  omega

/-- Digits are a run of the characters of numbers. -/
theorem Denotes.isRun {radix n : Nat} {digits : List Char} (denotes : Denotes radix digits n) :
    IsRun isIdentifierChar digits := by
  refine ⟨denotes.nonempty, fun c member => isIdentifierChar_of_hexDigit? ?_⟩
  obtain ⟨value, read⟩ := Option.isSome_iff_exists.mp (denotes.isSome_digit? c member)
  exact Option.isSome_of_eq_some (Option.filter_eq_some_iff.mp read).1

theorem isDigit_of_digit? {c : Char} (digit : (digit? 10 c).isSome) : c.isDigit = true := by
  obtain ⟨value, read⟩ := Option.isSome_iff_exists.mp digit
  obtain ⟨found, small⟩ := Option.filter_eq_some_iff.mp read
  rw [hexDigit?_eq_some_iff] at found
  have below : value < 10 := of_decide_eq_true small
  have marks : '0'.toNat = 48 ∧ '9'.toNat = 57 := by decide
  rw [Char.isDigit_iff_toNat]
  omega

theorem hexMark?_eq_some_iff {literal digits : List Char} :
    hexMark? literal = some digits ↔ ∃ x, (x = 'x' ∨ x = 'X') ∧ literal = '0' :: x :: digits := by
  constructor
  · unfold hexMark?
    split
    · rintro ⟨⟩
      exact ⟨'x', .inl rfl, rfl⟩
    · rintro ⟨⟩
      exact ⟨'X', .inr rfl, rfl⟩
    · exact nofun
  · rintro ⟨x, rfl | rfl, rfl⟩
    · rfl
    · rfl

/-- No letter of a hexadecimal mark is a decimal digit. -/
theorem Denotes.hexMark?_eq_none {n : Nat} {digits : List Char} (denotes : Denotes 10 digits n) :
    hexMark? digits = none := by
  by_contra marked
  obtain ⟨rest, read⟩ := Option.ne_none_iff_exists'.mp marked
  obtain ⟨x, letter, rfl⟩ := hexMark?_eq_some_iff.mp read
  have digit := denotes.isSome_digit? x (by simp)
  rcases letter with rfl | rfl
  · cases digit
  · cases digit

end Text

namespace Definition

inductive Token.Spelled : Token → List Char → Prop where
  | mark {c : Char} {token : Token} (known : ofMark? c = some token) : token.Spelled [c]
  | name {word : List Char} (identifier : Text.isIdentifier word = true) :
      (ident (String.ofList word)).Spelled word
  | decimal {digits : List Char} {value : UInt64} (denotes : Text.Denotes 10 digits value.toNat) :
      (int value).Spelled digits
  | hexadecimal {x : Char} {digits : List Char} {value : UInt64} (marked : x = 'x' ∨ x = 'X')
      (denotes : Text.Denotes 16 digits value.toNat) : (int value).Spelled ('0' :: x :: digits)

/-- Names and numbers end where their characters do. Marks stand alone. -/
def Token.isWord : Token → Bool
  | ident _ => true
  | int _ => true
  | _ => false

theorem integer?_eq_some_iff {literal : List Char} {value : UInt64} :
    integer? literal = some value ↔ (Token.int value).Spelled literal := by
  have settled (number : Option Nat) :
      (number.filter (· < UInt64.size)).map UInt64.ofNat = some value ↔
        number = some value.toNat := by
    constructor
    · intro read
      obtain ⟨n, found, rfl⟩ := Option.map_eq_some_iff.mp read
      obtain ⟨rfl, small⟩ := Option.filter_eq_some_iff.mp found
      rw [UInt64.toNat_ofNat_of_lt' (of_decide_eq_true small)]
    · rintro rfl
      rw [Option.filter_some, if_pos (decide_eq_true value.toNat_lt), Option.map_some,
        UInt64.ofNat_toNat]
  rw [integer?, settled]
  constructor
  · intro read
    split at read
    · rename_i digits found
      obtain ⟨x, marked, rfl⟩ := Text.hexMark?_eq_some_iff.mp found
      exact .hexadecimal marked (Text.numeral?_eq_some_iff_denotes.mp read)
    · exact .decimal (Text.numeral?_eq_some_iff_denotes.mp read)
  · intro spelled
    cases spelled with
    | mark known => exact absurd known ofMark?_ne_int
    | decimal denotes =>
      rw [denotes.hexMark?_eq_none]
      exact Text.numeral?_eq_some_iff_denotes.mpr denotes
    | hexadecimal marked denotes =>
      rw [Text.hexMark?_eq_some_iff.mpr ⟨_, marked, rfl⟩]
      exact Text.numeral?_eq_some_iff_denotes.mpr denotes

theorem Token.isWord_of_ofMark? {c : Char} {token : Token} (known : ofMark? c = some token) :
    token.isWord = false := by
  unfold ofMark? at known
  split at known <;> cases known <;> rfl

theorem Token.Spelled.exists_digit {value : UInt64} {lexeme : List Char}
    (spelled : (int value).Spelled lexeme) :
    ∃ c rest, lexeme = c :: rest ∧ c.isDigit = true := by
  cases spelled with
  | mark known => exact absurd known ofMark?_ne_int
  | decimal denotes =>
    obtain ⟨c, rest, rfl⟩ := List.exists_cons_of_ne_nil denotes.nonempty
    exact ⟨c, rest, rfl, Text.isDigit_of_digit? (denotes.isSome_digit? c List.mem_cons_self)⟩
  | hexadecimal marked denotes => exact ⟨_, _, rfl, rfl⟩

/-- A lexeme is a run of the characters of names and numbers, or a single other character. -/
theorem Token.Spelled.shape {token : Token} {lexeme : List Char} (spelled : token.Spelled lexeme) :
    (token.isWord = true ∧ Text.IsRun Text.isIdentifierChar lexeme) ∨
      (token.isWord = false ∧ ∃ c, lexeme = [c] ∧ Text.isBlank c = false ∧
        Text.isIdentifierChar c = false) := by
  cases spelled with
  | @mark c _ known =>
    obtain ⟨visible, outside⟩ := outside_of_ofMark? known
    exact .inr ⟨isWord_of_ofMark? known, c, rfl, visible, outside⟩
  | name identifier => exact .inl ⟨rfl, Text.isRun_of_isIdentifier identifier⟩
  | decimal denotes => exact .inl ⟨rfl, denotes.isRun⟩
  | @hexadecimal x digits value marked denotes =>
    have letter : Text.isIdentifierChar x = true := by
      rcases marked with rfl | rfl <;> rfl
    refine .inl ⟨rfl, List.cons_ne_nil _ _, ?_⟩
    exact List.forall_mem_cons.mpr ⟨rfl, List.forall_mem_cons.mpr ⟨letter, denotes.isRun.inside⟩⟩

/-- A token is read from its lexeme. -/
theorem Token.Spelled.ofRun?_eq {token : Token} {lexeme : List Char}
    (spelled : token.Spelled lexeme) : ofRun? lexeme = .ok (some token) := by
  cases token with
  | int value =>
    obtain ⟨c, rest, rfl, digit⟩ := spelled.exists_digit
    have word := Text.isWordChar_of_isIdentifierChar (Text.isIdentifierChar_of_isDigit digit)
    rw [ofRun?, Text.isBlank_of_isWordChar word, digit, integer?_eq_some_iff.mpr spelled]
    rfl
  | ident name =>
    cases spelled with
    | mark known => exact absurd rfl (nameless_of_ofMark? known name)
    | name identifier => exact ofRun?_identifier identifier
  | _ =>
    cases spelled with
    | @mark c _ known =>
      unfold ofMark? at known
      split at known <;> cases known
      rfl

/-- What is read is spelled like what it is read from. -/
theorem Token.spelled_of_ofRun? {c : Char} {rest : List Char} {token : Token}
    (goesOn : ∀ d ∈ rest, Text.isIdentifierChar c = true ∧ Text.isIdentifierChar d = true)
    (read : ofRun? (c :: rest) = .ok (some token)) : token.Spelled (c :: rest) := by
  rcases cases_of_ofRun? read with ⟨digit, value, rfl⟩ | ⟨starts, rfl⟩ | known
  · have word := Text.isWordChar_of_isIdentifierChar (Text.isIdentifierChar_of_isDigit digit)
    rw [ofRun?, Text.isBlank_of_isWordChar word, digit] at read
    cases number : integer? (c :: rest) with
    | none =>
      rw [number] at read
      cases read
    | some other =>
      rw [number] at read
      cases read
      exact integer?_eq_some_iff.mp number
  · apply Spelled.name
    exact Bool.and_eq_true_iff.mpr
      ⟨starts, List.all_eq_true.mpr fun d member => (goesOn d member).2⟩
  · cases rest with
    | nil => exact .mark known
    | cons d more =>
      have inside := (goesOn d List.mem_cons_self).1
      rw [(outside_of_ofMark? known).2] at inside
      cases inside

/-- The place of what stands behind a text: its line is told by the line feeds in front of it, its
column by the characters behind the last of them. -/
def Position.behind (text : List Char) : Position :=
  ⟨1 + text.count '\n', 1 + (text.reverse.takeWhile (· != '\n')).length⟩

theorem Position.next_behind (text : List Char) (c : Char) :
    (behind text).next c = behind (text ++ [c]) := by
  rw [next, behind, behind, List.count_append, List.reverse_append, List.reverse_singleton,
    List.singleton_append]
  by_cases feed : c = '\n'
  · rw [feed]
    simp [Nat.add_assoc]
  · rw [List.takeWhile_cons_of_pos (by simp [feed]), List.length_cons]
    simp [feed, Nat.add_assoc]

theorem Position.after_behind (before text : List Char) :
    (behind before).after text = behind (before ++ text) := by
  induction text generalizing before with
  | nil => rw [List.append_nil, after, List.foldl_nil]
  | cons c rest ih =>
    rw [after, List.foldl_cons, next_behind, ← after, ih, List.append_assoc,
      List.singleton_append]

/-- A text moves on along its line, or to a later one. -/
theorem Position.line_lt_after_or (position : Position) (text : List Char) :
    position.line < (position.after text).line ∨
      (position.after text).line = position.line ∧
        (position.after text).column = position.column + text.length := by
  induction text generalizing position with
  | nil => exact .inr ⟨rfl, rfl⟩
  | cons c rest ih =>
    have moved : position.after (c :: rest) = (position.next c).after rest := rfl
    have first : position.line < (position.next c).line ∨
        (position.next c).line = position.line ∧
          (position.next c).column = position.column + 1 := by
      unfold next
      split
      · exact .inl (Nat.lt_succ_self _)
      · exact .inr ⟨rfl, rfl⟩
    have others := ih (position.next c)
    rw [moved, List.length_cons]
    omega

/-- No two places in a text are the same line and column. -/
theorem Position.behind_injective {before first rest second left : List Char}
    (whole : first ++ rest = second ++ left)
    (same : behind (before ++ first) = behind (before ++ second)) : rest = left := by
  have still {begin others : List Char} (stays : behind (begin ++ others) = behind begin) :
      others = [] := by
    rw [← after_behind] at stays
    have moves := line_lt_after_or (behind begin) others
    rw [stays] at moves
    exact List.length_eq_zero_iff.mp (by omega)
  rcases List.append_eq_append_iff.mp whole with ⟨others, rfl, rfl⟩ | ⟨others, rfl, rfl⟩
  · rw [← List.append_assoc] at same
    rw [still same.symm, List.nil_append]
  · rw [← List.append_assoc] at same
    rw [still same, List.nil_append]

/-- How a text behind `before` is taken apart up to `rest`. White space is passed over, and each
token has the place of its lexeme. -/
inductive Lexed : List Char → List Char → List PlacedToken → List Char → Prop where
  | stop (before text : List Char) : Lexed before text [] text
  | blank {before text rest : List Char} {c : Char} {placed : List PlacedToken}
      (white : Text.isBlank c = true) (later : Lexed (before ++ [c]) text placed rest) :
      Lexed before (c :: text) placed rest
  | lexeme {before lexeme text rest : List Char} {token : Token} {placed : List PlacedToken}
      (spelled : token.Spelled lexeme)
      (ends : token.isWord = true → Text.EndsRun Text.isIdentifierChar text)
      (later : Lexed (before ++ lexeme) text placed rest) :
      Lexed before (lexeme ++ text) (⟨token, .behind before⟩ :: placed) rest

/-- A text in which neither white space nor a lexeme comes next, and what is wrong with it: its
first character, or the number that begins with this character. -/
structure Stuck (text : List Char) (fault : Fault) : Prop where
  starts : ∃ c rest, text = c :: rest ∧ Text.isBlank c = false ∧
    fault = if c.isDigit then .badInteger (String.ofList (text.takeWhile Text.isIdentifierChar))
      else .badCharacter c
  noLexeme : ∀ (token : Token) (lexeme rest : List Char), text = lexeme ++ rest →
    token.Spelled lexeme → ¬ (token.isWord = true → Text.EndsRun Text.isIdentifierChar rest)

/-- A name or a number that is a whole run ends where its characters do. -/
theorem Token.Spelled.endsRun {token : Token} {c : Char} {goesOn after : List Char}
    (spelled : token.Spelled (c :: goesOn))
    (ends : Text.isIdentifierChar c = true → Text.EndsRun Text.isIdentifierChar after)
    (word : token.isWord = true) : Text.EndsRun Text.isIdentifierChar after := by
  rcases spelled.shape with ⟨_, run⟩ | ⟨noWord, _⟩
  · exact ends (run.inside c List.mem_cons_self)
  · rw [noWord] at word
    cases word

/-- A lexeme stands alone among the runs of a text. -/
theorem Token.Spelled.runs_append {token : Token} {lexeme rest : List Char}
    (spelled : token.Spelled lexeme)
    (ends : token.isWord = true → Text.EndsRun Text.isIdentifierChar rest) :
    Text.runs Text.isIdentifierChar (lexeme ++ rest) =
      lexeme :: Text.runs Text.isIdentifierChar rest := by
  rcases spelled.shape with ⟨word, run⟩ | ⟨_, c, rfl, _, outside⟩
  · rw [Text.runs_append_of_endsRun lexeme (ends word), run.runs_eq, List.singleton_append]
  · exact Text.runs_cons outside rest

theorem tokensFrom_blank {c : Char} (white : Text.isBlank c = true) (position : Position)
    (rest : List Char) :
    tokensFrom position (Text.runs Text.isIdentifierChar (c :: rest)) =
      tokensFrom (position.next c) (Text.runs Text.isIdentifierChar rest) := by
  have outside : Text.isIdentifierChar c = false := by
    apply Bool.eq_false_iff.mpr
    intro inside
    rw [Text.isBlank_of_isWordChar (Text.isWordChar_of_isIdentifierChar inside)] at white
    cases white
  have read : Token.ofRun? [c] = .ok none := by
    rw [Token.ofRun?, white]
    rfl
  rw [Text.runs_cons outside, tokensFrom, read]
  rfl

/-- The tokens of a text are those of the part that is taken apart and those of the rest. -/
theorem Lexed.tokensFrom_eq {before text rest : List Char} {placed : List PlacedToken}
    (lexed : Lexed before text placed rest) :
    ∃ passed, text = passed ++ rest ∧
      tokensFrom (.behind before) (Text.runs Text.isIdentifierChar text) =
        (tokensFrom (.behind (before ++ passed)) (Text.runs Text.isIdentifierChar rest)).map
          (placed ++ ·) := by
  induction lexed with
  | stop before text =>
    refine ⟨[], rfl, ?_⟩
    rw [List.append_nil]
    cases tokensFrom (.behind before) (Text.runs Text.isIdentifierChar text) <;> rfl
  | @blank before text rest c placed white later ih =>
    obtain ⟨passed, rfl, read⟩ := ih
    refine ⟨c :: passed, rfl, ?_⟩
    rw [tokensFrom_blank white, Position.next_behind, read, List.append_assoc,
      List.singleton_append]
  | @lexeme before lexeme text rest token placed spelled ends later ih =>
    obtain ⟨passed, rfl, read⟩ := ih
    refine ⟨lexeme ++ passed, (List.append_assoc _ _ _).symm, ?_⟩
    rw [spelled.runs_append ends, tokensFrom, spelled.ofRun?_eq]
    dsimp only
    rw [Position.after_behind, read, List.append_assoc]
    cases tokensFrom (.behind (before ++ (lexeme ++ passed)))
      (Text.runs Text.isIdentifierChar rest) <;> rfl

theorem ofRun?_eq_error {c : Char} {rest : List Char} {fault : Fault}
    (failed : Token.ofRun? (c :: rest) = .error fault) :
    Text.isBlank c = false ∧
      fault = if c.isDigit then .badInteger (String.ofList (c :: rest)) else .badCharacter c := by
  rw [Token.ofRun?] at failed
  split at failed
  · cases failed
  · rename_i visible
    refine ⟨Bool.eq_false_iff.mpr visible, ?_⟩
    split at failed
    · rename_i digit
      rw [if_pos digit]
      split at failed
      · cases failed
      · cases failed
        rfl
    · rename_i noDigit
      rw [if_neg noDigit]
      split at failed
      · cases failed
      · split at failed
        · cases failed
        · cases failed
          rfl

/-- A text is stuck at its first run if nothing is read from this run. -/
theorem stuck_iff {c : Char} {goesOn after : List Char} {fault : Fault}
    (first : Text.runs Text.isIdentifierChar (c :: goesOn ++ after) =
      (c :: goesOn) :: Text.runs Text.isIdentifierChar after)
    (inside : ∀ d ∈ goesOn, Text.isIdentifierChar c = true ∧ Text.isIdentifierChar d = true)
    (ends : Text.isIdentifierChar c = true → Text.EndsRun Text.isIdentifierChar after) :
    Stuck (c :: goesOn ++ after) fault ↔ Token.ofRun? (c :: goesOn) = .error fault := by
  have number (digit : c.isDigit = true) :
      (c :: goesOn ++ after).takeWhile Text.isIdentifierChar = c :: goesOn := by
    have starts := Text.isIdentifierChar_of_isDigit digit
    apply Text.takeWhile_append_of_endsRun _ (ends starts)
    exact List.forall_mem_cons.mpr ⟨starts, fun d member => (inside d member).2⟩
  have shown : (if c.isDigit then
        Fault.badInteger (String.ofList ((c :: goesOn ++ after).takeWhile Text.isIdentifierChar))
      else .badCharacter c) =
        if c.isDigit then .badInteger (String.ofList (c :: goesOn)) else .badCharacter c := by
    split
    · rename_i digit
      rw [number digit]
    · rfl
  constructor
  · rintro ⟨⟨d, rest, same, visible, rfl⟩, noLexeme⟩
    obtain ⟨rfl, _⟩ := List.cons.inj same
    cases read : Token.ofRun? (c :: goesOn) with
    | error other => rw [shown, (ofRun?_eq_error read).2]
    | ok token =>
      cases token with
      | none =>
        rw [isBlank_of_ofRun? read] at visible
        cases visible
      | some token =>
        have spelled := Token.spelled_of_ofRun? inside read
        exact absurd (spelled.endsRun ends) (noLexeme token _ after rfl spelled)
  · intro failed
    obtain ⟨visible, same⟩ := ofRun?_eq_error failed
    refine ⟨⟨c, goesOn ++ after, rfl, visible, same.trans shown.symm⟩, ?_⟩
    intro token lexeme rest whole spelled closes
    rw [whole, spelled.runs_append closes] at first
    rw [← (List.cons.inj first).1, spelled.ofRun?_eq] at failed
    cases failed

/-- Each text is taken apart up to its end, or up to a place where it is stuck. -/
theorem exists_lexed (before text : List Char) :
    ∃ placed rest, Lexed before text placed rest ∧ (rest = [] ∨ ∃ fault, Stuck rest fault) := by
  -- One run is taken off at a time, so the induction is on the length of what follows it.
  induction size : text.length using Nat.strongRecOn generalizing before text with
  | ind length ih =>
    cases text with
    | nil => exact ⟨[], [], .stop before [], .inl rfl⟩
    | cons c others =>
      rw [List.length_cons] at size
      obtain ⟨goesOn, after, rfl, first, inside, ends⟩ :=
        Text.exists_first_run Text.isIdentifierChar c others
      rw [List.length_append] at size
      rw [← List.cons_append] at first ⊢
      cases read : Token.ofRun? (c :: goesOn) with
      | error fault =>
        exact ⟨[], _, .stop before _, .inr ⟨fault, (stuck_iff first inside ends).mpr read⟩⟩
      | ok token =>
        cases token with
        | none =>
          have shorter : (goesOn ++ after).length < length := by
            rw [List.length_append]
            omega
          obtain ⟨placed, rest, lexed, stops⟩ := ih _ shorter (before ++ [c]) _ rfl
          exact ⟨placed, rest, .blank (isBlank_of_ofRun? read) lexed, stops⟩
        | some token =>
          have spelled := Token.spelled_of_ofRun? inside read
          obtain ⟨placed, rest, lexed, stops⟩ :=
            ih after.length (by omega) (before ++ (c :: goesOn)) after rfl
          exact ⟨_, rest, .lexeme spelled (spelled.endsRun ends) lexed, stops⟩

theorem tokensFrom_of_stuck {text : List Char} {fault : Fault} (stuck : Stuck text fault)
    (position : Position) :
    tokensFrom position (Text.runs Text.isIdentifierChar text) = .error ⟨fault, position⟩ := by
  obtain ⟨c, others, rfl, _⟩ := stuck.starts
  obtain ⟨goesOn, after, rfl, first, inside, ends⟩ :=
    Text.exists_first_run Text.isIdentifierChar c others
  rw [← List.cons_append] at first stuck ⊢
  rw [first, tokensFrom, (stuck_iff first inside ends).mp stuck]

variable {before text rest : List Char} {placed : List PlacedToken} {fault : Fault}

theorem Lexed.tokensFrom_of_end (lexed : Lexed before text placed []) :
    tokensFrom (.behind before) (Text.runs Text.isIdentifierChar text) = .ok placed := by
  obtain ⟨passed, _, read⟩ := lexed.tokensFrom_eq
  rw [read]
  exact congrArg Except.ok (List.append_nil placed)

theorem Lexed.tokensFrom_of_stuck (lexed : Lexed before text placed rest)
    (stuck : Stuck rest fault) :
    ∃ passed, text = passed ++ rest ∧
      tokensFrom (.behind before) (Text.runs Text.isIdentifierChar text) =
        .error ⟨fault, .behind (before ++ passed)⟩ := by
  obtain ⟨passed, whole, read⟩ := lexed.tokensFrom_eq
  refine ⟨passed, whole, ?_⟩
  rw [read, Definition.tokensFrom_of_stuck stuck]
  rfl

/-- No way to take a text apart gets beyond the place where one of them is stuck. -/
theorem Lexed.suffix_of_stuck (lexed : Lexed before text placed rest) (stuck : Stuck rest fault)
    {others : List PlacedToken} {left : List Char} (other : Lexed before text others left) :
    rest <:+ left := by
  obtain ⟨passed, whole, failed⟩ := lexed.tokensFrom_of_stuck stuck
  obtain ⟨begin, split, read⟩ := other.tokensFrom_eq
  obtain ⟨more, last, later, ⟨rfl⟩ | ⟨otherFault, otherStuck⟩⟩ :=
    exists_lexed (before ++ begin) left
  · rw [failed, later.tokensFrom_of_end] at read
    cases read
  · -- The other way goes on until it is stuck too. Both failures are the same, so is their place.
    obtain ⟨next, rfl, fails⟩ := later.tokensFrom_of_stuck otherStuck
    rw [failed, fails, List.append_assoc] at read
    have same : Position.behind (before ++ passed) = .behind (before ++ (begin ++ next)) := by
      injection read with failure
      injection failure
    rw [split, ← List.append_assoc] at whole
    rw [Position.behind_injective whole.symm same]
    exact List.suffix_append next last

theorem tokens_eq_ok_iff : tokens text = .ok placed ↔ Lexed [] text placed [] := by
  constructor
  · intro read
    obtain ⟨others, rest, lexed, ⟨rfl⟩ | ⟨fault, stuck⟩⟩ := exists_lexed [] text
    · obtain rfl := Except.ok.inj (lexed.tokensFrom_of_end.symm.trans read)
      exact lexed
    · obtain ⟨passed, _, failed⟩ := lexed.tokensFrom_of_stuck stuck
      cases failed.symm.trans read
  · exact Lexed.tokensFrom_of_end

theorem tokens_eq_error_iff {failure : PlacedFault} :
    tokens text = .error failure ↔
      ∃ before rest placed, text = before ++ rest ∧ Lexed [] text placed rest ∧
        Stuck rest failure.fault ∧ failure.position = .behind before := by
  constructor
  · intro failed
    obtain ⟨placed, rest, lexed, ⟨rfl⟩ | ⟨fault, stuck⟩⟩ := exists_lexed [] text
    · cases lexed.tokensFrom_of_end.symm.trans failed
    · obtain ⟨passed, whole, found⟩ := lexed.tokensFrom_of_stuck stuck
      obtain rfl := Except.error.inj (found.symm.trans failed)
      exact ⟨passed, rest, placed, whole, lexed, stuck, rfl⟩
  · rintro ⟨before, rest, placed, split, lexed, stuck, place⟩
    obtain ⟨passed, again, failed⟩ := lexed.tokensFrom_of_stuck stuck
    rw [split, List.append_cancel_right_eq] at again
    rw [← again, List.nil_append, ← place] at failed
    exact failed

/-- A text has the tokens into whose lexemes and white space it can be taken apart. If it can not
be taken apart up to its end, then it is reported at the last place that can be reached. -/
theorem tokens_partition (text : List Char) :
    (∀ placed, tokens text = .ok placed ↔ Lexed [] text placed []) ∧
      ∀ failure, tokens text = .error failure ↔
        ∃ before rest placed, text = before ++ rest ∧ Lexed [] text placed rest ∧
          Stuck rest failure.fault ∧ failure.position = .behind before ∧
          ∀ others left, Lexed [] text others left → rest <:+ left := by
  refine ⟨fun placed => tokens_eq_ok_iff, fun failure => tokens_eq_error_iff.trans ?_⟩
  constructor
  · rintro ⟨before, rest, placed, split, lexed, stuck, place⟩
    exact ⟨before, rest, placed, split, lexed, stuck, place, fun _ _ => lexed.suffix_of_stuck stuck⟩
  · rintro ⟨before, rest, placed, split, lexed, stuck, place, _⟩
    exact ⟨before, rest, placed, split, lexed, stuck, place⟩

/-- A word that begins with a digit is not taken apart into a number and a name. -/
example : tokens "u8 12ab".toList = .error ⟨.badInteger "12ab", ⟨1, 4⟩⟩ := by decide +kernel

end Definition

end PackedStruct
