import PackedStruct.Definition.Source
import PackedStruct.Proofs.Grammar
import PackedStruct.Proofs.Words

namespace PackedStruct.Definition

theorem dropWhile_append_cons {p : Char → Bool} {c : Char} (stays : p c = false)
    (first second : List Char) :
    (first ++ c :: second).dropWhile p = first.dropWhile p ++ c :: second := by
  rw [List.dropWhile_append]
  split
  · rename_i none
    rw [List.isEmpty_iff.mp none, List.dropWhile_cons_of_neg (by simp [stays]), List.nil_append]
  · rfl

theorem closeComment_cons {c : Char} {rest : List Char}
    (apart : c = '*' → rest.head? ≠ some '/') :
    closeComment (c :: rest) = (closeComment rest).map fun found =>
      (if c == '\n' then c :: found.1 else found.1, found.2) := by
  have goesOn : ∀ more, c = '*' → rest = '/' :: more → False := by
    rintro more star rfl
    exact apart star rfl
  rw [closeComment.eq_3 _ _ goesOn]
  cases closeComment rest <;> rfl

theorem closeComment_append {text feeds rest : List Char}
    (closed : closeComment text = some (feeds, rest)) (more : List Char) :
    closeComment (text ++ more) = some (feeds, rest ++ more) := by
  fun_induction closeComment text generalizing feeds rest with
  | case1 => cases closed
  | case2 rest =>
    cases closed
    rfl
  | case3 c others apart none => cases closed
  | case4 c others apart feeds' after found ih =>
    cases closed
    have still : c = '*' → (others ++ more).head? ≠ some '/' := by
      intro star slash
      cases others with
      | nil => cases found
      | cons next others =>
        obtain rfl := Option.some.inj slash
        exact apart others star rfl
    rw [List.cons_append, closeComment_cons still, ih found]
    rfl

theorem withoutComments_cons {c : Char} {rest : List Char}
    (apart : c = '/' → rest.head? ≠ some '/' ∧ rest.head? ≠ some '*') :
    withoutComments (c :: rest) = c :: withoutComments rest := by
  apply withoutComments.eq_4
  · rintro more slash rfl
    exact (apart slash).1 rfl
  · rintro more slash rfl
    exact (apart slash).2 rfl

theorem withoutComments_cons_of_ne {c : Char} (noSlash : c ≠ '/') (rest : List Char) :
    withoutComments (c :: rest) = c :: withoutComments rest :=
  withoutComments_cons fun slash => absurd slash noSlash

theorem withoutComments_closed {rest feeds after : List Char}
    (closed : closeComment rest = some (feeds, after)) :
    withoutComments ('/' :: '*' :: rest) = ' ' :: feeds ++ withoutComments after := by
  rw [withoutComments.eq_3]
  split
  · rename_i again
    rw [closed] at again
    cases again
    rfl
  · rename_i unclosed
    rw [closed] at unclosed
    cases unclosed

/-- Comments end before the next line or are closed. A slash that is left is no comment. -/
theorem withoutComments_separated {first : List Char} (closed : '/' ∉ withoutComments first)
    (second : List Char) :
    withoutComments (first ++ '\n' :: second) =
      withoutComments first ++ '\n' :: withoutComments second := by
  fun_induction withoutComments first with
  | case1 => exact withoutComments_cons_of_ne (by decide) second
  | case2 rest ih =>
    rw [List.cons_append, List.cons_append, withoutComments.eq_2,
      dropWhile_append_cons (by decide)]
    exact ih closed
  | case3 rest feeds after found ih =>
    rw [List.cons_append, List.cons_append, withoutComments_closed (closeComment_append found _),
      ih, List.append_assoc]
    intro slash
    exact closed (List.mem_append_right _ slash)
  | case4 rest unclosed ih => exact absurd List.mem_cons_self closed
  | case5 c rest line block ih =>
    have noSlash : c ≠ '/' := by
      rintro rfl
      exact closed List.mem_cons_self
    rw [List.cons_append, withoutComments_cons_of_ne noSlash, ih, List.cons_append]
    intro slash
    exact closed (List.mem_cons_of_mem _ slash)

variable {constants : Constants}

theorem replaceWord_singleton {c : Char} (apart : Text.isWordChar c = false) :
    replaceWord constants [c] = [c] := by
  have outside := Text.outside_of_outside Text.isWordChar_of_isIdentifierChar apart
  rw [replaceWord, Text.isIdentifier_singleton outside]
  rfl

theorem replaceConstants_separated {c : Char} (apart : Text.isWordChar c = false)
    (first second : List Char) :
    replaceConstants constants (first ++ c :: second) =
      replaceConstants constants first ++ c :: replaceConstants constants second := by
  rw [replaceConstants, Text.runs_separated apart, List.flatMap_append, List.flatMap_cons,
    replaceWord_singleton apart]
  rfl

/-- What is no part of a word stays. -/
theorem mem_replaceConstants {c : Char} (apart : Text.isWordChar c = false) {text : List Char}
    (member : c ∈ text) : c ∈ replaceConstants constants text := by
  obtain ⟨before, after, rfl⟩ := List.append_of_mem member
  rw [replaceConstants_separated apart]
  exact List.mem_append_right _ List.mem_cons_self

/-- Dropping and taking stop at a character that stays. -/
theorem dropWhile_append_of_mem {p : Char → Bool} {c : Char} (stays : p c = false)
    {text : List Char} (member : c ∈ text) (more : List Char) :
    c ∈ text.dropWhile p ∧ (text ++ more).dropWhile p = text.dropWhile p ++ more ∧
      (text ++ more).takeWhile p = text.takeWhile p := by
  obtain ⟨before, after, rfl⟩ := List.append_of_mem member
  rw [List.append_assoc, List.cons_append, dropWhile_append_cons stays,
    dropWhile_append_cons stays, List.takeWhile_append, List.takeWhile_append]
  refine ⟨List.mem_append_right _ List.mem_cons_self, by simp, ?_⟩
  simp [stays]

/-- Whether a name stands before the closing mark is settled at the first semicolon. -/
theorem nameBefore?_append {close : Char} {text : List Char} (settled : ';' ∈ text)
    (more : List Char) : nameBefore? close (text ++ more) = nameBefore? close text := by
  obtain ⟨inside, blanks, _⟩ :=
    dropWhile_append_of_mem (p := Text.isBlank) (by decide) settled more
  obtain ⟨behind, dropped, taken⟩ :=
    dropWhile_append_of_mem (p := Text.isIdentifierChar) (by decide) inside more
  obtain ⟨final, rest, _⟩ :=
    dropWhile_append_of_mem (p := Text.isBlank) (by decide) behind more
  have nonempty := List.ne_nil_of_mem final
  simp only [nameBefore?, blanks, dropped, taken, rest, List.head?_append_of_ne_nil _ nonempty]

/-- The names in the first of two texts are not affected by the second one if a semicolon follows
each mark. -/
theorem namesForNumbers_append {first : List Char}
    (settled : ∀ before mark rest, first = before ++ mark :: rest →
      (closingMark? mark).isSome → ';' ∈ rest) (second : List Char) :
    namesForNumbers (first ++ second) = namesForNumbers first ++ namesForNumbers second := by
  induction first with
  | nil => rfl
  | cons c rest ih =>
    have later := ih fun before mark more split marked =>
      settled (c :: before) mark more (by rw [split, List.cons_append]) marked
    have here : ((closingMark? c).bind fun close => nameBefore? close (rest ++ second)) =
        (closingMark? c).bind fun close => nameBefore? close rest := by
      cases marked : closingMark? c with
      | none => rfl
      | some close =>
        have inside : ';' ∈ rest := settled [] c rest rfl (Option.isSome_of_eq_some marked)
        rw [Option.bind_some, Option.bind_some, nameBefore?_append inside]
    rw [List.cons_append, namesForNumbers, namesForNumbers, here, later]
    split <;> rfl

theorem insertAll_eq_nil_iff {entries pairs : List (String × Unit)} :
    Entries.insertAll entries pairs = [] ↔ entries = [] ∧ pairs = [] := by
  induction pairs generalizing entries with
  | nil => exact (and_iff_left rfl).symm
  | cons pair rest ih =>
    have step : Entries.insertAll entries (pair :: rest) =
        Entries.insertAll (Entries.insert pair.1 pair.2 entries) rest := rfl
    have nonempty : Entries.insert pair.1 pair.2 entries ≠ [] := by
      cases entries with
      | nil => exact List.cons_ne_nil _ _
      | cons head tail =>
        unfold Entries.insert
        split <;> exact List.cons_ne_nil _ _
    rw [step, ih]
    simp [nonempty]

theorem undefinedNames_eq_nil_iff {text : List Char} :
    undefinedNames text = [] ↔ namesForNumbers text = [] := by
  change (Entries.insertAll [] _).map _ = [] ↔ _
  simp [insertAll_eq_nil_iff]

theorem prepare_eq_ok_iff {text prepared : List Char} :
    prepare constants text = .ok prepared ↔
      prepared = replaceConstants constants (withoutComments text) ∧
        namesForNumbers prepared = [] := by
  rw [← undefinedNames_eq_nil_iff]
  dsimp only [prepare]
  split
  · rename_i none
    constructor
    · intro same
      cases same
      exact ⟨rfl, none⟩
    · rintro ⟨rfl, _⟩
      rfl
  · rename_i some
    constructor
    · intro failed
      cases failed
    · rintro ⟨rfl, none⟩
      exact absurd none some

theorem tokensFrom_cons_eq_ok_iff {position : Position} {run : List Char}
    {rest : List (List Char)} {tokens : List PlacedToken} :
    tokensFrom position (run :: rest) = .ok tokens ↔
      ∃ token others, Token.ofRun? run = .ok token ∧
        tokensFrom (position.after run) rest = .ok others ∧
        tokens = (token.map (PlacedToken.mk · position)).toList ++ others := by
  rw [tokensFrom]
  cases read : Token.ofRun? run with
  | error fault => simp
  | ok token =>
    cases token with
    | none => simp
    | some token =>
      rw [bind_eq_ok_iff]
      simp [pure, Except.pure, eq_comm]

theorem tokensFrom_append_eq_ok_iff {position : Position} {first second : List (List Char)}
    {tokens : List PlacedToken} :
    tokensFrom position (first ++ second) = .ok tokens ↔
      ∃ before after, tokensFrom position first = .ok before ∧
        tokensFrom (position.after first.flatten) second = .ok after ∧
        tokens = before ++ after := by
  induction first generalizing position tokens with
  | nil => simp [tokensFrom, Position.after]
  | cons run rest ih =>
    have place : position.after (run :: rest).flatten =
        (position.after run).after rest.flatten := by
      simp [Position.after]
    rw [List.cons_append, place]
    simp only [tokensFrom_cons_eq_ok_iff, ih]
    constructor
    · rintro ⟨token, _, read, ⟨before, after, first, second, rfl⟩, rfl⟩
      exact ⟨_, after, ⟨token, before, read, first, rfl⟩, second, (List.append_assoc _ _ _).symm⟩
    · rintro ⟨_, after, ⟨token, before, read, first, rfl⟩, second, rfl⟩
      exact ⟨token, _, read, ⟨before, after, first, second, rfl⟩, List.append_assoc _ _ _⟩

/-- The place of a text does not matter for its tokens. -/
theorem exists_tokensFrom {position : Position} {runs : List (List Char)}
    {tokens : List PlacedToken} (read : tokensFrom position runs = .ok tokens) (place : Position) :
    ∃ others, tokensFrom place runs = .ok others ∧ bare others = bare tokens := by
  induction runs generalizing position place tokens with
  | nil =>
    cases read
    exact ⟨[], rfl, rfl⟩
  | cons run rest ih =>
    obtain ⟨token, others, known, later, rfl⟩ := tokensFrom_cons_eq_ok_iff.mp read
    obtain ⟨moved, again, same⟩ := ih later (place.after run)
    refine ⟨_, tokensFrom_cons_eq_ok_iff.mpr ⟨token, moved, known, again, rfl⟩, ?_⟩
    rw [bare_append, bare_append, same]
    cases token <;> rfl

/-- The token of a run is told by its first character: a digit begins a number, a letter a name. -/
theorem Token.cases_of_ofRun? {c : Char} {rest : List Char} {token : Token}
    (read : ofRun? (c :: rest) = .ok (some token)) :
    (c.isDigit = true ∧ ∃ value, token = .int value) ∨
      (Text.isIdentifierStart c = true ∧ token = .ident (String.ofList (c :: rest))) ∨
      ofMark? c = some token := by
  rw [ofRun?] at read
  by_cases white : Text.isBlank c = true
  · rw [if_pos white] at read
    cases read
  · rw [if_neg white] at read
    by_cases digit : c.isDigit = true
    · rw [if_pos digit] at read
      cases number : integer? (c :: rest) with
      | none =>
        rw [number] at read
        cases read
      | some value =>
        rw [number] at read
        cases read
        exact Or.inl ⟨digit, value, rfl⟩
    · rw [if_neg digit] at read
      by_cases starts : Text.isIdentifierStart c = true
      · rw [if_pos starts] at read
        cases read
        exact Or.inr (Or.inl ⟨starts, rfl⟩)
      · rw [if_neg starts] at read
        cases mark : ofMark? c with
        | none =>
          rw [mark] at read
          cases read
        | some found =>
          rw [mark] at read
          cases read
          exact Or.inr (Or.inr rfl)

/-- A run that is no name is a number or a mark. -/
theorem Token.int_or_mark_of_ofRun? {c : Char} {rest : List Char}
    (goesOn : ∀ d ∈ rest, Text.isIdentifierChar d = true)
    (noName : Text.isIdentifier (c :: rest) = false) {token : Token}
    (read : ofRun? (c :: rest) = .ok (some token)) :
    (∃ value, token = .int value) ∨ ofMark? c = some token := by
  rcases cases_of_ofRun? read with ⟨_, number⟩ | ⟨starts, _⟩ | mark
  · exact Or.inl number
  · have name : Text.isIdentifier (c :: rest) = true :=
      Bool.and_eq_true_iff.mpr ⟨starts, List.all_eq_true.mpr goesOn⟩
    rw [name] at noName
    cases noName
  · exact Or.inr mark

theorem eq_of_ofMark?_semicolon {c : Char} (known : Token.ofMark? c = some .semicolon) :
    c = ';' := by
  unfold Token.ofMark? at known
  split at known <;> cases known
  rfl

theorem semicolon_mem_of_ofRun? {run : List Char}
    (read : Token.ofRun? run = .ok (some .semicolon)) : ';' ∈ run := by
  cases run with
  | nil => cases read
  | cons c rest =>
    rcases Token.cases_of_ofRun? read with ⟨_, value, wrong⟩ | ⟨_, wrong⟩ | mark
    · cases wrong
    · cases wrong
    · rw [eq_of_ofMark?_semicolon mark]
      exact List.mem_cons_self

/-- A semicolon among the tokens stands in the text. -/
theorem semicolon_mem_of_tokensFrom {position : Position} {runs : List (List Char)}
    {tokens : List PlacedToken} (read : tokensFrom position runs = .ok tokens)
    (member : .semicolon ∈ bare tokens) : ';' ∈ runs.flatten := by
  induction runs generalizing position tokens with
  | nil =>
    cases read
    cases member
  | cons run rest ih =>
    obtain ⟨token, others, known, later, rfl⟩ := tokensFrom_cons_eq_ok_iff.mp read
    rw [bare_append, List.mem_append] at member
    rw [List.flatten_cons, List.mem_append]
    rcases member with here | there
    · left
      cases token with
      | none => cases here
      | some token =>
        obtain rfl := List.mem_singleton.mp here
        exact semicolon_mem_of_ofRun? known
    · right
      exact ih later there

/-- No slash stands in a text that has tokens. -/
theorem slash_notMem_of_tokens {text : List Char} {tokens : List PlacedToken}
    (read : Definition.tokens text = .ok tokens) : '/' ∉ text := by
  intro member
  obtain ⟨before, after, rfl⟩ := List.append_of_mem member
  rw [Definition.tokens, Text.runs_separated (by decide)] at read
  obtain ⟨_, _, _, later, _⟩ := tokensFrom_append_eq_ok_iff.mp read
  obtain ⟨token, _, known, _⟩ := tokensFrom_cons_eq_ok_iff.mp later
  cases known

/-- A text whose tokens end with a semicolon has one behind each mark in front of a number. -/
theorem semicolon_mem_of_closingMark? {text : List Char} {tokens : List PlacedToken}
    (read : Definition.tokens text = .ok tokens)
    (ended : (bare tokens).getLast? = some .semicolon) {before rest : List Char} {mark : Char}
    (split : text = before ++ mark :: rest) (marked : (closingMark? mark).isSome) :
    ';' ∈ rest := by
  have opens : (∃ token, Token.ofRun? [mark] = .ok (some token) ∧ token ≠ .semicolon) ∧
      Text.isIdentifierChar mark = false := by
    unfold closingMark? at marked
    split at marked
    · exact ⟨⟨.openBracket, rfl, nofun⟩, rfl⟩
    · exact ⟨⟨.colon, rfl, nofun⟩, rfl⟩
    · cases marked
  obtain ⟨⟨token, isMark, other⟩, apart⟩ := opens
  rw [split, Definition.tokens, Text.runs_separated apart] at read
  obtain ⟨first, others, _, later, rfl⟩ := tokensFrom_append_eq_ok_iff.mp read
  obtain ⟨found, behind, known, after, rfl⟩ := tokensFrom_cons_eq_ok_iff.mp later
  obtain rfl : some token = found := Except.ok.inj (isMark.symm.trans known)
  have last : .semicolon ∈ bare behind := by
    rw [bare_append, bare_append] at ended
    change (bare first ++ (token :: bare behind)).getLast? = some .semicolon at ended
    rw [List.getLast?_append_cons] at ended
    cases rest : bare behind with
    | nil =>
      rw [rest] at ended
      exact absurd (Option.some.inj ended) other
    | cons next more =>
      rw [rest, List.getLast?_cons_cons] at ended
      exact List.mem_of_getLast? ended
  have inside := semicolon_mem_of_tokensFrom after last
  rwa [Text.flatten_runs] at inside

theorem prepare_joined {first second : String} {before after : List Char}
    {tokens : List PlacedToken} (preparesFirst : prepare constants first.toList = .ok before)
    (read : Definition.tokens before = .ok tokens)
    (ended : (bare tokens).getLast? = some .semicolon)
    (preparesSecond : prepare constants second.toList = .ok after) :
    prepare constants (first ++ "\n" ++ second).toList = .ok (before ++ '\n' :: after) := by
  obtain ⟨rfl, defined⟩ := prepare_eq_ok_iff.mp preparesFirst
  obtain ⟨rfl, others⟩ := prepare_eq_ok_iff.mp preparesSecond
  have text : (first ++ "\n" ++ second).toList = first.toList ++ '\n' :: second.toList := by
    simp
  have noSlash : '/' ∉ withoutComments first.toList := by
    intro slash
    exact slash_notMem_of_tokens read (mem_replaceConstants (by decide) slash)
  rw [prepare_eq_ok_iff, text, withoutComments_separated noSlash,
    replaceConstants_separated (by decide)]
  refine ⟨rfl, ?_⟩
  rw [namesForNumbers_append, defined, List.nil_append]
  · exact others
  · intro _ _ _ split marked
    exact semicolon_mem_of_closingMark? read ended split marked

theorem tokens_joined {first second : List Char} {before after : List PlacedToken}
    (readFirst : tokens first = .ok before) (readSecond : tokens second = .ok after) :
    ∃ moved, tokens (first ++ '\n' :: second) = .ok (before ++ moved) ∧
      bare moved = bare after := by
  obtain ⟨moved, again, same⟩ := exists_tokensFrom readSecond
    ((Position.start.after (Text.runs Text.isIdentifierChar first).flatten).after ['\n'])
  refine ⟨moved, ?_, same⟩
  rw [tokens, Text.runs_separated (by decide), tokensFrom_append_eq_ok_iff]
  exact ⟨before, moved, readFirst, tokensFrom_cons_eq_ok_iff.mpr ⟨none, moved, rfl, again, rfl⟩,
    rfl⟩

/-- Where the tokens of the first of two texts end with a semicolon, the tokens of both are those of
each one, except for the places. -/
theorem tokensOf_joined {first second : String} {before after : List PlacedToken}
    (readFirst : tokensOf constants first = .ok before)
    (ended : (bare before).getLast? = some .semicolon)
    (readSecond : tokensOf constants second = .ok after) :
    ∃ moved, tokensOf constants (first ++ "\n" ++ second) = .ok (before ++ moved) ∧
      bare moved = bare after := by
  obtain ⟨text, prepared, read⟩ := bind_eq_ok_iff.mp readFirst
  obtain ⟨other, preparedOther, readOther⟩ := bind_eq_ok_iff.mp readSecond
  replace read := mapError_eq_ok_iff.mp read
  have joined := prepare_joined prepared read ended preparedOther
  obtain ⟨moved, both, same⟩ := tokens_joined read (mapError_eq_ok_iff.mp readOther)
  exact ⟨moved, bind_eq_ok_iff.mpr ⟨_, joined, mapError_eq_ok_iff.mpr both⟩, same⟩

end PackedStruct.Definition
