import PackedStruct.Proofs.ReplacedTokens
import PackedStruct.Proofs.UndefinedNames

/-! Where a number is needed: looking for names between marks in a text finds the same names as
looking among its tokens. The grammar wants numbers in these places, so that a text whose tokens are
definitions has no undefined names. -/

namespace PackedStruct.Definition

/-- The token that closes the place where the definition needs a number. -/
def Token.closing? : Token → Option Token
  | .openBracket => some .closeBracket
  | .colon => some .semicolon
  | _ => none

/-- The name stands alone in brackets, or alone between a colon and a semicolon. -/
def StandsForNumber (name : String) (tokens : List Token) : Prop :=
  [.openBracket, .ident name, .closeBracket] <:+: tokens ∨
    [.colon, .ident name, .semicolon] <:+: tokens

theorem not_standsForNumber_nil (name : String) : ¬ StandsForNumber name [] := by
  simp [StandsForNumber]

theorem standsForNumber_cons_iff {name : String} {token : Token} {rest : List Token} :
    StandsForNumber name (token :: rest) ↔
      (∃ close, token.closing? = some close ∧ [.ident name, close] <+: rest) ∨
        StandsForNumber name rest := by
  have here : (∃ close, token.closing? = some close ∧ [.ident name, close] <+: rest) ↔
      [.openBracket, .ident name, .closeBracket] <+: token :: rest ∨
        [.colon, .ident name, .semicolon] <+: token :: rest := by
    cases token <;> simp [Token.closing?, List.cons_prefix_cons]
  rw [here, StandsForNumber, StandsForNumber, List.infix_cons_iff, List.infix_cons_iff]
  exact or_or_or_comm

theorem standsForNumber_cons_of_closing? {name : String} {token : Token} {rest : List Token}
    (none : token.closing? = none) :
    StandsForNumber name (token :: rest) ↔ StandsForNumber name rest := by
  rw [standsForNumber_cons_iff, none]
  simp

theorem closing?_of_ofMark? {c : Char} {token : Token} (known : Token.ofMark? c = some token) :
    token.closing? = (closingMark? c).bind Token.ofMark? := by
  unfold Token.ofMark? at known
  split at known <;> cases known <;> rfl

theorem exists_ofMark?_of_closingMark? {c close : Char} (marked : closingMark? c = some close) :
    ∃ token, Token.ofMark? close = some token := by
  unfold closingMark? at marked
  split at marked <;> cases marked
  · exact ⟨_, rfl⟩
  · exact ⟨_, rfl⟩

theorem ofMark?_inj {c d : Char} {token : Token} (known : Token.ofMark? c = some token)
    (same : Token.ofMark? d = some token) : c = d := by
  unfold Token.ofMark? at known same
  split at known <;> cases known <;> split at same <;> first | rfl | cases same

theorem ofMark?_ne_int {c : Char} {value : UInt64} : Token.ofMark? c ≠ some (.int value) := by
  unfold Token.ofMark?
  split <;> exact nofun

theorem outside_of_ofMark? {c : Char} {token : Token} (known : Token.ofMark? c = some token) :
    Text.isBlank c = false ∧ Text.isIdentifierChar c = false := by
  unfold Token.ofMark? at known
  split at known <;> cases known <;> exact ⟨rfl, rfl⟩

theorem closingMark?_of_isBlank {c : Char} (white : Text.isBlank c = true) :
    closingMark? c = none := by
  unfold closingMark?
  split <;> first | rfl | cases white

/-- How the tokens of a text are read. What number a literal stands for does not matter here. -/
inductive Reads : List Char → List Token → Prop where
  | nil : Reads [] []
  | blank {c : Char} {rest : List Char} {tokens : List Token} (white : Text.isBlank c = true)
      (later : Reads rest tokens) : Reads (c :: rest) tokens
  | mark {c : Char} {token : Token} {rest : List Char} {tokens : List Token}
      (known : Token.ofMark? c = some token) (later : Reads rest tokens) :
      Reads (c :: rest) (token :: tokens)
  | name {word rest : List Char} {tokens : List Token}
      (identifier : Text.isIdentifier word = true)
      (ends : Text.EndsRun Text.isIdentifierChar rest) (later : Reads rest tokens) :
      Reads (word ++ rest) (.ident (String.ofList word) :: tokens)
  | number {word rest : List Char} {value : UInt64} {tokens : List Token}
      (run : Text.IsRun Text.isIdentifierChar word) (noName : Text.isIdentifier word = false)
      (ends : Text.EndsRun Text.isIdentifierChar rest) (later : Reads rest tokens) :
      Reads (word ++ rest) (.int value :: tokens)

theorem kinds_of_tokens {text : List Char} {placed : List PlacedToken}
    (read : tokens text = .ok placed) : kinds text = .ok (bare placed) := by
  rw [kinds, read]
  rfl

theorem kinds_append_eq_ok_iff {run rest : List Char} {found : List Token}
    (single : Text.runs Text.isIdentifierChar run = [run])
    (apart : Text.runs Text.isIdentifierChar (run ++ rest) =
      Text.runs Text.isIdentifierChar run ++ Text.runs Text.isIdentifierChar rest) :
    kinds (run ++ rest) = .ok found ↔
      ∃ token others, Token.ofRun? run = .ok token ∧ kinds rest = .ok others ∧
        found = token.toList ++ others := by
  rw [kinds_append apart, kinds_of_single single, inTurn, bind_eq_ok_iff]
  constructor
  · rintro ⟨_, here, both⟩
    obtain ⟨token, read, rfl⟩ := map_eq_ok_iff.mp here
    obtain ⟨others, there, same⟩ := bind_eq_ok_iff.mp both
    cases same
    exact ⟨token, others, read, there, rfl⟩
  · rintro ⟨token, others, read, there, rfl⟩
    exact ⟨token.toList, map_eq_ok_iff.mpr ⟨token, read, rfl⟩,
      bind_eq_ok_iff.mpr ⟨others, there, rfl⟩⟩

/-- Only white space has no token. -/
theorem isBlank_of_ofRun? {c : Char} {rest : List Char}
    (read : Token.ofRun? (c :: rest) = .ok none) : Text.isBlank c = true := by
  by_contra visible
  rw [Token.ofRun?, if_neg visible] at read
  split at read
  · split at read <;> cases read
  · split at read
    · cases read
    · split at read <;> cases read

/-- A character that belongs to no name and no number is white space or a mark. -/
theorem token_of_ofRun?_singleton {c : Char} (outside : Text.isIdentifierChar c = false)
    {token : Option Token} (read : Token.ofRun? [c] = .ok token) :
    Text.isBlank c = true ∧ token = none ∨
      ∃ mark, Token.ofMark? c = some mark ∧ token = some mark := by
  cases token with
  | none => exact .inl ⟨isBlank_of_ofRun? read, rfl⟩
  | some mark =>
    rcases Token.cases_of_ofRun? read with ⟨digit, _⟩ | ⟨starts, _⟩ | known
    · exact absurd rfl (Text.ne_of_inClass (Text.isIdentifierChar_of_isDigit digit) outside)
    · exact absurd rfl
        (Text.ne_of_inClass (Text.isIdentifierChar_of_isIdentifierStart starts) outside)
    · exact .inr ⟨mark, known, rfl⟩

/-- A run of such characters is a name, or it is read as a number. -/
theorem exists_int_of_ofRun? {word : List Char} (run : Text.IsRun Text.isIdentifierChar word)
    (noName : Text.isIdentifier word = false) {token : Option Token}
    (read : Token.ofRun? word = .ok token) : ∃ value, token = some (.int value) := by
  obtain ⟨c, goesOn, rfl⟩ := List.exists_cons_of_ne_nil run.nonempty
  obtain ⟨first, later⟩ := List.forall_mem_cons.mp run.inside
  cases token with
  | none =>
    have visible := Text.isBlank_of_isWordChar (Text.isWordChar_of_isIdentifierChar first)
    rw [isBlank_of_ofRun? read] at visible
    cases visible
  | some token =>
    rcases Token.int_or_mark_of_ofRun? later noName read with ⟨value, rfl⟩ | known
    · exact ⟨value, rfl⟩
    · exact absurd rfl (Text.ne_of_inClass first (outside_of_ofMark? known).2)

theorem reads_of_kinds {text : List Char} {found : List Token} (read : kinds text = .ok found) :
    Reads text found := by
  induction text using Text.words_induction Text.isIdentifierChar generalizing found with
  | nil =>
    cases read
    exact .nil
  | other c rest outside ih =>
    have around : Text.runs Text.isIdentifierChar ([c] ++ rest) =
        [c] :: Text.runs Text.isIdentifierChar rest := Text.runs_separated outside [] rest
    obtain ⟨token, others, here, there, rfl⟩ := (kinds_append_eq_ok_iff rfl around).mp read
    have later := ih rest le_rfl there
    rcases token_of_ofRun?_singleton outside here with ⟨white, rfl⟩ | ⟨mark, known, rfl⟩
    · exact .blank white later
    · exact .mark known later
  | word word rest run ends ih =>
    obtain ⟨token, others, here, there, rfl⟩ :=
      (kinds_append_eq_ok_iff run.runs_eq (Text.runs_append_of_endsRun word ends)).mp read
    have later := ih there
    cases identifier : Text.isIdentifier word with
    | true =>
      rw [ofRun?_identifier identifier] at here
      cases here
      exact .name identifier ends later
    | false =>
      obtain ⟨value, rfl⟩ := exists_int_of_ofRun? run identifier here
      exact .number run identifier ends later

variable {text : List Char} {found : List Token}

/-- The first character that is no white space is a mark if the first token is. -/
theorem Reads.head?_iff (reads : Reads text found) {c : Char} {mark : Token}
    (known : Token.ofMark? c = some mark) :
    (text.dropWhile Text.isBlank).head? = some c ↔ found.head? = some mark := by
  have noWord {word : List Char} (run : Text.IsRun Text.isIdentifierChar word)
      (rest : List Char) : ((word ++ rest).dropWhile Text.isBlank).head? ≠ some c := by
    have visible : Text.IsRun Text.isWordChar word :=
      run.weaken fun _ => Text.isWordChar_of_isIdentifierChar
    rw [visible.dropWhile_isBlank]
    exact run.head?_append_ne (outside_of_ofMark? known).2 rest
  induction reads with
  | nil => exact iff_of_false nofun nofun
  | blank white later ih => rwa [List.dropWhile_cons_of_pos white]
  | @mark d token rest others other later ih =>
    rw [(Text.endsRun_cons (outside_of_ofMark? other).1 rest).dropWhile_eq, List.head?_cons,
      List.head?_cons, Option.some.injEq, Option.some.injEq]
    constructor
    · rintro rfl
      exact Option.some.inj (other.symm.trans known)
    · rintro rfl
      exact ofMark?_inj other known
  | name identifier ends later ih =>
    refine iff_of_false (noWord (Text.isRun_of_isIdentifier identifier) _) ?_
    intro same
    exact Token.nameless_of_ofMark? known _ (Option.some.inj same).symm
  | number run noName ends later ih =>
    refine iff_of_false (noWord run _) ?_
    intro same
    rw [← Option.some.inj same] at known
    exact ofMark?_ne_int known

/-- A name stands before a mark in the text if it does among the tokens. -/
theorem Reads.nameBefore?_iff (reads : Reads text found) {c : Char} {mark : Token}
    (known : Token.ofMark? c = some mark) (name : String) :
    (nameBefore? c text).map String.ofList = some name ↔ [.ident name, mark] <+: found := by
  induction reads with
  | nil => simp [nameBefore?_nil]
  | blank white later ih => rwa [nameBefore?_blank white]
  | @mark d token rest others other later ih =>
    obtain ⟨visible, outside⟩ := outside_of_ofMark? other
    rw [nameBefore?_of_outside visible outside, List.cons_prefix_cons]
    refine iff_of_false nofun ?_
    rintro ⟨rfl, _⟩
    exact Token.nameless_of_ofMark? other name rfl
  | @name word rest others identifier ends later ih =>
    have closes := later.head?_iff known
    have first : [mark] <+: others ↔ others.head? = some mark := by
      cases others <;> simp [List.cons_prefix_cons, eq_comm]
    rw [nameBefore?_run (Text.isRun_of_isIdentifier identifier) ends,
      Option.guard_pos identifier, List.cons_prefix_cons, first, Token.ident.injEq]
    by_cases stands : others.head? = some mark
    · rw [if_pos (closes.mpr stands), Option.map_some, Option.some.injEq, eq_comm]
      exact (and_iff_left stands).symm
    · rw [if_neg fun mark => stands (closes.mp mark), Option.map_none]
      exact iff_of_false nofun fun both => stands both.2
  | @number word rest value others run noName ends later ih =>
    rw [nameBefore?_run run ends, Option.guard_eq_none_iff.mpr noName, ite_self,
      List.cons_prefix_cons]
    exact iff_of_false nofun (by simp)

/-- The names that stand where a number is needed are the same in the text and among its tokens. -/
theorem Reads.mem_namesForNumbers_iff (reads : Reads text found) (name : String) :
    name ∈ namesForNumbers text ↔ StandsForNumber name found := by
  induction reads with
  | nil => simp [namesForNumbers, not_standsForNumber_nil]
  | blank white later ih =>
    rw [namesForNumbers_cons, closingMark?_of_isBlank white, Option.bind_none]
    exact ih
  | @mark c token rest others known later ih =>
    rw [namesForNumbers_cons, List.mem_append, ih, standsForNumber_cons_iff,
      closing?_of_ofMark? known]
    refine or_congr_left ?_
    cases marked : closingMark? c with
    | none => simp
    | some close =>
      obtain ⟨mark, closing⟩ := exists_ofMark?_of_closingMark? marked
      rw [Option.bind_some, Option.bind_some, closing, Option.mem_toList,
        later.nameBefore?_iff closing name]
      simp
  | name identifier ends later ih =>
    rw [namesForNumbers_run (Text.isRun_of_isIdentifier identifier), ih,
      standsForNumber_cons_of_closing? rfl]
  | number run noName ends later ih =>
    rw [namesForNumbers_run run, ih, standsForNumber_cons_of_closing? rfl]

def NumbersFollow : List Token → Prop
  | [] => True
  | token :: rest =>
    (token.closing?.isSome → ∃ value, rest.head? = some (.int value)) ∧ NumbersFollow rest

theorem NumbersFollow.not_standsForNumber {tokens : List Token} (follow : NumbersFollow tokens)
    (name : String) : ¬ StandsForNumber name tokens := by
  induction tokens with
  | nil => exact not_standsForNumber_nil name
  | cons token rest ih =>
    obtain ⟨here, later⟩ := follow
    rw [standsForNumber_cons_iff, not_or]
    refine ⟨?_, ih later⟩
    rintro ⟨close, opens, others, same⟩
    obtain ⟨value, number⟩ := here (Option.isSome_of_eq_some opens)
    rw [← same] at number
    cases number

theorem NumbersFollow.append {first second : List Token} (before : NumbersFollow first)
    (after : NumbersFollow second) : NumbersFollow (first ++ second) := by
  induction first with
  | nil => exact after
  | cons token rest ih =>
    obtain ⟨here, later⟩ := before
    refine ⟨fun opens => ?_, ih later⟩
    obtain ⟨value, number⟩ := here opens
    exact ⟨value, List.head?_append.trans (by rw [number, Option.some_or])⟩

theorem numbersFollow_bare_flatten {parts : List (List PlacedToken)}
    (each : ∀ part ∈ parts, NumbersFollow (bare part)) : NumbersFollow (bare parts.flatten) := by
  induction parts with
  | nil => trivial
  | cons part rest ih =>
    obtain ⟨here, later⟩ := List.forall_mem_cons.mp each
    rw [List.flatten_cons, bare_append]
    exact here.append (ih later)

/-- Tokens that open no place for a number. -/
theorem numbersFollow_of_closing? {tokens : List Token}
    (none : ∀ token ∈ tokens, token.closing? = none) : NumbersFollow tokens := by
  induction tokens with
  | nil => trivial
  | cons token rest ih =>
    obtain ⟨here, later⟩ := List.forall_mem_cons.mp none
    refine ⟨fun opens => ?_, ih later⟩
    rw [here] at opens
    cases opens

theorem Bounds.numbersFollow {width length : Option Nat} {tokens : List Token}
    (bounds : Bounds width length tokens) : NumbersFollow (tokens ++ [.semicolon]) := by
  cases bounds with
  | none => simp [NumbersFollow, Token.closing?]
  | width positive => simp [NumbersFollow, Token.closing?]
  | length positive => simp [NumbersFollow, Token.closing?]

theorem MemberDeclaration.Written.numbersFollow {declared : MemberDeclaration}
    {part : List PlacedToken} (written : declared.Written part) : NumbersFollow (bare part) := by
  cases written with
  | @intro front back bounds qualifies bounded ending =>
    have words : NumbersFollow (bare front) := by
      apply numbersFollow_of_closing?
      rcases qualifies.written with same | same | same | same <;> simp [same, Token.closing?]
    have named : NumbersFollow (bare back) := by
      rw [ending]
      exact ⟨nofun, bounded.numbersFollow⟩
    rw [bare_append]
    exact words.append ⟨nofun, named⟩

theorem Declaration.Written.numbersFollow {declared : Declaration} {part : List PlacedToken}
    (written : declared.Written part) : NumbersFollow (bare part) := by
  cases written with
  | @intro head tail parts tag heading members distinct ending =>
    have before : NumbersFollow (bare head) := by
      rw [heading]
      cases tag <;> simp [NumbersFollow, Token.closing?]
    have after : NumbersFollow (bare tail) := by
      rw [ending]
      simp [NumbersFollow, Token.closing?]
    have fields (part : List PlacedToken) (member : part ∈ parts) : NumbersFollow (bare part) := by
      obtain ⟨_, _, written⟩ := exists_of_mem_right members member
      exact written.numbersFollow
    rw [bare_append, bare_append]
    exact before.append ((numbersFollow_bare_flatten fields).append after)

/-- Definitions have numbers wherever they need one. -/
theorem numbersFollow_of_declarations {placed : List PlacedToken} {declared : List Declaration}
    (known : declarations placed = .ok declared) : NumbersFollow (bare placed) := by
  obtain ⟨_, parts, written, rfl⟩ := takeDeclarations_eq_ok_iff.mp known
  apply numbersFollow_bare_flatten
  intro part member
  obtain ⟨_, _, here⟩ := exists_of_mem_right written member
  exact here.numbersFollow

/-- Of a text that has tokens the undefined names are those that stand among the tokens, alone,
where a number is needed, in increasing order. So no text is refused for its undefined names if it
has tokens that are definitions. -/
theorem undefinedNames_agree_with_tokens :
    (∀ text placed, tokens text = .ok placed →
      (undefinedNames text).Pairwise (· < ·) ∧
        ∀ name, name ∈ undefinedNames text ↔ StandsForNumber name (bare placed)) ∧
    ∀ constants text placed declared,
      tokens (replaceConstants constants (withoutComments text)) = .ok placed →
      declarations placed = .ok declared →
      prepare constants text = .ok (replaceConstants constants (withoutComments text)) := by
  have places {text : List Char} {placed : List PlacedToken} (read : tokens text = .ok placed)
      (name : String) : name ∈ namesForNumbers text ↔ StandsForNumber name (bare placed) :=
    (reads_of_kinds (kinds_of_tokens read)).mem_namesForNumbers_iff name
  constructor
  · intro text placed read
    exact ⟨pairwise_undefinedNames text, fun name => mem_undefinedNames.trans (places read name)⟩
  · intro constants text placed declared read known
    refine prepare_eq_ok_iff.mpr ⟨rfl, List.eq_nil_iff_forall_not_mem.mpr fun name undefined => ?_⟩
    have follow := numbersFollow_of_declarations known
    exact follow.not_standsForNumber name ((places read name).mp undefined)

/-- A name in brackets is undefined, and a definition that has a number for it is accepted. -/
theorem undefinedNames_agree_with_tokens_row :
    "N" ∈ undefinedNames "[ N ]".toList ∧
      prepare (.ofList [("N", 2)]) "typedef struct \x7b cell cells[N]; \x7d row; // [M]".toList =
        .ok "typedef struct \x7b cell cells[2]; \x7d row; ".toList := by
  have brackets : tokens "[ N ]".toList =
      .ok [⟨.openBracket, ⟨1, 1⟩⟩, ⟨.ident "N", ⟨1, 3⟩⟩, ⟨.closeBracket, ⟨1, 5⟩⟩] := by
    decide +kernel
  have replaced : replaceConstants (.ofList [("N", 2)])
      (withoutComments "typedef struct \x7b cell cells[N]; \x7d row; // [M]".toList) =
        "typedef struct \x7b cell cells[2]; \x7d row; ".toList := by decide +kernel
  have accepted :
      (tokens "typedef struct \x7b cell cells[2]; \x7d row; ".toList).bind declarations =
        .ok [⟨"row", [⟨"cell", "cells", none, some 2, ⟨1, 18⟩⟩]⟩] := by decide +kernel
  rw [← replaced] at accepted ⊢
  obtain ⟨placed, read, known⟩ := bind_eq_ok_iff.mp accepted
  constructor
  · exact ((undefinedNames_agree_with_tokens.1 _ _ brackets).2 "N").mpr (.inl List.infix_rfl)
  · exact undefinedNames_agree_with_tokens.2 _ _ _ _ read known

end PackedStruct.Definition
