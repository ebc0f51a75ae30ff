import Mathlib.Data.List.ReduceOption
import PackedStruct.Proofs.JoinedText
import PackedStruct.Proofs.Numeral

/-! Constants in a text: replacing them in the text, word by word, is replacing them among its
tokens, although words and tokens are cut out of the text by different classes of characters. -/

namespace PackedStruct.Definition

/-- The tokens of a text without their places, or what is wrong with the text. -/
def kinds (text : List Char) : Except Fault (List Token) :=
  ((tokens text).map bare).mapError PlacedFault.fault

theorem kinds_tokensFrom (position : Position) (runs : List (List Char)) :
    ((tokensFrom position runs).map bare).mapError PlacedFault.fault =
      (runs.mapM Token.ofRun?).map List.reduceOption := by
  induction runs generalizing position with
  | nil => rfl
  | cons run rest ih =>
    have later := ih (position.after run)
    rw [tokensFrom, List.mapM_cons]
    cases Token.ofRun? run with
    | error fault => rfl
    | ok token =>
      cases token with
      | none =>
        apply later.trans
        cases rest.mapM Token.ofRun? <;> rfl
      | some token =>
        calc
          _ = (((tokensFrom (position.after run) rest).map bare).mapError
                PlacedFault.fault).map (token :: ·) := by
            cases tokensFrom (position.after run) rest <;> rfl
          _ = ((rest.mapM Token.ofRun?).map List.reduceOption).map (token :: ·) := by
            rw [later]
          _ = _ := by
            cases rest.mapM Token.ofRun? <;> rfl

theorem kinds_eq (text : List Char) :
    kinds text =
      ((Text.runs Text.isIdentifierChar text).mapM Token.ofRun?).map List.reduceOption :=
  kinds_tokensFrom _ _

theorem kinds_of_single {run : List Char}
    (single : Text.runs Text.isIdentifierChar run = [run]) :
    kinds run = (Token.ofRun? run).map Option.toList := by
  rw [kinds_eq, single, List.mapM_cons, List.mapM_nil]
  cases Token.ofRun? run with
  | error fault => rfl
  | ok token => cases token <;> rfl

def inTurn (first second : Except Fault (List Token)) : Except Fault (List Token) := do
  let before ← first
  let after ← second
  return before ++ after

theorem map_inTurn (change : Token → Token) (first second : Except Fault (List Token)) :
    (inTurn first second).map (List.map change) =
      inTurn (first.map (List.map change)) (second.map (List.map change)) := by
  cases first with
  | error fault => rfl
  | ok before =>
    cases second with
    | error fault => rfl
    | ok after => exact congrArg Except.ok List.map_append

theorem kinds_append {first second : List Char}
    (apart : Text.runs Text.isIdentifierChar (first ++ second) =
      Text.runs Text.isIdentifierChar first ++ Text.runs Text.isIdentifierChar second) :
    kinds (first ++ second) = inTurn (kinds first) (kinds second) := by
  rw [kinds_eq, kinds_eq, kinds_eq, apart, List.mapM_append]
  cases (Text.runs Text.isIdentifierChar first).mapM Token.ofRun? with
  | error fault => rfl
  | ok before =>
    cases (Text.runs Text.isIdentifierChar second).mapM Token.ofRun? with
    | error fault => rfl
    | ok after => exact congrArg Except.ok (List.reduceOption_append _ _)

/-- The tokens on both sides of a character that belongs to no name and no number. -/
theorem kinds_separated {c : Char} (apart : Text.isIdentifierChar c = false)
    (first second : List Char) :
    kinds (first ++ c :: second) = inTurn (kinds first) (inTurn (kinds [c]) (kinds second)) := by
  have behind : Text.runs Text.isIdentifierChar ([c] ++ second) =
      [c] :: Text.runs Text.isIdentifierChar second := Text.runs_separated apart [] second
  have around := Text.runs_separated apart first second
  rw [← behind] at around
  have split : kinds (first ++ ([c] ++ second)) =
      inTurn (kinds first) (kinds ([c] ++ second)) := kinds_append around
  exact split.trans (congrArg _ (kinds_append behind))

/-- The value of a constant in place of its name. -/
def Token.resolved (constants : Constants) : Token → Token
  | .ident name =>
    match constants.get? name with
    | some value => .int value
    | none => .ident name
  | token => token

def Token.Nameless (token : Token) : Prop :=
  ∀ name, token ≠ .ident name

variable {constants : Constants}

theorem Token.Nameless.resolved_eq {token : Token} (nameless : token.Nameless) :
    token.resolved constants = token := by
  cases token with
  | ident name => exact absurd rfl (nameless name)
  | _ => rfl

theorem Token.nameless_of_ofMark? {c : Char} {token : Token} (known : ofMark? c = some token) :
    token.Nameless := by
  rintro name rfl
  unfold ofMark? at known
  split at known <;> cases known

/-- Only identifiers are read as names. -/
theorem Token.nameless_of_ofRun? {run : List Char}
    (goesOn : ∀ c ∈ run.tail, Text.isIdentifierChar c = true)
    (noName : Text.isIdentifier run = false) {token : Token}
    (read : ofRun? run = .ok (some token)) : token.Nameless := by
  cases run with
  | nil => cases read
  | cons c rest =>
    rcases int_or_mark_of_ofRun? goesOn noName read with ⟨value, rfl⟩ | mark
    · exact nofun
    · exact nameless_of_ofMark? mark

/-- What is no name stays as it is. -/
theorem kinds_eq_resolved {run : List Char}
    (single : Text.runs Text.isIdentifierChar run = [run])
    (goesOn : ∀ c ∈ run.tail, Text.isIdentifierChar c = true)
    (noName : Text.isIdentifier run = false) :
    kinds run = (kinds run).map (List.map (Token.resolved constants)) := by
  rw [kinds_of_single single]
  cases read : Token.ofRun? run with
  | error fault => rfl
  | ok token =>
    cases token with
    | none => rfl
    | some token =>
      have same : token.resolved constants = token :=
        (Token.nameless_of_ofRun? goesOn noName read).resolved_eq
      exact congrArg (fun token => Except.ok [token]) same.symm

/-- The digits of a value are read as the value. -/
theorem ofRun?_toDigits (value : UInt64) :
    Token.ofRun? (Nat.toDigits 10 value.toNat) = .ok (some (.int value)) := by
  have number : Text.numeral? 10 (Nat.toDigits 10 value.toNat) = some value.toNat :=
    Text.numeral?_toDigits (by decide) (by decide) value.toNat
  cases digits : Nat.toDigits 10 value.toNat with
  | nil => exact absurd digits Nat.toDigits_ne_nil
  | cons c rest =>
    rw [digits] at number
    have isDigit (other : Char) (member : other ∈ c :: rest) : other.isDigit = true :=
      Nat.isDigit_of_mem_toDigits (by decide) (by decide) (digits ▸ member)
    have unmarked : Text.hexMark? (c :: rest) = none := by
      unfold Text.hexMark?
      split
      · rename_i same
        cases isDigit 'x' (same ▸ List.mem_cons_of_mem _ List.mem_cons_self)
      · rename_i same
        cases isDigit 'X' (same ▸ List.mem_cons_of_mem _ List.mem_cons_self)
      · rfl
    have digit := isDigit c List.mem_cons_self
    have word := Text.isWordChar_of_isIdentifierChar (Text.isIdentifierChar_of_isDigit digit)
    have read : integer? (c :: rest) = some value := by
      rw [integer?, unmarked]
      dsimp only
      rw [number, Option.filter_some, if_pos (decide_eq_true value.toNat_lt), Option.map_some,
        UInt64.ofNat_toNat]
    rw [Token.ofRun?, Text.isBlank_of_isWordChar word, digit, read]
    rfl

theorem ofRun?_identifier {word : List Char} (identifier : Text.isIdentifier word = true) :
    Token.ofRun? word = .ok (some (.ident (String.ofList word))) := by
  cases word with
  | nil => cases identifier
  | cons c rest =>
    have starts := (Bool.and_eq_true_iff.mp identifier).1
    have inside := Text.isIdentifierChar_of_isIdentifierStart starts
    have visible := Text.isBlank_of_isWordChar (Text.isWordChar_of_isIdentifierChar inside)
    rw [Token.ofRun?, visible, Text.isDigit_of_isIdentifierStart starts, starts]
    rfl

/-- A character of a word that can be in no name and no number is no token either. -/
theorem ofRun?_of_isWordChar {c : Char} (word : Text.isWordChar c = true)
    (apart : Text.isIdentifierChar c = false) : Token.ofRun? [c] = .error (.badCharacter c) := by
  have noDigit : c.isDigit = false :=
    Text.outside_of_outside Text.isIdentifierChar_of_isDigit apart
  have noStart : Text.isIdentifierStart c = false :=
    Text.outside_of_outside Text.isIdentifierChar_of_isIdentifierStart apart
  have noMark : Token.ofMark? c = none := by
    unfold Token.ofMark?
    split <;> first | rfl | cases word
  rw [Token.ofRun?, Text.isBlank_of_isWordChar word, noDigit, noStart, noMark]
  rfl

/-- A word that is neither a name nor a number as a whole has no tokens. -/
theorem exists_kinds_eq_error {c : Char} {text : List Char} (member : c ∈ text)
    (word : Text.isWordChar c = true) (apart : Text.isIdentifierChar c = false) :
    ∃ fault, kinds text = .error fault := by
  obtain ⟨first, second, rfl⟩ := List.append_of_mem member
  have fails : kinds [c] = .error (.badCharacter c) := by
    rw [kinds_of_single rfl, ofRun?_of_isWordChar word apart]
    rfl
  rw [kinds_separated apart, fails]
  cases kinds first with
  | error fault => exact ⟨fault, rfl⟩
  | ok before => exact ⟨_, rfl⟩

theorem kinds_toString (value : UInt64) :
    kinds (toString value.toNat).toList = .ok [.int value] := by
  have single := Text.runs_of_forall Nat.toDigits_ne_nil
    (Text.isIdentifierChar_of_mem_toDigits (n := value.toNat))
  rw [Text.toList_toString, kinds_of_single single, ofRun?_toDigits]
  rfl

theorem kinds_identifier {word : List Char} (identifier : Text.isIdentifier word = true) :
    kinds word = .ok [.ident (String.ofList word)] := by
  have single := (Text.isRun_of_isIdentifier identifier).runs_eq
  rw [kinds_of_single single, ofRun?_identifier identifier]
  rfl

theorem kinds_replaceWord {word : List Char} (nonempty : word ≠ [])
    (inside : ∀ c ∈ word, Text.isWordChar c = true) :
    kinds (replaceWord constants word) =
      (kinds word).map (List.map (Token.resolved constants)) := by
  cases identifier : Text.isIdentifier word with
  | true =>
    have named : (kinds word).map (List.map (Token.resolved constants)) =
        .ok [Token.resolved constants (.ident (String.ofList word))] := by
      rw [kinds_identifier identifier]
      rfl
    rw [named, replaceWord, if_pos identifier, Token.resolved]
    cases constants.get? (String.ofList word) with
    | none => exact kinds_identifier identifier
    | some value => exact kinds_toString value
  | false =>
    rw [replaceWord, identifier]
    by_cases named : ∀ c ∈ word, Text.isIdentifierChar c = true
    · have single := Text.runs_of_forall nonempty named
      exact kinds_eq_resolved single (fun c member => named c (List.mem_of_mem_tail member))
        identifier
    · obtain ⟨c, member, apart⟩ : ∃ c ∈ word, Text.isIdentifierChar c = false := by
        simpa using named
      obtain ⟨fault, fails⟩ := exists_kinds_eq_error member (inside c member) apart
      change kinds word = _
      rw [fails]
      rfl

/-- Replacing constants in a text is replacing them among its tokens: one of the two texts has
tokens when the other one has, as many and in the same order, and they differ where a token is the
name of a constant. If there are no tokens, the same is wrong with both texts. -/
theorem kinds_replaceConstants (constants : Constants) (text : List Char) :
    kinds (replaceConstants constants text) =
      (kinds text).map (List.map (Token.resolved constants)) := by
  -- Both classes of characters break the text at a character outside of words.
  induction text using Text.separated_induction Text.isWordChar with
  | whole word inside =>
    cases word with
    | nil => rfl
    | cons c rest =>
      have nonempty : c :: rest ≠ [] := List.cons_ne_nil c rest
      rw [replaceConstants, Text.runs_of_forall nonempty inside, List.flatMap_singleton]
      exact kinds_replaceWord nonempty inside
  | separated first c second outside ihFirst ihSecond =>
    have apart : Text.isIdentifierChar c = false :=
      Text.outside_of_outside Text.isWordChar_of_isIdentifierChar outside
    have mark : kinds [c] = (kinds [c]).map (List.map (Token.resolved constants)) :=
      kinds_eq_resolved rfl (by simp) (Text.isIdentifier_singleton apart)
    rw [replaceConstants_separated outside, kinds_separated apart, kinds_separated apart,
      map_inTurn, map_inTurn, ihFirst, ihSecond, ← mark]

/-- The largest value takes the place of the name, and not of a part of another name. -/
example :
    kinds (replaceConstants (.ofList [("N", 18446744073709551615)]) "N_ x1[N];".toList) =
      .ok [.ident "N_", .ident "x1", .openBracket, .int 18446744073709551615, .closeBracket,
        .semicolon] := by
  cbv

end PackedStruct.Definition
