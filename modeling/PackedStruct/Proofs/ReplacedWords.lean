import PackedStruct.Proofs.JoinedText
import PackedStruct.Proofs.Numeral

/-! Constants in a text, word by word: a text with constants replaced has a word for each word and
the same characters between the words, so that looking for a character outside of words finds the
same place in both texts. -/

namespace PackedStruct.Definition

variable {constants : Constants}

/-- A word stays, or it is the name of a constant and digits take its place. -/
theorem replaceWord_cases (constants : Constants) (word : List Char) :
    (replaceWord constants word = word ∧
        (Text.isIdentifier word && constants.contains (String.ofList word)) = false) ∨
      (∃ value : UInt64, replaceWord constants word = Nat.toDigits 10 value.toNat) ∧
        (Text.isIdentifier word && constants.contains (String.ofList word)) = true := by
  rw [replaceWord, SortedMap.contains]
  cases identifier : Text.isIdentifier word with
  | false => exact .inl ⟨rfl, rfl⟩
  | true =>
    rw [if_pos rfl]
    cases constants.get? (String.ofList word) with
    | none => exact .inl ⟨rfl, rfl⟩
    | some value => exact .inr ⟨⟨value, Text.toList_toString value.toNat⟩, rfl⟩

theorem isRun_replaceWord {word : List Char} (run : Text.IsRun Text.isWordChar word) :
    Text.IsRun Text.isWordChar (replaceWord constants word) := by
  rcases replaceWord_cases constants word with ⟨same, _⟩ | ⟨⟨value, same⟩, _⟩
  · rwa [same]
  · have digits : Text.IsRun Text.isIdentifierChar (Nat.toDigits 10 value.toNat) :=
      ⟨Nat.toDigits_ne_nil, Text.isIdentifierChar_of_mem_toDigits⟩
    rw [same]
    exact digits.weaken fun _ => Text.isWordChar_of_isIdentifierChar

theorem isIdentifier_toDigits (n : Nat) : Text.isIdentifier (Nat.toDigits 10 n) = false := by
  cases digits : Nat.toDigits 10 n with
  | nil => rfl
  | cons c rest =>
    have digit : c.isDigit = true :=
      Nat.isDigit_of_mem_toDigits (by decide) (by decide) (digits ▸ List.mem_cons_self)
    have noStart : Text.isIdentifierStart c = false := by
      apply Bool.eq_false_iff.mpr
      intro starts
      rw [Text.isDigit_of_isIdentifierStart starts] at digit
      cases digit
    rw [Text.isIdentifier, noStart, Bool.false_and]

/-- Of identifiers those are left that are no constants, and they stay as they are. -/
theorem guard_isIdentifier_replaceWord (constants : Constants) (word : List Char) :
    Option.guard Text.isIdentifier (replaceWord constants word) =
      (Option.guard Text.isIdentifier word).filter fun name =>
        !constants.contains (String.ofList name) := by
  rw [Option.filter_guard]
  rcases replaceWord_cases constants word with ⟨same, stays⟩ | ⟨⟨value, same⟩, known⟩
  · rw [same, Option.guard, Option.guard]
    cases identifier : Text.isIdentifier word with
    | false => rfl
    | true =>
      rw [identifier, Bool.true_and] at stays
      rw [stays]
      rfl
  · rw [same, Option.guard_eq_none_iff.mpr (isIdentifier_toDigits value.toNat), eq_comm,
      Option.guard_eq_none_iff, (Bool.and_eq_true_iff.mp known).2, Bool.not_true, Bool.and_false]

theorem replaceWord_replaceWord (word : List Char) :
    replaceWord constants (replaceWord constants word) = replaceWord constants word := by
  rcases replaceWord_cases constants word with ⟨same, _⟩ | ⟨⟨value, same⟩, _⟩
  · rw [same, same]
  · rw [same, replaceWord, isIdentifier_toDigits]
    rfl

theorem replaceConstants_nil : replaceConstants constants [] = [] :=
  rfl

theorem replaceConstants_cons {c : Char} (apart : Text.isWordChar c = false) (rest : List Char) :
    replaceConstants constants (c :: rest) = c :: replaceConstants constants rest :=
  replaceConstants_separated apart [] rest

theorem replaceConstants_word {word rest : List Char} (run : Text.IsRun Text.isWordChar word)
    (ends : Text.EndsRun Text.isWordChar rest) :
    replaceConstants constants (word ++ rest) =
      replaceWord constants word ++ replaceConstants constants rest := by
  rw [replaceConstants, Text.runs_append_of_endsRun word ends, run.runs_eq, List.flatMap_append,
    List.flatMap_singleton]
  rfl

/-- Words end where they did. -/
theorem endsRun_replaceConstants {text : List Char} (ends : Text.EndsRun Text.isWordChar text) :
    Text.EndsRun Text.isWordChar (replaceConstants constants text) := by
  cases text with
  | nil => exact ends
  | cons c rest =>
    rw [replaceConstants_cons (ends c rfl)]
    exact Text.endsRun_cons (ends c rfl) _

/-- A text with constants replaced starts with a character outside of words where the text does. -/
theorem head?_replaceConstants {c : Char} (apart : Text.isWordChar c = false) (text : List Char) :
    (replaceConstants constants text).head? = some c ↔ text.head? = some c := by
  rcases Text.words_cases Text.isWordChar text with
    rfl | ⟨d, rest, rfl, outside⟩ | ⟨word, rest, rfl, run, ends⟩
  · rfl
  · rw [replaceConstants_cons outside]
    rfl
  · rw [replaceConstants_word run ends]
    exact iff_of_false ((isRun_replaceWord run).head?_append_ne apart _)
      (run.head?_append_ne apart _)

/-- Constants that are replaced do not come back. -/
theorem replaceConstants_replaceConstants (text : List Char) :
    replaceConstants constants (replaceConstants constants text) =
      replaceConstants constants text := by
  induction text using Text.words_induction Text.isWordChar with
  | nil => rfl
  | other c rest outside ih =>
    rw [replaceConstants_cons outside, replaceConstants_cons outside, ih rest le_rfl]
  | word word rest run ends ih =>
    rw [replaceConstants_word run ends,
      replaceConstants_word (isRun_replaceWord run) (endsRun_replaceConstants ends),
      replaceWord_replaceWord, ih]

/-- Characters are passed over in both texts alike if each word is passed over as a whole or not
entered. -/
theorem dropWhile_replaceConstants {passes : Char → Bool}
    (words : (∀ c, Text.isWordChar c = true → passes c = true) ∨
      ∀ c, Text.isWordChar c = true → passes c = false) (text : List Char) :
    (replaceConstants constants text).dropWhile passes =
      replaceConstants constants (text.dropWhile passes) := by
  induction text using Text.words_induction Text.isWordChar with
  | nil => rfl
  | other c rest outside ih =>
    rw [replaceConstants_cons outside, List.dropWhile_cons, List.dropWhile_cons]
    split
    · exact ih rest le_rfl
    · exact (replaceConstants_cons outside rest).symm
  | word word rest run ends ih =>
    have replaced : Text.IsRun Text.isWordChar (replaceWord constants word) :=
      isRun_replaceWord run
    rw [replaceConstants_word run ends]
    rcases words with passed | kept
    · rw [List.dropWhile_append_of_pos fun c member => passed c (run.inside c member),
        List.dropWhile_append_of_pos fun c member => passed c (replaced.inside c member), ih]
    · rw [run.dropWhile_append_eq_self kept, replaced.dropWhile_append_eq_self kept,
        replaceConstants_word run ends]

theorem dropWhile_isBlank_replaceConstants (text : List Char) :
    (replaceConstants constants text).dropWhile Text.isBlank =
      replaceConstants constants (text.dropWhile Text.isBlank) :=
  dropWhile_replaceConstants (.inr fun _ => Text.isBlank_of_isWordChar) text

theorem dropWhile_ne_replaceConstants {stop : Char} (apart : Text.isWordChar stop = false)
    (text : List Char) :
    (replaceConstants constants text).dropWhile (· != stop) =
      replaceConstants constants (text.dropWhile (· != stop)) :=
  dropWhile_replaceConstants
    (.inl fun _ inside => bne_iff_ne.mpr (Text.ne_of_inClass inside apart)) text

end PackedStruct.Definition
