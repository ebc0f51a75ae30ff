import Mathlib.Data.List.Sort
import Mathlib.Data.List.TakeWhile
import Mathlib.Data.String.Basic
import PackedStruct.Proofs.JoinedText

/-! Names that stand where a number is needed, word by word: between the marks around such a place
there is white space and one whole word. -/

namespace PackedStruct.Definition

theorem closingMark?_of_isWordChar {c : Char} (inside : Text.isWordChar c = true) :
    closingMark? c = none := by
  unfold closingMark?
  split <;> first | rfl | cases inside

theorem isWordChar_of_closingMark? {c close : Char} (marked : closingMark? c = some close) :
    Text.isWordChar close = false := by
  unfold closingMark? at marked
  split at marked <;> cases marked <;> rfl

variable {close : Char}

theorem nameBefore?_nil (close : Char) : nameBefore? close [] = none :=
  rfl

theorem nameBefore?_blank {c : Char} (white : Text.isBlank c = true) (rest : List Char) :
    nameBefore? close (c :: rest) = nameBefore? close rest := by
  simp only [nameBefore?, List.dropWhile_cons_of_pos white]

theorem nameBefore?_of_outside {c : Char} (visible : Text.isBlank c = false)
    (outside : Text.isIdentifierChar c = false) (rest : List Char) :
    nameBefore? close (c :: rest) = none := by
  have starts : (c :: rest).dropWhile Text.isBlank = c :: rest :=
    (Text.endsRun_cons visible rest).dropWhile_eq
  have noName : (c :: rest).takeWhile Text.isIdentifierChar = [] :=
    (Text.endsRun_cons outside rest).takeWhile_eq
  rw [nameBefore?, starts, noName]
  exact if_neg fun found => Bool.false_ne_true found.1

theorem nameBefore?_run {word rest : List Char} (run : Text.IsRun Text.isIdentifierChar word)
    (ends : Text.EndsRun Text.isIdentifierChar rest) :
    nameBefore? close (word ++ rest) =
      if (rest.dropWhile Text.isBlank).head? = some close
      then Option.guard Text.isIdentifier word else none := by
  have visible : Text.IsRun Text.isWordChar word :=
    run.weaken fun _ => Text.isWordChar_of_isIdentifierChar
  rw [nameBefore?, visible.dropWhile_isBlank, Text.takeWhile_append_of_endsRun run.inside ends,
    Text.dropWhile_append_of_endsRun run.inside ends, Option.guard]
  by_cases closes : (rest.dropWhile Text.isBlank).head? = some close
  · simp only [closes, and_true, if_true]
  · simp only [closes, and_false, if_false]

/-- The same for whole words: one with characters that identifiers cannot have is no name, and
neither is a part of it. -/
theorem nameBefore?_word {word rest : List Char} (run : Text.IsRun Text.isWordChar word)
    (ends : Text.EndsRun Text.isWordChar rest) (apart : Text.isWordChar close = false) :
    nameBefore? close (word ++ rest) =
      if (rest.dropWhile Text.isBlank).head? = some close
      then Option.guard Text.isIdentifier word else none := by
  by_cases named : ∀ c ∈ word, Text.isIdentifierChar c = true
  · exact nameBefore?_run ⟨run.nonempty, named⟩
      (ends.weaken fun _ => Text.isWordChar_of_isIdentifierChar)
  · have noName : Option.guard Text.isIdentifier word = none :=
      Option.guard_eq_none_iff.mpr (Bool.eq_false_iff.mpr fun identifier =>
        named (Text.isIdentifierChar_of_mem identifier))
    rw [noName, ite_self]
    have split := List.takeWhile_append_dropWhile (p := Text.isIdentifierChar) (l := word)
    cases later : word.dropWhile Text.isIdentifierChar with
    | nil => exact absurd (List.dropWhile_eq_nil_iff.mp later) named
    | cons c more =>
      -- The first character that identifiers cannot have is neither white space nor the mark.
      rw [later] at split
      have outside : Text.isIdentifierChar c = false :=
        Text.endsRun_dropWhile Text.isIdentifierChar word c (by rw [later]; rfl)
      have here : Text.isWordChar c = true := run.inside c (by rw [← split]; simp)
      have visible := Text.isBlank_of_isWordChar here
      rw [← split, List.append_assoc, List.cons_append]
      by_cases starts : word.takeWhile Text.isIdentifierChar = []
      · rw [starts, List.nil_append, nameBefore?_of_outside visible outside]
      · rw [nameBefore?_run ⟨starts, List.all_eq_true.mp List.all_takeWhile⟩
          (Text.endsRun_cons outside _), (Text.endsRun_cons visible _).dropWhile_eq]
        apply if_neg
        intro closes
        exact Text.ne_of_inClass here apart (Option.some.inj closes)

theorem namesForNumbers_cons (c : Char) (rest : List Char) :
    namesForNumbers (c :: rest) =
      (((closingMark? c).bind fun close => nameBefore? close rest).map String.ofList).toList ++
        namesForNumbers rest := by
  rw [namesForNumbers]
  split <;> rename_i found <;> rw [found] <;> rfl

theorem namesForNumbers_word {word : List Char}
    (inside : ∀ c ∈ word, Text.isWordChar c = true) (rest : List Char) :
    namesForNumbers (word ++ rest) = namesForNumbers rest := by
  induction word with
  | nil => rfl
  | cons c others ih =>
    obtain ⟨here, later⟩ := List.forall_mem_cons.mp inside
    rw [List.cons_append, namesForNumbers_cons, closingMark?_of_isWordChar here, ih later]
    rfl

theorem namesForNumbers_run {word : List Char} (run : Text.IsRun Text.isIdentifierChar word)
    (rest : List Char) : namesForNumbers (word ++ rest) = namesForNumbers rest :=
  namesForNumbers_word
    (fun c member => Text.isWordChar_of_isIdentifierChar (run.inside c member)) rest

theorem mem_undefinedNames {name : String} {text : List Char} :
    name ∈ undefinedNames text ↔ name ∈ namesForNumbers text := by
  have keys : name ∈ undefinedNames text ↔
      name ∈ ((namesForNumbers text).map (·, ())).map Prod.fst := Entries.mem_keys_ofList
  rw [keys, List.map_map]
  exact (List.map_id' (namesForNumbers text)).symm ▸ Iff.rfl

/-- Undefined names grow from one to the next, so that each one is there once. -/
theorem pairwise_undefinedNames (text : List Char) : (undefinedNames text).Pairwise (· < ·) := by
  refine List.pairwise_map.mpr ((Entries.sorted_ofList _).imp ?_)
  exact compare_lt_iff_lt.mp

/-- Names in increasing order are told by which names they are. -/
theorem undefinedNames_eq_iff {text : List Char} {names : List String}
    (increasing : names.Pairwise (· < ·)) :
    undefinedNames text = names ↔ ∀ name, name ∈ namesForNumbers text ↔ name ∈ names := by
  constructor
  · rintro rfl name
    exact mem_undefinedNames.symm
  · intro same
    refine (pairwise_undefinedNames text).eq_of_mem_iff increasing ?_
    exact fun name => mem_undefinedNames.trans (same name)

end PackedStruct.Definition
