import PackedStruct.Proofs.StrippedComments
import PackedStruct.Proofs.UndefinedNames

/-! What constants do for undefined names: replacing them takes exactly their names away and brings
no new ones, although replacement looks for whole words anywhere in the text and undefined names are
looked for between marks. So a text that could not be prepared can be once the reported names are
constants too, and a prepared text stays as it is. -/

namespace PackedStruct.Definition

variable {constants : Constants}

/-- A name is left before a mark if it is no constant. -/
theorem nameBefore?_replaceConstants {close : Char} (apart : Text.isWordChar close = false)
    (text : List Char) :
    nameBefore? close (replaceConstants constants text) =
      (nameBefore? close text).filter fun name => !constants.contains (String.ofList name) := by
  induction text using Text.words_induction Text.isWordChar with
  | nil => rw [replaceConstants_nil, nameBefore?_nil, Option.filter_none]
  | other c rest outside ih =>
    rw [replaceConstants_cons outside]
    cases white : Text.isBlank c with
    | true => rw [nameBefore?_blank white, nameBefore?_blank white, ih rest le_rfl]
    | false =>
      have noName : Text.isIdentifierChar c = false :=
        Text.outside_of_outside Text.isWordChar_of_isIdentifierChar outside
      rw [nameBefore?_of_outside white noName, nameBefore?_of_outside white noName,
        Option.filter_none]
  | word word rest run ends ih =>
    have closes : ((replaceConstants constants rest).dropWhile Text.isBlank).head? = some close ↔
        (rest.dropWhile Text.isBlank).head? = some close := by
      rw [dropWhile_isBlank_replaceConstants, head?_replaceConstants apart]
    rw [replaceConstants_word run ends,
      nameBefore?_word (isRun_replaceWord run) (endsRun_replaceConstants ends) apart,
      nameBefore?_word run ends apart, guard_isIdentifier_replaceWord]
    simp only [closes]
    split
    · rfl
    · rfl

theorem namesForNumbers_replaceConstants (text : List Char) :
    namesForNumbers (replaceConstants constants text) =
      (namesForNumbers text).filter fun name => !constants.contains name := by
  induction text using Text.words_induction Text.isWordChar with
  | nil => rfl
  | other c rest outside ih =>
    rw [replaceConstants_cons outside, namesForNumbers_cons, namesForNumbers_cons,
      List.filter_append, ih rest le_rfl]
    congr 1
    cases marked : closingMark? c with
    | none => rfl
    | some close =>
      rw [Option.bind_some, Option.bind_some,
        nameBefore?_replaceConstants (isWordChar_of_closingMark? marked)]
      cases nameBefore? close rest with
      | none => rfl
      | some name =>
        rw [Option.filter_some, Option.map_some, Option.toList_some, List.filter_singleton]
        cases constants.contains (String.ofList name) <;> rfl
  | word word rest run ends ih =>
    rw [replaceConstants_word run ends, namesForNumbers_word (isRun_replaceWord run).inside,
      namesForNumbers_word run.inside, ih]

def missingNames (constants : Constants) (text : List Char) : List String :=
  (undefinedNames text).filter fun name => !constants.contains name

theorem undefinedNames_replaceConstants (text : List Char) :
    undefinedNames (replaceConstants constants text) = missingNames constants text := by
  rw [missingNames, undefinedNames_eq_iff ((pairwise_undefinedNames text).filter _)]
  intro name
  rw [namesForNumbers_replaceConstants, List.mem_filter, List.mem_filter, mem_undefinedNames]

theorem missingNames_eq_nil_iff {text : List Char} :
    missingNames constants text = [] ↔
      ∀ name ∈ undefinedNames text, constants.contains name = true := by
  simp [missingNames]

theorem prepare_eq_error_iff {text : List Char} {cause : DefinitionError} :
    prepare constants text = .error cause ↔
      missingNames constants (withoutComments text) ≠ [] ∧
        cause = .undefinedConstants (missingNames constants (withoutComments text)) := by
  rw [← undefinedNames_replaceConstants]
  dsimp only [prepare]
  split
  · rename_i none
    rw [none]
    exact iff_of_false nofun fun failed => failed.1 rfl
  · rename_i some
    rw [Except.error.injEq, eq_comm]
    exact (and_iff_right some).symm

/-- A text can be prepared when every name that stands where a number is needed is a constant. -/
theorem exists_prepare_eq_ok_iff {text : List Char} :
    (∃ prepared, prepare constants text = .ok prepared) ↔
      ∀ name ∈ undefinedNames (withoutComments text), constants.contains name = true := by
  rw [← missingNames_eq_nil_iff, ← undefinedNames_replaceConstants, undefinedNames_eq_nil_iff]
  simp [prepare_eq_ok_iff]

/-- Preparing a text twice is preparing it once. -/
theorem prepare_of_prepare {text prepared : List Char}
    (once : prepare constants text = .ok prepared) :
    prepare constants prepared = .ok prepared := by
  obtain ⟨rfl, defined⟩ := prepare_eq_ok_iff.mp once
  refine prepare_eq_ok_iff.mpr ⟨?_, defined⟩
  rw [withoutComments_replaceConstants, withoutComments_withoutComments,
    replaceConstants_replaceConstants]

/-- Replacing constants takes exactly their names from the undefined ones, and what is left is in
increasing order. So a text is refused when a name where a number is needed is no constant, all such
names are reported, the text is accepted with any constants of these names and the old ones, and a
prepared text is prepared already. -/
theorem prepare_settles (constants : Constants) (text : List Char) :
    (undefinedNames (replaceConstants constants text) =
        (undefinedNames text).filter (fun name => !constants.contains name) ∧
      (undefinedNames (replaceConstants constants text)).Pairwise (· < ·)) ∧
    ((∃ cause, prepare constants text = .error cause) ↔
      ∃ name ∈ undefinedNames (withoutComments text), constants.contains name = false) ∧
    (∀ cause, prepare constants text = .error cause →
      cause = .undefinedConstants ((undefinedNames (withoutComments text)).filter
        fun name => !constants.contains name)) ∧
    (∀ larger : Constants,
      (∀ name, constants.contains name = true → larger.contains name = true) →
      (∀ names, prepare constants text = .error (.undefinedConstants names) →
        ∀ name ∈ names, larger.contains name = true) →
      ∃ prepared, prepare larger text = .ok prepared) ∧
    (∀ prepared, prepare constants text = .ok prepared →
      prepare constants prepared = .ok prepared) := by
  refine ⟨⟨undefinedNames_replaceConstants text, pairwise_undefinedNames _⟩, ?_, ?_, ?_, ?_⟩
  · simp only [prepare_eq_error_iff, exists_and_left, exists_eq, and_true, Ne,
      missingNames_eq_nil_iff, not_forall, exists_prop, Bool.not_eq_true]
  · intro cause failed
    exact (prepare_eq_error_iff.mp failed).2
  · intro larger kept reported
    apply exists_prepare_eq_ok_iff.mpr
    intro name undefined
    cases known : constants.contains name with
    | true => exact kept name known
    | false =>
      have absent : name ∈ missingNames constants (withoutComments text) :=
        List.mem_filter.mpr ⟨undefined, by rw [known]; rfl⟩
      have failed := prepare_eq_error_iff.mpr ⟨List.ne_nil_of_mem absent, rfl⟩
      exact reported _ failed name absent
  · intro prepared once
    exact prepare_of_prepare once

/-- A length and a width are reported, in increasing order, and neither the constant nor the name in
the comment. With both defined the text is prepared. -/
theorem prepare_settles_length_and_width :
    prepare (.ofList [("N", 4)]) "u8 a[N]; u8 b : W; // [K]\nu8 c[ L ];".toList =
        .error (.undefinedConstants ["L", "W"]) ∧
      ∃ prepared,
        prepare (.ofList [("N", 4), ("W", 2), ("L", 0)])
          "u8 a[N]; u8 b : W; // [K]\nu8 c[ L ];".toList = .ok prepared ∧
        prepare (.ofList [("N", 4), ("W", 2), ("L", 0)]) prepared = .ok prepared := by
  have failed : prepare (.ofList [("N", 4)]) "u8 a[N]; u8 b : W; // [K]\nu8 c[ L ];".toList =
      .error (.undefinedConstants ["L", "W"]) := by decide +kernel
  have kept (name : String)
      (known : (SortedMap.ofList [("N", (4 : UInt64))]).contains name = true) :
      (SortedMap.ofList [("N", (4 : UInt64)), ("W", 2), ("L", 0)]).contains name = true := by
    obtain ⟨_, member, same⟩ := List.lookup_isSome_iff.mp known
    obtain rfl := List.mem_singleton.mp member
    obtain rfl := beq_iff_eq.mp same
    rfl
  obtain ⟨prepared, once⟩ := (prepare_settles _ _).2.2.2.1 _ kept (by
    intro names reported
    obtain rfl := DefinitionError.undefinedConstants.inj
      (Except.error.inj (failed.symm.trans reported))
    decide)
  exact ⟨failed, prepared, once, (prepare_settles _ _).2.2.2.2 prepared once⟩

end PackedStruct.Definition
