import Mathlib.Data.List.SplitBy
import PackedStruct.Text.Blank
import PackedStruct.Text.WordChar

namespace PackedStruct.Text

/-- What is outside of a class is outside of each part of it. -/
theorem outside_of_outside {inPart inClass : Bool} (within : inPart = true → inClass = true)
    (outside : inClass = false) : inPart = false := by
  apply Bool.eq_false_iff.mpr
  intro inside
  rw [within inside] at outside
  cases outside

theorem ne_of_inClass {inClass : Char → Bool} {c d : Char} (inside : inClass c = true)
    (outside : inClass d = false) : c ≠ d := by
  rintro rfl
  rw [inside] at outside
  cases outside

theorem isIdentifierChar_of_isIdentifierStart {c : Char} (starts : isIdentifierStart c = true) :
    isIdentifierChar c = true := by
  simp only [isIdentifierStart, isIdentifierChar, Bool.or_eq_true, Char.isAlphanum] at starts ⊢
  exact starts.imp_left .inl

theorem isIdentifierChar_of_isDigit {c : Char} (digit : c.isDigit = true) :
    isIdentifierChar c = true := by
  simp [isIdentifierChar, Char.isAlphanum, digit]

theorem isIdentifierChar_of_mem {word : List Char} (identifier : isIdentifier word = true) :
    ∀ c ∈ word, isIdentifierChar c = true := by
  cases word with
  | nil => exact fun c member => absurd member List.not_mem_nil
  | cons first rest =>
    obtain ⟨starts, goesOn⟩ := Bool.and_eq_true_iff.mp identifier
    have head := isIdentifierChar_of_isIdentifierStart starts
    exact List.forall_mem_cons.mpr ⟨head, List.all_eq_true.mp goesOn⟩

theorem isIdentifier_singleton {c : Char} (outside : isIdentifierChar c = false) :
    isIdentifier [c] = false := by
  have noStart : isIdentifierStart c = false :=
    outside_of_outside isIdentifierChar_of_isIdentifierStart outside
  rw [isIdentifier, noStart]
  rfl

theorem isIdentifierChar_of_mem_toDigits {n : Nat} :
    ∀ c ∈ Nat.toDigits 10 n, isIdentifierChar c = true := by
  intro c member
  exact isIdentifierChar_of_isDigit
    (Nat.isDigit_of_mem_toDigits (by decide) (by decide) member)

/-- The ASCII letters by their numbers. -/
theorem isAlpha_iff_toNat {c : Char} :
    c.isAlpha = true ↔ 65 ≤ c.toNat ∧ c.toNat ≤ 90 ∨ 97 ≤ c.toNat ∧ c.toNat ≤ 122 := by
  have upper : c.isUpper = true ↔ 'A'.val ≤ c.val ∧ c.val ≤ 'Z'.val := decide_eq_true_iff
  have lower : c.isLower = true ↔ 'a'.val ≤ c.val ∧ c.val ≤ 'z'.val :=
    Bool.and_eq_true_iff.trans (and_congr decide_eq_true_iff decide_eq_true_iff)
  exact Bool.or_eq_true_iff.trans (or_congr upper lower)

theorem isDigit_of_isIdentifierStart {c : Char} (starts : isIdentifierStart c = true) :
    c.isDigit = false := by
  apply Bool.eq_false_iff.mpr
  intro digit
  have high : c.toNat ≤ 57 := (Char.isDigit_iff_toNat.mp digit).2
  rw [isIdentifierStart, Bool.or_eq_true, isAlpha_iff_toNat, beq_iff_eq] at starts
  rcases starts with letter | rfl
  · omega
  · revert high
    decide

/-- The digits come first among the characters of identifiers, and all of these are ASCII. -/
theorem toNat_of_isIdentifierChar {c : Char} (inside : isIdentifierChar c = true) :
    48 ≤ c.toNat ∧ c.toNat < 0x80 := by
  rw [isIdentifierChar, Char.isAlphanum, Bool.or_eq_true, Bool.or_eq_true, isAlpha_iff_toNat,
    beq_iff_eq] at inside
  rcases inside with (letter | digit) | rfl
  · omega
  · have low : 48 ≤ c.toNat := (Char.isDigit_iff_toNat.mp digit).1
    have high : c.toNat ≤ 57 := (Char.isDigit_iff_toNat.mp digit).2
    omega
  · decide

theorem isWordChar_of_isIdentifierChar {c : Char} (inside : isIdentifierChar c = true) :
    isWordChar c = true := by
  rw [isWordChar, if_pos (toNat_of_isIdentifierChar inside).2]
  exact inside

theorem inRanges_eq_true_iff {ranges : List (Nat × Nat)} {c : Char} :
    inRanges ranges c = true ↔ ∃ range ∈ ranges, range.1 ≤ c.toNat ∧ c.toNat ≤ range.2 := by
  simp only [inRanges, List.any_eq_true, Bool.and_eq_true, decide_eq_true_eq]

theorem wordRanges_apart : ∀ word ∈ wordRanges, ∀ blank ∈ blankRanges,
    word.2 < blank.1 ∨ blank.2 < word.1 := by
  decide +kernel

/-- No white space is part of a word. -/
theorem isBlank_of_isWordChar {c : Char} (inside : isWordChar c = true) : isBlank c = false := by
  apply Bool.eq_false_iff.mpr
  intro white
  obtain ⟨blank, blankMember, low, high⟩ := inRanges_eq_true_iff.mp white
  rw [isWordChar] at inside
  split at inside
  · have bounds := toNat_of_isIdentifierChar inside
    have between : ∀ blank ∈ blankRanges, blank.2 < 48 ∨ 0x80 ≤ blank.1 := by decide
    have outside := between blank blankMember
    omega
  · obtain ⟨word, wordMember, above, below⟩ := inRanges_eq_true_iff.mp inside
    have apart := wordRanges_apart word wordMember blank blankMember
    omega

variable {inClass : Char → Bool}

/-- A character outside of the class stands alone. -/
theorem runs_separated {c : Char} (apart : inClass c = false) (first second : List Char) :
    runs inClass (first ++ c :: second) =
      runs inClass first ++ [c] :: runs inClass second := by
  have before : runs inClass (first ++ c :: second) =
      runs inClass first ++ runs inClass (c :: second) := by
    apply List.splitBy_append_cons
    simp [apart]
  have after : runs inClass ([c] ++ second) = runs inClass [c] ++ runs inClass second := by
    apply List.splitBy_append
    simp [apart]
  rw [before, ← List.singleton_append, after]
  rfl

theorem runs_cons {c : Char} (apart : inClass c = false) (rest : List Char) :
    runs inClass (c :: rest) = [c] :: runs inClass rest :=
  runs_separated apart [] rest

/-- A text of characters of the class is one run. -/
theorem runs_of_forall {text : List Char} (nonempty : text ≠ [])
    (inside : ∀ c ∈ text, inClass c = true) : runs inClass text = [text] := by
  apply List.splitBy_of_isChain nonempty
  apply List.Pairwise.isChain
  apply List.pairwise_of_forall_mem_list
  intro a memberA b memberB
  rw [inside a memberA, inside b memberB]
  rfl

theorem flatten_runs (inClass : Char → Bool) (text : List Char) :
    (runs inClass text).flatten = text :=
  List.flatten_splitBy _ _

/-- What holds of the texts of one class, and of two texts with a character outside of the class
between them when it holds of both, holds of every text. -/
theorem separated_induction (inClass : Char → Bool) {good : List Char → Prop}
    (whole : ∀ text : List Char, (∀ c ∈ text, inClass c = true) → good text)
    (separated : ∀ (first : List Char) (c : Char) (second : List Char), inClass c = false →
      good first → good second → good (first ++ c :: second))
    (text : List Char) : good text := by
  induction size : text.length using Nat.strongRecOn generalizing text with
  | ind size ih =>
    by_cases inside : ∀ c ∈ text, inClass c = true
    · exact whole text inside
    · obtain ⟨c, member, outside⟩ : ∃ c ∈ text, inClass c = false := by simpa using inside
      obtain ⟨first, second, rfl⟩ := List.append_of_mem member
      rw [List.length_append, List.length_cons] at size
      apply separated first c second outside
      · exact ih first.length (by omega) first rfl
      · exact ih second.length (by omega) second rfl

/-- Characters of the class, at least one. -/
structure IsRun (inClass : Char → Bool) (word : List Char) : Prop where
  nonempty : word ≠ []
  inside : ∀ c ∈ word, inClass c = true

/-- A run of the class that stands in front of the text ends there. -/
def EndsRun (inClass : Char → Bool) (text : List Char) : Prop :=
  ∀ c ∈ text.head?, inClass c = false

theorem endsRun_cons {c : Char} (outside : inClass c = false) (rest : List Char) :
    EndsRun inClass (c :: rest) := by
  intro first same
  obtain rfl := Option.some.inj same
  exact outside

theorem endsRun_dropWhile (inClass : Char → Bool) (text : List Char) :
    EndsRun inClass (text.dropWhile inClass) := by
  intro c first
  have stops := List.head?_dropWhile_not inClass text
  rw [Option.mem_def.mp first] at stops
  exact stops

theorem EndsRun.dropWhile_eq {text : List Char} (ends : EndsRun inClass text) :
    text.dropWhile inClass = text := by
  cases text with
  | nil => rfl
  | cons c rest => exact List.dropWhile_cons_of_neg (by simp [ends c rfl])

theorem EndsRun.takeWhile_eq {text : List Char} (ends : EndsRun inClass text) :
    text.takeWhile inClass = [] := by
  cases text with
  | nil => rfl
  | cons c rest => exact List.takeWhile_cons_of_neg (by simp [ends c rfl])

theorem takeWhile_append_of_endsRun {word rest : List Char}
    (inside : ∀ c ∈ word, inClass c = true) (ends : EndsRun inClass rest) :
    (word ++ rest).takeWhile inClass = word := by
  rw [List.takeWhile_append_of_pos inside, ends.takeWhile_eq, List.append_nil]

theorem dropWhile_append_of_endsRun {word rest : List Char}
    (inside : ∀ c ∈ word, inClass c = true) (ends : EndsRun inClass rest) :
    (word ++ rest).dropWhile inClass = rest := by
  rw [List.dropWhile_append_of_pos inside, ends.dropWhile_eq]

theorem runs_append_of_endsRun (before : List Char) {rest : List Char}
    (ends : EndsRun inClass rest) :
    runs inClass (before ++ rest) = runs inClass before ++ runs inClass rest := by
  apply List.splitBy_append
  intro _ _ c first
  rw [ends c first, Bool.and_false]

/-- A run and what it ends at, for a larger class and a smaller one. -/
theorem IsRun.weaken {inPart : Char → Bool} (within : ∀ c, inPart c = true → inClass c = true)
    {word : List Char} (run : IsRun inPart word) : IsRun inClass word :=
  ⟨run.nonempty, fun c member => within c (run.inside c member)⟩

theorem EndsRun.weaken {inPart : Char → Bool} (within : ∀ c, inPart c = true → inClass c = true)
    {text : List Char} (ends : EndsRun inClass text) : EndsRun inPart text :=
  fun c first => outside_of_outside (within c) (ends c first)

theorem IsRun.runs_eq {word : List Char} (run : IsRun inClass word) :
    runs inClass word = [word] :=
  runs_of_forall run.nonempty run.inside

theorem IsRun.head?_append_ne {word : List Char} (run : IsRun inClass word) {c : Char}
    (outside : inClass c = false) (rest : List Char) : (word ++ rest).head? ≠ some c := by
  intro first
  rw [List.head?_append_of_ne_nil _ run.nonempty] at first
  exact ne_of_inClass (run.inside c (List.mem_of_mem_head? first)) outside rfl

theorem isRun_of_isIdentifier {word : List Char} (identifier : isIdentifier word = true) :
    IsRun isIdentifierChar word := by
  refine ⟨?_, isIdentifierChar_of_mem identifier⟩
  rintro rfl
  cases identifier

/-- Nothing is dropped in front of a run of characters that are kept. -/
theorem IsRun.dropWhile_append_eq_self {word : List Char} (run : IsRun inClass word)
    {passes : Char → Bool} (kept : ∀ c, inClass c = true → passes c = false) (rest : List Char) :
    (word ++ rest).dropWhile passes = word ++ rest := by
  apply EndsRun.dropWhile_eq
  intro c first
  rw [Option.mem_def, List.head?_append_of_ne_nil _ run.nonempty] at first
  exact kept c (run.inside c (List.mem_of_mem_head? first))

/-- No white space stands in front of a word. -/
theorem IsRun.dropWhile_isBlank {word : List Char} (run : IsRun isWordChar word)
    (rest : List Char) : (word ++ rest).dropWhile isBlank = word ++ rest :=
  run.dropWhile_append_eq_self (fun _ => isBlank_of_isWordChar) rest

/-- A text is empty, or it begins with a character outside of the class or with a whole run. -/
theorem words_cases (inClass : Char → Bool) (text : List Char) :
    text = [] ∨ (∃ c rest, text = c :: rest ∧ inClass c = false) ∨
      ∃ word rest, text = word ++ rest ∧ IsRun inClass word ∧ EndsRun inClass rest := by
  cases text with
  | nil => exact .inl rfl
  | cons c rest =>
    cases inside : inClass c with
    | false => exact .inr (.inl ⟨c, rest, rfl, inside⟩)
    | true =>
      have run : IsRun inClass (c :: rest.takeWhile inClass) :=
        ⟨List.cons_ne_nil _ _,
          List.forall_mem_cons.mpr ⟨inside, List.all_eq_true.mp List.all_takeWhile⟩⟩
      refine .inr (.inr ⟨c :: rest.takeWhile inClass, rest.dropWhile inClass, ?_, run,
        endsRun_dropWhile inClass rest⟩)
      rw [List.cons_append, List.takeWhile_append_dropWhile]

/-- What holds of the empty text and is kept when a character outside of the class or a whole run of
the class is put in front, holds of every text. In front of a character that begins something
longer, it may be needed of all shorter texts. -/
theorem words_induction (inClass : Char → Bool) {good : List Char → Prop} (nil : good [])
    (other : ∀ (c : Char) (rest : List Char), inClass c = false →
      (∀ shorter : List Char, shorter.length ≤ rest.length → good shorter) → good (c :: rest))
    (word : ∀ word rest : List Char, IsRun inClass word → EndsRun inClass rest → good rest →
      good (word ++ rest))
    (text : List Char) : good text := by
  induction size : text.length using Nat.strongRecOn generalizing text with
  | ind length ih =>
    rcases words_cases inClass text with
      rfl | ⟨c, rest, rfl, outside⟩ | ⟨front, rest, rfl, run, ends⟩
    · exact nil
    · rw [List.length_cons] at size
      apply other c rest outside
      intro shorter fewer
      exact ih _ (by omega) shorter rfl
    · have longer := List.length_pos_of_ne_nil run.nonempty
      rw [List.length_append] at size
      exact word front rest run ends (ih _ (by omega) rest rfl)

/-- A text that is not empty begins with a run, or with a character that stands alone. -/
theorem exists_first_run (inClass : Char → Bool) (c : Char) (rest : List Char) :
    ∃ goesOn after, rest = goesOn ++ after ∧
      runs inClass (c :: (goesOn ++ after)) = (c :: goesOn) :: runs inClass after ∧
      (∀ d ∈ goesOn, inClass c = true ∧ inClass d = true) ∧
      (inClass c = true → EndsRun inClass after) := by
  rcases words_cases inClass (c :: rest) with
    none | ⟨_, _, same, outside⟩ | ⟨word, after, same, run, ends⟩
  · cases none
  · obtain ⟨rfl, rfl⟩ := List.cons.inj same
    exact ⟨[], rest, rfl, runs_cons outside rest, List.forall_mem_nil _,
      fun inside => absurd rfl (ne_of_inClass inside outside)⟩
  · obtain ⟨first, goesOn, rfl⟩ := List.exists_cons_of_ne_nil run.nonempty
    obtain ⟨rfl, rfl⟩ := List.cons.inj same
    obtain ⟨inside, later⟩ := List.forall_mem_cons.mp run.inside
    refine ⟨goesOn, after, rfl, ?_, fun d member => ⟨inside, later d member⟩, fun _ => ends⟩
    rw [← List.cons_append, runs_append_of_endsRun _ ends, run.runs_eq, List.singleton_append]

variable {text run : List Char}

theorem isRun_or_of_mem_runs (member : run ∈ runs inClass text) :
    IsRun inClass run ∨ ∃ c, run = [c] ∧ inClass c = false := by
  induction text using words_induction inClass with
  | nil => cases member
  | other c rest outside ih =>
    rw [runs_cons outside] at member
    rcases List.mem_cons.mp member with rfl | later
    · exact .inr ⟨c, rfl, outside⟩
    · exact ih rest le_rfl later
  | word word rest isRun ends ih =>
    rw [runs_append_of_endsRun word ends, isRun.runs_eq, List.singleton_append] at member
    rcases List.mem_cons.mp member with rfl | later
    · exact .inl isRun
    · exact ih later

theorem exists_cons_of_runs_eq {before after : List (List Char)}
    (split : runs inClass text = before ++ run :: after) :
    ∃ c rest, run = c :: rest ∧ ∀ d ∈ rest, inClass c = true ∧ inClass d = true := by
  have member : run ∈ runs inClass text := by
    rw [split]
    exact List.mem_append_right _ List.mem_cons_self
  rcases isRun_or_of_mem_runs member with isRun | ⟨c, rfl, _⟩
  · obtain ⟨c, rest, rfl⟩ := List.exists_cons_of_ne_nil isRun.nonempty
    obtain ⟨first, others⟩ := List.forall_mem_cons.mp isRun.inside
    exact ⟨c, rest, rfl, fun d later => ⟨first, others d later⟩⟩
  · exact ⟨c, [], rfl, List.forall_mem_nil _⟩

/-- The runs on both sides of a run are those of the texts on its sides. -/
theorem runs_around {before after : List (List Char)}
    (split : runs inClass text = before ++ run :: after) :
    runs inClass before.flatten = before ∧ runs inClass after.flatten = after := by
  obtain ⟨_, nonempty, chains, apart⟩ := List.splitBy_eq_iff.mp split
  obtain ⟨first, others, _⟩ := List.isChain_append.mp apart
  constructor
  · refine List.splitBy_eq_iff.mpr ⟨rfl, ?_, ?_, first⟩
    · exact fun empty => nonempty (List.mem_append_left _ empty)
    · exact fun part member => chains part (List.mem_append_left _ member)
  · refine List.splitBy_eq_iff.mpr ⟨rfl, ?_, ?_, others.tail⟩
    · exact fun empty => nonempty (List.mem_append_right _ (List.mem_cons_of_mem _ empty))
    · exact fun part member =>
        chains part (List.mem_append_right _ (List.mem_cons_of_mem _ member))

end PackedStruct.Text
