import PackedStruct.Proofs.ReplacedWords

namespace PackedStruct.Definition

/-- A comment ends at the first star with a slash behind it. -/
theorem closeComment_eq_none_iff {text : List Char} :
    closeComment text = none ↔ ¬ ['*', '/'] <:+: text := by
  fun_induction closeComment text with
  | case1 => simp
  | case2 rest => simp [List.infix_cons_iff]
  | case3 c rest apart none ih =>
    rw [List.infix_cons_iff, not_or]
    refine iff_of_true rfl ⟨?_, ih.mp none⟩
    rintro ⟨more, same⟩
    obtain ⟨star, slash⟩ := List.cons.inj same
    exact apart more star.symm slash.symm
  | case4 c rest apart feeds after found ih =>
    refine iff_of_false (Option.some_ne_none _) (not_not.mpr ?_)
    have closed : ['*', '/'] <:+: rest := by
      by_contra unclosed
      rw [ih.mpr unclosed] at found
      cases found
    exact closed.trans (List.suffix_cons c rest).isInfix

/-- Of a comment only line feeds are kept. -/
theorem eq_feed_of_closeComment {text feeds after : List Char}
    (closed : closeComment text = some (feeds, after)) : ∀ c ∈ feeds, c = '\n' := by
  fun_induction closeComment text generalizing feeds after with
  | case1 => cases closed
  | case2 rest =>
    cases closed
    exact List.forall_mem_nil _
  | case3 => cases closed
  | case4 c rest apart kept after found ih =>
    cases closed
    have later := ih found
    split
    · rename_i feed
      exact List.forall_mem_cons.mpr ⟨beq_iff_eq.mp feed, later⟩
    · exact later

theorem withoutComments_unclosed {rest : List Char} (unclosed : closeComment rest = none) :
    withoutComments ('/' :: '*' :: rest) = '/' :: '*' :: withoutComments rest := by
  rw [withoutComments.eq_3]
  split
  · rename_i closed
    rw [unclosed] at closed
    cases closed
  · rw [withoutComments_cons_of_ne (by decide)]

theorem withoutComments_append_of_notMem {first : List Char} (noSlash : '/' ∉ first)
    (second : List Char) :
    withoutComments (first ++ second) = first ++ withoutComments second := by
  induction first with
  | nil => rfl
  | cons c rest ih =>
    have here : c ≠ '/' := (List.ne_of_not_mem_cons noSlash).symm
    rw [List.cons_append, withoutComments_cons_of_ne here,
      ih (List.not_mem_of_not_mem_cons noSlash), List.cons_append]

/-- A comment at the start of a text leaves white space there, or nothing at all. -/
theorem head?_of_head?_withoutComments {text : List Char} {c : Char}
    (visible : Text.isBlank c = false) (first : (withoutComments text).head? = some c) :
    text.head? = some c := by
  fun_induction withoutComments text with
  | case1 => cases first
  | case2 rest ih =>
    have stops : (c != '\n') = false :=
      Text.endsRun_dropWhile (· != '\n') rest c (ih first)
    rw [bne_eq_false_iff_eq] at stops
    rw [stops] at visible
    cases visible
  | case3 rest feeds after closed ih =>
    obtain rfl := Option.some.inj first
    cases visible
  | case4 rest unclosed ih => exact first
  | case5 d rest line block ih => exact first

/-- Taking comments out ends no comment. -/
theorem closeComment_withoutComments {text : List Char} (unclosed : closeComment text = none) :
    closeComment (withoutComments text) = none := by
  rw [closeComment_eq_none_iff] at unclosed ⊢
  have later {part whole : List Char} (inside : part <:+ whole)
      (unclosed : ¬ ['*', '/'] <:+: whole) : ¬ ['*', '/'] <:+: part :=
    fun closed => unclosed (closed.trans inside.isInfix)
  fun_induction withoutComments text with
  | case1 => exact unclosed
  | case2 rest ih =>
    apply ih
    apply later _ unclosed
    exact (List.dropWhile_suffix _).trans ((List.suffix_cons _ _).trans (List.suffix_cons _ _))
  | case3 rest feeds after closed ih =>
    have absent := later ((List.suffix_cons '*' rest).trans (List.suffix_cons '/' _)) unclosed
    rw [closeComment_eq_none_iff.mpr absent] at closed
    cases closed
  | case4 rest none ih =>
    rw [List.infix_cons_iff, not_or]
    refine ⟨?_, ih (later (List.suffix_cons _ _) unclosed)⟩
    rintro ⟨more, same⟩
    cases same
  | case5 c rest line block ih =>
    rw [List.infix_cons_iff, not_or]
    refine ⟨?_, ih (later (List.suffix_cons _ _) unclosed)⟩
    rintro ⟨more, same⟩
    obtain ⟨rfl, slash⟩ := List.cons.inj same
    have first : (withoutComments rest).head? = some '/' := by
      rw [← slash]
      rfl
    have here := head?_of_head?_withoutComments (by decide) first
    obtain ⟨others, rfl⟩ := List.head?_eq_some_iff.mp here
    exact unclosed ⟨[], others, rfl⟩

/-- What is left has no comments. -/
theorem withoutComments_withoutComments (text : List Char) :
    withoutComments (withoutComments text) = withoutComments text := by
  fun_induction withoutComments text with
  | case1 => rw [withoutComments]
  | case2 rest ih => exact ih
  | case3 rest feeds after closed ih =>
    have noSlash : '/' ∉ ' ' :: feeds := by
      intro member
      rcases List.mem_cons.mp member with blank | member
      · cases blank
      · cases eq_feed_of_closeComment closed '/' member
    rw [withoutComments_append_of_notMem noSlash, ih]
  | case4 rest unclosed ih =>
    have star (text : List Char) : withoutComments ('*' :: text) = '*' :: withoutComments text :=
      withoutComments_cons_of_ne (by decide) text
    rw [star, star] at ih
    rw [star, withoutComments_unclosed (closeComment_withoutComments unclosed),
      (List.cons.inj ih).2]
  | case5 c rest line block ih =>
    rw [withoutComments_cons, ih]
    intro slash
    constructor
    · intro first
      have here := head?_of_head?_withoutComments (by decide) first
      obtain ⟨others, same⟩ := List.head?_eq_some_iff.mp here
      exact line others slash same
    · intro first
      have here := head?_of_head?_withoutComments (by decide) first
      obtain ⟨others, same⟩ := List.head?_eq_some_iff.mp here
      exact block others slash same

variable {constants : Constants}

theorem closeComment_word {word : List Char} (inside : ∀ c ∈ word, Text.isWordChar c = true)
    (rest : List Char) : closeComment (word ++ rest) = closeComment rest := by
  -- Neither the end of a comment nor a line feed has a character of a word.
  induction word with
  | nil => rfl
  | cons c others ih =>
    obtain ⟨here, later⟩ := List.forall_mem_cons.mp inside
    have noStar : c ≠ '*' := Text.ne_of_inClass here (by decide)
    have noFeed : (c == '\n') = false :=
      beq_eq_false_iff_ne.mpr (Text.ne_of_inClass here (by decide))
    rw [List.cons_append, closeComment_cons fun star => absurd star noStar, noFeed, ih later]
    exact Option.map_id'

theorem closeComment_replaceConstants (constants : Constants) (text : List Char) :
    closeComment (replaceConstants constants text) =
      (closeComment text).map (Prod.map id (replaceConstants constants)) := by
  induction text using Text.words_induction Text.isWordChar with
  | nil => rfl
  | other c rest outside ih =>
    rw [replaceConstants_cons outside]
    by_cases closes : c = '*' ∧ rest.head? = some '/'
    · obtain ⟨rfl, slash⟩ := closes
      obtain ⟨more, rfl⟩ := List.head?_eq_some_iff.mp slash
      rw [replaceConstants_cons (by decide)]
      rfl
    · have goesOn : c = '*' → rest.head? ≠ some '/' := fun star slash => closes ⟨star, slash⟩
      rw [closeComment_cons goesOn, closeComment_cons, ih rest le_rfl]
      · simp [Function.comp_def]
      · rwa [Ne, head?_replaceConstants (by decide)]
  | word word rest run ends ih =>
    rw [replaceConstants_word run ends, closeComment_word run.inside,
      closeComment_word (isRun_replaceWord run).inside, ih]

theorem replaceConstants_append_of_outside {first : List Char}
    (outside : ∀ c ∈ first, Text.isWordChar c = false) (second : List Char) :
    replaceConstants constants (first ++ second) = first ++ replaceConstants constants second := by
  induction first with
  | nil => rfl
  | cons c rest ih =>
    obtain ⟨here, later⟩ := List.forall_mem_cons.mp outside
    rw [List.cons_append, replaceConstants_cons here, ih later, List.cons_append]

theorem endsRun_withoutComments {text : List Char} (ends : Text.EndsRun Text.isWordChar text) :
    Text.EndsRun Text.isWordChar (withoutComments text) := by
  intro c first
  by_contra inside
  have visible := Text.isBlank_of_isWordChar (Bool.not_eq_false _ ▸ inside)
  exact inside (ends c (head?_of_head?_withoutComments visible first))

/-- A block comment ends at the same place before and after, and leaves the same behind. -/
theorem withoutComments_block_replaceConstants {rest : List Char}
    (later : ∀ text : List Char, text.length ≤ rest.length →
      withoutComments (replaceConstants constants text) =
        replaceConstants constants (withoutComments text)) :
    withoutComments ('/' :: '*' :: replaceConstants constants rest) =
      replaceConstants constants (withoutComments ('/' :: '*' :: rest)) := by
  have ends := closeComment_replaceConstants constants rest
  cases closed : closeComment rest with
  | none =>
    rw [closed] at ends
    rw [withoutComments_unclosed ends, withoutComments_unclosed closed,
      replaceConstants_cons (by decide), replaceConstants_cons (by decide), later rest le_rfl]
  | some found =>
    obtain ⟨feeds, after⟩ := found
    rw [closed] at ends
    have outside : ∀ c ∈ ' ' :: feeds, Text.isWordChar c = false := by
      refine List.forall_mem_cons.mpr ⟨by decide, ?_⟩
      intro c member
      rw [eq_feed_of_closeComment closed c member]
      decide
    rw [withoutComments_closed ends, withoutComments_closed closed,
      replaceConstants_append_of_outside outside, later after (length_of_closeComment closed).le]
    rfl

/-- Constants can be replaced before comments are taken out. -/
theorem withoutComments_replaceConstants (text : List Char) :
    withoutComments (replaceConstants constants text) =
      replaceConstants constants (withoutComments text) := by
  induction text using Text.words_induction Text.isWordChar with
  | nil => rw [replaceConstants_nil, withoutComments, replaceConstants_nil]
  | other c rest outside ih =>
    rw [replaceConstants_cons outside]
    by_cases line : c = '/' ∧ rest.head? = some '/'
    · obtain ⟨rfl, slash⟩ := line
      obtain ⟨more, rfl⟩ := List.head?_eq_some_iff.mp slash
      have shorter : (more.dropWhile (· != '\n')).length ≤ more.length + 1 :=
        (List.dropWhile_suffix _).length_le.trans (Nat.le_succ _)
      rw [replaceConstants_cons (by decide), withoutComments, withoutComments,
        dropWhile_ne_replaceConstants (by decide), ih _ shorter]
    by_cases block : c = '/' ∧ rest.head? = some '*'
    · obtain ⟨rfl, star⟩ := block
      obtain ⟨more, rfl⟩ := List.head?_eq_some_iff.mp star
      rw [replaceConstants_cons (by decide)]
      exact withoutComments_block_replaceConstants fun text shorter =>
        ih text (shorter.trans (Nat.le_succ _))
    · have apart : c = '/' → rest.head? ≠ some '/' ∧ rest.head? ≠ some '*' :=
        fun slash => ⟨fun first => line ⟨slash, first⟩, fun first => block ⟨slash, first⟩⟩
      rw [withoutComments_cons apart, withoutComments_cons, replaceConstants_cons outside,
        ih rest le_rfl]
      rwa [Ne, Ne, head?_replaceConstants (by decide), head?_replaceConstants (by decide)]
  | word word rest run ends ih =>
    have noSlash {word : List Char} (run : Text.IsRun Text.isWordChar word) : '/' ∉ word :=
      fun member => Text.ne_of_inClass (run.inside _ member) (by decide) rfl
    rw [replaceConstants_word run ends,
      withoutComments_append_of_notMem (noSlash (isRun_replaceWord run)),
      withoutComments_append_of_notMem (noSlash run),
      replaceConstants_word run (endsRun_withoutComments ends), ih]

end PackedStruct.Definition
