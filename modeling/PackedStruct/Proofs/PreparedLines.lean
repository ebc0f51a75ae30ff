import PackedStruct.Proofs.Lexemes
import PackedStruct.Proofs.ScannedComments

/-! Lines of a prepared text: what stands in a text once its comments are taken out and its
constants are replaced stems from a word or a mark of the text and stands on the same line. -/

namespace PackedStruct

/-- A place in the parts of a list is a place in one of them. -/
theorem exists_of_flatMap_eq {α β : Type} {parts : α → List β} {whole : List α}
    {before after : List β} {b : β} (same : whole.flatMap parts = before ++ b :: after) :
    ∃ first a rest passed more, whole = first ++ a :: rest ∧ parts a = passed ++ b :: more ∧
      before = first.flatMap parts ++ passed ∧ after = more ++ rest.flatMap parts := by
  induction whole generalizing before with
  | nil => cases List.append_eq_nil_iff.mp same.symm |>.2
  | cons x others ih =>
    have goesOn {left : List β} (later : others.flatMap parts = left ++ b :: after) :
        ∃ first a rest passed more, x :: others = first ++ a :: rest ∧
          parts a = passed ++ b :: more ∧ parts x ++ left = first.flatMap parts ++ passed ∧
          after = more ++ rest.flatMap parts := by
      obtain ⟨first, a, rest, passed, more, rfl, found, rfl, behind⟩ := ih later
      refine ⟨x :: first, a, rest, passed, more, rfl, found, ?_, behind⟩
      rw [List.flatMap_cons, List.append_assoc]
    rw [List.flatMap_cons] at same
    rcases List.append_eq_append_iff.mp same with ⟨left, rfl, later⟩ | ⟨left, here, later⟩
    · exact goesOn later
    · cases left with
      | nil =>
        have next : others.flatMap parts = [] ++ b :: after := later.symm
        have beyond := goesOn next
        rwa [here, List.append_nil, List.append_nil] at beyond
      | cons first more =>
        obtain ⟨rfl, rfl⟩ := List.cons.inj later
        exact ⟨[], x, others, before, more, rfl, here, rfl, rfl⟩

namespace Definition

theorem OpensComment.append {text : List Char} (opens : OpensComment text) (more : List Char) :
    OpensComment (text ++ more) := by
  rcases opens with line | ⟨rest, rfl, closed⟩
  · exact .inl (line.trans (List.prefix_append text more))
  · exact .inr ⟨rest ++ more, rfl, closed.trans (List.prefix_append rest more).isInfix⟩

/-- A text that is cut between two of its pieces is scanned like the whole text. -/
theorem Scanned.of_append {first second : List Piece} (scanned : Scanned (first ++ second)) :
    Scanned first ∧ Scanned second := by
  induction first with
  | nil => exact ⟨.nil, scanned⟩
  | cons piece rest ih =>
    rw [List.cons_append] at scanned
    cases scanned with
    | plain outside later =>
      refine ⟨.plain ?_ (ih later).1, (ih later).2⟩
      intro opens
      rw [textOf_append] at outside
      exact outside (opens.append (textOf second))
    | line noFeed ends later =>
      refine ⟨.line noFeed ?_ (ih later).1, (ih later).2⟩
      intro c starts
      apply ends c
      rw [textOf_append, List.head?_append, Option.mem_def.mp starts, Option.some_or]
      rfl
    | block first later => exact ⟨.block first (ih later).1, (ih later).2⟩

variable {pieces : List Piece} {rest : List Char}

/-- No comment stands between the start of a text and what is visible at the start of what is left
of it. -/
theorem Scanned.eq_plain_cons (scanned : Scanned pieces) {c : Char}
    (visible : Text.isBlank c = false) (kept : keptOf pieces = c :: rest) :
    ∃ others, pieces = .plain c :: others ∧ keptOf others = rest := by
  have first : (withoutComments (textOf pieces)).head? = some c := by
    rw [scanned.withoutComments_eq, kept, List.head?_cons]
  cases scanned with
  | nil => cases kept
  | plain outside later =>
    obtain ⟨rfl, same⟩ := List.cons.inj kept
    exact ⟨_, rfl, same⟩
  | line noFeed ends later =>
    -- Behind a line comment stands the end of its line, which is not visible.
    rw [(Scanned.line noFeed ends later).withoutComments_eq, keptOf_cons, Piece.kept,
      List.nil_append, ← later.withoutComments_eq] at first
    have feed := ends c (head?_of_head?_withoutComments visible first)
    rw [bne_eq_false_iff_eq] at feed
    rw [feed] at visible
    cases visible
  | block _ later =>
    obtain ⟨rfl, _⟩ := List.cons.inj kept
    cases visible

theorem Scanned.eq_map_plain_append (scanned : Scanned pieces) {word : List Char}
    (visible : ∀ c ∈ word, Text.isBlank c = false) (kept : keptOf pieces = word ++ rest) :
    ∃ others, pieces = word.map .plain ++ others ∧ keptOf others = rest := by
  induction word generalizing pieces with
  | nil => exact ⟨pieces, rfl, kept⟩
  | cons c word ih =>
    obtain ⟨here, later⟩ := List.forall_mem_cons.mp visible
    obtain ⟨others, rfl, same⟩ := scanned.eq_plain_cons here kept
    have apart : Scanned ([.plain c] ++ others) := scanned
    obtain ⟨left, rfl, behind⟩ := ih apart.of_append.2 later same
    exact ⟨left, rfl, behind⟩

theorem textOf_map_plain (word : List Char) : textOf (word.map .plain) = word := by
  rw [textOf, List.flatMap_map]
  exact List.flatMap_pure_eq_map id word |>.trans (List.map_id word)

theorem Piece.eq_plain_of_kept {piece : Piece} {c : Char} {passed more : List Char}
    (visible : Text.isBlank c = false) (kept : piece.kept = passed ++ c :: more) :
    piece = .plain c ∧ passed = [] ∧ more = [] := by
  cases piece with
  | plain d =>
    rcases List.append_eq_singleton_iff.mp kept.symm with ⟨rfl, same⟩ | ⟨_, wrong⟩
    · obtain ⟨rfl, rfl⟩ := List.cons.inj same
      exact ⟨rfl, rfl, rfl⟩
    · cases wrong
  | line body => cases (List.append_eq_nil_iff.mp kept.symm).2
  | block body =>
    have member : c ∈ (block body).kept := by
      rw [kept]
      exact List.mem_append_right _ List.mem_cons_self
    rcases List.mem_cons.mp member with rfl | feed
    · cases visible
    · obtain rfl := beq_iff_eq.mp (List.mem_filter.mp feed).2
      cases visible

/-- A visible part of what is left of a text is a part of the text. -/
theorem exists_of_withoutComments_eq {text first word rest : List Char} (nonempty : word ≠ [])
    (visible : ∀ c ∈ word, Text.isBlank c = false)
    (left : withoutComments text = first ++ word ++ rest) :
    ∃ before after, text = before ++ word ++ after ∧ withoutComments before = first ∧
      withoutComments after = rest := by
  obtain ⟨pieces, scanned, rfl⟩ := exists_scanned text
  obtain ⟨c, others, rfl⟩ := List.exists_cons_of_ne_nil nonempty
  have starts := (List.forall_mem_cons.mp visible).1
  rw [scanned.withoutComments_eq, List.append_assoc, List.cons_append] at left
  obtain ⟨ahead, piece, behind, passed, more, rfl, found, rfl, later⟩ := exists_of_flatMap_eq left
  obtain ⟨rfl, rfl, rfl⟩ := Piece.eq_plain_of_kept starts found
  obtain ⟨begin, goesOn⟩ := scanned.of_append
  have kept : keptOf (.plain c :: behind) = c :: others ++ rest := by
    rw [keptOf_cons, List.cons_append, later]
    rfl
  obtain ⟨after, same, rfl⟩ := goesOn.eq_map_plain_append visible kept
  rw [same] at goesOn ⊢
  refine ⟨textOf ahead, textOf after, ?_, ?_, goesOn.of_append.2.withoutComments_eq⟩
  · rw [textOf_append, textOf_append, textOf_map_plain, List.append_assoc]
  · rw [begin.withoutComments_eq, List.append_nil]
    rfl

variable {constants : Constants} {text : List Char}

/-- The runs of names and numbers lie inside of words, before and after constants are replaced. -/
theorem runs_replaceConstants (text : List Char) :
    Text.runs Text.isIdentifierChar (replaceConstants constants text) =
      (Text.runs Text.isWordChar text).flatMap fun word =>
        Text.runs Text.isIdentifierChar (replaceWord constants word) := by
  induction text using Text.words_induction Text.isWordChar with
  | nil => rfl
  | other c rest outside ih =>
    have apart := Text.outside_of_outside Text.isWordChar_of_isIdentifierChar outside
    rw [replaceConstants_cons outside, Text.runs_cons outside, List.flatMap_cons,
      replaceWord_singleton outside, ← ih rest le_rfl, Text.runs_cons apart, Text.runs_cons apart]
    rfl
  | word word rest run ends ih =>
    have closes : Text.EndsRun Text.isIdentifierChar (replaceConstants constants rest) :=
      (endsRun_replaceConstants ends).weaken fun _ => Text.isWordChar_of_isIdentifierChar
    rw [replaceConstants_word run ends, Text.runs_append_of_endsRun _ closes, ih,
      Text.runs_append_of_endsRun word ends, run.runs_eq, List.singleton_append,
      List.flatMap_cons]

/-- Constants and their values have no line feeds. -/
theorem count_feed_replaceConstants (text : List Char) :
    (replaceConstants constants text).count '\n' = text.count '\n' := by
  have none {word : List Char} (run : Text.IsRun Text.isWordChar word) : word.count '\n' = 0 :=
    List.count_eq_zero.mpr fun feed => Text.ne_of_inClass (run.inside _ feed) (by decide) rfl
  induction text using Text.words_induction Text.isWordChar with
  | nil => rfl
  | other c rest outside ih =>
    rw [replaceConstants_cons outside, List.count_cons, List.count_cons, ih rest le_rfl]
  | word word rest run ends ih =>
    rw [replaceConstants_word run ends, List.count_append, List.count_append, ih, none run,
      none (isRun_replaceWord run)]

/-- A word in whose place something visible stands is visible, and there is no line feed in its
place. -/
theorem visible_of_mem_replaceWord {word : List Char}
    (member : word ∈ Text.runs Text.isWordChar text) {c : Char}
    (inside : c ∈ replaceWord constants word) (visible : Text.isBlank c = false) :
    (∀ d ∈ word, Text.isBlank d = false) ∧ '\n' ∉ replaceWord constants word := by
  rcases Text.isRun_or_of_mem_runs member with run | ⟨d, rfl, outside⟩
  · refine ⟨fun d here => Text.isBlank_of_isWordChar (run.inside d here), ?_⟩
    intro feed
    exact Text.ne_of_inClass ((isRun_replaceWord run).inside _ feed) (by decide) rfl
  · rw [replaceWord_singleton outside] at inside ⊢
    obtain rfl := List.mem_singleton.mp inside
    refine ⟨by simpa using visible, ?_⟩
    intro feed
    rw [← List.mem_singleton.mp feed] at visible
    cases visible

/-- A run of a text with constants replaced is a part of what stands in the place of a word. -/
theorem exists_word_of_runs {before after : List (List Char)} {c : Char} {others : List Char}
    (split : Text.runs Text.isIdentifierChar (replaceConstants constants text) =
      before ++ (c :: others) :: after) (visible : Text.isBlank c = false) :
    ∃ ahead word behind passed more,
      Text.runs Text.isWordChar text = ahead ++ word :: behind ∧
      replaceWord constants word = passed ++ (c :: others) ++ more ∧
      before.flatten = replaceConstants constants ahead.flatten ++ passed ∧
      (∀ d ∈ word, Text.isBlank d = false) ∧ '\n' ∉ passed := by
  rw [runs_replaceConstants] at split
  obtain ⟨ahead, word, behind, passed, more, words, found, rfl, _⟩ := exists_of_flatMap_eq split
  have replaced : replaceWord constants word = passed.flatten ++ (c :: others) ++ more.flatten := by
    rw [← Text.flatten_runs Text.isIdentifierChar (replaceWord constants word), found,
      List.flatten_append, List.flatten_cons, List.append_assoc]
  have member : word ∈ Text.runs Text.isWordChar text := by
    rw [words]
    exact List.mem_append_right _ List.mem_cons_self
  have inside : c ∈ replaceWord constants word := by
    rw [replaced]
    simp
  obtain ⟨seen, noFeed⟩ := visible_of_mem_replaceWord member inside visible
  refine ⟨ahead, word, behind, passed.flatten, more.flatten, words, replaced, ?_, seen, ?_⟩
  · have aheadRuns := (Text.runs_around words).1
    rw [List.flatten_append, ← Text.flatten_runs Text.isIdentifierChar
      (replaceConstants constants ahead.flatten), runs_replaceConstants, aheadRuns]
  · intro feed
    apply noFeed
    rw [replaced, List.append_assoc]
    exact List.mem_append_left _ feed

/-- What stands in a prepared text at a place stems from a word of the text, or from a character
that is no part of a word. -/
structure Origin (constants : Constants) (text part : List Char) (position : Position)
    (before word : List Char) : Prop where
  whole : ∃ after, text = before ++ word ++ after ∧
    Text.runs Text.isWordChar (withoutComments text) =
      Text.runs Text.isWordChar (withoutComments before) ++
        word :: Text.runs Text.isWordChar (withoutComments after)
  place : ∃ passed more, replaceWord constants word = passed ++ part ++ more ∧
    position = .behind (replaceConstants constants (withoutComments before) ++ passed)

theorem exists_origin {before after : List (List Char)} {c : Char} {others : List Char}
    (split : Text.runs Text.isIdentifierChar (replaceConstants constants (withoutComments text)) =
      before ++ (c :: others) :: after) (visible : Text.isBlank c = false) :
    ∃ first word, Origin constants text (c :: others) (.behind before.flatten) first word ∧
      (Position.behind before.flatten).line = 1 + first.count '\n' := by
  obtain ⟨ahead, word, behind, passed, more, words, replaced, place, seen, noFeed⟩ :=
    exists_word_of_runs split visible
  obtain ⟨aheadRuns, behindRuns⟩ := Text.runs_around words
  obtain ⟨d, rest, rfl, _⟩ := Text.exists_cons_of_runs_eq words
  have left : withoutComments text = ahead.flatten ++ (d :: rest) ++ behind.flatten := by
    rw [← Text.flatten_runs Text.isWordChar (withoutComments text), words, List.flatten_append,
      List.flatten_cons, List.append_assoc]
  obtain ⟨first, last, whole, firstLeft, lastLeft⟩ :=
    exists_of_withoutComments_eq (List.cons_ne_nil d rest) seen left
  rw [← firstLeft] at aheadRuns place
  rw [← lastLeft] at behindRuns
  refine ⟨first, d :: rest, ⟨⟨last, whole, ?_⟩, passed, more, replaced, ?_⟩, ?_⟩
  · rw [words, aheadRuns, behindRuns]
  · rw [place]
  · rw [place, Position.behind, List.count_append, List.count_eq_zero.mpr noFeed,
      count_feed_replaceConstants, count_feed_withoutComments, Nat.add_zero]

theorem exists_run_of_tokensFrom {before : List Char} {runs : List (List Char)}
    {placed : List PlacedToken} (read : tokensFrom (.behind before) runs = .ok placed)
    {token : PlacedToken} (member : token ∈ placed) :
    ∃ first run rest, runs = first ++ run :: rest ∧ Token.ofRun? run = .ok (some token.token) ∧
      token.position = .behind (before ++ first.flatten) := by
  induction runs generalizing before placed with
  | nil =>
    cases read
    cases member
  | cons run rest ih =>
    obtain ⟨found, others, known, later, rfl⟩ := tokensFrom_cons_eq_ok_iff.mp read
    rcases List.mem_append.mp member with here | member
    · obtain ⟨kind, rfl, rfl⟩ := Option.map_eq_some_iff.mp (Option.mem_toList.mp here)
      exact ⟨[], run, rest, rfl, known, by simp⟩
    · rw [Position.after_behind] at later
      obtain ⟨first, last, more, rfl, same, place⟩ := ih later member
      refine ⟨run :: first, last, more, rfl, same, ?_⟩
      rw [place, List.flatten_cons, List.append_assoc]

/-- No token is read from white space. -/
theorem isBlank_of_ofRun?_some {c : Char} {rest : List Char} {token : Token}
    (read : Token.ofRun? (c :: rest) = .ok (some token)) : Text.isBlank c = false := by
  apply Bool.eq_false_iff.mpr
  intro white
  rw [Token.ofRun?, if_pos white] at read
  cases read

theorem exists_run_of_tokensFrom_error {before : List Char} {runs : List (List Char)}
    {failure : PlacedFault} (failed : tokensFrom (.behind before) runs = .error failure) :
    ∃ first run rest, runs = first ++ run :: rest ∧ Token.ofRun? run = .error failure.fault ∧
      failure.position = .behind (before ++ first.flatten) := by
  induction runs generalizing before with
  | nil => cases failed
  | cons run rest ih =>
    have beyond (later : tokensFrom (.behind (before ++ run)) rest = .error failure) :
        ∃ first last more, run :: rest = first ++ last :: more ∧
          Token.ofRun? last = .error failure.fault ∧
          failure.position = .behind (before ++ first.flatten) := by
      obtain ⟨first, last, more, rfl, same, place⟩ := ih later
      refine ⟨run :: first, last, more, rfl, same, ?_⟩
      rw [place, List.flatten_cons, List.append_assoc]
    rw [tokensFrom] at failed
    split at failed
    · rename_i fault wrong
      cases failed
      exact ⟨[], run, rest, rfl, wrong, by simp⟩
    · rw [Position.after_behind] at failed
      exact beyond failed
    · rw [Position.after_behind] at failed
      exact beyond (bind_pure_eq_error_iff.mp failed)

/-- Each token of a prepared text, and what it is reported for if it has none, stands on the line
that its origin stands on in the text as it was, whatever comments and constants come before. -/
theorem prepared_lines {prepared : List Char} (once : prepare constants text = .ok prepared) :
    (∀ placed, tokens prepared = .ok placed → ∀ token ∈ placed, ∃ lexeme before word,
      token.token.Spelled lexeme ∧ Origin constants text lexeme token.position before word ∧
        token.position.line = 1 + before.count '\n') ∧
    ∀ failure, tokens prepared = .error failure → ∃ c rest before word,
      (failure.fault =
        if c.isDigit then .badInteger (String.ofList (c :: rest)) else .badCharacter c) ∧
      Origin constants text (c :: rest) failure.position before word ∧
        failure.position.line = 1 + before.count '\n' := by
  obtain ⟨rfl, _⟩ := prepare_eq_ok_iff.mp once
  constructor
  · intro placed read token member
    have begin : tokensFrom (.behind []) _ = .ok placed := read
    obtain ⟨first, part, last, split, known, place⟩ := exists_run_of_tokensFrom begin member
    obtain ⟨c, rest, rfl, goesOn⟩ := Text.exists_cons_of_runs_eq split
    obtain ⟨before, word, origin, line⟩ := exists_origin split (isBlank_of_ofRun?_some known)
    rw [place, List.nil_append]
    exact ⟨_, before, word, Token.spelled_of_ofRun? goesOn known, origin, line⟩
  · intro failure failed
    have begin : tokensFrom (.behind []) _ = .error failure := failed
    obtain ⟨first, part, last, split, known, place⟩ := exists_run_of_tokensFrom_error begin
    obtain ⟨c, rest, rfl, _⟩ := Text.exists_cons_of_runs_eq split
    obtain ⟨visible, fault⟩ := ofRun?_eq_error known
    obtain ⟨before, word, origin, line⟩ := exists_origin split visible
    rw [place, List.nil_append]
    exact ⟨c, rest, before, word, fault, origin, line⟩

/-- The value of a constant stands on its line behind a comment on two lines and one with its
name. -/
theorem prepared_lines_of_length :
    prepare (.ofList [("N", 1000)]) "/* N\n*/u8 // N\n[N]".toList =
        .ok " \nu8 \n[1000]".toList ∧
      ∃ lexeme before word, (Token.int 1000).Spelled lexeme ∧
        Origin (.ofList [("N", 1000)]) "/* N\n*/u8 // N\n[N]".toList lexeme ⟨3, 2⟩ before word ∧
        3 = 1 + before.count '\n' := by
  have once : prepare (.ofList [("N", 1000)]) "/* N\n*/u8 // N\n[N]".toList =
      .ok " \nu8 \n[1000]".toList := by decide +kernel
  have read : tokens " \nu8 \n[1000]".toList =
      .ok [⟨.ident "u8", ⟨2, 1⟩⟩, ⟨.openBracket, ⟨3, 1⟩⟩, ⟨.int 1000, ⟨3, 2⟩⟩,
        ⟨.closeBracket, ⟨3, 6⟩⟩] := by decide +kernel
  exact ⟨once, (prepared_lines once).1 _ read ⟨.int 1000, ⟨3, 2⟩⟩ (by simp)⟩

end Definition

end PackedStruct
