import PackedStruct.Proofs.StrippedComments

/-! Scanning a text for comments: from left to right, a text is in one way a sequence of characters
outside of comments, line comments and block comments. Taking comments out keeps these characters,
and a blank and the line feeds of each block comment. -/

namespace PackedStruct.Definition

/-- A piece of a text. The body of a comment is what stands between its marks. -/
inductive Piece where
  | plain (c : Char)
  | line (body : List Char)
  | block (body : List Char)
  deriving DecidableEq, Repr

def Piece.text : Piece → List Char
  | plain c => [c]
  | line body => '/' :: '/' :: body
  | block body => '/' :: '*' :: (body ++ ['*', '/'])

def Piece.kept : Piece → List Char
  | plain c => [c]
  | line _ => []
  | block body => ' ' :: body.filter (· == '\n')

def textOf (pieces : List Piece) : List Char :=
  pieces.flatMap Piece.text

def keptOf (pieces : List Piece) : List Char :=
  pieces.flatMap Piece.kept

/-- The text begins with a comment. A block comment that is never closed is none. -/
def OpensComment (text : List Char) : Prop :=
  ['/', '/'] <+: text ∨ ∃ rest, text = '/' :: '*' :: rest ∧ ['*', '/'] <:+: rest

/-- The pieces that are found from left to right. A comment goes on to the end of its line, or to
the first mark that closes it, and no comment begins inside. -/
inductive Scanned : List Piece → Prop where
  | nil : Scanned []
  | plain {c : Char} {rest : List Piece} (outside : ¬ OpensComment (c :: textOf rest))
      (later : Scanned rest) : Scanned (.plain c :: rest)
  | line {body : List Char} {rest : List Piece} (noFeed : '\n' ∉ body)
      (ends : Text.EndsRun (· != '\n') (textOf rest)) (later : Scanned rest) :
      Scanned (.line body :: rest)
  | block {body : List Char} {rest : List Piece} (first : ¬ ['*', '/'] <:+: body ++ ['*'])
      (later : Scanned rest) : Scanned (.block body :: rest)

theorem textOf_cons (piece : Piece) (rest : List Piece) :
    textOf (piece :: rest) = piece.text ++ textOf rest :=
  List.flatMap_cons

theorem textOf_append (first second : List Piece) :
    textOf (first ++ second) = textOf first ++ textOf second :=
  List.flatMap_append

theorem keptOf_cons (piece : Piece) (rest : List Piece) :
    keptOf (piece :: rest) = piece.kept ++ keptOf rest :=
  List.flatMap_cons

theorem textOf_plain_cons (c : Char) (rest : List Piece) :
    textOf (.plain c :: rest) = c :: textOf rest :=
  textOf_cons (.plain c) rest

theorem textOf_line_cons (body : List Char) (rest : List Piece) :
    textOf (.line body :: rest) = '/' :: '/' :: (body ++ textOf rest) :=
  textOf_cons (.line body) rest

theorem textOf_block_cons (body : List Char) (rest : List Piece) :
    textOf (.block body :: rest) = '/' :: '*' :: (body ++ '*' :: '/' :: textOf rest) := by
  rw [textOf_cons, Piece.text, List.cons_append, List.cons_append, List.append_assoc]
  rfl

theorem closeComment_body {body : List Char} (first : ¬ ['*', '/'] <:+: body ++ ['*'])
    (after : List Char) :
    closeComment (body ++ '*' :: '/' :: after) = some (body.filter (· == '\n'), after) := by
  induction body with
  | nil => rfl
  | cons c body ih =>
    rw [List.cons_append, List.infix_cons_iff, not_or] at first
    have apart : c = '*' → (body ++ '*' :: '/' :: after).head? ≠ some '/' := by
      rintro rfl slash
      cases body with
      | nil => cases slash
      | cons d body =>
        obtain rfl := Option.some.inj slash
        exact first.1 ⟨body ++ ['*'], rfl⟩
    rw [List.cons_append, closeComment_cons apart, ih first.2, List.filter_cons]
    rfl

/-- A closed comment is its body up to the first closing mark. -/
theorem exists_body_of_closeComment {text feeds after : List Char}
    (closed : closeComment text = some (feeds, after)) :
    ∃ body, text = body ++ '*' :: '/' :: after ∧ feeds = body.filter (· == '\n') ∧
      ¬ ['*', '/'] <:+: body ++ ['*'] := by
  fun_induction closeComment text generalizing feeds after with
  | case1 => cases closed
  | case2 rest =>
    cases closed
    exact ⟨[], rfl, rfl, by decide⟩
  | case3 => cases closed
  | case4 c rest apart kept after found ih =>
    cases closed
    obtain ⟨body, rfl, rfl, first⟩ := ih found
    refine ⟨c :: body, rfl, by rw [List.filter_cons], ?_⟩
    rw [List.cons_append, List.infix_cons_iff, not_or]
    refine ⟨?_, first⟩
    rintro ⟨more, same⟩
    obtain ⟨star, others⟩ := List.cons.inj same
    cases body with
    | nil => cases others
    | cons d body =>
      obtain ⟨slash, _⟩ := List.cons.inj others
      exact apart _ star.symm (by rw [← slash]; rfl)

theorem opensComment_block (body after : List Char) :
    OpensComment ('/' :: '*' :: (body ++ '*' :: '/' :: after)) :=
  .inr ⟨_, rfl, body, after, by simp⟩

/-- No comment begins where the next character is kept. -/
theorem withoutComments_cons_of_not_opensComment {c : Char} {rest : List Char}
    (outside : ¬ OpensComment (c :: rest)) :
    withoutComments (c :: rest) = c :: withoutComments rest := by
  by_cases block : c = '/' ∧ rest.head? = some '*'
  · obtain ⟨rfl, star⟩ := block
    obtain ⟨others, rfl⟩ := List.head?_eq_some_iff.mp star
    have unclosed : closeComment others = none :=
      closeComment_eq_none_iff.mpr fun closed => outside (.inr ⟨others, rfl, closed⟩)
    rw [withoutComments_unclosed unclosed, withoutComments_cons_of_ne (by decide)]
  · apply withoutComments_cons
    rintro rfl
    refine ⟨?_, fun star => block ⟨rfl, star⟩⟩
    intro slash
    obtain ⟨others, rfl⟩ := List.head?_eq_some_iff.mp slash
    exact outside (.inl ⟨others, rfl⟩)

theorem ne_feed_of_notMem {body : List Char} (noFeed : '\n' ∉ body) :
    ∀ c ∈ body, (c != '\n') = true :=
  fun _ member => bne_iff_ne.mpr (ne_of_mem_of_not_mem member noFeed)

variable {pieces others : List Piece}

/-- What is left of a text is what is left of its pieces. -/
theorem Scanned.withoutComments_eq (scanned : Scanned pieces) :
    withoutComments (textOf pieces) = keptOf pieces := by
  induction scanned with
  | nil => rw [textOf, List.flatMap_nil, withoutComments, keptOf, List.flatMap_nil]
  | plain outside later ih =>
    rw [textOf_plain_cons, withoutComments_cons_of_not_opensComment outside, ih]
    rfl
  | @line body rest noFeed ends later ih =>
    rw [textOf_line_cons, withoutComments.eq_2,
      List.dropWhile_append_of_pos (ne_feed_of_notMem noFeed), ends.dropWhile_eq, ih]
    rfl
  | @block body rest first later ih =>
    rw [textOf_block_cons, withoutComments_closed (closeComment_body first _), ih]
    rfl

/-- Each text is scanned to its end. -/
theorem exists_scanned (text : List Char) : ∃ pieces, Scanned pieces ∧ textOf pieces = text := by
  fun_induction withoutComments text with
  | case1 => exact ⟨[], .nil, rfl⟩
  | case2 rest ih =>
    obtain ⟨pieces, scanned, same⟩ := ih
    have ends : Text.EndsRun (· != '\n') (textOf pieces) :=
      same ▸ Text.endsRun_dropWhile (· != '\n') rest
    have noFeed : '\n' ∉ rest.takeWhile (· != '\n') := by
      intro member
      cases List.all_eq_true.mp List.all_takeWhile '\n' member
    refine ⟨.line (rest.takeWhile (· != '\n')) :: pieces, .line noFeed ends scanned, ?_⟩
    rw [textOf_cons, same, Piece.text, List.cons_append, List.cons_append,
      List.takeWhile_append_dropWhile]
  | case3 rest feeds after closed ih =>
    obtain ⟨pieces, scanned, rfl⟩ := ih
    obtain ⟨body, rfl, rfl, first⟩ := exists_body_of_closeComment closed
    exact ⟨.block body :: pieces, .block first scanned, textOf_block_cons body pieces⟩
  | case4 rest unclosed ih =>
    obtain ⟨pieces, scanned, same⟩ := ih
    refine ⟨.plain '/' :: pieces, .plain ?_ scanned, by rw [textOf_cons, same]; rfl⟩
    rw [same]
    rintro (⟨more, line⟩ | ⟨others, block, closed⟩)
    · cases line
    · cases block
      exact closeComment_eq_none_iff.mp unclosed closed
  | case5 c rest line block ih =>
    obtain ⟨pieces, scanned, same⟩ := ih
    refine ⟨.plain c :: pieces, .plain ?_ scanned, by rw [textOf_cons, same]; rfl⟩
    rw [same]
    rintro (⟨more, opens⟩ | ⟨others, opens, _⟩)
    · obtain ⟨slash, same⟩ := List.cons.inj opens
      exact line more slash.symm same.symm
    · obtain ⟨slash, same⟩ := List.cons.inj opens
      exact block others slash same

theorem opensComment_textOf_line (body : List Char) (rest : List Piece) :
    OpensComment (textOf (.line body :: rest)) :=
  .inl ⟨body ++ textOf rest, rfl⟩

theorem opensComment_textOf_block (body : List Char) (rest : List Piece) :
    OpensComment (textOf (.block body :: rest)) :=
  textOf_block_cons body rest ▸ opensComment_block body (textOf rest)

theorem textOf_line_inj {body other : List Char} {rest : List Piece} (noFeed : '\n' ∉ body)
    (ends : Text.EndsRun (· != '\n') (textOf rest)) (otherNoFeed : '\n' ∉ other)
    (otherEnds : Text.EndsRun (· != '\n') (textOf others))
    (same : textOf (.line body :: rest) = textOf (.line other :: others)) :
    body = other ∧ textOf rest = textOf others := by
  rw [textOf_line_cons, textOf_line_cons] at same
  have whole := (List.cons.inj (List.cons.inj same).2).2
  have bodies := congrArg (List.takeWhile (· != '\n')) whole
  rw [Text.takeWhile_append_of_endsRun (ne_feed_of_notMem noFeed) ends,
    Text.takeWhile_append_of_endsRun (ne_feed_of_notMem otherNoFeed) otherEnds] at bodies
  obtain rfl := bodies
  exact ⟨rfl, List.append_cancel_left whole⟩

theorem textOf_block_inj {body other : List Char} {rest : List Piece}
    (first : ¬ ['*', '/'] <:+: body ++ ['*']) (otherFirst : ¬ ['*', '/'] <:+: other ++ ['*'])
    (same : textOf (.block body :: rest) = textOf (.block other :: others)) :
    body = other ∧ textOf rest = textOf others := by
  rw [textOf_block_cons, textOf_block_cons] at same
  have whole := (List.cons.inj (List.cons.inj same).2).2
  have closed := closeComment_body first (textOf rest)
  rw [whole, closeComment_body otherFirst, Option.some.injEq, Prod.mk.injEq] at closed
  rw [closed.2] at whole
  exact ⟨List.append_cancel_right whole, closed.2.symm⟩

/-- There is one way to scan a text. -/
theorem Scanned.unique (scanned : Scanned pieces) (other : Scanned others)
    (same : textOf pieces = textOf others) : pieces = others := by
  -- Where a character is kept in one scan, no comment begins in the other one.
  induction scanned generalizing others with
  | nil =>
    cases other with
    | nil => rfl
    | plain | line | block => cases same
  | plain outside later ih =>
    rw [← textOf_plain_cons, same] at outside
    cases other with
    | nil => cases same
    | plain _ otherLater =>
      obtain ⟨rfl, rest⟩ := List.cons.inj same
      rw [ih otherLater rest]
    | line => exact absurd (opensComment_textOf_line _ _) outside
    | block => exact absurd (opensComment_textOf_block _ _) outside
  | @line body rest noFeed ends later ih =>
    cases other with
    | nil => cases same
    | plain outside _ =>
      rw [← textOf_plain_cons, ← same] at outside
      exact absurd (opensComment_textOf_line body rest) outside
    | line otherNoFeed otherEnds otherLater =>
      obtain ⟨rfl, left⟩ := textOf_line_inj noFeed ends otherNoFeed otherEnds same
      rw [ih otherLater left]
    | block => cases same
  | @block body rest first later ih =>
    cases other with
    | nil => cases same
    | plain outside _ =>
      rw [← textOf_plain_cons, ← same] at outside
      exact absurd (opensComment_textOf_block body rest) outside
    | line => cases same
    | block otherFirst otherLater =>
      obtain ⟨rfl, left⟩ := textOf_block_inj first otherFirst same
      rw [ih otherLater left]

theorem Piece.length_kept_line_lt (body : List Char) :
    (line body).kept.length < (line body).text.length :=
  Nat.succ_pos _

theorem Piece.length_kept_block_lt (body : List Char) :
    (block body).kept.length < (block body).text.length := by
  have feeds := List.length_filter_le (· == '\n') body
  simp only [kept, text, List.length_cons, List.length_append]
  omega

theorem length_keptOf_le (pieces : List Piece) :
    (keptOf pieces).length ≤ (textOf pieces).length := by
  induction pieces with
  | nil => exact le_rfl
  | cons piece rest ih =>
    have first : piece.kept.length ≤ piece.text.length := by
      cases piece with
      | plain c => exact le_rfl
      | line body => exact (Piece.length_kept_line_lt body).le
      | block body => exact (Piece.length_kept_block_lt body).le
    rw [keptOf_cons, textOf_cons, List.length_append, List.length_append]
    exact Nat.add_le_add first ih

theorem keptOf_ne_textOf {piece : Piece} (shorter : piece.kept.length < piece.text.length)
    (rest : List Piece) : keptOf (piece :: rest) ≠ textOf (piece :: rest) := by
  intro same
  have lengths := congrArg List.length same
  rw [keptOf_cons, textOf_cons, List.length_append, List.length_append] at lengths
  exact (Nat.add_lt_add_of_lt_of_le shorter (length_keptOf_le rest)).ne lengths

/-- Where nothing is taken out, no comment begins anywhere. -/
theorem Scanned.not_opensComment (scanned : Scanned pieces) (same : keptOf pieces = textOf pieces)
    {rest : List Char} (part : rest <:+ textOf pieces) : ¬ OpensComment rest := by
  induction scanned with
  | nil =>
    obtain rfl := List.suffix_nil.mp part
    simp [OpensComment]
  | plain outside later ih =>
    rw [textOf_plain_cons] at part
    rcases List.suffix_cons_iff.mp part with rfl | part
    · exact outside
    · rw [keptOf_cons, textOf_cons] at same
      exact ih (List.cons.inj same).2 part
  | line noFeed ends later ih =>
    exact absurd same (keptOf_ne_textOf (Piece.length_kept_line_lt _) _)
  | block first later ih =>
    exact absurd same (keptOf_ne_textOf (Piece.length_kept_block_lt _) _)

/-- Taking comments out takes out no line feed. -/
theorem Scanned.count_feed (scanned : Scanned pieces) :
    (keptOf pieces).count '\n' = (textOf pieces).count '\n' := by
  induction scanned with
  | nil => rfl
  | plain outside later ih =>
    rw [keptOf_cons, textOf_cons, List.count_append, List.count_append, ih]
    rfl
  | line noFeed ends later ih =>
    rw [keptOf_cons, textOf_cons, List.count_append, List.count_append, ih]
    simp [Piece.kept, Piece.text, List.count_eq_zero.mpr noFeed]
  | @block body rest first later ih =>
    rw [keptOf_cons, textOf_cons, List.count_append, List.count_append, ih]
    simp [Piece.kept, Piece.text, List.count_filter]

theorem count_feed_withoutComments (text : List Char) :
    (withoutComments text).count '\n' = text.count '\n' := by
  obtain ⟨pieces, scanned, rfl⟩ := exists_scanned text
  rw [scanned.withoutComments_eq, scanned.count_feed]

/-- What is left of a text has no comments and as many line feeds, and it is what one scan of the
text keeps. Taking comments out of it again changes nothing. -/
theorem withoutComments_scanned (text : List Char) :
    (∀ rest, rest <:+ withoutComments text → ¬ OpensComment rest) ∧
      withoutComments (withoutComments text) = withoutComments text ∧
      (∃ pieces, (Scanned pieces ∧ textOf pieces = text) ∧
        (∀ others, Scanned others ∧ textOf others = text → others = pieces) ∧
        withoutComments text = keptOf pieces) ∧
      (withoutComments text).count '\n' = text.count '\n' := by
  refine ⟨?_, withoutComments_withoutComments text, ?_, count_feed_withoutComments text⟩
  · intro rest part
    obtain ⟨left, scanned, same⟩ := exists_scanned (withoutComments text)
    have settled : keptOf left = textOf left := by
      rw [← scanned.withoutComments_eq, same, withoutComments_withoutComments]
    exact scanned.not_opensComment settled (same ▸ part)
  · obtain ⟨pieces, scanned, rfl⟩ := exists_scanned text
    refine ⟨pieces, ⟨scanned, rfl⟩, ?_, scanned.withoutComments_eq⟩
    rintro others ⟨other, same⟩
    exact other.unique scanned same

/-- The slash of an opening mark closes nothing, and behind a mark that is never closed a line
comment still begins. -/
example : withoutComments "/*/ x // y".toList = "/*/ x ".toList := by decide +kernel

end PackedStruct.Definition
