import PackedStruct.Layout.Path
import PackedStruct.Proofs.Numeral
import PackedStruct.Proofs.Words

namespace PackedStruct

namespace Text

theorem toDigits_inj {m n : Nat} (same : Nat.toDigits 10 m = Nat.toDigits 10 n) : m = n := by
  have read := numeral?_toDigits (by decide) (by decide : 10 ≤ 16) m
  rw [same, numeral?_toDigits (by decide) (by decide)] at read
  exact (Option.some.inj read).symm

/-- Nothing that could belong to a word comes first. -/
def Stops (text : List Char) : Prop :=
  ∀ c ∈ text.head?, isIdentifierChar c = false

/-- Words that end where they have to are told apart by what they are followed by. -/
theorem append_inj_of_stops {word other rest more : List Char}
    (inside : ∀ c ∈ word, isIdentifierChar c = true)
    (insideOther : ∀ c ∈ other, isIdentifierChar c = true) (stops : Stops rest)
    (stopsOther : Stops more) (same : word ++ rest = other ++ more) :
    word = other ∧ rest = more := by
  have words : word = other := by
    rw [← takeWhile_append_of_endsRun inside stops, same,
      takeWhile_append_of_endsRun insideOther stopsOther]
  subst words
  exact ⟨rfl, List.append_cancel_left same⟩

/-- Parts without the separator are had back by splitting. -/
theorem splitOn_intercalate (separator : Char) {parts : List String} (nonempty : parts ≠ [])
    (apart : ∀ part ∈ parts, separator ∉ part.toList) :
    ((String.singleton separator).intercalate parts).toList.splitOn separator =
      parts.map String.toList := by
  rw [String.toList_intercalate, String.toList_singleton]
  apply List.splitOn_intercalate
  · exact List.forall_mem_map.mpr apart
  · simpa using nonempty

end Text

namespace Step

/-- A name is an identifier. -/
def Plain : Step → Prop
  | .field name => Text.isIdentifier name.toList = true
  | .index _ => True

/-- What a step adds to the text of a path that has begun. -/
def piece : Step → List Char
  | .field name => '.' :: name.toList
  | .index i => '[' :: (Nat.toDigits 10 i ++ [']'])

theorem toList_extend {text : String} (begun : text ≠ "") (step : Step) :
    (extend text step).toList = text.toList ++ step.piece := by
  cases step with
  | field name =>
    have nonempty : ¬ text.isEmpty = true := by simpa using begun
    rw [extend, if_neg nonempty]
    simp [piece]
  | index i => simp [extend, piece]

theorem extend_ne_empty {text : String} (begun : text ≠ "") (step : Step) :
    extend text step ≠ "" := by
  intro empty
  have none := toList_extend begun step
  rw [empty] at none
  cases step <;> simp [piece] at none

theorem stops_flatMap_piece (path : Path) : Text.Stops (path.flatMap piece) := by
  cases path with
  | nil => exact fun c head => absurd head (by simp)
  | cons step rest =>
    intro c head
    cases step with
    | field name =>
      obtain rfl : '.' = c := by simpa [piece] using head
      decide
    | index i =>
      obtain rfl : '[' = c := by simpa [piece] using head
      decide

/-- The first step can be told from the text of a path and with it the text of the other steps. -/
theorem piece_append_inj {step other : Step} {rest more : Path} (plain : step.Plain)
    (plainOther : other.Plain)
    (same : step.piece ++ rest.flatMap piece = other.piece ++ more.flatMap piece) :
    step = other ∧ rest.flatMap piece = more.flatMap piece := by
  cases step with
  | field name =>
    cases other with
    | field otherName =>
      obtain ⟨names, later⟩ := Text.append_inj_of_stops (Text.isIdentifierChar_of_mem plain)
        (Text.isIdentifierChar_of_mem plainOther) (stops_flatMap_piece rest)
        (stops_flatMap_piece more) (List.cons.inj same).2
      exact ⟨congrArg field (String.toList_inj.mp names), later⟩
    | index j => cases (List.cons.inj same).1
  | index i =>
    cases other with
    | field otherName => cases (List.cons.inj same).1
    | index j =>
      have bracket (text : List Char) : Text.Stops (']' :: text) := by
        rintro _ ⟨⟩
        decide
      have behind : Nat.toDigits 10 i ++ ']' :: rest.flatMap piece =
          Nat.toDigits 10 j ++ ']' :: more.flatMap piece := by
        simpa [piece] using same
      obtain ⟨digits, later⟩ := Text.append_inj_of_stops Text.isIdentifierChar_of_mem_toDigits
        Text.isIdentifierChar_of_mem_toDigits (bracket _) (bracket _) behind
      exact ⟨congrArg index (Text.toDigits_inj digits), (List.cons.inj later).2⟩

end Step

namespace Path

/-- The path begins with a name, and all names are identifiers. -/
def Plain (path : Path) : Prop :=
  (∃ name, path.head? = some (.field name)) ∧ ∀ step ∈ path, step.Plain

theorem toList_foldl_extend {text : String} (begun : text ≠ "") (path : Path) :
    (path.foldl Step.extend text).toList = text.toList ++ path.flatMap Step.piece := by
  induction path generalizing text with
  | nil => simp
  | cons step rest ih =>
    rw [List.foldl_cons, ih (Step.extend_ne_empty begun step), Step.toList_extend begun,
      List.flatMap_cons, List.append_assoc]

/-- The text of a path lacks only the point in front of the first name, if that is not empty. -/
theorem cons_toList_text {name : String} (begun : name ≠ "") (rest : Path) :
    '.' :: (text (.field name :: rest)).toList =
      (Step.field name :: rest : Path).flatMap Step.piece := by
  have first : text (.field name :: rest) = rest.foldl Step.extend name := rfl
  rw [first, toList_foldl_extend begun, List.flatMap_cons]
  rfl

theorem Plain.cons_toList_text {path : Path} (plain : path.Plain) :
    '.' :: path.text.toList = path.flatMap Step.piece := by
  obtain ⟨⟨name, first⟩, each⟩ := plain
  cases path with
  | nil => cases first
  | cons step rest =>
    obtain rfl := Option.some.inj first
    have begun : name ≠ "" := by
      rintro rfl
      cases each _ List.mem_cons_self
    exact Path.cons_toList_text begun rest

theorem flatMap_piece_inj {path other : Path} (plain : ∀ step ∈ path, step.Plain)
    (plainOther : ∀ step ∈ other, step.Plain)
    (same : path.flatMap Step.piece = other.flatMap Step.piece) : path = other := by
  induction path generalizing other with
  | nil =>
    cases other with
    | nil => rfl
    | cons step _ => cases step <;> simp [Step.piece] at same
  | cons step rest ih =>
    cases other with
    | nil => cases step <;> simp [Step.piece] at same
    | cons otherStep more =>
      obtain ⟨here, below⟩ := List.forall_mem_cons.mp plain
      obtain ⟨otherHere, otherBelow⟩ := List.forall_mem_cons.mp plainOther
      obtain ⟨rfl, later⟩ := Step.piece_append_inj here otherHere same
      rw [ih below otherBelow later]

theorem text_inj {path other : Path} (plain : path.Plain) (plainOther : other.Plain)
    (same : path.text = other.text) : path = other := by
  apply flatMap_piece_inj plain.2 plainOther.2
  rw [← plain.cons_toList_text, ← plainOther.cons_toList_text, same]

end Path

end PackedStruct
