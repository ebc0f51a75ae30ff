namespace PackedStruct.Definition

/-- The line feeds before the first end of a block comment, and the text after that end. -/
def closeComment : List Char → Option (List Char × List Char)
  | [] => none
  | '*' :: '/' :: rest => some ([], rest)
  | c :: rest =>
    match closeComment rest with
    | none => none
    | some (feeds, after) => some (if c == '\n' then c :: feeds else feeds, after)

theorem length_of_closeComment {text feeds rest : List Char}
    (h : closeComment text = some (feeds, rest)) : rest.length < text.length := by
  fun_induction closeComment text generalizing feeds rest <;> grind

/-- The text without comments. A block comment leaves a blank and its line feeds behind, so that
lines keep their numbers. A block comment that is never closed is none. -/
def withoutComments : List Char → List Char
  | [] => []
  | '/' :: '/' :: rest => withoutComments (rest.dropWhile (· != '\n'))
  | '/' :: '*' :: rest =>
    match _h : closeComment rest with
    | some (feeds, after) => ' ' :: feeds ++ withoutComments after
    | none => '/' :: withoutComments ('*' :: rest)
  | c :: rest => c :: withoutComments rest
termination_by text => text.length
decreasing_by
  · have := (List.dropWhile_suffix (l := rest) (· != '\n')).length_le
    simp
    omega
  · have := length_of_closeComment _h
    simp
    omega
  · simp
  · simp

end PackedStruct.Definition
