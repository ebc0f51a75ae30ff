import PackedStruct.Layout.Basic

namespace PackedStruct

/-- The parts of a text between the separators, at least one. -/
def splitAtChar (separator : Char) : List Char → List (List Char)
  | [] => [[]]
  | c :: rest =>
    if c == separator then [] :: splitAtChar separator rest
    else
      match splitAtChar separator rest with
      | [] => [[c]]
      | part :: parts => (c :: part) :: parts

structure MissingField where
  struct : String
  field : String
  deriving DecidableEq, Repr

/-- The field that the names lead to, and the offset of its first bit. Every array on the way is
entered at its first element. -/
def Layout.follow (layout : Layout) (base : Nat) (name : String) :
    List String → Except MissingField (Nat × Field)
  | [] =>
    match layout.field? name with
    | none => .error ⟨layout.name, name⟩
    | some field => .ok (base + field.offset, field)
  | next :: rest =>
    match layout.field? name with
    | none => .error ⟨layout.name, name⟩
    | some field =>
      match field.nested? with
      | none => .error ⟨field.type.name, next⟩
      | some inner => inner.follow (base + field.offset) next rest

def Layout.locate (layout : Layout) (path : String) : Except MissingField (Nat × Field) :=
  match (splitAtChar '.' path.toList).map String.ofList with
  | [] => .error ⟨layout.name, path⟩
  | name :: rest => layout.follow 0 name rest

end PackedStruct
