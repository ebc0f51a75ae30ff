import PackedStruct.Catalog
import PackedStruct.Definition.Declaration
import PackedStruct.Error
import PackedStruct.Layout.Placement

namespace PackedStruct.Definition

/-- The type of a field of the struct `struct`. A bitfield has a base type and at most 64 bits. Any
other type is a base type or a known struct; a struct is not known inside itself. -/
def MemberDeclaration.resolveType (declared : MemberDeclaration) (struct : String)
    (catalog : Catalog) : Except DefinitionError FieldType :=
  let unknown := DefinitionError.unknownType declared.type declared.name
  match declared.width, BaseType.ofName? declared.type with
  | some _, none => .error unknown
  | some width, some type =>
    if maxBitfieldWidth < width then
      .error (.malformed ⟨.tooWide declared.name width maxBitfieldWidth, declared.position⟩)
    else .ok (.bitfield type width)
  | none, some type => .ok (.plain type)
  | none, none =>
    if declared.type = struct then .error unknown
    else
      match catalog.get? declared.type with
      | some layout => .ok (.nested layout)
      | none => .error unknown

def Declaration.resolve (declared : Declaration) (catalog : Catalog) :
    Except DefinitionError (List Member) :=
  declared.members.mapM fun member => do
    let type ← member.resolveType declared.name catalog
    return ⟨member.name, type, member.length⟩

def Declaration.layout (declared : Declaration) (order : ByteOrder) (catalog : Catalog) :
    Except DefinitionError Layout := do
  let members ← declared.resolve catalog
  (Layout.ofMembers declared.name order members).mapError .tooLarge

/-- The layouts of structs that are declared one after the other, so that a later one can use an
earlier one, and the catalog with all of them. -/
def layoutAll (order : ByteOrder) (catalog : Catalog) :
    List Declaration → Except DefinitionError (List Layout × Catalog)
  | [] => .ok ([], catalog)
  | declared :: rest => do
    let layout ← declared.layout order catalog
    let (layouts, final) ← layoutAll order (catalog.insert layout) rest
    return (layout :: layouts, final)

end PackedStruct.Definition
