import PackedStruct.SortedMap

namespace PackedStruct

/-- For a struct and a field, the label of each value that has one. -/
structure Labels where
  byStruct : SortedMap String (SortedMap String (SortedMap UInt64 String))

structure MissingLabel where
  struct : String
  field : String
  value : UInt64
  deriving DecidableEq, Repr

namespace Labels

def empty : Labels := ⟨.empty⟩

/-- All labels of a field; nothing if none were ever given. -/
def ofField? (labels : Labels) (struct field : String) : Option (SortedMap UInt64 String) :=
  (labels.byStruct.get? struct).bind fun fields => fields.get? field

def label? (labels : Labels) (struct field : String) (value : UInt64) : Option String :=
  (labels.ofField? struct field).bind fun known => known.get? value

def label (labels : Labels) (struct field : String) (value : UInt64) :
    Except MissingLabel String :=
  match labels.label? struct field value with
  | some label => .ok label
  | none => .error ⟨struct, field, value⟩

/-- Adds labels to those of a field, one after the other. The field counts as labelled even if none
are given. -/
def add (labels : Labels) (struct field : String) (given : List (UInt64 × String)) : Labels :=
  let fields := (labels.byStruct.get? struct).getD .empty
  let known := (fields.get? field).getD .empty
  ⟨labels.byStruct.insert struct (fields.insert field (known.insertAll given))⟩

end Labels

end PackedStruct
