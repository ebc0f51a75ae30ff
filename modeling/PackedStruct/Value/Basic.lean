import PackedStruct.SortedMap

namespace PackedStruct

/-- An integer, the elements of an array, or the fields of a struct by name. The entries of a tree
are meant to be in key order. -/
inductive Value where
  | unsigned (n : UInt64)
  | signed (n : Int64)
  | array (items : List Value)
  | tree (entries : List (String × Value))
  deriving Repr

abbrev Tree := List (String × Value)

namespace Value

/-- The bits of an integer; a negative one is in two's complement. -/
def raw? : Value → Option UInt64
  | .unsigned n => some n
  | .signed n => some n.toUInt64
  | _ => none

def items? : Value → Option (List Value)
  | .array items => some items
  | _ => none

def tree? : Value → Option Tree
  | .tree entries => some entries
  | _ => none

end Value

end PackedStruct
