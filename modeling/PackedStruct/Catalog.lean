import PackedStruct.Layout.Basic
import PackedStruct.SortedMap

namespace PackedStruct

/-- Layouts by the names of their structs. -/
structure Catalog where
  layouts : SortedMap String Layout

namespace Catalog

def empty : Catalog := ⟨.empty⟩

/-- Enters a layout under its own name, in place of the one that had the name. -/
def insert (catalog : Catalog) (layout : Layout) : Catalog :=
  ⟨catalog.layouts.insert layout.name layout⟩

/-- Enters a layout unless its name is taken. -/
def insertIfNew (catalog : Catalog) (layout : Layout) : Catalog :=
  if catalog.layouts.contains layout.name then catalog else catalog.insert layout

def get? (catalog : Catalog) (name : String) : Option Layout :=
  catalog.layouts.get? name

def contains (catalog : Catalog) (name : String) : Bool :=
  catalog.layouts.contains name

def names (catalog : Catalog) : List String :=
  catalog.layouts.keys

def size (catalog : Catalog) : Nat :=
  catalog.layouts.size

def isEmpty (catalog : Catalog) : Bool :=
  catalog.layouts.isEmpty

end Catalog

end PackedStruct
