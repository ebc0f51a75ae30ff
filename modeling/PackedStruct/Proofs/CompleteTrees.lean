import PackedStruct.Proofs.LeafPlaces
import PackedStruct.Proofs.Lookup
import PackedStruct.Proofs.ValuePaths

namespace PackedStruct

mutual

/-- The tree has one entry for each field and no other, in key order, and the entries fit. -/
inductive Layout.Fits : Layout → Tree → Prop where
  | intro {layout : Layout} {tree : Tree} (sorted : Entries.Sorted tree)
      (names : (tree.map Prod.fst).Perm (layout.fields.map Field.name))
      (entries : ∀ field ∈ layout.fields, ∀ value, tree.lookup field.name = some value →
        field.Fits value) : layout.Fits tree

/-- The value of an array has as many items as the array has elements. -/
inductive Field.Fits : Field → Value → Prop where
  | scalar {field : Field} {value : Value} (scalar : field.length = none)
      (element : field.type.Fits value) : field.Fits value
  | array {field : Field} {items : List Value} (array : field.length = some items.length)
      (elements : ∀ item ∈ items, field.type.Fits item) : field.Fits (.array items)

/-- Integers are unsigned and not wider than their type. -/
inductive FieldType.Fits : FieldType → Value → Prop where
  | integer {type : FieldType} {word : UInt64} (integer : type.isInteger)
      (small : word.toNat < 2 ^ type.width) : type.Fits (.unsigned word)
  | nested {inner : Layout} {tree : Tree} (fits : inner.Fits tree) :
      FieldType.Fits (.nested inner) (.tree tree)

end

theorem Layout.Fits.sorted {layout : Layout} {tree : Tree} (fits : layout.Fits tree) :
    Entries.Sorted tree := by
  cases fits with
  | intro sorted _ _ => exact sorted

theorem Layout.Fits.exists_lookup {layout : Layout} {tree : Tree} (fits : layout.Fits tree)
    {field : Field} (member : field ∈ layout.fields) :
    ∃ value, tree.lookup field.name = some value ∧ field.Fits value := by
  cases fits with
  | intro sorted names entries =>
    have named : field.name ∈ tree.map Prod.fst :=
      names.mem_iff.mpr (List.mem_map_of_mem member)
    obtain ⟨⟨name, value⟩, entryMember, same⟩ := List.mem_map.mp named
    obtain rfl : name = field.name := same
    have found := (Entries.lookup_eq_some_iff_mem sorted.nodup _ _).mpr entryMember
    exact ⟨value, found, entries field member value found⟩

theorem Layout.Fits.lookup_eq_none {layout : Layout} {tree : Tree} (fits : layout.Fits tree)
    {name : String} (unknown : name ∉ layout.fields.map Field.name) : tree.lookup name = none := by
  cases fits with
  | intro sorted names _ =>
    rw [List.lookup_eq_none_iff]
    intro entry member
    have known := names.mem_iff.mp (List.mem_map_of_mem (f := Prod.fst) member)
    rw [bne_iff_ne]
    rintro rfl
    exact unknown known

theorem Layout.Fits.entry {layout : Layout} {tree : Tree} (fits : layout.Fits tree) {field : Field}
    (member : field ∈ layout.fields) {value : Value}
    (found : tree.lookup field.name = some value) : field.Fits value := by
  cases fits with
  | intro _ _ entries => exact entries field member value found

def treeOfFields (fields : List Field) (value : Field → Value) : Tree :=
  Entries.ofList (fields.map fun field => (field.name, value field))

section TreeOfFields

variable {fields : List Field} {value : Field → Value}

theorem treeOfFields_congr {other : Field → Value}
    (same : ∀ field ∈ fields, value field = other field) :
    treeOfFields fields value = treeOfFields fields other := by
  have pairs : (fields.map fun field => (field.name, value field)) =
      fields.map fun field => (field.name, other field) := by
    apply List.map_congr_left
    intro field member
    rw [same field member]
  rw [treeOfFields, treeOfFields, pairs]

private theorem map_fst_pairs (fields : List Field) (value : Field → Value) :
    (fields.map fun field => (field.name, value field)).map Prod.fst = fields.map Field.name := by
  rw [List.map_map]
  rfl

theorem lookup_treeOfFields (distinct : (fields.map Field.name).Nodup) {field : Field}
    (member : field ∈ fields) :
    (treeOfFields fields value).lookup field.name = some (value field) := by
  rw [← map_fst_pairs _ value] at distinct
  rw [treeOfFields, Entries.lookup_ofList_eq_some_iff distinct]
  exact List.mem_map_of_mem (f := fun field => (field.name, value field)) member

theorem lookup_treeOfFields_eq_none {name : String} (unknown : name ∉ fields.map Field.name) :
    (treeOfFields fields value).lookup name = none := by
  rw [treeOfFields, Entries.lookup_ofList, List.lookup_eq_none_iff]
  intro entry member
  obtain ⟨field, known, rfl⟩ := List.mem_map.mp (List.mem_reverse.mp member)
  rw [bne_iff_ne]
  rintro rfl
  exact unknown (List.mem_map_of_mem known)

theorem Layout.fits_treeOfFields {layout : Layout}
    (distinct : (layout.fields.map Field.name).Nodup)
    (fit : ∀ field ∈ layout.fields, field.Fits (value field)) :
    layout.Fits (treeOfFields layout.fields value) := by
  refine .intro (Entries.sorted_ofList _) ?_ ?_
  · rw [← map_fst_pairs _ value] at distinct ⊢
    exact (Entries.perm_ofList distinct).map Prod.fst
  · intro field member other found
    rw [lookup_treeOfFields distinct member, Option.some_inj] at found
    exact found ▸ fit field member

end TreeOfFields

end PackedStruct
