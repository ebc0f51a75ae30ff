import PackedStruct.Proofs.UnpackedNumber

namespace PackedStruct

/-- The low bits of an integer, unsigned. No integer counts as zero. -/
def Value.lowBits (width : Nat) (value : Option Value) : Value :=
  .unsigned (UInt64.ofNat ((value.bind Value.word?).getD 0 % 2 ^ width))

mutual

/-- The tree with all fields of the layout and no others. -/
def Layout.normalize : Layout → Tree → Tree
  | ⟨_, _, fields, _⟩, tree => Entries.ofList (normalizeFields fields tree)

def normalizeFields : List Field → Tree → List (String × Value)
  | [], _ => []
  | field :: rest, tree =>
    (field.name, field.normalize (tree.lookup field.name)) :: normalizeFields rest tree

/-- The normal value of a field that has a value or not. Arrays get all their elements. -/
def Field.normalize : Field → Option Value → Value
  | ⟨_, type, none, _⟩, value => type.normalize value
  | ⟨_, type, some length, _⟩, value =>
    .array ((List.range length).map fun i =>
      type.normalize ((value.bind Value.items?).bind fun items => items[i]?))

def FieldType.normalize : FieldType → Option Value → Value
  | .nested layout, value => .tree (layout.normalize ((value.bind Value.tree?).getD []))
  | .bitfield _ width, value => Value.lowBits width value
  | .plain type, value => Value.lowBits type.bits value

end

theorem normalizeFields_eq (fields : List Field) (tree : Tree) :
    normalizeFields fields tree =
      fields.map fun field => (field.name, field.normalize (tree.lookup field.name)) := by
  induction fields with
  | nil => rfl
  | cons field rest ih => rw [normalizeFields, ih, List.map_cons]

theorem Layout.normalize_eq (layout : Layout) (tree : Tree) :
    layout.normalize tree =
      treeOfFields layout.fields fun field => field.normalize (tree.lookup field.name) := by
  cases layout
  rw [normalize, normalizeFields_eq, treeOfFields]

theorem Field.normalize_scalar {field : Field} (scalar : field.length = none)
    (value : Option Value) : field.normalize value = field.type.normalize value := by
  obtain ⟨name, type, _ | length, offset⟩ := field
  · rw [normalize]
  · cases scalar

theorem Field.normalize_array {field : Field} {length : Nat} (array : field.length = some length)
    (value : Option Value) :
    field.normalize value = .array ((List.range length).map fun i =>
      field.type.normalize ((value.bind Value.items?).bind fun items => items[i]?)) := by
  obtain ⟨name, type, _ | count, offset⟩ := field
  · cases array
  · obtain rfl := Option.some.inj array
    rw [normalize]

theorem FieldType.normalize_integer {type : FieldType} (integer : type.isInteger)
    (value : Option Value) : type.normalize value = Value.lowBits type.width value := by
  cases type with
  | nested inner => cases integer
  | bitfield type width => rw [normalize, FieldType.width]
  | plain type => rw [normalize, FieldType.width]

theorem Field.normalize_of_fits {field : Field} {value : Value}
    (element : ∀ value, field.type.Fits value → field.type.normalize (some value) = value)
    (fits : field.Fits value) : field.normalize (some value) = value := by
  cases fits with
  | scalar scalar fit => rw [normalize_scalar scalar, element value fit]
  | @array _ items array fit =>
    rw [normalize_array array]
    congr 1
    apply List.ext_getElem
    · rw [List.length_map, List.length_range]
    · intro i _ inside
      rw [List.getElem_map, List.getElem_range, Option.bind_some, Value.items?, Option.bind_some,
        List.getElem?_eq_getElem inside, element _ (fit _ (List.getElem_mem inside))]

theorem FieldType.normalize_of_fits {type : FieldType} {value : Value}
    (nested : ∀ inner, type = .nested inner → ∀ tree, inner.Fits tree → inner.normalize tree = tree)
    (fits : type.Fits value) : type.normalize (some value) = value := by
  cases fits with
  | @integer _ word integer small =>
    rw [normalize_integer integer, Value.lowBits, Option.bind_some, Value.word?, Option.getD_some,
      Nat.mod_eq_of_lt small, UInt64.ofNat_toNat]
  | @nested inner tree fit =>
    rw [normalize, Option.bind_some, Value.tree?, Option.getD_some, nested inner rfl tree fit]

/-- A tree of exactly the shape of the layout is its own normal form. -/
theorem Layout.WellFormed.normalize_of_fits {layout : Layout} (wellFormed : layout.WellFormed)
    {tree : Tree} (fits : layout.Fits tree) : layout.normalize tree = tree := by
  induction wellFormed generalizing tree with
  | @intro layout sound _ ih =>
    rw [normalize_eq]
    -- Both trees are in key order, so what they hold under each name decides.
    refine Entries.Sorted.ext (Entries.sorted_ofList _) fits.sorted fun name => ?_
    by_cases known : name ∈ layout.fields.map Field.name
    · obtain ⟨field, member, rfl⟩ := List.mem_map.mp known
      obtain ⟨value, found, fit⟩ := fits.exists_lookup member
      rw [lookup_treeOfFields sound.distinct member, found, Option.some_inj]
      refine Field.normalize_of_fits (fun element elementFits => ?_) fit
      exact FieldType.normalize_of_fits (fun inner type tree => ih field member inner type)
        elementFits
    · rw [fits.lookup_eq_none known, lookup_treeOfFields_eq_none known]

end PackedStruct
