import PackedStruct.Proofs.UnpackedNumber

namespace PackedStruct

mutual

/-- The integers in a struct, with the paths to them, in the order of the fields. -/
def Layout.integersIn : Layout → Path → Tree → List (Path × UInt64)
  | ⟨_, _, fields, _⟩, path, tree => integersOfFields fields path tree

def integersOfFields : List Field → Path → Tree → List (Path × UInt64)
  | [], _, _ => []
  | field :: rest, path, tree =>
    (match tree.lookup field.name with
    | none => []
    | some value => field.integersIn path value) ++ integersOfFields rest path tree

def Field.integersIn : Field → Path → Value → List (Path × UInt64)
  | ⟨name, type, none, _⟩, path, value => type.integersIn (path ++ [.field name]) value
  | ⟨name, type, some _, _⟩, path, value =>
    (value.items?.getD []).zipIdx.flatMap fun (item, i) =>
      type.integersIn (path ++ [.field name, .index i]) item

def FieldType.integersIn : FieldType → Path → Value → List (Path × UInt64)
  | .nested layout, path, .tree tree => layout.integersIn path tree
  | .bitfield .., path, .unsigned word => [(path, word)]
  | .plain _, path, .unsigned word => [(path, word)]
  | _, _, _ => []

end

def Layout.integers (layout : Layout) (tree : Tree) : List (Path × UInt64) :=
  layout.integersIn [] tree

def Leaf.integer (image : Image) (leaf : Leaf) : Path × UInt64 :=
  (leaf.path, image.read leaf.range)

theorem Layout.integersIn_eq (layout : Layout) (path : Path) (tree : Tree) :
    layout.integersIn path tree = layout.fields.flatMap fun field =>
      match tree.lookup field.name with
      | none => []
      | some value => field.integersIn path value := by
  obtain ⟨_, _, fields, _⟩ := layout
  rw [integersIn]
  induction fields with
  | nil => rfl
  | cons field rest ih => rw [integersOfFields, ih, List.flatMap_cons]

theorem Field.integersIn_readAt {field : Field} {image : Image} {struct : String}
    (element : ∀ base path, field.type.integersIn path (field.type.readAt image base) =
      (field.type.leavesFrom struct field.name base path).map (Leaf.integer image))
    (base : Nat) (path : Path) :
    field.integersIn path (field.readAt image base) =
      (field.leavesFrom struct base path).map (Leaf.integer image) := by
  obtain ⟨name, type, _ | length, offset⟩ := field
  · rw [integersIn, readAt, leavesFrom, element]
  · rw [integersIn, readAt, leavesFrom, List.map_flatMap, Value.items?, Option.getD_some]
    have pairs (f : Nat → Value) : ((List.range length).map f).zipIdx =
        (List.range length).map fun i => (f i, i) := by
      apply List.ext_getElem
      · simp
      · simp
    rw [pairs, List.flatMap_map]
    exact List.flatMap_congr fun i _ => element _ _

/-- What is read has as integers what the leaves stand for, in the same order. -/
theorem Layout.WellFormed.integersIn_readAt {layout : Layout} (wellFormed : layout.WellFormed)
    (image : Image) (base : Nat) (path : Path) :
    layout.integersIn path (layout.readAt image base) =
      (layout.leavesFrom base path).map (Leaf.integer image) := by
  induction wellFormed generalizing base path with
  | @intro layout sound _ ih =>
    rw [integersIn_eq, leavesFrom_eq, List.map_flatMap]
    apply List.flatMap_congr
    intro field member
    rw [readAt_eq, lookup_treeOfFields sound.distinct member]
    apply Field.integersIn_readAt
    intro start here
    rcases type : field.type with base | base | inner
    · rw [FieldType.readAt, FieldType.integersIn, FieldType.leavesFrom]
      rfl
    · rw [FieldType.readAt, FieldType.integersIn, FieldType.leavesFrom]
      rfl
    · rw [FieldType.readAt, FieldType.integersIn, FieldType.leavesFrom]
      exact ih field member inner type start here

/-- Below a word there is nothing. -/
theorem Value.eq_nil_of_at?_unsigned {word : UInt64} {path : Path} {value : Value}
    (found : (Value.unsigned word).at? path = some value) : path = [] ∧ value = .unsigned word := by
  cases path with
  | nil => exact ⟨rfl, (Option.some.inj found).symm⟩
  | cons step rest => cases found

/-- An integer in a field is in one of its elements. -/
theorem Field.exists_place_of_at? {field : Field} {image : Image} {base : Nat} {steps : Path}
    {value : Value} (found : (field.readAt image base).at? steps = some value)
    (integer : value.raw?.isSome) (path : Path) :
    ∃ place ∈ field.places base path, ∃ more,
      path ++ .field field.name :: steps = place.2 ++ more ∧
        (field.type.readAt image place.1).at? more = some value := by
  cases array : field.length with
  | none =>
    rw [readAt_scalar array] at found
    refine ⟨(base + field.offset, path ++ [.field field.name]), ?_, steps, by simp, found⟩
    rw [places, array]
    exact List.mem_singleton_self _
  | some length =>
    rw [readAt_array array] at found
    cases steps with
    | nil =>
      obtain rfl := Option.some.inj found
      cases integer
    | cons step more =>
      cases step with
      | field name => cases found
      | index i =>
        obtain ⟨item, here, below⟩ := Option.bind_eq_some_iff.mp found
        rw [Value.next?, List.getElem?_map, Option.map_eq_some_iff] at here
        obtain ⟨j, inside, rfl⟩ := here
        obtain ⟨bound, rfl⟩ := List.getElem?_eq_some_iff.mp inside
        rw [List.getElem_range] at below
        rw [List.length_range] at bound
        refine ⟨(base + (field.offset + i * field.type.width),
          path ++ [.field field.name, .index i]), ?_, more, by simp, below⟩
        rw [places, array]
        exact List.mem_map.mpr ⟨i, List.mem_range.mpr bound, rfl⟩

/-- An integer in a struct is in one of its fields. -/
theorem Layout.exists_field_of_at? {layout : Layout}
    (distinct : (layout.fields.map Field.name).Nodup) {image : Image} {base : Nat} {steps : Path}
    {value : Value} (found : (Value.tree (layout.readAt image base)).at? steps = some value)
    (integer : value.raw?.isSome) :
    ∃ field ∈ layout.fields, ∃ rest, steps = .field field.name :: rest ∧
      (field.readAt image base).at? rest = some value := by
  cases steps with
  | nil =>
    obtain rfl := Option.some.inj found
    cases integer
  | cons step rest =>
    cases step with
    | index i => cases found
    | field name =>
      obtain ⟨entry, here, below⟩ := Option.bind_eq_some_iff.mp found
      rw [Value.next?, readAt_eq] at here
      by_cases known : name ∈ layout.fields.map Field.name
      · obtain ⟨field, member, rfl⟩ := List.mem_map.mp known
        rw [lookup_treeOfFields distinct member] at here
        obtain rfl := Option.some.inj here
        exact ⟨field, member, rest, rfl, below⟩
      · rw [lookup_treeOfFields_eq_none known] at here
        cases here

theorem Layout.mem_leavesFrom {layout : Layout} {field : Field} (member : field ∈ layout.fields)
    {base : Nat} {path : Path} {place : Nat × Path} (placeMember : place ∈ field.places base path)
    {leaf : Leaf} (inside : leaf ∈ field.type.leavesFrom layout.name field.name place.1 place.2) :
    leaf ∈ layout.leavesFrom base path := by
  rw [leavesFrom_eq, List.mem_flatMap]
  refine ⟨field, member, ?_⟩
  rw [Field.leavesFrom_eq, List.mem_flatMap]
  exact ⟨place, placeMember, inside⟩

/-- Every integer in what is read is that of a leaf. -/
theorem Layout.WellFormed.exists_leaf_of_at? {layout : Layout} (wellFormed : layout.WellFormed)
    {image : Image} {base : Nat} (path : Path) {steps : Path} {value : Value}
    (found : (Value.tree (layout.readAt image base)).at? steps = some value)
    (integer : value.raw?.isSome) :
    ∃ leaf ∈ layout.leavesFrom base path, leaf.path = path ++ steps ∧
      value = .unsigned (image.read leaf.range) := by
  induction wellFormed generalizing base path steps with
  | @intro layout sound _ ih =>
    obtain ⟨field, member, rest, rfl, below⟩ :=
      layout.exists_field_of_at? sound.distinct found integer
    obtain ⟨place, placeMember, more, same, inside⟩ :=
      field.exists_place_of_at? below integer path
    rcases field.type.nested_or_integer with ⟨inner, type⟩ | flat
    · rw [type, FieldType.readAt] at inside
      obtain ⟨leaf, leafMember, leafPath, read⟩ := ih field member inner type place.2 inside
      refine ⟨leaf, mem_leavesFrom member placeMember ?_, leafPath.trans same.symm, read⟩
      rw [type, FieldType.leavesFrom]
      exact leafMember
    · rw [FieldType.readAt_integer flat] at inside
      obtain ⟨rfl, rfl⟩ := Value.eq_nil_of_at?_unsigned inside
      refine ⟨⟨place.2, layout.name, field.name, ⟨place.1, field.type.width⟩⟩,
        mem_leavesFrom member placeMember ?_, ?_, rfl⟩
      · rw [FieldType.leavesFrom_integer flat]
        exact List.mem_singleton_self _
      · rw [same, List.append_nil]

/-- The integers in what is read are those of the leaves, and none is signed. -/
theorem Layout.WellFormed.at?_readAt_integer_iff {layout : Layout} (wellFormed : layout.WellFormed)
    {image : Image} {path : Path} {value : Value} :
    (Value.tree (layout.readAt image 0)).at? path = some value ∧ value.raw?.isSome ↔
      ∃ word, value = .unsigned word ∧ (path, word) ∈ layout.integers (layout.readAt image 0) := by
  rw [integers, wellFormed.integersIn_readAt]
  constructor
  · intro ⟨found, integer⟩
    obtain ⟨leaf, member, same, rfl⟩ := wellFormed.exists_leaf_of_at? [] found integer
    obtain rfl : leaf.path = path := same
    exact ⟨_, rfl, List.mem_map_of_mem member⟩
  · rintro ⟨word, rfl, inside⟩
    obtain ⟨leaf, member, same⟩ := List.mem_map.mp inside
    obtain ⟨rfl, rfl⟩ := Prod.mk.inj same
    exact ⟨wellFormed.at?_leaf rfl member, rfl⟩

end PackedStruct
