import PackedStruct.Layout.Leaves
import PackedStruct.Proofs.WellFormed

namespace PackedStruct

namespace FieldType

/-- Whether the elements of the type are integers and no structs. -/
def isInteger : FieldType → Bool
  | .nested _ => false
  | _ => true

theorem nested_or_integer (type : FieldType) :
    (∃ inner, type = .nested inner) ∨ type.isInteger = true := by
  cases type with
  | nested inner => exact Or.inl ⟨inner, rfl⟩
  | bitfield type width => exact Or.inr rfl
  | plain type => exact Or.inr rfl

theorem leavesFrom_integer {type : FieldType} (integer : type.isInteger) (struct field : String)
    (base : Nat) (path : Path) :
    type.leavesFrom struct field base path = [⟨path, struct, field, ⟨base, type.width⟩⟩] := by
  cases type with
  | nested inner => cases integer
  | bitfield type width => rw [leavesFrom, FieldType.width]
  | plain type => rw [leavesFrom, FieldType.width]

end FieldType

/-- The first bits of the elements of a field, with the paths to them. -/
def Field.places (field : Field) (base : Nat) (path : Path) : List (Nat × Path) :=
  match field.length with
  | none => [(base + field.offset, path ++ [.field field.name])]
  | some length => (List.range length).map fun i =>
      (base + (field.offset + i * field.type.width), path ++ [.field field.name, .index i])

theorem Field.leavesFrom_eq (field : Field) (struct : String) (base : Nat) (path : Path) :
    field.leavesFrom struct base path = (field.places base path).flatMap fun place =>
      field.type.leavesFrom struct field.name place.1 place.2 := by
  obtain ⟨name, type, _ | length, offset⟩ := field
  · simp [leavesFrom, places]
  · simp [leavesFrom, places, List.flatMap_map]

theorem leavesOfFields_eq (fields : List Field) (struct : String) (base : Nat) (path : Path) :
    leavesOfFields fields struct base path =
      fields.flatMap fun field => field.leavesFrom struct base path := by
  induction fields with
  | nil => rfl
  | cons field rest ih => rw [leavesOfFields, ih, List.flatMap_cons]

theorem Layout.leavesFrom_eq (layout : Layout) (base : Nat) (path : Path) :
    layout.leavesFrom base path =
      layout.fields.flatMap fun field => field.leavesFrom layout.name base path := by
  cases layout
  rw [leavesFrom, leavesOfFields_eq]

theorem Layout.exists_of_mem_leavesFrom {layout : Layout} {base : Nat} {path : Path} {leaf : Leaf}
    (member : leaf ∈ layout.leavesFrom base path) :
    ∃ field ∈ layout.fields, ∃ place ∈ field.places base path,
      leaf ∈ field.type.leavesFrom layout.name field.name place.1 place.2 := by
  rw [leavesFrom_eq, List.mem_flatMap] at member
  obtain ⟨field, fieldMember, inside⟩ := member
  rw [Field.leavesFrom_eq, List.mem_flatMap] at inside
  exact ⟨field, fieldMember, inside⟩

/-- What is carried into the elements of a struct reaches every leaf: an element that is a struct
carries it on, and one that is an integer is the leaf. -/
theorem Layout.Everywhere.forall_leaves {property : Layout → Prop} {layout : Layout}
    (everywhere : layout.Everywhere property) (carried : Layout → Nat → Path → Prop)
    (result : Leaf → Prop)
    (element : ∀ outer base path, property outer → carried outer base path →
      ∀ field ∈ outer.fields, ∀ place ∈ field.places base path,
        (∀ inner, field.type = .nested inner → carried inner place.1 place.2) ∧
        (field.type.isInteger →
          result ⟨place.2, outer.name, field.name, ⟨place.1, field.type.width⟩⟩))
    {base : Nat} {path : Path} (start : carried layout base path) {leaf : Leaf}
    (member : leaf ∈ layout.leavesFrom base path) : result leaf := by
  induction everywhere generalizing base path with
  | @intro layout here _ ih =>
    obtain ⟨field, fieldMember, place, placeMember, inside⟩ := exists_of_mem_leavesFrom member
    obtain ⟨nested, single⟩ :=
      element layout base path here start field fieldMember place placeMember
    rcases field.type.nested_or_integer with ⟨inner, type⟩ | integer
    · rw [type, FieldType.leavesFrom] at inside
      exact ih field fieldMember inner type (nested inner type) inside
    · rw [FieldType.leavesFrom_integer integer, List.mem_singleton] at inside
      rw [inside]
      exact single integer

/-- What holds of the widths of the integers in every struct holds of the widths of the leaves. -/
theorem Layout.Everywhere.width_leaf {property : Layout → Prop} {layout : Layout}
    (everywhere : layout.Everywhere property) (good : Nat → Prop)
    (widths : ∀ outer, property outer → ∀ field ∈ outer.fields, field.type.isInteger →
      good field.type.width)
    {base : Nat} {path : Path} {leaf : Leaf} (member : leaf ∈ layout.leavesFrom base path) :
    good leaf.range.width := by
  apply everywhere.forall_leaves (fun _ _ _ => True) (fun leaf => good leaf.range.width) _ trivial
    member
  intro outer _ _ here _ field fieldMember _ _
  exact ⟨fun _ _ => trivial, widths outer here field fieldMember⟩

/-- Bitfields are bounded by well-formedness and base types by their table. -/
theorem Layout.Sound.width_le {layout : Layout} (sound : layout.Sound) {field : Field}
    (member : field ∈ layout.fields) (integer : field.type.isInteger) : field.type.width ≤ 64 := by
  have narrow := sound.narrow field member
  cases type : field.type with
  | nested inner =>
    rw [type] at integer
    cases integer
  | bitfield base width =>
    rw [Field.isBitfield, type] at narrow
    exact narrow rfl
  | plain base => cases base <;> decide

/-- The elements of a field fill its range one after the other. -/
theorem Field.places_ascending (field : Field) (base : Nat) (path : Path) :
    Ascending (base + field.offset) (base + field.offset + field.span)
      ((field.places base path).map fun place => ⟨place.1, field.type.width⟩) := by
  obtain ⟨name, type, _ | length, offset⟩ := field
  · refine ⟨Nat.le_refl _, ?_⟩
    simp [Ascending, span, count, BitRange.stop]
  · have elements := Ascending.elements (base + offset) type.width length
    simpa [places, span, count, Function.comp_def, Nat.add_assoc] using elements

theorem FieldType.leavesFrom_ascending {type : FieldType}
    (nested : ∀ inner, type = .nested inner → ∀ base path,
      Ascending base (base + inner.bits) ((inner.leavesFrom base path).map Leaf.range))
    (struct field : String) (base : Nat) (path : Path) :
    Ascending base (base + type.width)
      ((type.leavesFrom struct field base path).map Leaf.range) := by
  rcases type.nested_or_integer with ⟨inner, rfl⟩ | integer
  · rw [leavesFrom]
    exact nested inner rfl base path
  · rw [leavesFrom_integer integer]
    exact ⟨Nat.le_refl _, Nat.le_refl _⟩

/-- The leaves of a layout follow one another and stay inside it. -/
theorem Layout.Placed.leavesFrom_ascending {layout : Layout} (placed : layout.Everywhere Placed)
    (base : Nat) (path : Path) :
    Ascending base (base + layout.bits) ((layout.leavesFrom base path).map Leaf.range) := by
  induction placed generalizing base path with
  | @intro layout placed _ ih =>
    rw [leavesFrom_eq, List.map_flatMap]
    have fields := placed.fields_ascending.shift base
    rw [List.map_map] at fields
    refine fields.flatMap ?_
    intro field member
    rw [Field.leavesFrom_eq, List.map_flatMap]
    refine (field.places_ascending base path).flatMap ?_
    intro place _
    exact FieldType.leavesFrom_ascending (ih field member) layout.name field.name place.1 place.2

theorem Layout.Placed.leaves_ascending {layout : Layout} (placed : layout.Everywhere Placed) :
    Ascending 0 layout.bits (layout.leaves.map Leaf.range) := by
  simpa only [Nat.zero_add, leaves] using leavesFrom_ascending placed 0 []

/-- The leaves of a well-formed layout fit an integer. -/
theorem Layout.WellFormed.width_le {layout : Layout} (wellFormed : layout.WellFormed) {base : Nat}
    {path : Path} {leaf : Leaf} (member : leaf ∈ layout.leavesFrom base path) :
    leaf.range.width ≤ 64 := by
  apply wellFormed.width_leaf (· ≤ 64) _ member
  intro outer sound field fieldMember integer
  exact sound.width_le fieldMember integer

theorem Field.prefix_of_mem_places {field : Field} {base : Nat} {path : Path} {place : Nat × Path}
    (member : place ∈ field.places base path) : path ++ [.field field.name] <+: place.2 := by
  obtain ⟨name, type, _ | length, offset⟩ := field
  · obtain rfl := List.mem_singleton.mp member
    exact List.prefix_refl _
  · obtain ⟨i, _, rfl⟩ := List.mem_map.mp member
    exact ⟨[.index i], by simp⟩

/-- The leaves of the type lie below the path to its element. -/
def FieldType.LeavesBelow (type : FieldType) : Prop :=
  ∀ ⦃struct field : String⦄ ⦃base : Nat⦄ ⦃path : Path⦄ ⦃leaf : Leaf⦄,
    leaf ∈ type.leavesFrom struct field base path → path <+: leaf.path

theorem Field.prefix_of_mem_leavesFrom {field : Field} (below : field.type.LeavesBelow)
    {struct : String} {base : Nat} {path : Path} {leaf : Leaf}
    (member : leaf ∈ field.leavesFrom struct base path) :
    path ++ [.field field.name] <+: leaf.path := by
  rw [leavesFrom_eq, List.mem_flatMap] at member
  obtain ⟨place, placeMember, inside⟩ := member
  exact (prefix_of_mem_places placeMember).trans (below inside)

/-- The path to a leaf goes on from the path to the element that it is in. -/
theorem Layout.WellFormed.leavesBelow {layout : Layout} (wellFormed : layout.WellFormed)
    {field : Field} (member : field ∈ layout.fields) : field.type.LeavesBelow := by
  induction wellFormed generalizing field with
  | @intro layout _ _ ih =>
    intro struct name base path leaf inside
    rcases field.type.nested_or_integer with ⟨inner, type⟩ | integer
    · rw [type, FieldType.leavesFrom, leavesFrom_eq, List.mem_flatMap] at inside
      obtain ⟨deeper, deeperMember, leafMember⟩ := inside
      exact (List.prefix_append _ _).trans
        (Field.prefix_of_mem_leavesFrom (ih field member inner type deeperMember) leafMember)
    · rw [FieldType.leavesFrom_integer integer, List.mem_singleton] at inside
      rw [inside]

end PackedStruct
