import PackedStruct.Packing.Unpack
import PackedStruct.Proofs.CompleteTrees

namespace PackedStruct

theorem readFields_eq (fields : List Field) (image : Image) (base : Nat) :
    readFields fields image base =
      fields.map fun field => (field.name, field.readAt image base) := by
  induction fields with
  | nil => rfl
  | cons field rest ih => rw [readFields, ih, List.map_cons]

theorem Layout.readAt_eq (layout : Layout) (image : Image) (base : Nat) :
    layout.readAt image base = treeOfFields layout.fields fun field => field.readAt image base := by
  cases layout
  rw [readAt, readFields_eq, treeOfFields]

theorem Field.readAt_scalar {field : Field} (scalar : field.length = none) (image : Image)
    (base : Nat) : field.readAt image base = field.type.readAt image (base + field.offset) := by
  obtain ⟨name, type, _ | length, offset⟩ := field
  · rw [readAt]
  · cases scalar

theorem Field.readAt_array {field : Field} {length : Nat} (array : field.length = some length)
    (image : Image) (base : Nat) :
    field.readAt image base = .array ((List.range length).map fun i =>
      field.type.readAt image (base + (field.offset + i * field.type.width))) := by
  obtain ⟨name, type, _ | count, offset⟩ := field
  · cases array
  · obtain rfl := Option.some.inj array
    rw [readAt]

theorem FieldType.readAt_integer {type : FieldType} (integer : type.isInteger) (image : Image)
    (base : Nat) : type.readAt image base = .unsigned (image.read ⟨base, type.width⟩) := by
  cases type with
  | nested inner => cases integer
  | bitfield type width => rw [readAt, FieldType.width]
  | plain type => rw [readAt, FieldType.width]

theorem Image.read_lt (image : Image) {range : BitRange} (narrow : range.width ≤ 64) :
    (image.read range).toNat < 2 ^ range.width := by
  rw [image.toNat_read narrow]
  exact Nat.mod_lt _ (Nat.two_pow_pos _)

theorem Field.fits_readAt {field : Field} {image : Image} {base : Nat}
    (element : ∀ base, field.type.Fits (field.type.readAt image base)) :
    field.Fits (field.readAt image base) := by
  cases array : field.length with
  | none =>
    rw [readAt_scalar array]
    exact .scalar array (element _)
  | some length =>
    rw [readAt_array array]
    refine .array (by rw [array, List.length_map, List.length_range]) ?_
    intro item member
    obtain ⟨i, _, rfl⟩ := List.mem_map.mp member
    exact element _

/-- What is read has exactly the shape of the layout, whatever the bits are. -/
theorem Layout.WellFormed.fits_readAt {layout : Layout} (wellFormed : layout.WellFormed)
    (image : Image) (base : Nat) : layout.Fits (layout.readAt image base) := by
  induction wellFormed generalizing base with
  | @intro layout sound _ ih =>
    rw [readAt_eq]
    refine fits_treeOfFields sound.distinct fun field member => Field.fits_readAt fun start => ?_
    rcases field.type.nested_or_integer with ⟨inner, type⟩ | integer
    · rw [type, FieldType.readAt]
      exact .nested (ih field member inner type start)
    · rw [FieldType.readAt_integer integer]
      exact .integer integer (image.read_lt (sound.width_le member integer))

variable {root : Value} {image : Image}

/-- The elements of a field are read where its places say. -/
theorem Field.at?_of_mem_places {field : Field} {base : Nat} {path : Path}
    (here : root.at? (path ++ [.field field.name]) = some (field.readAt image base))
    {place : Nat × Path} (member : place ∈ field.places base path) :
    root.at? place.2 = some (field.type.readAt image place.1) := by
  rw [places] at member
  cases array : field.length with
  | none =>
    rw [array] at member
    obtain rfl := List.mem_singleton.mp member
    rw [here, readAt_scalar array]
  | some length =>
    rw [array] at member
    obtain ⟨i, inside, rfl⟩ := List.mem_map.mp member
    rw [readAt_array array] at here
    rw [Value.at?_index here, List.getElem?_map,
      List.getElem?_range (List.mem_range.mp inside), Option.map_some]

/-- Every leaf is read at its path. -/
theorem Layout.WellFormed.at?_leaf {layout : Layout} (wellFormed : layout.WellFormed) {base : Nat}
    {path : Path} (here : root.at? path = some (.tree (layout.readAt image base))) {leaf : Leaf}
    (member : leaf ∈ layout.leavesFrom base path) :
    root.at? leaf.path = some (.unsigned (image.read leaf.range)) := by
  apply wellFormed.forall_leaves
    (fun inner base path => root.at? path = some (.tree (inner.readAt image base)))
    (fun leaf => root.at? leaf.path = some (.unsigned (image.read leaf.range))) _ here member
  intro outer base path sound here field fieldMember place placeMember
  have entry : root.at? (path ++ [.field field.name]) = some (field.readAt image base) := by
    rw [Value.at?_field here, readAt_eq, lookup_treeOfFields sound.distinct fieldMember]
  have element := Field.at?_of_mem_places entry placeMember
  constructor
  · intro inner type
    rwa [type, FieldType.readAt] at element
  · intro integer
    rw [element, FieldType.readAt_integer integer]

namespace Layout

theorem unpack_of_lt {layout : Layout} {bytes : List UInt8}
    (short : bytes.length < layout.byteSize) :
    layout.unpack bytes = .error (.shortBuffer layout.byteSize bytes.length) := by
  rw [unpack, imageOf, if_pos short]
  rfl

theorem unpack_of_le {layout : Layout} {bytes : List UInt8}
    (enough : layout.byteSize ≤ bytes.length) :
    layout.unpack bytes =
      .ok (layout.readAt (.ofBytes layout.order (bytes.take layout.byteSize)) 0) := by
  rw [unpack, imageOf, if_neg (Nat.not_lt.mpr enough)]
  rfl

/-- Unpacking fails on too few bytes only. Otherwise it takes as many bytes as the layout has, and
each leaf of the tree is the part of their integer from its offset upwards, modulo two to its width.
The tree has exactly the shape of the layout, and further bytes change nothing. -/
theorem WellFormed.unpack_extracts {layout : Layout} (wellFormed : layout.WellFormed)
    (bytes : List UInt8) :
    (∀ cause, layout.unpack bytes = .error cause ↔
      bytes.length < layout.byteSize ∧ cause = .shortBuffer layout.byteSize bytes.length) ∧
    (layout.byteSize ≤ bytes.length →
      (∃ tree, layout.unpack bytes = .ok tree ∧ layout.Fits tree ∧
        ∀ leaf ∈ layout.leaves, ∃ word : UInt64,
          (Value.tree tree).at? leaf.path = some (.unsigned word) ∧
          word.toNat = layout.order.number (bytes.take layout.byteSize) / 2 ^ leaf.range.offset %
            2 ^ leaf.range.width) ∧
      ∀ more, layout.unpack (bytes.take layout.byteSize ++ more) = layout.unpack bytes) := by
  refine ⟨fun cause => ?_, fun enough => ⟨?_, fun more => ?_⟩⟩
  · by_cases short : bytes.length < layout.byteSize
    · rw [unpack_of_lt short, Except.error.injEq, eq_comm]
      simp [short]
    · rw [unpack_of_le (Nat.not_lt.mp short)]
      simp [short]
  · refine ⟨_, unpack_of_le enough, wellFormed.fits_readAt _ _, fun leaf member => ?_⟩
    have here : (Value.tree _).at? [] =
        some (.tree (layout.readAt (.ofBytes layout.order (bytes.take layout.byteSize)) 0)) := rfl
    refine ⟨_, wellFormed.at?_leaf here member, ?_⟩
    rw [Image.toNat_read _ (wellFormed.width_le member), Image.number_ofBytes]
  · have taken : (bytes.take layout.byteSize).length = layout.byteSize :=
      List.length_take_of_le enough
    have still : layout.byteSize ≤ (bytes.take layout.byteSize ++ more).length := by
      rw [List.length_append, taken]
      exact Nat.le_add_right _ _
    rw [unpack_of_le still, unpack_of_le enough, List.take_left' taken]

theorem unpack_extracts_frame :
    (∃ tree, Sample.frame.unpack [0, 6, 0, 0, 0, 0, 0, 7] = .ok tree ∧ Sample.frame.Fits tree) ∧
      Sample.frame.unpack [0, 6, 0, 0, 0, 0, 0, 7, 255] =
        Sample.frame.unpack [0, 6, 0, 0, 0, 0, 0, 7] := by
  obtain ⟨⟨tree, unpacked, fits, _⟩, more⟩ :=
    (WellFormed.unpack_extracts Sample.frame_wellFormed [0, 6, 0, 0, 0, 0, 0, 7]).2 (by decide)
  exact ⟨⟨tree, unpacked, fits⟩, more [255]⟩

end Layout

end PackedStruct
