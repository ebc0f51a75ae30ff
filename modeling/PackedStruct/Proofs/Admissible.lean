import PackedStruct.Proofs.WellFormed

namespace PackedStruct

/-- The property holds of the layout of a nested struct, at every depth. -/
def FieldType.Everywhere (property : Layout → Prop) (type : FieldType) : Prop :=
  ∀ inner, type = .nested inner → inner.Everywhere property

/-- A bitfield has at least one bit, fits an integer and is no array, and an array has at least one
element. -/
structure Member.Regular (member : Member) : Prop where
  bitfield : ∀ base width, member.type = .bitfield base width →
    1 ≤ width ∧ width ≤ maxBitfieldWidth ∧ member.length = none
  array : ∀ length, member.length = some length → 1 ≤ length

namespace Layout

structure Regular (layout : Layout) : Prop where
  placed : layout.Placed
  distinct : (layout.fields.map Field.name).Nodup
  members : ∀ field ∈ layout.fields, field.member.Regular

def Admissible (layout : Layout) : Prop :=
  layout.Everywhere Regular

theorem Regular.sound {layout : Layout} (regular : layout.Regular) : layout.Sound := by
  refine ⟨regular.placed, regular.distinct, ?_⟩
  intro field member narrow
  cases type : field.type with
  | bitfield base width => exact ((regular.members field member).bitfield base width type).2.1
  | plain base =>
    rw [Field.isBitfield, type] at narrow
    cases narrow
  | nested inner =>
    rw [Field.isBitfield, type] at narrow
    cases narrow

theorem Admissible.wellFormed {layout : Layout} (admissible : layout.Admissible) :
    layout.WellFormed :=
  admissible.imp fun _ => Regular.sound

end Layout

theorem placeAll_le {cursor total : Nat} {members : List Member} {fields : List Field}
    (placed : placeAll cursor members = .ok (fields, total)) (below : cursor ≤ maxLayoutBits) :
    total ≤ maxLayoutBits := by
  induction members generalizing cursor fields with
  | nil =>
    obtain ⟨rfl, rfl⟩ := Prod.mk.inj (Except.ok.inj placed)
    exact below
  | cons member rest ih =>
    obtain ⟨field, later, _, _, within, others, _⟩ := exists_of_placeAll_cons placed
    exact ih others within

namespace Layout

theorem Regular.bits_le {layout : Layout} (regular : layout.Regular) :
    layout.bits ≤ maxLayoutBits :=
  placeAll_le (ofMembers_eq_ok_iff.mp regular.placed).1 (Nat.zero_le _)

section OfMembers

variable {name : String} {order : ByteOrder} {members : List Member} {layout : Layout}

theorem members_of_ofMembers (made : ofMembers name order members = .ok layout) :
    layout.fields.map Field.member = members := by
  obtain ⟨placed, rfl, rfl⟩ := ofMembers_eq_ok_iff.mp made
  exact (placeAll_eq_ok placed).1

theorem everywhere_of_ofMembers {property : Layout → Prop}
    (made : ofMembers name order members = .ok layout) (here : property layout)
    (nested : ∀ member ∈ members, member.type.Everywhere property) :
    layout.Everywhere property := by
  obtain rfl := members_of_ofMembers made
  exact .intro here fun field member => nested _ (List.mem_map_of_mem member)

/-- The layout of regular members with distinct names is admissible if the structs nested in it
are. -/
theorem admissible_of_ofMembers (made : ofMembers name order members = .ok layout)
    (distinct : (members.map Member.name).Nodup) (regular : ∀ member ∈ members, member.Regular)
    (nested : ∀ member ∈ members, member.type.Everywhere Regular) : layout.Admissible := by
  refine everywhere_of_ofMembers made ?_ nested
  obtain rfl := members_of_ofMembers made
  rw [List.map_map] at distinct
  obtain ⟨_, rfl, rfl⟩ := ofMembers_eq_ok_iff.mp made
  exact ⟨made, distinct, fun field member => regular _ (List.mem_map_of_mem member)⟩

end OfMembers

def WordLengths (layout : Layout) : Prop :=
  ∀ field ∈ layout.fields, ∀ length, field.length = some length → length < UInt64.size

/-- What is kept of structs: admissible layouts whose arrays have lengths of 64 bits. -/
structure Storable (layout : Layout) : Prop where
  admissible : layout.Admissible
  lengths : layout.Everywhere WordLengths

end Layout

namespace Sample

theorem point_regular : point.Regular := by
  refine ⟨rfl, by decide, ?_⟩
  intro field member
  simp only [point, List.mem_cons, List.not_mem_nil, or_false] at member
  rcases member with rfl | rfl
  all_goals
    constructor
    · rintro _ _ ⟨⟩
      decide
    · rintro _ ⟨⟩

theorem frame_regular : frame.Regular := by
  refine ⟨rfl, by decide, ?_⟩
  intro field member
  simp only [frame, List.mem_cons, List.not_mem_nil, or_false] at member
  rcases member with rfl | rfl | rfl
  · constructor
    · rintro _ _ ⟨⟩
      decide
    · rintro _ ⟨⟩
  all_goals
    constructor
    · rintro _ _ ⟨⟩
    · rintro _ ⟨⟩
      decide

theorem point_wordLengths : point.WordLengths := by
  intro field member length array
  simp only [point, List.mem_cons, List.not_mem_nil, or_false] at member
  rcases member with rfl | rfl <;> cases array

theorem frame_wordLengths : frame.WordLengths := by
  intro field member length array
  simp only [frame, List.mem_cons, List.not_mem_nil, or_false] at member
  rcases member with rfl | rfl | rfl <;> cases array <;> decide

theorem frame_storable : frame.Storable :=
  ⟨frame_everywhere frame_regular point_regular,
    frame_everywhere frame_wordLengths point_wordLengths⟩

end Sample

mutual

/-- The layouts nested in a layout, depth first in the order of the fields. Of two nested structs,
one inside the other, the inner one comes first. -/
def Layout.inner : Layout → List Layout
  | ⟨_, _, fields, _⟩ => innerOfFields fields

def innerOfFields : List Field → List Layout
  | [] => []
  | field :: rest => field.inner ++ innerOfFields rest

def Field.inner : Field → List Layout
  | ⟨_, type, _, _⟩ => type.inner

/-- The layout of a nested struct, after those nested in it. -/
def FieldType.inner : FieldType → List Layout
  | .nested layout => layout.inner ++ [layout]
  | .bitfield .. => []
  | .plain _ => []

end

theorem Field.inner_eq (field : Field) : field.inner = field.type.inner := by
  cases field
  rw [inner]

theorem innerOfFields_eq (fields : List Field) :
    innerOfFields fields = fields.flatMap fun field => field.type.inner := by
  induction fields with
  | nil => rfl
  | cons field rest ih => rw [innerOfFields, ih, Field.inner_eq, List.flatMap_cons]

theorem Layout.inner_eq (layout : Layout) :
    layout.inner = layout.fields.flatMap fun field => field.type.inner := by
  cases layout
  rw [inner, innerOfFields_eq]

/-- What holds everywhere in a layout holds everywhere in the layouts nested in it. -/
theorem Layout.Everywhere.of_mem_inner {property : Layout → Prop} {layout inner : Layout}
    (everywhere : layout.Everywhere property) (member : inner ∈ layout.inner) :
    inner.Everywhere property := by
  induction everywhere with
  | @intro layout _ inside ih =>
    rw [inner_eq, List.mem_flatMap] at member
    obtain ⟨field, fieldMember, deeper⟩ := member
    cases type : field.type with
    | nested nested =>
      rw [type, FieldType.inner, List.mem_append, List.mem_singleton] at deeper
      rcases deeper with deeper | rfl
      · exact ih field fieldMember nested type deeper
      · exact inside field fieldMember _ type
    | bitfield base width =>
      rw [type, FieldType.inner] at deeper
      cases deeper
    | plain base =>
      rw [type, FieldType.inner] at deeper
      cases deeper

end PackedStruct
