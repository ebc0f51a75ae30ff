import PackedStruct.Layout.Placement
import PackedStruct.Outcome
import PackedStruct.Proofs.Ascending

namespace PackedStruct

/-- The member that the field was before it got its place. -/
def Field.member (field : Field) : Member :=
  ⟨field.name, field.type, field.length⟩

namespace Layout

/-- A property holds of a layout and of the layouts nested in it, at every depth. -/
inductive Everywhere (property : Layout → Prop) : Layout → Prop where
  | intro {layout : Layout} (here : property layout)
      (inside : ∀ field ∈ layout.fields, ∀ inner, field.type = .nested inner →
        Everywhere property inner) : Everywhere property layout

/-- The fields stand at the places that the members of the struct are given. -/
def Placed (layout : Layout) : Prop :=
  ofMembers layout.name layout.order (layout.fields.map Field.member) = .ok layout

structure Sound (layout : Layout) : Prop where
  placed : layout.Placed
  distinct : (layout.fields.map Field.name).Nodup
  narrow : ∀ field ∈ layout.fields, field.isBitfield → field.type.width ≤ maxBitfieldWidth

def WellFormed (layout : Layout) : Prop :=
  layout.Everywhere Sound

end Layout

namespace Layout.Everywhere

variable {property other : Layout → Prop} {layout : Layout}

theorem here (everywhere : layout.Everywhere property) : property layout := by
  cases everywhere with
  | intro here _ => exact here

theorem inside (everywhere : layout.Everywhere property) {field : Field}
    (member : field ∈ layout.fields) {inner : Layout} (type : field.type = .nested inner) :
    inner.Everywhere property := by
  cases everywhere with
  | intro _ inside => exact inside field member inner type

theorem imp (implies : ∀ layout, property layout → other layout)
    (everywhere : layout.Everywhere property) : layout.Everywhere other := by
  induction everywhere with
  | intro here _ ih => exact .intro (implies _ here) ih

end Layout.Everywhere

theorem le_of_nextMultiple? {cursor alignment offset : Nat}
    (found : nextMultiple? cursor alignment = some offset) : cursor ≤ offset := by
  unfold nextMultiple? at found
  split at found
  · exact Nat.le_of_eq (Option.some.inj found)
  · have sum := (Word.add?_eq_some_iff.mp found).1
    omega

/-- What the place of a member is: it is aligned, and it does not pass the limit. -/
theorem Member.place?_eq_some_iff {member : Member} {cursor stop : Nat} {field : Field} :
    member.place? cursor = some (field, stop) ↔
      nextMultiple? cursor member.type.alignment = some field.offset ∧ field.member = member ∧
        stop = field.range.stop ∧ stop ≤ maxLayoutBits := by
  have limit : maxLayoutBits < UInt64.size := by decide
  unfold place?
  simp only [Option.bind_eq_bind, Option.bind_eq_some_iff, Word.mul?_eq_some_iff,
    Word.add?_eq_some_iff]
  constructor
  · rintro ⟨offset, found, span, ⟨rfl, _⟩, last, ⟨rfl, _⟩, placed⟩
    split at placed
    · obtain ⟨rfl, rfl⟩ := Prod.mk.inj (Option.some.inj placed)
      exact ⟨found, rfl, rfl, ‹_›⟩
    · cases placed
  · obtain ⟨name, type, length, offset⟩ := field
    rintro ⟨found, rfl, rfl, below⟩
    dsimp only [Field.member, Field.range, BitRange.stop, Field.span, Field.count] at *
    refine ⟨offset, found, _, ⟨rfl, ?_⟩, _, ⟨rfl, ?_⟩, ?_⟩
    · omega
    · omega
    · rw [if_pos below]

/-- One step of the walk: the first member is aligned behind the cursor and does not pass the
limit, and the others follow behind it. -/
theorem exists_of_placeAll_cons {cursor total : Nat} {member : Member} {rest : List Member}
    {fields : List Field} (placed : placeAll cursor (member :: rest) = .ok (fields, total)) :
    ∃ field later, nextMultiple? cursor member.type.alignment = some field.offset ∧
      field.member = member ∧ field.range.stop ≤ maxLayoutBits ∧
      placeAll field.range.stop rest = .ok (later, total) ∧ fields = field :: later := by
  rw [placeAll] at placed
  cases found : member.place? cursor with
  | none =>
    rw [found] at placed
    cases placed
  | some place =>
    obtain ⟨field, stop⟩ := place
    rw [found] at placed
    obtain ⟨⟨later, last⟩, others, result⟩ := bind_eq_ok_iff.mp placed
    obtain ⟨rfl, rfl⟩ := Prod.mk.inj (Except.ok.inj result)
    obtain ⟨next, same, rfl, below⟩ := Member.place?_eq_some_iff.mp found
    exact ⟨field, later, next, same, below, others, rfl⟩

/-- The fields are the members at ascending places. -/
theorem placeAll_eq_ok {cursor total : Nat} {members : List Member} {fields : List Field}
    (placed : placeAll cursor members = .ok (fields, total)) :
    fields.map Field.member = members ∧ Ascending cursor total (fields.map Field.range) := by
  induction members generalizing cursor fields with
  | nil =>
    obtain ⟨rfl, rfl⟩ := Prod.mk.inj (Except.ok.inj placed)
    exact ⟨rfl, Nat.le_refl _⟩
  | cons member rest ih =>
    obtain ⟨field, later, next, rfl, _, others, rfl⟩ := exists_of_placeAll_cons placed
    obtain ⟨rfl, ascending⟩ := ih others
    exact ⟨rfl, le_of_nextMultiple? next, ascending⟩

namespace Layout

theorem ofMembers_eq_ok_iff {name : String} {order : ByteOrder} {members : List Member}
    {layout : Layout} :
    ofMembers name order members = .ok layout ↔
      placeAll 0 members = .ok (layout.fields, layout.bits) ∧ layout.name = name ∧
        layout.order = order := by
  unfold ofMembers
  split
  · rename_i fields bits placed
    rw [placed]
    constructor
    · rintro ⟨⟩
      exact ⟨rfl, rfl, rfl⟩
    · rintro ⟨same, rfl, rfl⟩
      obtain ⟨rfl, rfl⟩ := Prod.mk.inj (Except.ok.inj same)
      cases layout
      rfl
  · rename_i field placed
    simp [placed]

theorem Placed.fields_ascending {layout : Layout} (placed : layout.Placed) :
    Ascending 0 layout.bits (layout.fields.map Field.range) :=
  (placeAll_eq_ok (ofMembers_eq_ok_iff.mp placed).1).2

theorem Placed.ext {layout other : Layout} (placed : layout.Placed) (otherPlaced : other.Placed)
    (name : layout.name = other.name) (order : layout.order = other.order)
    (members : layout.fields.map Field.member = other.fields.map Field.member) :
    layout = other := by
  rw [Placed, name, order, members] at placed
  exact Except.ok.inj (placed.symm.trans otherPlaced)

theorem WellFormed.placed {layout : Layout} (wellFormed : layout.WellFormed) :
    layout.Everywhere Placed :=
  wellFormed.imp fun _ sound => sound.placed

end Layout

namespace Sample

/-- Two bitfields that leave no gap. -/
def point : Layout :=
  ⟨"point", .little, [⟨"x", .bitfield .int 2, none, 0⟩, ⟨"y", .bitfield .short 5, none, 2⟩], 7⟩

/-- A bitfield, a gap, an array of integers, one more bit of gap and an array of structs. -/
def frame : Layout :=
  ⟨"frame", .big, [⟨"kind", .bitfield .char 3, none, 0⟩, ⟨"levels", .plain .short, some 2, 16⟩,
    ⟨"path", .nested point, some 2, 49⟩], 63⟩

variable {property : Layout → Prop}

theorem point_everywhere (here : property point) : point.Everywhere property := by
  refine .intro here ?_
  intro field member inner type
  simp only [point, List.mem_cons, List.not_mem_nil, or_false] at member
  rcases member with rfl | rfl <;> cases type

theorem frame_everywhere (here : property frame) (deeper : property point) :
    frame.Everywhere property := by
  refine .intro here ?_
  intro field member inner type
  simp only [frame, List.mem_cons, List.not_mem_nil, or_false] at member
  rcases member with rfl | rfl | rfl <;> cases type
  exact point_everywhere deeper

theorem point_sound : point.Sound :=
  ⟨rfl, by decide, by decide⟩

theorem point_wellFormed : point.WellFormed :=
  point_everywhere point_sound

theorem frame_wellFormed : frame.WellFormed :=
  frame_everywhere ⟨rfl, by decide, by decide⟩ point_sound

end Sample

end PackedStruct
