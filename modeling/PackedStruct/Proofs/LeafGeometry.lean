import PackedStruct.Proofs.Admissible
import PackedStruct.Proofs.LeafPlaces
import PackedStruct.Proofs.MaskText

namespace PackedStruct

theorem dvd_of_nextMultiple? {cursor alignment offset : Nat} (aligns : alignment ≠ 0)
    (found : nextMultiple? cursor alignment = some offset) : alignment ∣ offset := by
  unfold nextMultiple? at found
  by_cases already : alignment = 0 ∨ cursor % alignment = 0
  · rw [if_pos already, Option.some.injEq] at found
    rw [← found]
    exact Nat.dvd_of_mod_eq_zero (already.resolve_left aligns)
  · rw [if_neg already, Word.add?_eq_some_iff] at found
    have short : cursor % alignment < alignment := Nat.mod_lt _ (Nat.pos_of_ne_zero aligns)
    have whole := Nat.div_add_mod cursor alignment
    have next : offset = alignment * (cursor / alignment + 1) := by
      rw [Nat.mul_add, Nat.mul_one]
      omega
    rw [next]
    exact Nat.dvd_mul_right _ _

theorem placeAll_aligned {cursor total : Nat} {members : List Member} {fields : List Field}
    (placed : placeAll cursor members = .ok (fields, total)) {field : Field}
    (member : field ∈ fields) (aligns : field.type.alignment ≠ 0) :
    field.type.alignment ∣ field.offset := by
  induction members generalizing cursor fields with
  | nil =>
    cases placed
    cases member
  | cons first rest ih =>
    obtain ⟨here, later, next, rfl, _, others, rfl⟩ := exists_of_placeAll_cons placed
    rcases List.mem_cons.mp member with rfl | inLater
    · exact dvd_of_nextMultiple? aligns next
    · exact ih others inLater

/-- The walk ends where its last field does. -/
theorem placeAll_total {cursor total : Nat} {members : List Member} {fields : List Field}
    (placed : placeAll cursor members = .ok (fields, total)) :
    total = fields.getLast?.elim cursor fun field => field.range.stop := by
  induction members generalizing cursor fields with
  | nil =>
    cases placed
    rfl
  | cons first rest ih =>
    obtain ⟨here, later, _, _, _, others, rfl⟩ := exists_of_placeAll_cons placed
    have ending := ih others
    cases later with
    | nil => exact ending
    | cons second more => rwa [List.getLast?_cons_cons]

namespace Layout

theorem Placed.aligned {layout : Layout} (placed : layout.Placed) {field : Field}
    (member : field ∈ layout.fields) (whole : field.isBitfield = false)
    (wide : field.type.width ≠ 0) : field.type.width ∣ field.offset := by
  have same : field.type.alignment = field.type.width := by
    cases type : field.type with
    | bitfield base width => simp [Field.isBitfield, type] at whole
    | plain base => rfl
    | nested inner => rfl
  have aligned := placeAll_aligned (ofMembers_eq_ok_iff.mp placed).1 member
  rw [same] at aligned
  exact aligned wide

theorem Placed.bits_eq {layout : Layout} (placed : layout.Placed) :
    layout.bits = layout.fields.getLast?.elim 0 fun field => field.range.stop :=
  placeAll_total (ofMembers_eq_ok_iff.mp placed).1

end Layout

namespace BitRange

def Disjoint (first second : BitRange) : Prop :=
  ∀ bit, ¬ (first.covers bit ∧ second.covers bit)

theorem disjoint_of_stop_le {first second : BitRange} (apart : first.stop ≤ second.offset) :
    first.Disjoint second := by
  intro bit both
  rw [covers_iff, covers_iff] at both
  rw [stop] at apart
  omega

theorem maskNumber_and_eq_zero {first second : BitRange} (disjoint : first.Disjoint second) :
    first.maskNumber &&& second.maskNumber = 0 := by
  apply Nat.eq_of_testBit_eq
  intro bit
  rw [Nat.testBit_and, testBit_maskNumber, testBit_maskNumber, Nat.zero_testBit,
    Bool.and_eq_false_iff]
  by_cases inside : first.covers bit
  · exact Or.inr (Bool.eq_false_iff.mpr fun also => disjoint bit ⟨inside, also⟩)
  · exact Or.inl (Bool.eq_false_iff.mpr inside)

end BitRange

theorem Ascending.pairwise {low high : Nat} {ranges : List BitRange}
    (ascending : Ascending low high ranges) :
    ranges.Pairwise fun earlier later => earlier.stop ≤ later.offset := by
  induction ranges generalizing low with
  | nil => exact .nil
  | cons range rest ih =>
    apply List.pairwise_cons.mpr
    exact ⟨fun other member => (ascending.2.bounds member).1, ih ascending.2⟩

theorem testBit_foldl_or_masks (masks : List Nat) (start bit : Nat) :
    (masks.foldl (· ||| ·) start).testBit bit =
      (start.testBit bit || masks.any fun mask => mask.testBit bit) := by
  induction masks generalizing start with
  | nil => simp
  | cons mask rest ih => rw [List.foldl_cons, ih, Nat.testBit_or, List.any_cons, Bool.or_assoc]

namespace Field

def elementMasks (field : Field) : List Nat :=
  (List.range field.count).map fun i => (field.elementRange i).maskNumber

theorem elements_ascending (field : Field) :
    Ascending field.offset field.range.stop ((List.range field.count).map field.elementRange) :=
  Ascending.elements field.offset field.type.width field.count

/-- A bit of the field is a bit of the element that it falls into. -/
theorem covers_range_iff (field : Field) (bit : Nat) :
    field.range.covers bit ↔ ∃ i < field.count, (field.elementRange i).covers bit := by
  constructor
  · intro inside
    rw [BitRange.covers_iff] at inside
    have lower : field.offset ≤ bit := inside.1
    have upper : bit < field.offset + field.type.width * field.count := inside.2
    have positive : 0 < field.type.width := by
      apply Nat.pos_of_ne_zero
      intro empty
      rw [empty, Nat.zero_mul] at upper
      omega
    have split := Nat.div_add_mod (bit - field.offset) field.type.width
    have rest := Nat.mod_lt (bit - field.offset) positive
    refine ⟨(bit - field.offset) / field.type.width, ?_, ?_⟩
    · apply (Nat.div_lt_iff_lt_mul positive).mpr
      rw [Nat.mul_comm]
      omega
    · rw [BitRange.covers_iff, elementRange, Nat.mul_comm]
      dsimp only
      omega
  · intro found
    obtain ⟨i, inside, covered⟩ := found
    have element := List.mem_map_of_mem (f := field.elementRange) (List.mem_range.mpr inside)
    have bounds := field.elements_ascending.bounds element
    have start : field.range.offset = field.offset := rfl
    rw [BitRange.covers_iff] at covered ⊢
    simp only [BitRange.stop] at bounds
    omega

/-- The mask of a field is the union of the masks of its elements. -/
theorem maskNumber_eq_union (field : Field) :
    field.range.maskNumber = field.elementMasks.foldl (· ||| ·) 0 := by
  apply Nat.eq_of_testBit_eq
  intro bit
  rw [BitRange.testBit_maskNumber, testBit_foldl_or_masks, Nat.zero_testBit, Bool.false_or,
    elementMasks, List.any_map, Bool.eq_iff_iff, covers_range_iff, List.any_eq_true]
  simp only [List.mem_range, Function.comp_apply, BitRange.testBit_maskNumber]

theorem elementMasks_disjoint (field : Field) :
    field.elementMasks.Pairwise fun first second => first &&& second = 0 := by
  apply List.pairwise_map.mpr
  have apart := List.pairwise_map.mp field.elements_ascending.pairwise
  exact apart.imp fun stop_le =>
    BitRange.maskNumber_and_eq_zero (BitRange.disjoint_of_stop_le stop_le)

end Field

namespace Layout

/-- The layouts that come of placing members, where the structs nested in the members are such
layouts as well. -/
inductive Computed : Layout → Prop where
  | ofMembers {name : String} {order : ByteOrder} {members : List Member} {layout : Layout}
      (nested : ∀ member ∈ members, ∀ inner, member.type = .nested inner → inner.Computed)
      (made : Layout.ofMembers name order members = .ok layout) : layout.Computed

theorem Computed.placed {layout : Layout} (computed : layout.Computed) :
    layout.Everywhere Placed := by
  induction computed with
  | ofMembers nested made ih =>
    apply everywhere_of_ofMembers made _ ih
    have members := members_of_ofMembers made
    obtain ⟨_, name, order⟩ := ofMembers_eq_ok_iff.mp made
    rw [Placed, members, name, order]
    exact made

/-- How the bits of a layout are shared out among its leaves and fields. -/
structure Tiled (layout : Layout) : Prop where
  inside : ∀ leaf ∈ layout.leaves, leaf.range.stop ≤ layout.bits
  ordered : layout.leaves.Pairwise fun earlier later => earlier.range.stop ≤ later.range.offset
  disjoint : layout.leaves.Pairwise fun first second => first.range.Disjoint second.range
  aligned : ∀ field ∈ layout.fields, field.isBitfield = false → field.type.width ≠ 0 →
    field.type.width ∣ field.offset
  total : layout.bits = layout.fields.getLast?.elim 0 fun field => field.range.stop
  union : ∀ field ∈ layout.fields,
    field.range.maskNumber = field.elementMasks.foldl (· ||| ·) 0
  elements : ∀ field ∈ layout.fields,
    field.elementMasks.Pairwise fun first second => first &&& second = 0

/-- The leaves of a computed layout lie inside it and follow one another without overlap, down to
any depth. Its fields are aligned, its size is the end of the last one, and the mask of each field
is the union of the masks of its elements, which have no bit in common. -/
theorem Computed.tiled {layout : Layout} (computed : layout.Computed) : layout.Tiled := by
  have placed := computed.placed
  have ascending := Placed.leaves_ascending placed
  have ordered := List.pairwise_map.mp ascending.pairwise
  constructor
  · intro leaf member
    exact (ascending.bounds (List.mem_map_of_mem member)).2
  · exact ordered
  · exact ordered.imp BitRange.disjoint_of_stop_le
  · intro field member
    exact Placed.aligned placed.here member
  · exact Placed.bits_eq placed.here
  · intro field _
    exact field.maskNumber_eq_union
  · intro field _
    exact field.elementMasks_disjoint

end Layout

namespace Sample

def blank : Layout :=
  ⟨"blank", .little, [], 0⟩

/-- An array of bitfields, elements without bits in a row, and structs between integers. -/
def hollow : Layout :=
  ⟨"hollow", .little, [⟨"flags", .bitfield .int 3, some 2, 0⟩, ⟨"none", .nested blank, some 4, 6⟩,
    ⟨"zero", .bitfield .char 0, none, 6⟩, ⟨"path", .nested point, some 2, 7⟩,
    ⟨"level", .plain .short, none, 32⟩], 48⟩

theorem hollow_computed : hollow.Computed := by
  have blankMade : Layout.ofMembers "blank" .little [] = .ok blank := rfl
  have pointMade : point.Placed := rfl
  have hollowMade : hollow.Placed := rfl
  have blankComputed : blank.Computed := .ofMembers (by simp) blankMade
  have pointComputed : point.Computed := by
    apply Layout.Computed.ofMembers _ pointMade
    intro member inside inner type
    simp only [point, List.map_cons, List.map_nil, List.mem_cons, List.not_mem_nil,
      or_false] at inside
    rcases inside with rfl | rfl <;> cases type
  apply Layout.Computed.ofMembers _ hollowMade
  intro member inside inner type
  simp only [hollow, List.map_cons, List.map_nil, List.mem_cons, List.not_mem_nil,
    or_false] at inside
  rcases inside with rfl | rfl | rfl | rfl | rfl <;> cases type
  · exact blankComputed
  · exact pointComputed

end Sample

theorem Layout.tiled_hollow : Sample.hollow.Computed ∧ Sample.hollow.Tiled :=
  ⟨Sample.hollow_computed, Computed.tiled Sample.hollow_computed⟩

end PackedStruct
