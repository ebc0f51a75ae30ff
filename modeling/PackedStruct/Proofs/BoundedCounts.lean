import PackedStruct.Proofs.Effects
import PackedStruct.Proofs.LeafGeometry
import PackedStruct.Proofs.TreeIntegers
import PackedStruct.Proofs.UnboundedPlaces

/-! How many elements the limit on bits allows. A field whose elements take bits has no more of them
than the layout has bits. Nothing bounds an array of structs without bits, but such structs hold no
integers, so that unpacking and tables meet at most as many integers as there are bits. -/

namespace PackedStruct

/-- Ranges that follow one another and are not empty take at least one bit each. -/
theorem Ascending.length_le {low high : Nat} {ranges : List BitRange}
    (ascending : Ascending low high ranges) (filled : ∀ range ∈ ranges, 0 < range.width) :
    low + ranges.length ≤ high := by
  induction ranges generalizing low with
  | nil => exact ascending
  | cons range rest ih =>
    obtain ⟨here, later⟩ := List.forall_mem_cons.mp filled
    have inside := ih ascending.2 later
    have start := ascending.1
    rw [BitRange.stop] at inside
    rw [List.length_cons]
    omega

/-- What is unpacked from an array has its number of elements. -/
theorem Field.length_of_readAt {field : Field} {image : Image} {base : Nat} {items : List Value}
    (read : field.readAt image base = .array items) : items.length = field.count := by
  cases array : field.length with
  | none =>
    rw [readAt_scalar array] at read
    rcases field.type.nested_or_integer with ⟨inner, type⟩ | integer
    · rw [type, FieldType.readAt] at read
      cases read
    · rw [FieldType.readAt_integer integer] at read
      cases read
  | some length =>
    rw [readAt_array array] at read
    rw [← Value.array.inj read, List.length_map, List.length_range, count, array,
      Option.getD_some]

/-- The field has at most as many elements as a layout may have bits, in the layout and in what is
unpacked, or its elements are structs that have neither bits nor integers. -/
def Field.CountBounded (field : Field) : Prop :=
  (field.count ≤ maxLayoutBits ∧ ∀ image base items, field.readAt image base = .array items →
    items.length ≤ maxLayoutBits) ∨
    ∃ empty, field.type = .nested empty ∧ empty.bits = 0 ∧ empty.leaves = []

namespace Layout

variable {layout : Layout} {field : Field}

theorem Regular.count_le (regular : layout.Regular) (member : field ∈ layout.fields)
    (filled : 0 < field.type.width) : field.count ≤ layout.bits := by
  have ascending := Placed.fields_ascending regular.placed
  have inside := (ascending.bounds (List.mem_map_of_mem member)).2
  calc
    field.count ≤ field.type.width * field.count := Nat.le_mul_of_pos_left _ filled
    _ ≤ field.offset + field.span := Nat.le_add_left _ _
    _ ≤ layout.bits := inside

/-- Only structs can be without bits. -/
theorem Regular.width_pos (regular : layout.Regular) (member : field ∈ layout.fields)
    (integer : field.type.isInteger) : 0 < field.type.width := by
  cases type : field.type with
  | nested inner =>
    rw [type] at integer
    cases integer
  | bitfield base width => exact ((regular.members field member).bitfield base width type).1
  | plain base => exact base.bits_pos

theorem Admissible.leaf_width_pos (admissible : layout.Admissible) {base : Nat} {path : Path}
    {leaf : Leaf} (member : leaf ∈ layout.leavesFrom base path) : 0 < leaf.range.width := by
  apply admissible.width_leaf (0 < ·) _ member
  intro outer regular field fieldMember integer
  exact regular.width_pos fieldMember integer

/-- Each integer of a layout takes a bit of its own. -/
theorem Admissible.length_leaves_le (admissible : layout.Admissible) :
    layout.leaves.length ≤ layout.bits := by
  have ascending := Placed.leaves_ascending admissible.wellFormed.placed
  have counted := ascending.length_le (by
    intro range member
    obtain ⟨leaf, leafMember, rfl⟩ := List.mem_map.mp member
    exact admissible.leaf_width_pos leafMember)
  rwa [List.length_map, Nat.zero_add] at counted

theorem Admissible.counts_bounded (admissible : layout.Admissible) :
    layout.Everywhere fun inner => ∀ field ∈ inner.fields, field.CountBounded := by
  induction admissible with
  | @intro layout regular inside ih =>
    refine .intro (fun field member => ?_) ih
    have small (filled : 0 < field.type.width) : field.count ≤ maxLayoutBits :=
      (regular.count_le member filled).trans regular.bits_le
    have bounded (filled : 0 < field.type.width) : field.CountBounded := by
      refine .inl ⟨small filled, fun image base items read => ?_⟩
      rw [Field.length_of_readAt read]
      exact small filled
    rcases field.type.nested_or_integer with ⟨empty, type⟩ | integer
    · rcases Nat.eq_zero_or_pos empty.bits with none | some
      · have deeper : empty.Admissible := inside field member empty type
        have leaves := deeper.length_leaves_le
        rw [none, Nat.le_zero, List.length_eq_zero_iff] at leaves
        exact .inr ⟨empty, type, none, leaves⟩
      · exact bounded (type ▸ some)
    · exact bounded (regular.width_pos member integer)

end Layout

namespace Session

/-- In a layout that a session has after some commands, a field has at most as many elements as a
layout may have bits, at every depth, unless they are structs without bits. What is unpacked from
any bytes, and the table of any bytes, has at most as many integers. -/
theorem known_counts_bounded (settings : Settings) (commands : List Command) {name : String}
    {layout : Layout}
    (known : ((start settings).performAll commands).catalog.get? name = some layout) :
    (layout.Everywhere fun inner => ∀ field ∈ inner.fields, field.CountBounded) ∧
      (∀ bytes tree, layout.unpack bytes = .ok tree →
        (layout.integers tree).length ≤ maxLayoutBits) ∧
      ∀ image labels, (layout.dumpLines image labels).length ≤ maxLayoutBits := by
  obtain ⟨_, storable⟩ := (sound_start settings).performAll commands name layout known
  have admissible := storable.admissible
  have leaves : layout.leaves.length ≤ maxLayoutBits :=
    admissible.length_leaves_le.trans admissible.here.bits_le
  refine ⟨admissible.counts_bounded, ?_, ?_⟩
  · intro bytes tree unpacked
    obtain ⟨image, _, read⟩ := bind_eq_ok_iff.mp unpacked
    cases read
    rw [Layout.integers, admissible.wellFormed.integersIn_readAt, List.length_map]
    exact leaves
  · intro image labels
    rw [Layout.dumpLines, List.length_map]
    exact leaves

theorem known_counts_bounded_frame :
    ((start .default).performAll [.importJson Sample.frame.document.toJson]).catalog.get? "frame" =
        some Sample.frame ∧
      Sample.frame.Everywhere (fun inner => ∀ field ∈ inner.fields, field.CountBounded) ∧
      ∀ image labels, (Sample.frame.dumpLines image labels).length ≤ maxLayoutBits := by
  have known := get?_performAll_importJson (start .default) Sample.frame_storable
  obtain ⟨counts, _, lines⟩ :=
    known_counts_bounded .default [.importJson Sample.frame.document.toJson] known
  exact ⟨known, counts, lines⟩

end Session

namespace Sample

def crowd : Layout :=
  ⟨"crowd", .little, [⟨"all", .nested blank, some 18446744073709551615, 0⟩], 0⟩

theorem defineAll_crowd :
    (Session.start .default).defineAll
        ("typedef struct \x7b \x7d blank; " ++
          "typedef struct \x7b blank all[18446744073709551615]; \x7d crowd;") =
      .ok ([blank, crowd], knowing [blank, crowd]) := by
  refine Session.defineAll_eq_ok_iff.mpr
    ⟨[⟨"blank", []⟩,
      ⟨"crowd", [⟨"blank", "all", none, some 18446744073709551615, ⟨1, 44⟩⟩]⟩], _, ?_, rfl, rfl⟩
  decide +kernel

/-- The array is unpacked from no bytes at all. -/
theorem unpack_crowd : ∃ tree items, crowd.unpack [] = .ok tree ∧
    tree.lookup "all" = some (.array items) ∧ items.length = 18446744073709551615 := by
  obtain ⟨field, member, named, array⟩ : ∃ field ∈ crowd.fields, field.name = "all" ∧
      field.length = some 18446744073709551615 := ⟨_, List.mem_singleton_self _, rfl, rfl⟩
  have distinct : (crowd.fields.map Field.name).Nodup := by decide
  obtain ⟨items, read⟩ : ∃ items, field.readAt (.ofBytes .little []) 0 = .array items :=
    ⟨_, Field.readAt_array array _ 0⟩
  refine ⟨crowd.readAt (.ofBytes .little []) 0, items, rfl, ?_, ?_⟩
  · rw [Layout.readAt_eq, ← named, lookup_treeOfFields distinct member, read]
  · rw [Field.length_of_readAt read, Field.count, array, Option.getD_some]

end Sample

/-- The limit on bits does not bound the number of elements. -/
theorem Session.count_unbounded_crowd :
    ∃ field ∈ Sample.crowd.fields,
      ((start .default).performAll [.defineAll ("typedef struct \x7b \x7d blank; " ++
        "typedef struct \x7b blank all[18446744073709551615]; \x7d crowd;")]).catalog.get? "crowd" =
          some Sample.crowd ∧
        ¬ field.count ≤ maxLayoutBits ∧
        ∃ tree items, Sample.crowd.unpack [] = .ok tree ∧
          tree.lookup field.name = some (.array items) ∧ ¬ items.length ≤ maxLayoutBits := by
  refine ⟨_, List.mem_singleton_self _, ?_, by decide, ?_⟩
  · rw [performAll, List.foldl_cons, List.foldl_nil, perform, attempt, Sample.defineAll_crowd]
    rfl
  · obtain ⟨tree, items, unpacked, found, many⟩ := Sample.unpack_crowd
    refine ⟨tree, items, unpacked, found, ?_⟩
    rw [many]
    decide

end PackedStruct
