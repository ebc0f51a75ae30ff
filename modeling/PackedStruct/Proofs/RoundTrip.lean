import PackedStruct.Proofs.Normalize
import PackedStruct.Proofs.PackedNumber

namespace PackedStruct

theorem FieldType.exists_writesAt {type : FieldType}
    (nested : ∀ inner, type = .nested inner → ∀ tree, inner.Fits tree → ∀ base path,
      ∃ writes, inner.writesAt base path tree = .ok writes) {value : Value}
    (fits : type.Fits value) (base : Nat) (path : Path) :
    ∃ writes, type.writesAt base path value = .ok writes := by
  cases fits with
  | @integer _ word integer _ =>
    refine ⟨[⟨⟨base, type.width⟩, word⟩], ?_⟩
    rw [writesAt_integer integer, Value.writeTo_eq_ok_iff]
    exact ⟨word, rfl, rfl⟩
  | @nested inner tree fit =>
    obtain ⟨writes, written⟩ := nested inner rfl tree fit base path
    exact ⟨writes, writesAt_nested_eq_ok_iff.mpr ⟨tree, rfl, written⟩⟩

private theorem exists_forall₂ {α β : Type} {relation : α → β → Prop} {items : List α}
    (related : ∀ item ∈ items, ∃ result, relation item result) :
    ∃ results, List.Forall₂ relation items results := by
  induction items with
  | nil => exact ⟨[], .nil⟩
  | cons item rest ih =>
    obtain ⟨result, here⟩ := related item List.mem_cons_self
    obtain ⟨results, later⟩ := ih fun other member => related other (List.mem_cons_of_mem _ member)
    exact ⟨result :: results, .cons here later⟩

theorem Field.exists_writesAt {field : Field} {value : Value}
    (element : ∀ value, field.type.Fits value → ∀ base path,
      ∃ writes, field.type.writesAt base path value = .ok writes)
    (fits : field.Fits value) (base : Nat) (path : Path) :
    ∃ writes, field.writesAt base path value = .ok writes := by
  cases fits with
  | scalar scalar fit =>
    rw [writesAt_scalar scalar]
    exact element value fit _ _
  | @array _ items array fit =>
    have each (entry : Value × Nat) (member : entry ∈ items.zipIdx) :
        ∃ part, field.type.writesAt (base + (field.offset + entry.2 * field.type.width))
          (path ++ [.field field.name, .index entry.2]) entry.1 = .ok part :=
      element entry.1 (fit _ (List.fst_mem_of_mem_zipIdx member)) _ _
    obtain ⟨parts, related⟩ := exists_forall₂ each
    exact ⟨parts.flatten, (writesAt_array_eq_ok_iff array).mpr
      ⟨items, parts, rfl, Nat.le_refl _, related, rfl⟩⟩

theorem exists_writesOfFields {fields : List Field} {tree : Tree}
    (each : ∀ field ∈ fields, ∀ value, tree.lookup field.name = some value → ∀ base path,
      ∃ writes, field.writesAt base path value = .ok writes) (base : Nat) (path : Path) :
    ∃ writes, writesOfFields fields base path tree = .ok writes := by
  induction fields with
  | nil => exact ⟨[], rfl⟩
  | cons field rest ih =>
    obtain ⟨others, tail⟩ := ih fun other member => each other (List.mem_cons_of_mem _ member)
    cases found : tree.lookup field.name with
    | none =>
      exact ⟨[] ++ others,
        writesOfFields_cons_eq_ok_iff.mpr ⟨[], others, .inl ⟨found, rfl⟩, tail, rfl⟩⟩
    | some value =>
      obtain ⟨first, head⟩ := each field List.mem_cons_self value found base path
      exact ⟨first ++ others,
        writesOfFields_cons_eq_ok_iff.mpr ⟨first, others, .inr ⟨value, found, head⟩, tail, rfl⟩⟩

theorem Layout.WellFormed.exists_writesAt {layout : Layout} (wellFormed : layout.WellFormed)
    {tree : Tree} (fits : layout.Fits tree) (base : Nat) (path : Path) :
    ∃ writes, layout.writesAt base path tree = .ok writes := by
  induction wellFormed generalizing tree base path with
  | @intro layout _ _ ih =>
    rw [writesAt_eq]
    refine exists_writesOfFields (fun field member value found => ?_) base path
    refine Field.exists_writesAt (fun element elementFits => ?_) (fits.entry member found)
    refine FieldType.exists_writesAt (fun inner type tree innerFits => ?_) elementFits
    exact ih field member inner type innerFits

theorem Layout.WellFormed.exists_pack {layout : Layout} (wellFormed : layout.WellFormed)
    {tree : Tree} (fits : layout.Fits tree) : ∃ bytes, layout.pack tree = .ok bytes := by
  obtain ⟨writes, written⟩ := wellFormed.exists_writesAt fits 0 []
  exact ⟨_, pack_eq_ok_iff.mpr ⟨writes, written, rfl⟩⟩

/-- The bits of each leaf are the low bits of the integer at its path, or zero. -/
def Image.Shows (image : Image) (root : Value) (leaves : List Leaf) : Prop :=
  ∀ leaf ∈ leaves, (image.read leaf.range).toNat =
    ((root.at? leaf.path).bind Value.word?).getD 0 % 2 ^ leaf.range.width

variable {root : Value} {image : Image}

theorem FieldType.readAt_eq_normalize {type : FieldType}
    (nested : ∀ inner, type = .nested inner → ∀ base path,
      image.Shows root (inner.leavesFrom base path) →
      inner.readAt image base = inner.normalize (((root.at? path).bind Value.tree?).getD []))
    {struct field : String} {base : Nat} {path : Path}
    (shows : image.Shows root (type.leavesFrom struct field base path)) :
    type.readAt image base = type.normalize (root.at? path) := by
  rcases type.nested_or_integer with ⟨inner, rfl⟩ | integer
  · rw [leavesFrom] at shows
    rw [readAt, normalize, nested inner rfl base path shows]
  · rw [leavesFrom_integer integer] at shows
    have bits := shows _ List.mem_cons_self
    rw [readAt_integer integer, normalize_integer integer, Value.lowBits, ← bits,
      UInt64.ofNat_toNat]

theorem Field.readAt_eq_normalize {field : Field} (struct : String) {base : Nat} {path : Path}
    (element : ∀ start inside,
      image.Shows root (field.type.leavesFrom struct field.name start inside) →
      field.type.readAt image start = field.type.normalize (root.at? inside))
    (shows : image.Shows root (field.leavesFrom struct base path)) :
    field.readAt image base = field.normalize (root.at? (path ++ [.field field.name])) := by
  have place (start : Nat) (inside : Path) (member : (start, inside) ∈ field.places base path) :
      field.type.readAt image start = field.type.normalize (root.at? inside) := by
    apply element
    intro leaf leafMember
    apply shows
    rw [leavesFrom_eq, List.mem_flatMap]
    exact ⟨(start, inside), member, leafMember⟩
  rw [places] at place
  cases array : field.length with
  | none =>
    rw [readAt_scalar array, normalize_scalar array]
    apply place
    rw [array]
    exact List.mem_singleton_self _
  | some length =>
    rw [readAt_array array, normalize_array array]
    congr 1
    apply List.map_congr_left
    intro i inside
    rw [← Value.at?_items]
    apply place
    rw [array]
    exact List.mem_map_of_mem inside

/-- An image that shows the leaves of a tree reads as its normal form. -/
theorem Layout.WellFormed.readAt_eq_normalize {layout : Layout} (wellFormed : layout.WellFormed)
    {base : Nat} {path : Path} (shows : image.Shows root (layout.leavesFrom base path)) :
    layout.readAt image base =
      layout.normalize (((root.at? path).bind Value.tree?).getD []) := by
  induction wellFormed generalizing base path with
  | @intro layout _ _ ih =>
    rw [readAt_eq, normalize_eq]
    apply treeOfFields_congr
    intro field member
    rw [← Value.at?_entries]
    refine Field.readAt_eq_normalize layout.name (fun start inside elementShows => ?_) ?_
    · exact FieldType.readAt_eq_normalize
        (fun inner type start inside => ih field member inner type) elementShows
    · intro leaf leafMember
      apply shows
      rw [leavesFrom_eq, List.mem_flatMap]
      exact ⟨field, member, leafMember⟩

namespace Layout

/-- What a packed tree denotes at a leaf is the low bits of its integer there. -/
theorem WellFormed.shows_of_number {layout : Layout} (wellFormed : layout.WellFormed) {tree : Tree}
    (number : image.number = layout.numberOf tree) : image.Shows (.tree tree) layout.leaves := by
  intro leaf member
  rw [Image.toNat_read _ (wellFormed.width_le member), number, numberOf_eq_sum]
  exact sum_place_div_mod _ wellFormed.leaves_ascending member

theorem WellFormed.unpack_packed {layout : Layout} (wellFormed : layout.WellFormed) {tree : Tree}
    {bytes : List UInt8} (packed : layout.pack tree = .ok bytes) :
    layout.unpack bytes = .ok (layout.normalize tree) := by
  obtain ⟨length, number⟩ := wellFormed.number_pack packed
  have all : bytes.take layout.byteSize = bytes := List.take_of_length_le (Nat.le_of_eq length)
  have denoted : (Image.ofBytes layout.order bytes).number = layout.numberOf tree := by
    rw [Image.number_ofBytes, number]
  rw [unpack_of_le (Nat.le_of_eq length.symm), all,
    wellFormed.readAt_eq_normalize (wellFormed.shows_of_number denoted)]
  rfl

/-- Unpacking what was packed gives the normal form of the tree, and the tree itself if it has
exactly the shape of the layout; such a tree can always be packed. -/
theorem WellFormed.unpack_pack {layout : Layout} (wellFormed : layout.WellFormed) (tree : Tree) :
    (∀ bytes, layout.pack tree = .ok bytes →
      layout.unpack bytes = .ok (layout.normalize tree)) ∧
    (layout.Fits tree →
      ∃ bytes, layout.pack tree = .ok bytes ∧ layout.unpack bytes = .ok tree) := by
  constructor
  · intro bytes packed
    exact wellFormed.unpack_packed packed
  · intro fits
    obtain ⟨bytes, packed⟩ := wellFormed.exists_pack fits
    have unpacked := wellFormed.unpack_packed packed
    rw [wellFormed.normalize_of_fits fits] at unpacked
    exact ⟨bytes, packed, unpacked⟩

theorem unpack_pack_sparse :
    Sample.frame.pack Sample.sparse = .ok [0, 6, 0, 0, 0, 0, 0, 7] ∧
      Sample.frame.unpack [0, 6, 0, 0, 0, 0, 0, 7] = .ok
        [("kind", .unsigned 7), ("levels", .array [.unsigned 0, .unsigned 0]),
          ("path", .array [.tree [("x", .unsigned 3), ("y", .unsigned 0)],
            .tree [("x", .unsigned 0), ("y", .unsigned 0)]])] := by
  have unpacked :=
    (WellFormed.unpack_pack Sample.frame_wellFormed Sample.sparse).1 _ Sample.pack_sparse
  exact ⟨Sample.pack_sparse, unpacked⟩

/-- Whether a leaf has the bit. The other bits of the packed integer are padding. -/
def covers (layout : Layout) (bit : Nat) : Bool :=
  layout.leaves.any fun leaf => leaf.range.covers bit

/-- The integer of what was unpacked has the bits of the leaves and no padding. -/
theorem WellFormed.testBit_numberOf_readAt {layout : Layout} (wellFormed : layout.WellFormed)
    (image : Image) (bit : Nat) :
    (layout.numberOf (layout.readAt image 0)).testBit bit =
      (layout.covers bit && image.number.testBit bit) := by
  have here : (Value.tree _).at? [] = some (.tree (layout.readAt image 0)) := rfl
  have leaf (leaf : Leaf) (member : leaf ∈ layout.leaves) :
      (leaf.range.covers bit && (((layout.readAt image 0).wordAt? leaf.path).getD 0).testBit
        (bit - leaf.range.offset)) = (leaf.range.covers bit && image.number.testBit bit) := by
    rw [Tree.wordAt?, wellFormed.at?_leaf here member, Option.bind_some, Value.word?,
      Option.getD_some, Image.toNat_read _ (wellFormed.width_le member), Nat.testBit_mod_two_pow,
      Nat.testBit_div_two_pow]
    by_cases covered : leaf.range.covers bit
    · have inside := (leaf.range.covers_iff bit).mp covered
      have within : bit - leaf.range.offset < leaf.range.width := by omega
      have back : bit - leaf.range.offset + leaf.range.offset = bit := by omega
      simp [covered, within, back]
    · simp [covered]
  rw [numberOf_eq_sum, testBit_sum_place _ wellFormed.leaves_ascending, covers,
    List.and_any_distrib_right, Bool.eq_iff_iff, List.any_eq_true, List.any_eq_true]
  constructor
  · rintro ⟨item, member, set⟩
    exact ⟨item, member, (leaf item member).symm.trans set⟩
  · rintro ⟨item, member, set⟩
    exact ⟨item, member, (leaf item member).trans set⟩

/-- Packing what was unpacked clears the padding and nothing else. So it gives the bytes back that
were taken if and only if these have no padding bit set. -/
theorem WellFormed.pack_unpack {layout : Layout} (wellFormed : layout.WellFormed)
    {bytes : List UInt8} (enough : layout.byteSize ≤ bytes.length) :
    ∃ tree packed, layout.unpack bytes = .ok tree ∧ layout.pack tree = .ok packed ∧
      packed.length = layout.byteSize ∧
      (∀ bit, (layout.order.number packed).testBit bit =
        (layout.covers bit && (layout.order.number (bytes.take layout.byteSize)).testBit bit)) ∧
      (packed = bytes.take layout.byteSize ↔ ∀ bit,
        (layout.order.number (bytes.take layout.byteSize)).testBit bit → layout.covers bit) := by
  have fits := wellFormed.fits_readAt (.ofBytes layout.order (bytes.take layout.byteSize)) 0
  obtain ⟨packed, written⟩ := wellFormed.exists_pack fits
  obtain ⟨length, number⟩ := wellFormed.number_pack written
  have bits (bit : Nat) : (layout.order.number packed).testBit bit =
      (layout.covers bit && (layout.order.number (bytes.take layout.byteSize)).testBit bit) := by
    rw [number, wellFormed.testBit_numberOf_readAt, Image.number_ofBytes]
  refine ⟨_, packed, unpack_of_le enough, written, length, bits, ?_, ?_⟩
  · intro same bit set
    have kept := bits bit
    rw [same, set, Bool.and_true] at kept
    exact kept.symm
  · intro clean
    -- Byte strings of one length are compared by their integers, bit by bit.
    have taken : (bytes.take layout.byteSize).length = layout.byteSize :=
      List.length_take_of_le enough
    apply layout.order.eq_of_number_eq (length.trans taken.symm)
    apply Nat.eq_of_testBit_eq
    intro bit
    rw [bits bit]
    cases set : (layout.order.number (bytes.take layout.byteSize)).testBit bit with
    | false => rw [Bool.and_false]
    | true => rw [clean bit set, Bool.and_true]

theorem pack_unpack_frame :
    ∃ tree packed, Sample.frame.unpack [255, 0, 0, 0, 0, 0, 0, 255, 1] = .ok tree ∧
      Sample.frame.pack tree = .ok packed ∧ packed.length = 8 := by
  obtain ⟨tree, packed, unpacked, written, length, _⟩ :=
    WellFormed.pack_unpack Sample.frame_wellFormed
      (show Sample.frame.byteSize ≤ [255, 0, 0, 0, 0, 0, 0, 255, 1].length by decide)
  exact ⟨tree, packed, unpacked, written, length⟩

end Layout

end PackedStruct
