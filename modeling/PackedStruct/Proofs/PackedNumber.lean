import PackedStruct.Proofs.LeafWrites
import PackedStruct.Proofs.ReplacedBits

namespace PackedStruct

namespace Image

@[simp] theorem size_writeAll (image : Image) (writes : List Write) :
    (image.writeAll writes).size = image.size := by
  induction writes generalizing image with
  | nil => rfl
  | cons write rest ih =>
    exact (ih (image.write write.range write.raw)).trans (size_write _ _ _)

/-- Writes in ascending order add up. -/
theorem number_writeAll {image : Image} {writes : List Write} {low : Nat}
    (ascending : Ascending low (8 * image.size) (writes.map Write.range))
    (narrow : ∀ write ∈ writes, write.range.width ≤ 64) (below : image.number < 2 ^ low) :
    (image.writeAll writes).number =
      image.number + (writes.map fun write => write.range.place write.raw.toNat).sum := by
  -- Nothing is set yet from the next range upwards, so that no write meets an earlier one.
  induction writes generalizing image low with
  | nil => rfl
  | cons write rest ih =>
    have room : image.number < 2 ^ write.range.offset :=
      Nat.lt_of_lt_of_le below (Nat.pow_le_pow_right (by decide) ascending.1)
    have first := image.number_write_of_lt (narrow write List.mem_cons_self)
      ascending.2.low_le_high write.raw room
    have next : (image.write write.range write.raw).number < 2 ^ write.range.stop := by
      apply Nat.lt_pow_two_of_testBit
      intro i above
      rw [BitRange.stop] at above
      have outside : ¬ write.range.covers i = true := by
        rw [BitRange.covers_iff]
        omega
      rw [testBit_write image (narrow write List.mem_cons_self) ascending.2.low_le_high,
        if_neg outside]
      exact testBit_above room (by omega)
    have step : image.writeAll (write :: rest) =
        (image.write write.range write.raw).writeAll rest := rfl
    rw [step, ih (by rw [size_write]; exact ascending.2)
      (fun other member => narrow other (List.mem_cons_of_mem _ member)) next, first, Nat.add_assoc,
      List.map_cons, List.sum_cons]

end Image

namespace Layout

/-- The integer that a tree stands for: the sum of the leaves that it has values for, each one cut
to its width and moved to its place. -/
def numberOf (layout : Layout) (tree : Tree) : Nat :=
  (layout.leaves.filterMap fun leaf => (tree.wordAt? leaf.path).map leaf.range.place).sum

/-- A leaf without a value counts as zero. -/
theorem numberOf_eq_sum (layout : Layout) (tree : Tree) :
    layout.numberOf tree =
      (layout.leaves.map fun leaf => leaf.range.place ((tree.wordAt? leaf.path).getD 0)).sum := by
  rw [numberOf]
  induction layout.leaves with
  | nil => rfl
  | cons leaf rest ih =>
    rw [List.map_cons, List.sum_cons, ← ih]
    cases found : tree.wordAt? leaf.path with
    | none => simp [found, BitRange.place]
    | some word => simp [found]

theorem bits_le_byteSize (layout : Layout) : layout.bits ≤ 8 * layout.byteSize := by
  rw [byteSize]
  omega

theorem WellFormed.leaves_ascending {layout : Layout} (wellFormed : layout.WellFormed) :
    Ascending 0 layout.bits (layout.leaves.map Leaf.range) :=
  Placed.leaves_ascending wellFormed.placed

theorem WellFormed.numberOf_lt {layout : Layout} (wellFormed : layout.WellFormed) (tree : Tree) :
    layout.numberOf tree < 2 ^ layout.bits := by
  rw [numberOf_eq_sum]
  exact sum_place_lt _ wellFormed.leaves_ascending

theorem pack_eq_ok_iff {layout : Layout} {tree : Tree} {bytes : List UInt8} :
    layout.pack tree = .ok bytes ↔ ∃ writes, layout.writesAt 0 [] tree = .ok writes ∧
      bytes = ((Image.zero layout.byteSize).writeAll writes).toBytes layout.order := by
  rw [pack]
  simp only [bind_eq_ok_iff]
  simp [pure, Except.pure, eq_comm]

theorem map_range_filterMap_write?_sublist (root : Value) (leaves : List Leaf) :
    List.Sublist ((leaves.filterMap (Leaf.write? root)).map Write.range)
      (leaves.map Leaf.range) := by
  induction leaves with
  | nil => exact List.Sublist.slnil
  | cons leaf rest ih =>
    rw [List.filterMap_cons]
    unfold Leaf.write?
    cases (root.at? leaf.path).bind Value.raw? with
    | none => exact ih.cons _
    | some raw => exact ih.cons_cons _

/-- Packed bytes are as many as the layout has, and denote the sum of the leaves. -/
theorem WellFormed.number_pack {layout : Layout} (wellFormed : layout.WellFormed) {tree : Tree}
    {bytes : List UInt8} (packed : layout.pack tree = .ok bytes) :
    bytes.length = layout.byteSize ∧ layout.order.number bytes = layout.numberOf tree := by
  obtain ⟨writes, written, rfl⟩ := pack_eq_ok_iff.mp packed
  have here : (Value.tree tree).at? [] = some (.tree tree) := rfl
  have leaves := wellFormed.writesAt_eq_filterMap here written
  have ascending : Ascending 0 (8 * (Image.zero layout.byteSize).size)
      (writes.map Write.range) := by
    rw [leaves, Image.size_zero]
    exact (wellFormed.leaves_ascending.weaken (Nat.le_refl _) layout.bits_le_byteSize).sublist
      (map_range_filterMap_write?_sublist _ _)
  have narrow (write : Write) (member : write ∈ writes) : write.range.width ≤ 64 := by
    rw [leaves] at member
    obtain ⟨leaf, leafMember, found⟩ := List.mem_filterMap.mp member
    obtain ⟨raw, _, rfl⟩ := Option.map_eq_some_iff.mp found
    exact wellFormed.width_le leafMember
  constructor
  · have size := Image.size_writeAll (Image.zero layout.byteSize) writes
    rw [Image.size_zero, Image.size] at size
    rw [Image.toBytes, ByteOrder.length_arrange, Array.length_toList, size]
  · rw [Image.number_toBytes, Image.number_writeAll ascending narrow (by simp), Image.number_zero,
      Nat.zero_add, leaves, List.map_filterMap, numberOf]
    congr 2
    funext leaf
    rw [Leaf.write?, Tree.wordAt?]
    cases (Value.tree tree).at? leaf.path with
    | none => rfl
    | some value =>
      rw [Option.bind_some, Option.bind_some, value.word?_eq_map_raw?, Option.map_map,
        Option.map_map]
      rfl

end Layout

namespace Sample

def sparse : Tree :=
  [("kind", .signed (-1)), ("path", .array [.tree [("x", .unsigned 7)]])]

theorem pack_sparse : frame.pack sparse = .ok [0, 6, 0, 0, 0, 0, 0, 7] := rfl

end Sample

namespace Layout

/-- Packing writes one unbounded integer: the sum of the leaves that the tree has values for, each
one modulo two to its width and times two to its offset. The bytes are all of that integer, in the
byte order of the layout. -/
theorem pack_eq_render {layout : Layout} (wellFormed : layout.WellFormed) {tree : Tree}
    {bytes : List UInt8} (packed : layout.pack tree = .ok bytes) :
    layout.numberOf tree < 256 ^ layout.byteSize ∧
      bytes = layout.order.render layout.byteSize (layout.numberOf tree) := by
  obtain ⟨length, number⟩ := wellFormed.number_pack packed
  constructor
  · calc layout.numberOf tree
      _ < 2 ^ layout.bits := wellFormed.numberOf_lt tree
      _ ≤ 2 ^ (8 * layout.byteSize) := Nat.pow_le_pow_right (by decide) layout.bits_le_byteSize
      _ = 256 ^ layout.byteSize := Nat.pow_mul 2 8 layout.byteSize
  · rw [← number, ← length, ByteOrder.render_number]

theorem pack_eq_render_sparse :
    Sample.frame.pack Sample.sparse = .ok [0, 6, 0, 0, 0, 0, 0, 7] ∧
      Sample.frame.numberOf Sample.sparse < 256 ^ 8 ∧
      [0, 6, 0, 0, 0, 0, 0, 7] = ByteOrder.big.render 8 (Sample.frame.numberOf Sample.sparse) :=
  ⟨Sample.pack_sparse, pack_eq_render Sample.frame_wellFormed Sample.pack_sparse⟩

end Layout

end PackedStruct
