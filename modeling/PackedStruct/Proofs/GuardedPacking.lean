import PackedStruct.Proofs.DumpTable
import PackedStruct.Proofs.GuardedBits
import PackedStruct.Proofs.LeafGeometry
import PackedStruct.Proofs.PackedNumber
import PackedStruct.Proofs.Reachable
import PackedStruct.Proofs.UnpackedNumber

namespace PackedStruct

namespace Guarded

theorem add_bind {α : Type} {a b : Nat} (fits : a + b < UInt64.size) (next : Nat → Guarded α) :
    (add a b >>= next) = next (a + b) := by
  rw [add_eq fits, ok_bind]

theorem elementOffset_eq {offset width i : Nat} (fits : offset + i * width < UInt64.size) :
    elementOffset offset width i = .ok (offset + i * width) := by
  have product : i * width < UInt64.size := by omega
  rw [elementOffset, mul_eq product, ok_bind, add_eq fits]

theorem place_bind {α : Type} {base offset width i : Nat}
    (fits : base + (offset + i * width) < UInt64.size) (next : Nat → Guarded α) :
    (do
      let inside ← elementOffset offset width i
      let place ← add base inside
      next place) = next (base + (offset + i * width)) := by
  have inside : offset + i * width < UInt64.size := by omega
  rw [elementOffset_eq inside, ok_bind, add_bind fits]

end Guarded

open Guarded (Room InBounds)

/-- There is room for an element of the type at the bit `place`: for an integer in bounds, and for a
struct that is `good` there. -/
structure FieldType.HasRoom (type : FieldType) (size : Nat) (good : Layout → Nat → Prop)
    (place : Nat) : Prop where
  room : Room ⟨place, type.width⟩ size
  narrow : type.isInteger → type.width ≤ 64
  nested : ∀ inner, type = .nested inner → good inner place

section Element

variable {type : FieldType} {size : Nat} {good : Layout → Nat → Prop} {place : Nat}

theorem FieldType.HasRoom.inBounds (hasRoom : type.HasRoom size good place)
    (integer : type.isInteger) : InBounds ⟨place, type.width⟩ size :=
  ⟨hasRoom.room, hasRoom.narrow integer⟩

theorem FieldType.HasRoom.place_lt (hasRoom : type.HasRoom size good place) :
    place < UInt64.size :=
  Nat.lt_of_le_of_lt (Nat.le_add_right _ _) hasRoom.room.small

end Element

/-- There is room for each element of the field in a struct at the bit `base`. -/
def Field.HasRoom (field : Field) (size : Nat) (good : Layout → Nat → Prop) (base : Nat) : Prop :=
  ∀ i < field.count,
    field.type.HasRoom size good (base + (field.offset + i * field.type.width))

/-- A field that is no array is its first element. -/
theorem Field.HasRoom.scalar {name : String} {type : FieldType} {offset size base : Nat}
    {good : Layout → Nat → Prop}
    (hasRoom : Field.HasRoom ⟨name, type, none, offset⟩ size good base) :
    type.HasRoom size good (base + offset) := by
  have first := hasRoom 0 Nat.one_pos
  simpa only [Nat.zero_mul, Nat.add_zero] using first

namespace Layout

theorem Placed.element_room {layout : Layout} (placed : layout.Placed) {base size : Nat}
    (room : Room ⟨base, layout.bits⟩ size) {field : Field} (member : field ∈ layout.fields)
    {i : Nat} (inside : i < field.count) :
    Room ⟨base + (field.offset + i * field.type.width), field.type.width⟩ size := by
  have element := field.elements_ascending.bounds
    (List.mem_map_of_mem (f := field.elementRange) (List.mem_range.mpr inside))
  have whole := placed.fields_ascending.bounds (List.mem_map_of_mem (f := Field.range) member)
  have range := room.inside
  have small := room.small
  simp only [Field.elementRange, BitRange.stop] at element whole range small
  constructor
  · simp only [BitRange.stop]
    omega
  · simp only [BitRange.stop]
    omega

/-- What holds of a layout at each bit where there is room for its elements, holds where there is
room for the layout. -/
theorem WellFormed.of_room {size : Nat} (good : Layout → Nat → Prop)
    (step : ∀ layout base, (∀ field ∈ layout.fields, field.HasRoom size good base) →
      good layout base)
    {layout : Layout} (wellFormed : layout.WellFormed) {base : Nat}
    (room : Room ⟨base, layout.bits⟩ size) : good layout base := by
  -- The elements lie inside of the layout, so that the room for it has room for each of them.
  induction wellFormed generalizing base with
  | @intro layout sound _ ih =>
    apply step
    intro field member i inside
    have element := Placed.element_room sound.placed room member inside
    refine ⟨element, sound.width_le member, ?_⟩
    intro inner type
    apply ih field member inner type
    rwa [type] at element ⊢

end Layout

def Layout.ReadsIn (image : Image) (layout : Layout) (base : Nat) : Prop :=
  layout.guardedReadAt image base = .ok (layout.readAt image base)

section Read

variable {image : Image} {base : Nat}

theorem FieldType.guardedReadAt_integer {type : FieldType} (integer : type.isInteger)
    (image : Image) (place : Nat) :
    type.guardedReadAt image place = (do
      let word ← Guarded.read image ⟨place, type.width⟩
      return .unsigned word) := by
  cases type with
  | nested inner => cases integer
  | bitfield base width => rw [guardedReadAt, FieldType.width]
  | plain base => rw [guardedReadAt, FieldType.width]

theorem FieldType.guardedReadAt_eq {type : FieldType} {place : Nat}
    (hasRoom : type.HasRoom image.size (Layout.ReadsIn image) place) :
    type.guardedReadAt image place = .ok (type.readAt image place) := by
  rcases type.nested_or_integer with ⟨inner, rfl⟩ | integer
  · have reads : inner.guardedReadAt image place = .ok (inner.readAt image place) :=
      hasRoom.nested inner rfl
    rw [guardedReadAt, reads, readAt]
    rfl
  · rw [guardedReadAt_integer integer, Guarded.read_eq (hasRoom.inBounds integer),
      readAt_integer integer]
    rfl

theorem Field.guardedReadAt_eq {field : Field}
    (hasRoom : field.HasRoom image.size (Layout.ReadsIn image) base) :
    field.guardedReadAt image base = .ok (field.readAt image base) := by
  obtain ⟨name, type, _ | length, offset⟩ := field
  · have first := hasRoom.scalar
    rw [guardedReadAt, Guarded.add_bind first.place_lt, FieldType.guardedReadAt_eq first, readAt]
  · rw [guardedReadAt, readAt, mapM_eq_ok_map]
    · rfl
    · intro i member
      have element := hasRoom i (List.mem_range.mp member)
      rw [Guarded.place_bind element.place_lt, FieldType.guardedReadAt_eq element]

theorem guardedReadFields_eq {fields : List Field}
    (hasRoom : ∀ field ∈ fields, field.HasRoom image.size (Layout.ReadsIn image) base) :
    guardedReadFields fields image base = .ok (readFields fields image base) := by
  induction fields with
  | nil => rfl
  | cons field rest ih =>
    have others := ih fun other member => hasRoom other (List.mem_cons_of_mem _ member)
    rw [guardedReadFields, Field.guardedReadAt_eq (hasRoom field List.mem_cons_self), ok_bind,
      others, ok_bind, readFields]
    rfl

theorem Layout.WellFormed.guardedReadAt_eq {layout : Layout} (wellFormed : layout.WellFormed)
    (room : Room ⟨base, layout.bits⟩ image.size) :
    layout.guardedReadAt image base = .ok (layout.readAt image base) := by
  apply of_room (ReadsIn image) _ wellFormed room
  intro layout base hasRoom
  cases layout
  rw [ReadsIn, guardedReadAt, guardedReadFields_eq hasRoom, readAt]
  rfl

end Read

/-- Performs writes that may have been refused. -/
def Image.perform (image : Image) (writes : Except PackingError (List Write)) : Guarded Image :=
  (writes.map image.writeAll).mapError .refused

section Perform

variable {image : Image}

/-- Writes that are performed after others. -/
theorem Image.perform_bind (first second : Except PackingError (List Write))
    {next : Image → Guarded Image}
    (continues : ∀ after : Image, after.size = image.size → next after = after.perform second) :
    (image.perform first >>= next) = image.perform (do
      let first ← first
      let second ← second
      return first ++ second) := by
  cases first with
  | error cause => rfl
  | ok writes =>
    have rest : next (image.writeAll writes) = (image.writeAll writes).perform second :=
      continues _ (size_writeAll image writes)
    apply rest.trans
    cases second with
    | error cause => rfl
    | ok others => exact congrArg Except.ok List.foldl_append.symm

/-- Writes for the items of a list, performed one item after the other. -/
theorem Image.foldlM_perform {α : Type} {items : List α} {step : Image → α → Guarded Image}
    {writes : α → Except PackingError (List Write)}
    (each : ∀ item ∈ items, ∀ after : Image, after.size = image.size →
      step after item = after.perform (writes item)) :
    items.foldlM step image = image.perform (do
      let parts ← items.mapM writes
      return parts.flatten) := by
  induction items generalizing image with
  | nil => rfl
  | cons item rest ih =>
    rw [List.foldlM_cons, each item List.mem_cons_self image rfl,
      perform_bind _ (do let parts ← rest.mapM writes; return parts.flatten), List.mapM_cons]
    · cases writes item with
      | error cause => rfl
      | ok first => cases rest.mapM writes <;> rfl
    · intro after same
      apply ih
      intro other member later size
      exact each other (List.mem_cons_of_mem _ member) later (size.trans same)

end Perform

def Layout.WritesIn (size : Nat) (layout : Layout) (base : Nat) : Prop :=
  ∀ (path : Path) (tree : Tree) (image : Image), image.size = size →
    layout.guardedWriteAt base path tree image = image.perform (layout.writesAt base path tree)

section Write

variable {image : Image}

theorem Value.guardedWriteTo_eq {range : BitRange} (bounds : InBounds range image.size)
    (value : Value) (path : Path) :
    value.guardedWriteTo range path image = image.perform (value.writeTo range path) := by
  rw [guardedWriteTo, writeTo]
  cases value.raw? with
  | none => rfl
  | some raw => exact Guarded.write_eq bounds raw

theorem FieldType.guardedWriteAt_integer {type : FieldType} (integer : type.isInteger)
    (place : Nat) (path : Path) (value : Value) (image : Image) :
    type.guardedWriteAt place path value image =
      value.guardedWriteTo ⟨place, type.width⟩ path image := by
  cases type with
  | nested inner => cases integer
  | bitfield base width => rw [guardedWriteAt, FieldType.width]
  | plain base => rw [guardedWriteAt, FieldType.width]

theorem FieldType.guardedWriteAt_eq {type : FieldType} {place : Nat}
    (hasRoom : type.HasRoom image.size (Layout.WritesIn image.size) place) (path : Path)
    (value : Value) :
    type.guardedWriteAt place path value image =
      image.perform (type.writesAt place path value) := by
  rcases type.nested_or_integer with ⟨inner, rfl⟩ | integer
  · rw [guardedWriteAt, writesAt]
    cases value.tree? with
    | none => rfl
    | some tree => exact hasRoom.nested inner rfl path tree image rfl
  · rw [guardedWriteAt_integer integer, Value.guardedWriteTo_eq (hasRoom.inBounds integer),
      writesAt_integer integer]

theorem Field.guardedWriteAt_eq {field : Field} {base : Nat}
    (hasRoom : field.HasRoom image.size (Layout.WritesIn image.size) base) (path : Path)
    (value : Value) :
    field.guardedWriteAt base path value image =
      image.perform (field.writesAt base path value) := by
  obtain ⟨name, type, _ | length, offset⟩ := field
  · have first := hasRoom.scalar
    rw [guardedWriteAt, Guarded.add_bind first.place_lt, FieldType.guardedWriteAt_eq first,
      writesAt]
  · rw [guardedWriteAt, writesAt]
    cases fitting : value.itemsFor length (path ++ [.field name]) with
    | error cause => rfl
    | ok items =>
      have few := (Value.itemsFor_eq_ok_iff.mp fitting).2
      apply Image.foldlM_perform
      intro (item, i) member after same
      have inside : i < items.length := by simpa using List.snd_lt_of_mem_zipIdx member
      have element := hasRoom i (Nat.lt_of_lt_of_le inside few)
      rw [← same] at element
      dsimp only
      rw [Guarded.place_bind element.place_lt, FieldType.guardedWriteAt_eq element]

theorem guardedWriteFields_eq {fields : List Field} {base : Nat}
    (hasRoom : ∀ field ∈ fields, field.HasRoom image.size (Layout.WritesIn image.size) base)
    (path : Path) (tree : Tree) :
    guardedWriteFields fields base path tree image =
      image.perform (writesOfFields fields base path tree) := by
  induction fields generalizing image with
  | nil => rfl
  | cons field rest ih =>
    have others (after : Image) (same : after.size = image.size) :
        guardedWriteFields rest base path tree after =
          after.perform (writesOfFields rest base path tree) := by
      apply ih
      rw [same]
      exact fun other member => hasRoom other (List.mem_cons_of_mem _ member)
    rw [guardedWriteFields, writesOfFields]
    cases tree.lookup field.name with
    | none => exact Image.perform_bind (.ok []) _ others
    | some value =>
      dsimp only
      rw [Field.guardedWriteAt_eq (hasRoom field List.mem_cons_self)]
      exact Image.perform_bind _ _ others

theorem Layout.WellFormed.guardedWriteAt_eq {layout : Layout} (wellFormed : layout.WellFormed)
    {base : Nat} (room : Room ⟨base, layout.bits⟩ image.size) (path : Path) (tree : Tree) :
    layout.guardedWriteAt base path tree image =
      image.perform (layout.writesAt base path tree) := by
  apply of_room (WritesIn image.size) _ wellFormed room path tree image rfl
  intro layout base hasRoom path tree image same
  cases layout
  rw [guardedWriteAt, writesAt]
  apply guardedWriteFields_eq
  rwa [same]

end Write

def Layout.LeavesIn (layout : Layout) (base : Nat) : Prop :=
  ∀ path, layout.guardedLeavesFrom base path = .ok (layout.leavesFrom base path)

section Leaves

variable {size : Nat}

theorem FieldType.guardedLeavesFrom_eq {type : FieldType} {place : Nat}
    (hasRoom : type.HasRoom size Layout.LeavesIn place) (struct field : String) (path : Path) :
    type.guardedLeavesFrom struct field place path =
      .ok (type.leavesFrom struct field place path) := by
  cases type with
  | nested inner => exact hasRoom.nested inner rfl path
  | bitfield base width => rfl
  | plain base => rfl

theorem Field.guardedLeavesFrom_eq {field : Field} {base : Nat}
    (hasRoom : field.HasRoom size Layout.LeavesIn base) (struct : String) (path : Path) :
    field.guardedLeavesFrom struct base path = .ok (field.leavesFrom struct base path) := by
  obtain ⟨name, type, _ | length, offset⟩ := field
  · have first := hasRoom 0 Nat.one_pos
    rw [guardedLeavesFrom, Guarded.place_bind first.place_lt,
      FieldType.guardedLeavesFrom_eq first, leavesFrom]
    simp only [Nat.zero_mul, Nat.add_zero]
  · rw [guardedLeavesFrom, leavesFrom, mapM_eq_ok_map]
    · rfl
    · intro i member
      have element := hasRoom i (List.mem_range.mp member)
      rw [Guarded.place_bind element.place_lt, FieldType.guardedLeavesFrom_eq element]

theorem guardedLeavesOfFields_eq {fields : List Field} {base : Nat}
    (hasRoom : ∀ field ∈ fields, field.HasRoom size Layout.LeavesIn base) (struct : String)
    (path : Path) :
    guardedLeavesOfFields fields struct base path =
      .ok (leavesOfFields fields struct base path) := by
  induction fields with
  | nil => rfl
  | cons field rest ih =>
    have others := ih fun other member => hasRoom other (List.mem_cons_of_mem _ member)
    rw [guardedLeavesOfFields, Field.guardedLeavesFrom_eq (hasRoom field List.mem_cons_self),
      ok_bind, others, ok_bind, leavesOfFields]
    rfl

theorem Layout.WellFormed.guardedLeavesFrom_eq {layout : Layout} (wellFormed : layout.WellFormed)
    {base : Nat} (room : Room ⟨base, layout.bits⟩ size) (path : Path) :
    layout.guardedLeavesFrom base path = .ok (layout.leavesFrom base path) := by
  apply of_room LeavesIn _ wellFormed room path
  intro layout base hasRoom path
  cases layout
  rw [guardedLeavesFrom, guardedLeavesOfFields_eq hasRoom, leavesFrom]

end Leaves

theorem Leaf.guardedDumpLine_eq {leaf : Leaf} {image : Image}
    (bounds : InBounds leaf.range image.size) (labels : Labels) :
    leaf.guardedDumpLine image labels = .ok (leaf.dumpLine image labels) := by
  rw [guardedDumpLine, Guarded.read_eq bounds, ok_bind, Guarded.add_bind bounds.small]
  rfl

namespace Layout

/-- No guard stops a computation with the layout: packing, unpacking and dumping have the outcome
that they have without guards, on images of the size of the layout, and the bits of all fields and
elements have numbers of 64 bits. -/
structure StaysInBounds (layout : Layout) : Prop where
  size : ∀ bytes image, layout.imageOf bytes = .ok image → image.size = layout.byteSize
  pack : ∀ tree, layout.guardedPack tree = (layout.pack tree).mapError .refused
  unpack : ∀ bytes, layout.guardedUnpack bytes = (layout.unpack bytes).mapError .refused
  dump : ∀ bytes labels, layout.guardedDumpLines bytes labels =
    ((layout.imageOf bytes).map fun image => layout.dumpLines image labels).mapError .refused
  fields : layout.Everywhere fun inner => ∀ field ∈ inner.fields,
    field.guardedRange = .ok field.range ∧
      ∀ i < field.count, field.guardedElementRange i = .ok (field.elementRange i)

variable {layout : Layout}

theorem room_of_size (small : layout.bits < UInt64.size) {size : Nat}
    (whole : size = layout.byteSize) : Room ⟨0, layout.bits⟩ size := by
  have enough := layout.bits_le_byteSize
  constructor
  · simp only [BitRange.stop]
    omega
  · simp only [BitRange.stop]
    omega

theorem size_of_imageOf {bytes : List UInt8} {image : Image}
    (found : layout.imageOf bytes = .ok image) : image.size = layout.byteSize := by
  obtain ⟨enough, rfl⟩ := imageOf_eq_ok_iff.mp found
  rw [Image.size_ofBytes, List.length_take_of_le enough]

theorem WellFormed.guardedPack_eq (wellFormed : layout.WellFormed)
    (small : layout.bits < UInt64.size) (tree : Tree) :
    layout.guardedPack tree = (layout.pack tree).mapError .refused := by
  have room := room_of_size small (Image.size_zero layout.byteSize)
  rw [guardedPack, wellFormed.guardedWriteAt_eq room, pack]
  cases layout.writesAt 0 [] tree <;> rfl

theorem WellFormed.guardedUnpack_eq (wellFormed : layout.WellFormed)
    (small : layout.bits < UInt64.size) (bytes : List UInt8) :
    layout.guardedUnpack bytes = (layout.unpack bytes).mapError .refused := by
  rw [guardedUnpack, unpack]
  cases found : layout.imageOf bytes with
  | error cause => rfl
  | ok image => exact wellFormed.guardedReadAt_eq (room_of_size small (size_of_imageOf found))

theorem WellFormed.leaf_inBounds (wellFormed : layout.WellFormed)
    (small : layout.bits < UInt64.size) {size : Nat} (whole : size = layout.byteSize) {leaf : Leaf}
    (member : leaf ∈ layout.leaves) : InBounds leaf.range size := by
  have room := room_of_size small whole
  have inside := ((Placed.leaves_ascending wellFormed.placed).bounds
    (List.mem_map_of_mem member)).2
  have last := room.inside
  have below := room.small
  simp only [BitRange.stop, Nat.zero_add] at last below
  exact ⟨⟨by omega, by omega⟩, wellFormed.width_le member⟩

theorem WellFormed.guardedDumpLines_eq (wellFormed : layout.WellFormed)
    (small : layout.bits < UInt64.size) (bytes : List UInt8) (labels : Labels) :
    layout.guardedDumpLines bytes labels =
      ((layout.imageOf bytes).map fun image => layout.dumpLines image labels).mapError
        .refused := by
  rw [guardedDumpLines]
  cases found : layout.imageOf bytes with
  | error cause => rfl
  | ok image =>
    have whole := size_of_imageOf found
    have lines : layout.leaves.mapM (Leaf.guardedDumpLine image labels) =
        .ok (layout.dumpLines image labels) :=
      mapM_eq_ok_map fun leaf member =>
        Leaf.guardedDumpLine_eq (wellFormed.leaf_inBounds small whole member) labels
    change (layout.guardedLeavesFrom 0 [] >>= _) = _
    rw [wellFormed.guardedLeavesFrom_eq (room_of_size small whole), ok_bind]
    exact lines

theorem Placed.guardedRanges_eq (placed : layout.Placed) (small : layout.bits < UInt64.size)
    {field : Field} (member : field ∈ layout.fields) :
    field.guardedRange = .ok field.range ∧
      ∀ i < field.count, field.guardedElementRange i = .ok (field.elementRange i) := by
  have whole := placed.fields_ascending.bounds (List.mem_map_of_mem (f := Field.range) member)
  constructor
  · have stop : field.offset + field.type.width * field.count ≤ layout.bits := whole.2
    have span : field.type.width * field.count < UInt64.size := by omega
    rw [Field.guardedRange, Field.guardedSpan, Guarded.mul_eq span, ok_bind,
      Guarded.add_bind (by omega)]
    rfl
  · intro i inside
    have room := placed.element_room (room_of_size small rfl) member inside
    have stop := room.small
    rw [BitRange.stop] at stop
    dsimp only at stop
    rw [Field.guardedElementRange, Field.guardedElementOffset,
      Guarded.elementOffset_eq (by omega), ok_bind, Guarded.add_bind (by omega)]
    rfl

end Layout

namespace Session

/-- For a layout that a session has after some commands, no guard stops the packing of any tree or
the unpacking and dumping of any bytes. -/
theorem known_staysInBounds (settings : Settings) (commands : List Command) {name : String}
    {layout : Layout}
    (known : ((start settings).performAll commands).catalog.get? name = some layout) :
    layout.StaysInBounds := by
  have limit : maxLayoutBits < UInt64.size := by decide
  obtain ⟨_, storable⟩ := (sound_start settings).performAll commands name layout known
  have wellFormed := storable.admissible.wellFormed
  have small : layout.bits < UInt64.size :=
    Nat.lt_of_le_of_lt storable.admissible.here.bits_le limit
  constructor
  · intro bytes image found
    exact Layout.size_of_imageOf found
  · exact wellFormed.guardedPack_eq small
  · exact wellFormed.guardedUnpack_eq small
  · exact wellFormed.guardedDumpLines_eq small
  · apply storable.admissible.imp
    intro inner regular field member
    have innerSmall : inner.bits < UInt64.size := Nat.lt_of_le_of_lt regular.bits_le limit
    exact Layout.Placed.guardedRanges_eq regular.placed innerSmall member

theorem known_staysInBounds_frame :
    ((start .default).performAll [.importJson Sample.frame.document.toJson]).catalog.get? "frame" =
        some Sample.frame ∧
      Sample.frame.StaysInBounds := by
  have known := get?_performAll_importJson (start .default) Sample.frame_storable
  exact ⟨known, known_staysInBounds .default [.importJson Sample.frame.document.toJson] known⟩

end Session

end PackedStruct
