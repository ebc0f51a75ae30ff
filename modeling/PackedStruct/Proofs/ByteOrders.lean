import PackedStruct.Dump
import PackedStruct.Proofs.LeafGeometry
import PackedStruct.Proofs.PackedNumber

namespace PackedStruct

mutual

/-- The layout with the same byte order at every depth. -/
def Layout.unordered : Layout → Layout
  | ⟨name, _, fields, bits⟩ => ⟨name, .little, unorderedFields fields, bits⟩

def unorderedFields : List Field → List Field
  | [] => []
  | field :: rest => field.unordered :: unorderedFields rest

def Field.unordered : Field → Field
  | ⟨name, type, length, offset⟩ => ⟨name, type.unordered, length, offset⟩

def FieldType.unordered : FieldType → FieldType
  | .nested layout => .nested layout.unordered
  | .bitfield type width => .bitfield type width
  | .plain type => .plain type

end

@[simp] theorem Layout.bits_unordered (layout : Layout) : layout.unordered.bits = layout.bits := by
  cases layout
  rw [unordered]

@[simp] theorem FieldType.width_unordered (type : FieldType) :
    type.unordered.width = type.width := by
  cases type with
  | nested inner => rw [unordered, width, width, Layout.bits_unordered]
  | bitfield base width => rw [unordered]
  | plain base => rw [unordered]

@[simp] theorem Field.name_unordered (field : Field) : field.unordered.name = field.name := by
  cases field
  rw [unordered]

@[simp] theorem Field.stop_unordered (field : Field) :
    field.unordered.range.stop = field.range.stop := by
  cases field
  simp [unordered, range, span, count]

theorem unorderedFields_eq (fields : List Field) :
    unorderedFields fields = fields.map Field.unordered := by
  induction fields with
  | nil => rfl
  | cons field rest ih => rw [unorderedFields, ih, List.map_cons]

section Unordered

variable (image : Image)

mutual

theorem Layout.readAt_unordered (base : Nat) :
    (layout : Layout) → layout.unordered.readAt image base = layout.readAt image base
  | ⟨_, _, fields, _⟩ => by
    rw [Layout.unordered, Layout.readAt, Layout.readAt, readFields_unordered base fields]

theorem readFields_unordered (base : Nat) :
    (fields : List Field) →
      readFields (unorderedFields fields) image base = readFields fields image base
  | [] => rfl
  | field :: rest => by
    rw [unorderedFields, readFields, readFields, Field.name_unordered,
      Field.readAt_unordered base field, readFields_unordered base rest]

theorem Field.readAt_unordered (base : Nat) :
    (field : Field) → field.unordered.readAt image base = field.readAt image base
  | ⟨_, type, none, _⟩ => by
    rw [Field.unordered, Field.readAt, Field.readAt, FieldType.readAt_unordered _ type]
  | ⟨_, type, some _, offset⟩ => by
    have element (i : Nat) := FieldType.readAt_unordered (base + (offset + i * type.width)) type
    simp only [Field.unordered, Field.readAt, FieldType.width_unordered, element]

theorem FieldType.readAt_unordered (base : Nat) :
    (type : FieldType) → type.unordered.readAt image base = type.readAt image base
  | .nested inner => by
    rw [FieldType.unordered, FieldType.readAt, FieldType.readAt, Layout.readAt_unordered base inner]
  | .bitfield _ _ => rfl
  | .plain _ => rfl

end

mutual

theorem Layout.writesAt_unordered (base : Nat) (path : Path) (tree : Tree) :
    (layout : Layout) →
      layout.unordered.writesAt base path tree = layout.writesAt base path tree
  | ⟨_, _, fields, _⟩ => by
    rw [Layout.unordered, Layout.writesAt, Layout.writesAt,
      writesOfFields_unordered base path tree fields]

theorem writesOfFields_unordered (base : Nat) (path : Path) (tree : Tree) :
    (fields : List Field) →
      writesOfFields (unorderedFields fields) base path tree =
        writesOfFields fields base path tree
  | [] => rfl
  | field :: rest => by
    have here (value : Value) := Field.writesAt_unordered base path value field
    rw [unorderedFields, writesOfFields, writesOfFields, Field.name_unordered,
      writesOfFields_unordered base path tree rest]
    simp only [here]

theorem Field.writesAt_unordered (base : Nat) (path : Path) (value : Value) :
    (field : Field) → field.unordered.writesAt base path value = field.writesAt base path value
  | ⟨_, type, none, _⟩ => by
    rw [Field.unordered, Field.writesAt, Field.writesAt,
      FieldType.writesAt_unordered _ _ value type]
  | ⟨name, type, some _, offset⟩ => by
    have element (entry : Value × Nat) := FieldType.writesAt_unordered
      (base + (offset + entry.2 * type.width)) (path ++ [.field name, .index entry.2]) entry.1 type
    simp only [Field.unordered, Field.writesAt, FieldType.width_unordered, element]

theorem FieldType.writesAt_unordered (base : Nat) (path : Path) (value : Value) :
    (type : FieldType) → type.unordered.writesAt base path value = type.writesAt base path value
  | .nested inner => by
    have deeper (tree : Tree) := Layout.writesAt_unordered base path tree inner
    rw [FieldType.unordered, FieldType.writesAt, FieldType.writesAt]
    simp only [deeper]
  | .bitfield _ _ => rfl
  | .plain _ => rfl

end

mutual

theorem Layout.leavesFrom_unordered (base : Nat) (path : Path) :
    (layout : Layout) → layout.unordered.leavesFrom base path = layout.leavesFrom base path
  | ⟨name, _, fields, _⟩ => by
    rw [Layout.unordered, Layout.leavesFrom, Layout.leavesFrom,
      leavesOfFields_unordered name base path fields]

theorem leavesOfFields_unordered (struct : String) (base : Nat) (path : Path) :
    (fields : List Field) →
      leavesOfFields (unorderedFields fields) struct base path =
        leavesOfFields fields struct base path
  | [] => rfl
  | field :: rest => by
    rw [unorderedFields, leavesOfFields, leavesOfFields,
      Field.leavesFrom_unordered struct base path field,
      leavesOfFields_unordered struct base path rest]

theorem Field.leavesFrom_unordered (struct : String) (base : Nat) (path : Path) :
    (field : Field) →
      field.unordered.leavesFrom struct base path = field.leavesFrom struct base path
  | ⟨name, type, none, _⟩ => by
    rw [Field.unordered, Field.leavesFrom, Field.leavesFrom,
      FieldType.leavesFrom_unordered struct name _ _ type]
  | ⟨name, type, some _, offset⟩ => by
    have element (i : Nat) := FieldType.leavesFrom_unordered struct name
      (base + (offset + i * type.width)) (path ++ [.field name, .index i]) type
    simp only [Field.unordered, Field.leavesFrom, FieldType.width_unordered, element]

theorem FieldType.leavesFrom_unordered (struct field : String) (base : Nat) (path : Path) :
    (type : FieldType) →
      type.unordered.leavesFrom struct field base path = type.leavesFrom struct field base path
  | .nested inner => by
    rw [FieldType.unordered, FieldType.leavesFrom, FieldType.leavesFrom,
      Layout.leavesFrom_unordered base path inner]
  | .bitfield _ _ => rfl
  | .plain _ => rfl

end

end Unordered

mutual

/-- The layouts have the same names, types, lengths and offsets. Nothing is said of byte orders, nor
of sizes, which follow from the fields. -/
inductive Layout.Matches : Layout → Layout → Prop
  | intro {name : String} {order order' : ByteOrder} {fields fields' : List Field}
      {bits bits' : Nat} (each : FieldsMatch fields fields') :
      Layout.Matches ⟨name, order, fields, bits⟩ ⟨name, order', fields', bits'⟩

inductive FieldsMatch : List Field → List Field → Prop
  | nil : FieldsMatch [] []
  | cons {name : String} {type type' : FieldType} {length : Option Nat} {offset : Nat}
      {rest rest' : List Field} (here : type.Matches type') (later : FieldsMatch rest rest') :
      FieldsMatch (⟨name, type, length, offset⟩ :: rest) (⟨name, type', length, offset⟩ :: rest')

inductive FieldType.Matches : FieldType → FieldType → Prop
  | bitfield (type : BaseType) (width : Nat) :
      FieldType.Matches (.bitfield type width) (.bitfield type width)
  | plain (type : BaseType) : FieldType.Matches (.plain type) (.plain type)
  | nested {inner inner' : Layout} (deeper : inner.Matches inner') :
      FieldType.Matches (.nested inner) (.nested inner')

end

/-- The size of a placed layout can be told from its fields, whatever their byte orders are. -/
theorem Layout.Placed.bits_eq_unordered {layout : Layout} (placed : layout.Placed) :
    layout.bits =
      (unorderedFields layout.fields).getLast?.elim 0 fun field => field.range.stop := by
  rw [placed.bits_eq, unorderedFields_eq, List.getLast?_map]
  cases layout.fields.getLast? with
  | none => rfl
  | some field => exact field.stop_unordered.symm

mutual

theorem Layout.Matches.unordered_eq {layout other : Layout}
    (placed : layout.Everywhere Layout.Placed) (otherPlaced : other.Everywhere Layout.Placed) :
    layout.Matches other → other.unordered = layout.unordered
  | .intro each => by
    have fields := each.unordered_eq (fun _ member _ type => placed.inside member type)
      fun _ member _ type => otherPlaced.inside member type
    have bits := placed.here.bits_eq_unordered
    have otherBits := otherPlaced.here.bits_eq_unordered
    dsimp only at bits otherBits
    rw [fields, ← bits] at otherBits
    rw [Layout.unordered, Layout.unordered, fields, otherBits]

theorem FieldsMatch.unordered_eq {fields others : List Field}
    (placed : ∀ field ∈ fields, field.type.Everywhere Layout.Placed)
    (otherPlaced : ∀ field ∈ others, field.type.Everywhere Layout.Placed) :
    FieldsMatch fields others → unorderedFields others = unorderedFields fields
  | .nil => rfl
  | .cons here later => by
    obtain ⟨first, rest⟩ := List.forall_mem_cons.mp placed
    obtain ⟨otherFirst, otherRest⟩ := List.forall_mem_cons.mp otherPlaced
    rw [unorderedFields, unorderedFields, Field.unordered, Field.unordered,
      here.unordered_eq first otherFirst, later.unordered_eq rest otherRest]

theorem FieldType.Matches.unordered_eq {type other : FieldType}
    (placed : type.Everywhere Layout.Placed) (otherPlaced : other.Everywhere Layout.Placed) :
    type.Matches other → other.unordered = type.unordered
  | .bitfield _ _ => rfl
  | .plain _ => rfl
  | .nested deeper => by
    rw [FieldType.unordered, FieldType.unordered,
      deeper.unordered_eq (placed _ rfl) (otherPlaced _ rfl)]

end

namespace Layout

/-- What matching layouts have in common: all but the order in which the bytes are written. -/
structure Alike (layout other : Layout) : Prop where
  size : other.byteSize = layout.byteSize
  writes : ∀ tree, other.writesAt 0 [] tree = layout.writesAt 0 [] tree
  reads : ∀ image, other.readAt image 0 = layout.readAt image 0
  leaves : other.leaves = layout.leaves

theorem Matches.alike {layout other : Layout} (same : layout.Matches other)
    (wellFormed : layout.WellFormed) (otherWellFormed : other.WellFormed) :
    layout.Alike other := by
  have erased := same.unordered_eq wellFormed.placed otherWellFormed.placed
  constructor
  · rw [byteSize, byteSize, ← other.bits_unordered, erased, bits_unordered]
  · intro tree
    rw [← writesAt_unordered 0 [] tree other, erased, writesAt_unordered]
  · intro image
    rw [← readAt_unordered image 0 other, erased, readAt_unordered]
  · rw [leaves, leaves, ← leavesFrom_unordered 0 [] other, erased, leavesFrom_unordered]

end Layout

namespace ByteOrder

theorem arrange_of_ne {order other : ByteOrder} (opposite : order ≠ other) (bytes : List UInt8) :
    other.arrange bytes = (order.arrange bytes).reverse := by
  cases order <;> cases other <;> simp [arrange] at opposite ⊢

end ByteOrder

namespace Layout

variable {layout other : Layout}

theorem Alike.table (alike : layout.Alike other) (image : Image) (labels : Labels) :
    other.table image labels = layout.table image labels := by
  rw [Layout.table, Layout.table, dumpLines, dumpLines, alike.leaves]

/-- Bytes with the same image are read alike. -/
theorem Alike.answers (alike : layout.Alike other) {bytes otherBytes : List UInt8}
    (images : other.imageOf otherBytes = layout.imageOf bytes) :
    other.unpack otherBytes = layout.unpack bytes ∧
      ∀ labels, other.dump otherBytes labels = layout.dump bytes labels := by
  constructor
  · simp only [unpack, images, alike.reads]
  · intro labels
    simp only [dump, images, alike.table]

theorem Alike.imageOf (alike : layout.Alike other) (orders : layout.order = other.order)
    (bytes : List UInt8) : other.imageOf bytes = layout.imageOf bytes := by
  rw [Layout.imageOf, Layout.imageOf, alike.size, orders]

/-- The reversal takes in the bytes of the struct and no others: there are none. -/
theorem Alike.imageOf_reverse (alike : layout.Alike other) (opposite : layout.order ≠ other.order)
    {bytes : List UInt8} (exact : bytes.length = layout.byteSize) :
    other.imageOf bytes.reverse = layout.imageOf bytes := by
  have enough : ¬ bytes.length < layout.byteSize := by omega
  have whole : bytes.take layout.byteSize = bytes := List.take_of_length_le (by omega)
  have reversed : bytes.reverse.take layout.byteSize = bytes.reverse :=
    List.take_of_length_le (by rw [List.length_reverse]; omega)
  rw [Layout.imageOf, Layout.imageOf, alike.size, List.length_reverse, if_neg enough,
    if_neg enough, whole, reversed, Image.ofBytes, Image.ofBytes,
    ByteOrder.arrange_of_ne opposite]
  cases layout.order <;> simp [ByteOrder.arrange]

theorem Alike.pack (alike : layout.Alike other) (orders : layout.order = other.order)
    (tree : Tree) : other.pack tree = layout.pack tree := by
  rw [Layout.pack, Layout.pack, alike.writes, alike.size, orders]

theorem Alike.pack_reverse (alike : layout.Alike other) (opposite : layout.order ≠ other.order)
    (tree : Tree) : other.pack tree = (layout.pack tree).map List.reverse := by
  rw [Layout.pack, Layout.pack, alike.writes, alike.size]
  cases layout.writesAt 0 [] tree with
  | error cause => rfl
  | ok writes => exact congrArg Except.ok (ByteOrder.arrange_of_ne opposite _)

/-- Two layouts that differ in byte orders only. Where those of the outermost structs are opposite,
packing gives the same bytes the other way round, and bytes the other way round are unpacked and
shown alike. Where they agree, there is no difference, whatever the orders inside are. -/
theorem Matches.reversed (same : layout.Matches other) (wellFormed : layout.WellFormed)
    (otherWellFormed : other.WellFormed) :
    (layout.order ≠ other.order →
      (∀ tree, other.pack tree = (layout.pack tree).map List.reverse) ∧
      ∀ bytes, bytes.length = layout.byteSize →
        other.unpack bytes.reverse = layout.unpack bytes ∧
        ∀ labels, other.dump bytes.reverse labels = layout.dump bytes labels) ∧
    (layout.order = other.order →
      (∀ tree, other.pack tree = layout.pack tree) ∧
      ∀ bytes, other.unpack bytes = layout.unpack bytes ∧
        ∀ labels, other.dump bytes labels = layout.dump bytes labels) := by
  have alike := same.alike wellFormed otherWellFormed
  constructor
  · intro opposite
    constructor
    · exact alike.pack_reverse opposite
    · intro bytes exact
      exact alike.answers (alike.imageOf_reverse opposite exact)
  · intro orders
    constructor
    · exact alike.pack orders
    · intro bytes
      exact alike.answers (alike.imageOf orders bytes)

end Layout

namespace Sample

def frameIn (outer inner : ByteOrder) : Layout :=
  ⟨"frame", outer, [⟨"kind", .bitfield .char 3, none, 0⟩, ⟨"levels", .plain .short, some 2, 16⟩,
    ⟨"path", .nested ⟨"point", inner, point.fields, 7⟩, some 2, 49⟩], 63⟩

theorem frameIn_wellFormed (outer inner : ByteOrder) : (frameIn outer inner).WellFormed := by
  have pointIn : Layout.WellFormed ⟨"point", inner, point.fields, 7⟩ := by
    apply Layout.Everywhere.intro ⟨rfl, point_sound.distinct, point_sound.narrow⟩
    exact fun field member inner type => point_wellFormed.inside member type
  have placed : (frameIn outer inner).Placed := by
    cases outer <;> cases inner <;> rfl
  refine .intro ⟨placed, frame_wellFormed.here.distinct, ?_⟩ ?_
  · intro field member narrow
    simp only [frameIn, List.mem_cons, List.not_mem_nil, or_false] at member
    rcases member with rfl | rfl | rfl
    · decide
    · cases narrow
    · cases narrow
  · intro field member deeper type
    simp only [frameIn, List.mem_cons, List.not_mem_nil, or_false] at member
    rcases member with rfl | rfl | rfl <;> cases type
    exact pointIn

theorem frame_matches (outer inner : ByteOrder) : frame.Matches (frameIn outer inner) := by
  have pointFields : FieldsMatch point.fields point.fields :=
    .cons (.bitfield _ _) (.cons (.bitfield _ _) .nil)
  have inside : FieldType.Matches (.nested point) (.nested ⟨"point", inner, point.fields, 7⟩) :=
    .nested (.intro pointFields)
  exact .intro (.cons (.bitfield _ _) (.cons (.plain _) (.cons inside .nil)))

end Sample

/-- The bytes of `frame` come out the other way round where its own order is the other one, and as
they were where only the order of the structs inside is. -/
theorem Layout.reversed_frame :
    (Sample.frameIn .little .big).pack Sample.sparse =
        (Sample.frame.pack Sample.sparse).map List.reverse ∧
      (Sample.frameIn .big .big).pack Sample.sparse = Sample.frame.pack Sample.sparse := by
  have opposite := (Matches.reversed (Sample.frame_matches .little .big) Sample.frame_wellFormed
    (Sample.frameIn_wellFormed _ _)).1 (by decide)
  have same := (Matches.reversed (Sample.frame_matches .big .big) Sample.frame_wellFormed
    (Sample.frameIn_wellFormed _ _)).2 rfl
  exact ⟨opposite.1 _, same.1 _⟩

end PackedStruct
