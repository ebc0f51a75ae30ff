import PackedStruct.Layout.Lookup
import PackedStruct.Proofs.DocumentRoundTrip
import PackedStruct.Proofs.LeafPaths
import PackedStruct.Proofs.UnpackedNumber

/-! Fields found by dotted paths, and what is unpacked there: both walks go through the first
elements of all arrays and meet at the same bit. -/

namespace PackedStruct

theorem splitAtChar_eq_splitOn (separator : Char) (text : List Char) :
    splitAtChar separator text = text.splitOn separator := by
  induction text with
  | nil => rfl
  | cons c rest ih =>
    have nonempty : rest.splitOn separator ≠ [] := List.splitOn_ne_nil separator rest
    rw [splitAtChar, ih, List.splitOn_cons_eq_if_modifyHead]
    by_cases same : c == separator
    · rw [if_pos same, if_pos same]
    · rw [if_neg same, if_neg same]
      cases parts : rest.splitOn separator with
      | nil => exact absurd parts nonempty
      | cons part others => rfl

theorem splitAtChar_joined {names : List String} (nonempty : names ≠ [])
    (apart : ∀ name ∈ names, '.' ∉ name.toList) :
    (splitAtChar '.' (".".intercalate names).toList).map String.ofList = names := by
  have parts : (".".intercalate names).toList.splitOn '.' = names.map String.toList :=
    Text.splitOn_intercalate '.' nonempty apart
  rw [splitAtChar_eq_splitOn, parts]
  simp

namespace Layout

/-- The names lead to the field: the last one is its own, and each one before that belongs to a
field of struct type or to an array of structs. The offset is that of its first bit if each array on
the way is entered at its first element. -/
inductive Reaches : Layout → List String → Nat → Field → Prop where
  | last {layout : Layout} {field : Field} (member : field ∈ layout.fields) :
      layout.Reaches [field.name] field.offset field
  | enter {layout inner : Layout} {outer field : Field} {names : List String} {offset : Nat}
      (member : outer ∈ layout.fields) (type : outer.type = .nested inner)
      (deeper : inner.Reaches names offset field) :
      layout.Reaches (outer.name :: names) (outer.offset + offset) field

end Layout

theorem Field.nested?_eq_some_iff {field : Field} {inner : Layout} :
    field.nested? = some inner ↔ field.type = .nested inner := by
  rw [nested?]
  cases field.type <;> simp

namespace Layout

section Follow

variable {layout : Layout} {base start : Nat} {name : String} {field : Field}

theorem follow_last_eq_ok_iff :
    layout.follow base name [] = .ok (start, field) ↔
      layout.field? name = some field ∧ start = base + field.offset := by
  rw [follow]
  cases layout.field? name with
  | none => simp
  | some last =>
    constructor
    · rintro ⟨⟩
      exact ⟨rfl, rfl⟩
    · rintro ⟨⟨⟩, rfl⟩
      rfl

theorem follow_enter_eq_ok_iff {next : String} {rest : List String} :
    layout.follow base name (next :: rest) = .ok (start, field) ↔
      ∃ outer inner, layout.field? name = some outer ∧ outer.type = .nested inner ∧
        inner.follow (base + outer.offset) next rest = .ok (start, field) := by
  rw [follow]
  simp only [← Field.nested?_eq_some_iff]
  cases layout.field? name with
  | none => simp
  | some outer =>
    cases entered : outer.nested? with
    | none => simp [entered]
    | some inner => simp [entered]

/-- The walk along the names succeeds on those that lead to a field, and on no others. -/
theorem WellFormed.follow_eq_ok_iff (wellFormed : layout.WellFormed) {rest : List String} :
    layout.follow base name rest = .ok (start, field) ↔
      ∃ offset, layout.Reaches (name :: rest) offset field ∧ start = base + offset := by
  induction rest generalizing layout base name with
  | nil =>
    have distinct := wellFormed.here.distinct
    rw [follow_last_eq_ok_iff, field?_eq_some_iff distinct]
    constructor
    · rintro ⟨⟨member, rfl⟩, rfl⟩
      exact ⟨field.offset, .last member, rfl⟩
    · rintro ⟨offset, reaches, rfl⟩
      cases reaches with
      | last member => exact ⟨⟨member, rfl⟩, rfl⟩
      | enter _ _ deeper => cases deeper
  | cons next rest ih =>
    have distinct := wellFormed.here.distinct
    rw [follow_enter_eq_ok_iff]
    constructor
    · rintro ⟨outer, inner, found, type, followed⟩
      obtain ⟨member, rfl⟩ := (field?_eq_some_iff distinct).mp found
      obtain ⟨offset, deeper, rfl⟩ := (ih (wellFormed.inside member type)).mp followed
      exact ⟨outer.offset + offset, .enter member type deeper, Nat.add_assoc ..⟩
    · rintro ⟨start, reaches, rfl⟩
      cases reaches with
      | @enter _ inner outer _ _ offset member type deeper =>
        have followed := (ih (wellFormed.inside member type)).mpr
          ⟨offset, deeper, (Nat.add_assoc base outer.offset offset).symm⟩
        exact ⟨outer, inner, layout.field?_eq_some distinct member, type, followed⟩

end Follow

theorem WellFormed.locate_eq_ok_iff {layout : Layout} (wellFormed : layout.WellFormed)
    {names : List String} (nonempty : names ≠ []) (apart : ∀ name ∈ names, '.' ∉ name.toList)
    {offset : Nat} {field : Field} :
    layout.locate (".".intercalate names) = .ok (offset, field) ↔
      layout.Reaches names offset field := by
  rw [locate, splitAtChar_joined nonempty apart]
  cases names with
  | nil => exact absurd rfl nonempty
  | cons name rest => simp [wellFormed.follow_eq_ok_iff]

end Layout

namespace Value

/-- The value itself, or the first item of an array. -/
def first? : Value → Option Value
  | .array items => items.head?
  | value => some value

/-- The value that the names lead to, through the first items of all arrays. -/
def descend? (value : Value) (names : List String) : Option Value :=
  names.foldlM (fun value name => (value.next? (.field name)).bind first?) value

end Value

theorem FieldType.first?_readAt (type : FieldType) (image : Image) (base : Nat) :
    (type.readAt image base).first? = some (type.readAt image base) := by
  cases type <;> simp [readAt, Value.first?]

/-- The first element of a field is at the offset of the field. -/
theorem Field.first?_readAt {field : Field} (regular : field.member.Regular) (image : Image)
    (base : Nat) :
    (field.readAt image base).first? = some (field.type.readAt image (base + field.offset)) := by
  cases array : field.length with
  | none => rw [readAt_scalar array, FieldType.first?_readAt]
  | some length =>
    have nonempty : 0 < length := regular.array length array
    rw [readAt_array array, Value.first?, List.head?_map, List.head?_range]
    simp [Nat.ne_of_gt nonempty]

namespace Layout

theorem Regular.descend_readAt {layout : Layout} (regular : layout.Regular) {field : Field}
    (member : field ∈ layout.fields) (image : Image) (base : Nat) :
    ((Value.tree (layout.readAt image base)).next? (.field field.name)).bind Value.first? =
      some (field.type.readAt image (base + field.offset)) := by
  rw [Value.next?, readAt_eq, lookup_treeOfFields regular.distinct member, Option.bind_some,
    Field.first?_readAt (regular.members field member)]

/-- The names lead to what is read at the offset that they lead to. -/
theorem Reaches.descend?_readAt {layout : Layout} {names : List String} {offset : Nat}
    {field : Field} (reaches : layout.Reaches names offset field) (admissible : layout.Admissible)
    (image : Image) (base : Nat) :
    (Value.tree (layout.readAt image base)).descend? names =
      some (field.type.readAt image (base + offset)) := by
  induction reaches generalizing base with
  | last member =>
    rw [Value.descend?, List.foldlM_cons, admissible.here.descend_readAt member]
    rfl
  | @enter layout inner outer field names offset member type _ ih =>
    have deeper := ih (admissible.inside member type) (base + outer.offset)
    rw [Value.descend?, List.foldlM_cons, admissible.here.descend_readAt member, type,
      FieldType.readAt, ← Nat.add_assoc]
    exact deeper

theorem Reaches.width_le {layout : Layout} {names : List String} {offset : Nat}
    {field : Field} (reaches : layout.Reaches names offset field) (wellFormed : layout.WellFormed)
    (integer : field.type.isInteger) : field.type.width ≤ 64 := by
  induction reaches with
  | last member => exact wellFormed.here.width_le member integer
  | enter member type _ ih => exact ih (wellFormed.inside member type) integer

end Layout

namespace Session

theorem unpack_of_known {session : Session} {struct : String} {layout : Layout}
    (known : session.catalog.get? struct = some layout) (bytes : List UInt8) :
    session.unpack struct bytes = (layout.unpack bytes).mapError .packing := by
  rw [unpack, withLayout, layout_eq_ok known]
  rfl

theorem locate_eq_ok_iff {session : Session} {struct path : String} {layout : Layout}
    (known : session.catalog.get? struct = some layout) {place : Nat × Field} :
    session.locate struct path = .ok place ↔ layout.locate path = .ok place := by
  rw [locate, layout_eq_ok known, ok_bind, mapError_eq_ok_iff]

/-- In a session after any commands, a dotted path finds a field if and only if its names lead to
one, and the offset that it finds is where unpacking reads the first element of that field in the
first elements of all arrays on the way. If that is an integer, it is the part of the packed integer
from that offset upwards, modulo two to its width. -/
theorem locate_finds_unpacked (settings : Settings) (commands : List Command) {struct : String}
    {layout : Layout}
    (known : ((start settings).performAll commands).catalog.get? struct = some layout)
    {names : List String} (nonempty : names ≠ []) (apart : ∀ name ∈ names, '.' ∉ name.toList) :
    (∀ offset field,
      ((start settings).performAll commands).locate struct (".".intercalate names) =
          .ok (offset, field) ↔
        layout.Reaches names offset field) ∧
    ∀ offset field, layout.Reaches names offset field →
      ∀ bytes : List UInt8, layout.byteSize ≤ bytes.length →
        ∃ tree, ((start settings).performAll commands).unpack struct bytes = .ok tree ∧
          (Value.tree tree).descend? names = some (field.type.readAt
            (.ofBytes layout.order (bytes.take layout.byteSize)) offset) ∧
          (field.type.isInteger → ∃ word : UInt64,
            (Value.tree tree).descend? names = some (.unsigned word) ∧
              word.toNat = layout.order.number (bytes.take layout.byteSize) / 2 ^ offset %
                2 ^ field.type.width) := by
  obtain ⟨_, storable⟩ := (sound_start settings).performAll commands struct layout known
  have wellFormed := storable.admissible.wellFormed
  refine ⟨fun offset field => ?_, fun offset field reaches bytes enough => ?_⟩
  · rw [locate_eq_ok_iff known, wellFormed.locate_eq_ok_iff nonempty apart]
  · have found := reaches.descend?_readAt storable.admissible
      (.ofBytes layout.order (bytes.take layout.byteSize)) 0
    rw [Nat.zero_add] at found
    refine ⟨_, by rw [unpack_of_known known, Layout.unpack_of_le enough]; rfl, found, ?_⟩
    intro integer
    rw [FieldType.readAt_integer integer] at found
    refine ⟨_, found, ?_⟩
    rw [Image.toNat_read _ (reaches.width_le wellFormed integer), Image.number_ofBytes]

theorem locate_finds_unpacked_frame :
    (importing Sample.frame).catalog.get? "frame" = some Sample.frame ∧
      (importing Sample.frame).locate "frame" "path.y" =
        .ok (51, ⟨"y", .bitfield .short 5, none, 2⟩) ∧
      ∃ tree word, (importing Sample.frame).unpack "frame" [0, 46, 0, 0, 0, 0, 0, 7] = .ok tree ∧
        (Value.tree tree).descend? ["path", "y"] = some (.unsigned word) ∧ word.toNat = 5 := by
  have known := get?_performAll_importJson (start .default) Sample.frame_storable
  obtain ⟨finds, unpacks⟩ := locate_finds_unpacked .default
    [.importJson Sample.frame.document.toJson] known (List.cons_ne_nil "path" ["y"]) (by decide)
  have path : ⟨"path", .nested Sample.point, some 2, 49⟩ ∈ Sample.frame.fields := by
    simp [Sample.frame]
  have y : ⟨"y", .bitfield .short 5, none, 2⟩ ∈ Sample.point.fields := by
    simp [Sample.point]
  have reaches := Layout.Reaches.enter path rfl (.last y)
  obtain ⟨tree, unpacked, _, integer⟩ :=
    unpacks _ _ reaches [0, 46, 0, 0, 0, 0, 0, 7] (by decide)
  obtain ⟨word, found, value⟩ := integer rfl
  exact ⟨known, (finds _ _).mpr reaches, tree, word, unpacked, found, value⟩

end Session

end PackedStruct
