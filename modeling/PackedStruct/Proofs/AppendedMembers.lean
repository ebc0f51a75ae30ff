import PackedStruct.Proofs.Admissible
import PackedStruct.Proofs.RoundTrip
import PackedStruct.Proofs.UnboundedPlaces

/-! Members that are appended to a struct. Those in front of them keep their places, and the low
part of the bytes of the longer struct is read through the shorter one as the whole is read. -/

namespace PackedStruct

/-- As many bytes as asked for from the end that holds the low part of the packed integer: the first
ones in the order `little`, the last ones in the order `big`. -/
def ByteOrder.lowBytes (order : ByteOrder) (size : Nat) (bytes : List UInt8) : List UInt8 :=
  match order with
  | .little => bytes.take size
  | .big => bytes.drop (bytes.length - size)

theorem ByteOrder.length_lowBytes (order : ByteOrder) {size : Nat} {bytes : List UInt8}
    (enough : size ≤ bytes.length) : (order.lowBytes size bytes).length = size := by
  cases order with
  | little => exact List.length_take_of_le enough
  | big =>
    rw [lowBytes, List.length_drop]
    omega

theorem ByteOrder.arrange_lowBytes (order : ByteOrder) (size : Nat) (bytes : List UInt8) :
    order.arrange (order.lowBytes size bytes) = (order.arrange bytes).take size := by
  cases order with
  | little => rfl
  | big => exact List.take_reverse.symm

/-- The low bytes have the bits of all bytes, up to their last one. -/
theorem Image.testBit_lowBytes (order : ByteOrder) {size i : Nat} (low : i < 8 * size)
    (bytes : List UInt8) :
    (ofBytes order (order.lowBytes size bytes)).number.testBit i =
      (ofBytes order bytes).number.testBit i := by
  have inside : i / 8 < size := by omega
  simp only [number, ofBytes, testBit_byteNumber, order.arrange_lowBytes,
    List.getD_eq_getElem?_getD, List.getElem?_take_of_lt inside]

/-- A struct is read alike from two images that are read alike at its leaves. -/
theorem Layout.WellFormed.readAt_congr {layout : Layout} (wellFormed : layout.WellFormed)
    {image other : Image} {base : Nat}
    (same : ∀ leaf ∈ layout.leavesFrom base [], image.read leaf.range = other.read leaf.range) :
    layout.readAt image base = layout.readAt other base := by
  -- Both readings are the normal form of the first one, which both images show.
  have here : (Value.tree (layout.readAt image base)).at? [] =
      some (.tree (layout.readAt image base)) := rfl
  have shows : image.Shows (.tree (layout.readAt image base)) (layout.leavesFrom base []) := by
    intro leaf member
    have small := image.read_lt (wellFormed.width_le member)
    rw [wellFormed.at?_leaf here member, Option.bind_some, Value.word?, Option.getD_some,
      Nat.mod_eq_of_lt small]
  have otherShows :
      other.Shows (.tree (layout.readAt image base)) (layout.leavesFrom base []) := by
    intro leaf member
    rw [← same leaf member]
    exact shows leaf member
  exact (wellFormed.readAt_eq_normalize shows).trans
    (wellFormed.readAt_eq_normalize otherShows).symm

/-- The low bytes of a longer buffer are enough for a layout of their size. -/
theorem Layout.WellFormed.readAt_lowBytes {layout : Layout} (wellFormed : layout.WellFormed)
    (order : ByteOrder) (bytes : List UInt8) :
    layout.readAt (.ofBytes order (order.lowBytes layout.byteSize bytes)) 0 =
      layout.readAt (.ofBytes order bytes) 0 := by
  apply wellFormed.readAt_congr
  intro leaf member
  apply Image.read_congr (wellFormed.width_le member)
  intro bit covered
  have inside := (wellFormed.leaves_ascending.bounds (List.mem_map_of_mem member)).2
  have whole := layout.bits_le_byteSize
  rw [BitRange.covers_iff] at covered
  rw [BitRange.stop] at inside
  exact Image.testBit_lowBytes order (by omega) bytes

/-- The entries for the first of some fields make the tree of these fields. -/
theorem treeOfFields_append_filter {first second : List Field} {value : Field → Value}
    (distinct : ((first ++ second).map Field.name).Nodup) :
    ((treeOfFields (first ++ second) value).filter fun entry =>
        entry.1 ∈ first.map Field.name) = treeOfFields first value := by
  have firstDistinct : (first.map Field.name).Nodup := by
    rw [List.map_append] at distinct
    exact distinct.of_append_left
  have sorted (fields : List Field) : Entries.Sorted (treeOfFields fields value) :=
    Entries.sorted_ofList _
  apply Entries.Sorted.ext ((sorted (first ++ second)).filter _) (sorted first)
  intro name
  rw [Entries.lookup_filter fun name => decide (name ∈ first.map Field.name)]
  by_cases known : name ∈ first.map Field.name
  · obtain ⟨field, member, rfl⟩ := List.mem_map.mp known
    have inside : field ∈ first ++ second := List.mem_append_left _ member
    rw [if_pos (decide_eq_true known), lookup_treeOfFields distinct inside,
      lookup_treeOfFields firstDistinct member]
  · rw [if_neg (by simpa using known), lookup_treeOfFields_eq_none known]

/-- The members have distinct names, the bitfields among them fit an integer, and the structs nested
in them are well-formed. -/
structure SoundMembers (members : List Member) : Prop where
  distinct : (members.map Member.name).Nodup
  narrow : ∀ member ∈ members, ∀ base width, member.type = .bitfield base width →
    width ≤ maxBitfieldWidth
  nested : ∀ member ∈ members, ∀ inner, member.type = .nested inner → inner.WellFormed

namespace SoundMembers

variable {members more : List Member}

theorem left (sound : SoundMembers (members ++ more)) : SoundMembers members := by
  constructor
  · have distinct := sound.distinct
    rw [List.map_append] at distinct
    exact distinct.of_append_left
  · exact fun member inside => sound.narrow member (List.mem_append_left _ inside)
  · exact fun member inside => sound.nested member (List.mem_append_left _ inside)

theorem wellFormed (sound : SoundMembers members) {name : String} {order : ByteOrder}
    {layout : Layout} (made : Layout.ofMembers name order members = .ok layout) :
    layout.WellFormed := by
  obtain ⟨distinct, narrow, nested⟩ := sound
  obtain rfl := Layout.members_of_ofMembers made
  apply Layout.everywhere_of_ofMembers made _ nested
  obtain ⟨_, rfl, rfl⟩ := Layout.ofMembers_eq_ok_iff.mp made
  refine ⟨made, ?_, ?_⟩
  · rwa [List.map_map] at distinct
  · intro field member isBitfield
    cases type : field.type with
    | bitfield base width => exact narrow _ (List.mem_map_of_mem member) base width type
    | plain base =>
      rw [Field.isBitfield, type] at isBitfield
      cases isBitfield
    | nested inner =>
      rw [Field.isBitfield, type] at isBitfield
      cases isBitfield

end SoundMembers

/-- The first of some members can be placed on their own, and they get the same places. -/
theorem Layout.ofMembers_append_eq_ok {name : String} {order : ByteOrder}
    {members more : List Member} {whole : Layout}
    (made : ofMembers name order (members ++ more) = .ok whole) :
    ∃ part others, ofMembers name order members = .ok part ∧
      whole.fields = part.fields ++ others ∧ part.bits ≤ whole.bits := by
  obtain ⟨fields, middle, walk⟩ := exists_walk 0 members
  obtain ⟨others, total, later⟩ := exists_walk middle more
  obtain ⟨within, rfl⟩ := (ofMembers_eq_ok_iff_of_walk (walk.append later)).mp made
  refine ⟨⟨name, order, fields, middle⟩, others, ?_, rfl, later.cursor_le⟩
  apply (ofMembers_eq_ok_iff_of_walk walk).mpr
  exact ⟨fun field member => within field (List.mem_append_left _ member), rfl⟩

/-- A struct can be had without its last members. The fields that are left stand where they stood,
and from the low part of bytes for the longer struct the shorter one unpacks what the longer one
unpacks from all of them, less the entries for the last members. -/
theorem SoundMembers.unpack_appended {name : String} {order : ByteOrder}
    {members more : List Member} {whole : Layout} (sound : SoundMembers (members ++ more))
    (made : Layout.ofMembers name order (members ++ more) = .ok whole) :
    ∃ part, Layout.ofMembers name order members = .ok part ∧
      part.fields = whole.fields.take members.length ∧
      ∀ bytes, bytes.length = whole.byteSize →
        ∃ tree, whole.unpack bytes = .ok tree ∧
          part.unpack (order.lowBytes part.byteSize bytes) =
            .ok (tree.filter fun entry => entry.1 ∈ members.map Member.name) := by
  obtain ⟨part, others, madePart, split, fewer⟩ := Layout.ofMembers_append_eq_ok made
  have kept := Layout.members_of_ofMembers madePart
  have count : part.fields.length = members.length := by
    rw [← kept, List.length_map]
  have names : part.fields.map Field.name = members.map Member.name := by
    rw [← kept, List.map_map]
    rfl
  refine ⟨part, madePart, ?_, ?_⟩
  · rw [split, List.take_left' count]
  · intro bytes exact
    have orders : part.order = order := (Layout.ofMembers_eq_ok_iff.mp madePart).2.2
    have wholeOrder : whole.order = order := (Layout.ofMembers_eq_ok_iff.mp made).2.2
    have enough : part.byteSize ≤ bytes.length := by
      rw [exact, Layout.byteSize, Layout.byteSize]
      omega
    have size := order.length_lowBytes enough
    have distinct := (sound.wellFormed made).here.distinct
    refine ⟨_, Layout.unpack_of_le (Nat.le_of_eq exact.symm), ?_⟩
    rw [Layout.unpack_of_le (Nat.le_of_eq size.symm), List.take_of_length_le (Nat.le_of_eq size),
      List.take_of_length_le (Nat.le_of_eq exact), orders, wholeOrder,
      (sound.left.wellFormed madePart).readAt_lowBytes, Layout.readAt_eq, Layout.readAt_eq, split,
      ← names]
    rw [split] at distinct
    exact congrArg Except.ok (treeOfFields_append_filter distinct).symm

namespace Sample

/-- A bitfield. -/
def header : List Member :=
  [⟨"kind", .bitfield .char 3, none⟩]

/-- A bitfield that goes on in the byte of the one before, and two structs. -/
def body : List Member :=
  [⟨"level", .bitfield .short 9, none⟩, ⟨"path", .nested point, some 2⟩]

def signal : Layout :=
  ⟨"signal", .big, [⟨"kind", .bitfield .char 3, none, 0⟩, ⟨"level", .bitfield .short 9, none, 3⟩,
    ⟨"path", .nested point, some 2, 14⟩], 28⟩

theorem signal_made : Layout.ofMembers "signal" .big (header ++ body) = .ok signal := rfl

theorem signal_sound : SoundMembers (header ++ body) := by
  constructor
  · decide
  · intro member inside base width type
    simp only [header, body, List.cons_append, List.nil_append, List.mem_cons, List.not_mem_nil,
      or_false] at inside
    rcases inside with rfl | rfl | rfl <;> cases type <;> decide
  · intro member inside inner type
    simp only [header, body, List.cons_append, List.nil_append, List.mem_cons, List.not_mem_nil,
      or_false] at inside
    rcases inside with rfl | rfl | rfl <;> cases type
    exact point_wellFormed

end Sample

/-- The last byte, which holds bits of both bitfields, is enough for the first one. -/
theorem SoundMembers.unpack_appended_signal :
    ∃ part tree, Layout.ofMembers "signal" .big Sample.header = .ok part ∧
      Sample.signal.unpack [0, 1, 2, 0xfd] = .ok tree ∧
      part.unpack [0xfd] = .ok (tree.filter fun entry => entry.1 ∈ ["kind"]) ∧
      part.unpack [0xfd] = .ok [("kind", .unsigned 5)] := by
  obtain ⟨part, made, _, reads⟩ :=
    unpack_appended Sample.signal_sound Sample.signal_made
  obtain ⟨tree, unpacked, shorter⟩ := reads [0, 1, 2, 0xfd] rfl
  obtain rfl : ⟨"signal", .big, [⟨"kind", .bitfield .char 3, none, 0⟩], 3⟩ = part :=
    Except.ok.inj made
  exact ⟨_, tree, made, unpacked, shorter, rfl⟩

end PackedStruct
