import PackedStruct.Document.Import
import PackedStruct.Proofs.Admissible
import PackedStruct.Proofs.Lookup
import PackedStruct.Proofs.MaskText

namespace PackedStruct

@[simp]
theorem BaseType.ofName?_eq_some_iff {name : String} {type : BaseType} :
    ofName? name = some type ↔ name = type.name := by
  constructor
  · intro found
    unfold ofName? at found
    split at found <;> cases found <;> rfl
  · rintro rfl
    exact ofName?_name type

/-- Induction on the documents nested in a document. -/
@[elab_as_elim]
theorem Document.nestedInduction {motive : Document → Prop}
    (step : ∀ document : Document,
      (∀ field ∈ document.fields, ∀ inner, field.nested = some inner → motive inner) →
      motive document) : ∀ document, motive document
  | ⟨_, _, _, _, _⟩ => step _ fun _ _ inner _ => nestedInduction step inner
termination_by document => sizeOf document
decreasing_by
  rename_i field member nested
  have smaller := List.sizeOf_lt_of_mem member
  obtain ⟨_, _, _, _, _, _, _, _, _⟩ := field
  cases nested
  simp at smaller ⊢
  omega

mutual

/-- The document tells the name, byte order and totals of the layout, and describes its fields in
order. -/
inductive Document.Describes : Document → Layout → Prop where
  | intro {document : Document} {layout : Layout} (name : document.name = layout.name)
      (order : document.order = layout.order) (bits : document.bits = layout.bits)
      (bytes : document.bytes = layout.byteSize)
      (fields : List.Forall₂ DocumentField.Describes document.fields layout.fields) :
      document.Describes layout

/-- The field declares the member and records where it is. A recorded mask denotes the bits of all
elements. -/
inductive DocumentField.Describes : DocumentField → Field → Prop where
  | intro {recorded : DocumentField} {field : Field} (declares : recorded.Declares field.member)
      (offset : recorded.offset = field.offset)
      (mask : ∀ text, recorded.mask = some text →
        Text.numeral? 16 (Text.dropHexMark text.toList) = some field.range.maskNumber) :
      recorded.Describes field

inductive DocumentField.Declares : DocumentField → Member → Prop where
  | intro {recorded : DocumentField} {member : Member} (name : recorded.name = member.name)
      (type : recorded.type = member.type.name) (length : recorded.length = member.length)
      (kind : recorded.HasType member.type) : recorded.Declares member

/-- A nested document describes the nested struct. Without one, a bit width is that of a bitfield,
and sizes are those of a base type. -/
inductive DocumentField.HasType : DocumentField → FieldType → Prop where
  | nested {recorded : DocumentField} {document : Document} {layout : Layout}
      (embeds : recorded.nested = some document) (inside : document.Describes layout) :
      recorded.HasType (.nested layout)
  | bitfield {recorded : DocumentField} {base : BaseType} {width : Nat}
      (flat : recorded.nested = none) (narrowed : recorded.bitWidth = some width) :
      recorded.HasType (.bitfield base width)
  | plain {recorded : DocumentField} {base : BaseType} (flat : recorded.nested = none)
      (whole : recorded.bitWidth = none) (size : ∀ size, recorded.size = some size →
        size = base.bits)
      (elementSize : ∀ size, recorded.elementSize = some size → size = base.bits) :
      recorded.HasType (.plain base)

end

theorem Document.Describes.name {document : Document} {layout : Layout}
    (describes : document.Describes layout) : document.name = layout.name := by
  cases describes with
  | intro name => exact name

namespace DocumentField

theorem Describes.declares {recorded : DocumentField} {field : Field}
    (describes : recorded.Describes field) : recorded.Declares field.member := by
  cases describes with
  | intro declares _ _ => exact declares

theorem Describes.offset {recorded : DocumentField} {field : Field}
    (describes : recorded.Describes field) : recorded.offset = field.offset := by
  cases describes with
  | intro _ offset _ => exact offset

theorem Describes.mask {recorded : DocumentField} {field : Field}
    (describes : recorded.Describes field) (text : String) (found : recorded.mask = some text) :
    Text.numeral? 16 (Text.dropHexMark text.toList) = some field.range.maskNumber := by
  cases describes with
  | intro _ _ mask => exact mask text found

theorem Declares.name_length {recorded : DocumentField} {member : Member}
    (declares : recorded.Declares member) :
    recorded.name = member.name ∧ recorded.length = member.length := by
  cases declares with
  | intro name _ length _ => exact ⟨name, length⟩

theorem Declares.type {recorded : DocumentField} {member : Member}
    (declares : recorded.Declares member) : recorded.type = member.type.name := by
  cases declares with
  | intro _ type _ _ => exact type

theorem Declares.kind {recorded : DocumentField} {member : Member}
    (declares : recorded.Declares member) : recorded.HasType member.type := by
  cases declares with
  | intro _ _ _ kind => exact kind

/-- A field that embeds a document has the type of a nested struct, which the document describes. -/
theorem HasType.embedded {recorded : DocumentField} {type : FieldType} {inner : Document}
    (kind : recorded.HasType type) (embeds : recorded.nested = some inner) :
    ∃ layout, type = .nested layout ∧ inner.Describes layout := by
  cases kind with
  | @nested _ document layout found inside =>
    obtain rfl := Option.some.inj (found.symm.trans embeds)
    exact ⟨layout, rfl, inside⟩
  | bitfield flat => cases flat.symm.trans embeds
  | plain flat => cases flat.symm.trans embeds

/-- No layout is nested in a field that embeds no document. -/
theorem HasType.inner_eq_nil {recorded : DocumentField} {type : FieldType}
    (kind : recorded.HasType type) (flat : recorded.nested = none) : type.inner = [] := by
  cases kind with
  | nested embeds _ => cases flat.symm.trans embeds
  | bitfield => rw [FieldType.inner]
  | plain => rw [FieldType.inner]

end DocumentField

structure Member.Admissible (member : Member) : Prop where
  regular : member.Regular
  inside : member.type.Everywhere Layout.Regular

theorem DocumentField.baseType_eq_ok_iff {field : DocumentField} {struct : String}
    {type : BaseType} : field.baseType struct = .ok type ↔ field.type = type.name := by
  unfold baseType
  split
  · rename_i base found
    rw [← BaseType.ofName?_eq_some_iff, found, Except.ok.injEq, Option.some_inj]
  · rename_i absent
    rw [← BaseType.ofName?_eq_some_iff, absent]
    simp

theorem DocumentField.checkSizes_eq_ok_iff {field : DocumentField} {struct : String}
    {type : BaseType} :
    field.checkSizes struct type = .ok () ↔
      (∀ size, field.size = some size → size = type.bits) ∧
        ∀ size, field.elementSize = some size → size = type.bits := by
  unfold checkSizes
  split
  · rename_i recorded found
    have wrong := List.find?_some found
    have member := List.mem_of_find?_eq_some found
    rw [List.mem_append, Option.mem_toList, Option.mem_toList] at member
    simp only [reduceCtorEq, false_iff, not_and]
    intro size elementSize
    rcases member with member | member
    · simp [size recorded member] at wrong
    · simp [elementSize recorded member] at wrong
  · rename_i absent
    simpa [List.find?_eq_none, or_imp, forall_and] using absent

private theorem one_le_of_nonempty {length : Option Nat} (nonempty : length ≠ some 0) (n : Nat)
    (array : length = some n) : 1 ≤ n :=
  Nat.one_le_iff_ne_zero.mpr fun empty => nonempty (array.trans (congrArg some empty))

theorem DocumentField.simpleType_of_bitWidth {field : DocumentField} {struct : String}
    {type : FieldType} {width : Nat} (narrowed : field.bitWidth = some width) :
    field.simpleType struct = .ok type ↔
      ∃ base, field.type = base.name ∧ (1 ≤ width ∧ width ≤ maxBitfieldWidth) ∧
        field.length = none ∧ type = .bitfield base width := by
  have fits : ¬ (width = 0 ∨ maxBitfieldWidth < width) ↔ 1 ≤ width ∧ width ≤ maxBitfieldWidth := by
    omega
  rw [simpleType, bind_eq_ok_iff, narrowed]
  simp only [baseType_eq_ok_iff, ← fits, ← Option.not_isSome_iff_eq_none]
  refine exists_congr fun base => and_congr_right fun _ => ?_
  split
  · exact iff_of_false nofun fun both => both.1 ‹_›
  · split
    · exact iff_of_false nofun fun both => both.2.1 ‹_›
    · exact ⟨fun same => ⟨‹_›, ‹_›, (Except.ok.inj same).symm⟩, fun both => both.2.2 ▸ rfl⟩

theorem DocumentField.simpleType_of_noBitWidth {field : DocumentField} {struct : String}
    {type : FieldType} (whole : field.bitWidth = none) :
    field.simpleType struct = .ok type ↔
      ∃ base, field.type = base.name ∧ field.checkSizes struct base = .ok () ∧
        type = .plain base := by
  rw [simpleType, bind_eq_ok_iff, whole]
  simp only [baseType_eq_ok_iff, bind_eq_ok_iff]
  refine exists_congr fun base => and_congr_right fun _ => ?_
  constructor
  · rintro ⟨⟨⟩, sizes, same⟩
    exact ⟨sizes, (Except.ok.inj same).symm⟩
  · rintro ⟨sizes, rfl⟩
    exact ⟨(), sizes, rfl⟩

/-- A field without a nested document is restored as a bitfield or a base type. -/
theorem DocumentField.simpleType_eq_ok_iff {field : DocumentField} {struct : String}
    {type : FieldType} (flat : field.nested = none) (nonempty : field.length ≠ some 0) :
    field.simpleType struct = .ok type ↔
      field.type = type.name ∧ field.HasType type ∧
        Member.Admissible ⟨field.name, type, field.length⟩ := by
  have array := one_le_of_nonempty nonempty
  cases narrowed : field.bitWidth with
  | some width =>
    rw [simpleType_of_bitWidth narrowed]
    constructor
    · rintro ⟨base, named, bounds, single, rfl⟩
      refine ⟨named, .bitfield flat narrowed, ⟨?_, array⟩, nofun⟩
      rintro _ _ ⟨⟩
      exact ⟨bounds.1, bounds.2, single⟩
    · rintro ⟨named, kind, regular, _⟩
      cases kind with
      | nested embeds => cases flat.symm.trans embeds
      | @bitfield _ base _ _ alsoNarrowed =>
        obtain rfl := Option.some.inj (narrowed.symm.trans alsoNarrowed)
        obtain ⟨positive, narrow, single⟩ := regular.bitfield base width rfl
        exact ⟨base, named, ⟨positive, narrow⟩, single, rfl⟩
      | plain _ whole => cases narrowed.symm.trans whole
  | none =>
    simp only [simpleType_of_noBitWidth narrowed, checkSizes_eq_ok_iff]
    constructor
    · rintro ⟨base, named, sizes, rfl⟩
      exact ⟨named, .plain flat narrowed sizes.1 sizes.2, ⟨nofun, array⟩, nofun⟩
    · rintro ⟨named, kind, _⟩
      cases kind with
      | nested embeds => cases flat.symm.trans embeds
      | bitfield _ alsoNarrowed => cases narrowed.symm.trans alsoNarrowed
      | @plain _ base _ _ size elementSize => exact ⟨base, named, ⟨size, elementSize⟩, rfl⟩

theorem DocumentField.check_eq_ok_iff {recorded : DocumentField} {struct : String} {field : Field} :
    recorded.check struct field = .ok () ↔
      recorded.offset = field.offset ∧ ∀ text, recorded.mask = some text →
        Text.numeral? 16 (Text.dropHexMark text.toList) = some field.range.maskNumber := by
  unfold check
  split
  · simp_all
  · rename_i same
    split
    · simp_all
    · rename_i mask found
      simp only [← BitRange.maskMatches_iff, found]
      split <;> simp_all

theorem forM_eq_ok_iff {ε α : Type} {action : α → Except ε Unit} {items : List α} :
    items.forM action = .ok () ↔ ∀ item ∈ items, action item = .ok () := by
  induction items with
  | nil => simp [pure, Except.pure]
  | cons item rest ih =>
    change (action item >>= fun _ => rest.forM action) = .ok () ↔ _
    rw [bind_eq_ok_iff, List.forall_mem_cons, ← ih]
    exact ⟨fun ⟨⟨⟩, here, later⟩ => ⟨here, later⟩, fun ⟨here, later⟩ => ⟨(), here, later⟩⟩

theorem Document.check_eq_ok_iff {document : Document} {layout : Layout} :
    document.check layout = .ok () ↔
      (∀ pair ∈ document.fields.zip layout.fields, pair.1.check document.name pair.2 = .ok ()) ∧
        document.bits = layout.bits ∧ document.bytes = layout.byteSize := by
  have steps : document.check layout = .ok () ↔
      ((document.fields.zip layout.fields).forM fun pair =>
        pair.1.check document.name pair.2) = .ok () ∧
      ¬ (document.bits ≠ layout.bits ∨ document.bytes ≠ layout.byteSize) := by
    unfold check
    rw [bind_eq_ok_iff]
    constructor
    · rintro ⟨⟨⟩, fields, totals⟩
      split at totals
      · cases totals
      · exact ⟨fields, ‹_›⟩
    · rintro ⟨fields, totals⟩
      exact ⟨(), fields, if_neg totals⟩
  rw [steps, forM_eq_ok_iff, not_or, not_not, not_not]

theorem restoreFields_cons_eq_ok_iff {struct : String} {taken : List String}
    {field : DocumentField} {rest : List DocumentField} {members : List Member}
    {nested : List Layout} :
    restoreFields struct taken (field :: rest) = .ok (members, nested) ↔
      field.name ∉ taken ∧ field.length ≠ some 0 ∧ ∃ type inner later others,
        field.restoreType struct = .ok (type, inner) ∧
          restoreFields struct (field.name :: taken) rest = .ok (later, others) ∧
          members = ⟨field.name, type, field.length⟩ :: later ∧ nested = inner ++ others := by
  rw [restoreFields]
  rw [refuse_eq_ok_iff, refuse_eq_ok_iff, List.contains_iff_mem]
  refine and_congr_right fun _ => and_congr_right fun _ => ?_
  rw [bind_eq_ok_iff]
  constructor
  · rintro ⟨⟨type, inner⟩, restored, rest⟩
    obtain ⟨⟨later, others⟩, tail, same⟩ := bind_eq_ok_iff.mp rest
    obtain ⟨rfl, rfl⟩ := Prod.mk.inj (Except.ok.inj same)
    exact ⟨type, inner, later, others, restored, tail, rfl, rfl⟩
  · rintro ⟨type, inner, later, others, restored, tail, rfl, rfl⟩
    exact ⟨(type, inner), restored, bind_eq_ok_iff.mpr ⟨(later, others), tail, rfl⟩⟩

theorem Document.restore_eq_ok_iff {document : Document} {layout : Layout}
    {nested : List Layout} :
    document.restore = .ok (layout, nested) ↔
      ∃ members, restoreFields document.name [] document.fields = .ok (members, nested) ∧
        Layout.ofMembers document.name document.order members = .ok layout ∧
        document.check layout = .ok () := by
  obtain ⟨name, order, bits, bytes, fields⟩ := document
  rw [restore, bind_eq_ok_iff]
  constructor
  · rintro ⟨⟨members, inner⟩, restored, rest⟩
    obtain ⟨made, placed, rest⟩ := bind_eq_ok_iff.mp rest
    obtain ⟨⟨⟩, checked, same⟩ := bind_eq_ok_iff.mp rest
    obtain ⟨rfl, rfl⟩ := Prod.mk.inj (Except.ok.inj same)
    exact ⟨members, restored, mapError_eq_ok_iff.mp placed, checked⟩
  · rintro ⟨members, restored, placed, checked⟩
    exact ⟨(members, nested), restored, bind_eq_ok_iff.mpr
      ⟨layout, mapError_eq_ok_iff.mpr placed, bind_eq_ok_iff.mpr ⟨(), checked, rfl⟩⟩⟩

def Document.RestoresDescribed (document : Document) : Prop :=
  ∀ layout nested, document.restore = .ok (layout, nested) ↔
    document.Describes layout ∧ layout.Admissible ∧ nested = layout.inner

theorem DocumentField.restoreType_of_flat {field : DocumentField} {struct : String}
    {type : FieldType} {inner : List Layout} (flat : field.nested = none) :
    field.restoreType struct = .ok (type, inner) ↔
      field.simpleType struct = .ok type ∧ inner = [] := by
  obtain ⟨_, _, _, _, _, _, _, _, _⟩ := field
  obtain rfl : _ = none := flat
  rw [restoreType, bind_eq_ok_iff]
  constructor
  · rintro ⟨_, restored, same⟩
    obtain ⟨rfl, rfl⟩ := Prod.mk.inj (Except.ok.inj same)
    exact ⟨restored, rfl⟩
  · rintro ⟨restored, rfl⟩
    exact ⟨type, restored, rfl⟩

theorem DocumentField.restoreType_of_nested {field : DocumentField} {struct : String}
    {type : FieldType} {inner : List Layout} {document : Document}
    (embeds : field.nested = some document) :
    field.restoreType struct = .ok (type, inner) ↔
      document.name = field.type ∧ ∃ layout deeper, document.restore = .ok (layout, deeper) ∧
        type = .nested layout ∧ inner = deeper ++ [layout] := by
  obtain ⟨_, _, _, _, _, _, _, _, _⟩ := field
  obtain rfl : _ = some document := embeds
  rw [restoreType, refuse_eq_ok_iff, not_not, bind_eq_ok_iff]
  refine and_congr_right fun _ => ?_
  constructor
  · rintro ⟨⟨layout, deeper⟩, restored, same⟩
    obtain ⟨rfl, rfl⟩ := Prod.mk.inj (Except.ok.inj same)
    exact ⟨layout, deeper, restored, rfl, rfl⟩
  · rintro ⟨layout, deeper, restored, rfl, rfl⟩
    exact ⟨(layout, deeper), restored, rfl⟩

theorem DocumentField.restoreType_eq_ok_iff {field : DocumentField} {struct : String}
    {type : FieldType} {inner : List Layout}
    (embedded : ∀ document, field.nested = some document → document.RestoresDescribed)
    (nonempty : field.length ≠ some 0) :
    field.restoreType struct = .ok (type, inner) ↔
      field.type = type.name ∧ field.HasType type ∧
        Member.Admissible ⟨field.name, type, field.length⟩ ∧ inner = type.inner := by
  cases nested : field.nested with
  | none =>
    rw [restoreType_of_flat nested, simpleType_eq_ok_iff nested nonempty]
    constructor
    · rintro ⟨⟨named, kind, admissible⟩, rfl⟩
      exact ⟨named, kind, admissible, (kind.inner_eq_nil nested).symm⟩
    · rintro ⟨named, kind, admissible, rfl⟩
      exact ⟨⟨named, kind, admissible⟩, kind.inner_eq_nil nested⟩
  | some document =>
    have restores := embedded document nested
    rw [restoreType_of_nested nested]
    constructor
    · rintro ⟨named, layout, deeper, inside, rfl, rfl⟩
      obtain ⟨describes, admissible, rfl⟩ := (restores _ _).mp inside
      refine ⟨named.symm.trans describes.name, .nested nested describes,
        ⟨⟨nofun, one_le_of_nonempty nonempty⟩, ?_⟩, by rw [FieldType.inner]⟩
      rintro _ ⟨⟩
      exact admissible
    · rintro ⟨named, kind, admissible, rfl⟩
      obtain ⟨layout, rfl, describes⟩ := kind.embedded nested
      refine ⟨describes.name.trans named.symm, layout, layout.inner, ?_, rfl,
        by rw [FieldType.inner]⟩
      exact (restores _ _).mpr ⟨describes, admissible.inside layout rfl, rfl⟩

theorem restoreFields_eq_ok_iff {struct : String} {taken : List String}
    {fields : List DocumentField} {members : List Member} {nested : List Layout}
    (embedded : ∀ field ∈ fields, ∀ document, field.nested = some document →
      document.RestoresDescribed) :
    restoreFields struct taken fields = .ok (members, nested) ↔
      List.Forall₂ DocumentField.Declares fields members ∧
        (∀ member ∈ members, member.Admissible) ∧
        ((∀ member ∈ members, member.name ∉ taken) ∧ (members.map Member.name).Nodup) ∧
        nested = members.flatMap fun member => member.type.inner := by
  induction fields generalizing taken members nested with
  | nil =>
    rw [restoreFields, List.forall₂_nil_left_iff]
    constructor
    · intro same
      obtain ⟨rfl, rfl⟩ := Prod.mk.inj (Except.ok.inj same)
      simp
    · rintro ⟨rfl, _, _, rfl⟩
      rfl
  | cons field rest ih =>
    have here := embedded field List.mem_cons_self
    have later (taken : List String) (members : List Member) (nested : List Layout) :=
      @ih taken members nested fun other member =>
        embedded other (List.mem_cons_of_mem _ member)
    rw [restoreFields_cons_eq_ok_iff]
    constructor
    · rintro ⟨fresh, nonempty, type, inner, members, others, restored, tail, rfl, rfl⟩
      obtain ⟨named, kind, admissible, rfl⟩ :=
        (DocumentField.restoreType_eq_ok_iff here nonempty).mp restored
      obtain ⟨declared, each, names, rfl⟩ := (later _ _ _).mp tail
      exact ⟨.cons (.intro rfl named rfl kind) declared,
        List.forall_mem_cons.mpr ⟨admissible, each⟩, fresh_cons_iff.mpr ⟨fresh, names⟩, rfl⟩
    · rintro ⟨declared, each, names, rfl⟩
      cases declared with
      | @cons _ member _ members declares declared =>
        obtain ⟨name, length⟩ := declares.name_length
        have same : (⟨field.name, member.type, field.length⟩ : Member) = member := by
          rw [name, length]
        obtain ⟨admissible, others⟩ := List.forall_mem_cons.mp each
        obtain ⟨fresh, names⟩ := fresh_cons_iff.mp names
        rw [← name] at fresh names
        have nonempty : field.length ≠ some 0 := by
          intro empty
          rw [length] at empty
          exact absurd (admissible.regular.array 0 empty) (by decide)
        refine ⟨fresh, nonempty, member.type, member.type.inner, members, _,
          (DocumentField.restoreType_eq_ok_iff here nonempty).mpr
            ⟨declares.type, declares.kind, same ▸ admissible, rfl⟩,
          (later _ _ _).mpr ⟨declared, others, names, rfl⟩, by rw [same], rfl⟩

theorem Document.restoresDescribed (document : Document) : document.RestoresDescribed := by
  induction document using nestedInduction with
  | step document embedded =>
    intro layout nested
    rw [restore_eq_ok_iff]
    constructor
    · rintro ⟨members, restored, placed, checked⟩
      -- The members are placed without a look at the document; the check compares afterwards.
      obtain ⟨declared, each, ⟨_, distinct⟩, rfl⟩ :=
        (restoreFields_eq_ok_iff embedded).mp restored
      obtain ⟨checks, bits, bytes⟩ := check_eq_ok_iff.mp checked
      have admissible := Layout.admissible_of_ofMembers placed distinct
        (fun member inside => (each member inside).regular)
        fun member inside => (each member inside).inside
      obtain ⟨fields, name, order⟩ := Layout.ofMembers_eq_ok_iff.mp placed
      obtain ⟨rfl, _⟩ := placeAll_eq_ok fields
      rw [List.forall₂_map_right_iff, List.forall₂_iff_zip] at declared
      refine ⟨.intro name.symm order.symm bits bytes (List.forall₂_iff_zip.mpr
        ⟨declared.1, fun pair => ?_⟩), admissible, ?_⟩
      · obtain ⟨offset, mask⟩ := DocumentField.check_eq_ok_iff.mp (checks _ pair)
        exact .intro (declared.2 pair) offset mask
      · rw [Layout.inner_eq, List.flatMap_map]
        rfl
    · rintro ⟨describes, admissible, rfl⟩
      cases describes with
      | intro name order bits bytes fields =>
        have regular := admissible.here
        have members : ∀ member ∈ layout.fields.map Field.member, member.Admissible :=
          List.forall_mem_map.mpr fun field member =>
            ⟨regular.members field member, fun _ => admissible.inside member⟩
        refine ⟨layout.fields.map Field.member, (restoreFields_eq_ok_iff embedded).mpr
          ⟨?_, members, ⟨fun _ _ => List.not_mem_nil, ?_⟩, ?_⟩, ?_,
          check_eq_ok_iff.mpr ⟨?_, bits, bytes⟩⟩
        · rw [List.forall₂_map_right_iff]
          exact fields.imp fun _ _ => DocumentField.Describes.declares
        · rw [List.map_map]
          exact regular.distinct
        · rw [Layout.inner_eq, List.flatMap_map]
          rfl
        · rw [name, order]
          exact regular.placed
        · rintro pair inside
          have described := (List.forall₂_iff_zip.mp fields).2 inside
          exact DocumentField.check_eq_ok_iff.mpr ⟨described.offset, described.mask⟩

end PackedStruct
