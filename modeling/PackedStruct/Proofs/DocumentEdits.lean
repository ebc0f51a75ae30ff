import Mathlib.Logic.Relation
import PackedStruct.Proofs.ExportedDocument

namespace PackedStruct

/-- One change somewhere in a document: to the document itself, to one of its fields or, at any
depth, to a document nested in it. -/
inductive Document.Edited (onDocument : Document → Document → Prop)
    (onField : DocumentField → DocumentField → Prop) : Document → Document → Prop where
  | here {document other : Document} (changed : onDocument document other) :
    Edited onDocument onField document other
  | field {document : Document} {before after : List DocumentField} {field other : DocumentField}
      (fields : document.fields = before ++ field :: after) (changed : onField field other) :
      Edited onDocument onField document { document with fields := before ++ other :: after }
  | nested {document : Document} {before after : List DocumentField} {field : DocumentField}
      {inner other : Document} (fields : document.fields = before ++ field :: after)
      (embeds : field.nested = some inner) (changed : Edited onDocument onField inner other) :
      Edited onDocument onField document
        { document with fields := before ++ { field with nested := some other } :: after }

/-- The field without its mask, its size or its element size, or with its mask spelled in another
way. -/
inductive DocumentField.Relaxed : DocumentField → DocumentField → Prop where
  | mask (field : DocumentField) : field.Relaxed { field with mask := none }
  | size (field : DocumentField) : field.Relaxed { field with size := none }
  | elementSize (field : DocumentField) : field.Relaxed { field with elementSize := none }
  | spelling (field : DocumentField) {text other : String} (recorded : field.mask = some text)
      (respelled : Text.Respelled text other) : field.Relaxed { field with mask := some other }

inductive DocumentField.Moved : DocumentField → DocumentField → Prop where
  | intro (field : DocumentField) {offset : Nat} (differs : offset ≠ field.offset) :
    field.Moved { field with offset := offset }

inductive Document.Resized : Document → Document → Prop where
  | bits (document : Document) {bits : Nat} (differs : bits ≠ document.bits) :
    document.Resized { document with bits := bits }
  | bytes (document : Document) {bytes : Nat} (differs : bytes ≠ document.bytes) :
    document.Resized { document with bytes := bytes }

namespace Document

/-- One entry somewhere in the document is left out or spelled in another way. -/
def Relaxed : Document → Document → Prop :=
  Edited (fun _ _ => False) DocumentField.Relaxed

/-- One offset or total somewhere in the document is another one. -/
def Corrupted : Document → Document → Prop :=
  Edited Resized DocumentField.Moved

end Document

section Replace

variable {α β : Type} {relation : α → β → Prop} {before after : List α} {item other : α}
  {results : List β}

theorem forall₂_replace (related : List.Forall₂ relation (before ++ item :: after) results)
    (implies : ∀ result, relation item result → relation other result) :
    List.Forall₂ relation (before ++ other :: after) results := by
  induction before generalizing results with
  | nil =>
    obtain ⟨result, rest, here, later, rfl⟩ := List.forall₂_cons_left_iff.mp related
    exact .cons (implies result here) later
  | cons first before ih =>
    obtain ⟨result, rest, here, later, rfl⟩ := List.forall₂_cons_left_iff.mp related
    exact .cons here (ih later)

theorem exists_of_forall₂_append
    (related : List.Forall₂ relation (before ++ item :: after) results) :
    ∃ result ∈ results, relation item result :=
  exists_of_mem_right related.flip (List.mem_append_right before List.mem_cons_self)

end Replace

theorem DocumentField.HasType.weaken {recorded other : DocumentField} {type : FieldType}
    (kind : recorded.HasType type) (bitWidth : other.bitWidth = recorded.bitWidth)
    (nested : other.nested = recorded.nested)
    (size : ∀ n, other.size = some n → recorded.size = some n)
    (elementSize : ∀ n, other.elementSize = some n → recorded.elementSize = some n) :
    other.HasType type := by
  cases kind with
  | nested embeds inside => exact .nested (nested.trans embeds) inside
  | bitfield flat narrowed => exact .bitfield (nested.trans flat) (bitWidth.trans narrowed)
  | plain flat whole bits elementBits =>
    exact .plain (nested.trans flat) (bitWidth.trans whole) (fun n found => bits n (size n found))
      fun n found => elementBits n (elementSize n found)

/-- A field that keeps its structure and its offset describes the same as long as it records no
other size and no mask of another number. -/
theorem DocumentField.Describes.weaken {recorded other : DocumentField} {field : Field}
    (describes : recorded.Describes field) (name : other.name = recorded.name)
    (type : other.type = recorded.type) (length : other.length = recorded.length)
    (offset : other.offset = recorded.offset) (bitWidth : other.bitWidth = recorded.bitWidth)
    (nested : other.nested = recorded.nested)
    (size : ∀ n, other.size = some n → recorded.size = some n)
    (elementSize : ∀ n, other.elementSize = some n → recorded.elementSize = some n)
    (mask : ∀ text, other.mask = some text →
      Text.numeral? 16 (Text.dropHexMark text.toList) = some field.range.maskNumber) :
    other.Describes field := by
  have declares := describes.declares
  obtain ⟨sameName, sameLength⟩ := declares.name_length
  exact .intro (.intro (name.trans sameName) (type.trans declares.type) (length.trans sameLength)
    (declares.kind.weaken bitWidth nested size elementSize)) (offset.trans describes.offset) mask

theorem DocumentField.Relaxed.describes {recorded other : DocumentField} {field : Field}
    (relaxed : recorded.Relaxed other) (describes : recorded.Describes field) :
    other.Describes field := by
  cases relaxed with
  | mask => exact describes.weaken rfl rfl rfl rfl rfl rfl (fun _ => id) (fun _ => id) nofun
  | size =>
    exact describes.weaken rfl rfl rfl rfl rfl rfl nofun (fun _ => id) describes.mask
  | elementSize =>
    exact describes.weaken rfl rfl rfl rfl rfl rfl (fun _ => id) nofun describes.mask
  | spelling found respelled =>
    refine describes.weaken rfl rfl rfl rfl rfl rfl (fun _ => id) (fun _ => id) ?_
    rintro _ ⟨⟩
    exact respelled.numeral? (describes.mask _ found)

theorem DocumentField.Describes.nest {recorded : DocumentField} {field : Field}
    {inner other : Document} (describes : recorded.Describes field)
    (embeds : recorded.nested = some inner)
    (implies : ∀ layout, inner.Describes layout → other.Describes layout) :
    { recorded with nested := some other }.Describes field := by
  have declares := describes.declares
  obtain ⟨name, length⟩ := declares.name_length
  obtain ⟨layout, type, inside⟩ := declares.kind.embedded embeds
  refine .intro (.intro name declares.type length ?_) describes.offset describes.mask
  rw [type]
  exact .nested rfl (implies layout inside)

theorem Document.Relaxed.describes {document other : Document} {layout : Layout}
    (relaxed : document.Relaxed other) (describes : document.Describes layout) :
    other.Describes layout := by
  induction relaxed generalizing layout with
  | here changed => cases changed
  | field fields changed =>
    cases describes with
    | intro name order bits bytes described =>
      rw [fields] at described
      exact .intro name order bits bytes (forall₂_replace described fun _ => changed.describes)
  | nested fields embeds changed ih =>
    cases describes with
    | intro name order bits bytes described =>
      rw [fields] at described
      exact .intro name order bits bytes (forall₂_replace described fun _ here =>
        here.nest embeds fun _ => ih)

theorem BaseType.name_inj {first second : BaseType} (same : first.name = second.name) :
    first = second :=
  Option.some.inj ((ofName?_name first).symm.trans (same ▸ ofName?_name second))

/-- A document describes one admissible layout at most. -/
theorem Document.Describes.unique {document : Document} {first second : Layout}
    (describes : document.Describes first) (admissible : first.Admissible)
    (alsoDescribes : document.Describes second) (alsoAdmissible : second.Admissible) :
    first = second := by
  -- Restoring is a function.
  have restored := (document.restoresDescribed first first.inner).mpr ⟨describes, admissible, rfl⟩
  have again :=
    (document.restoresDescribed second second.inner).mpr ⟨alsoDescribes, alsoAdmissible, rfl⟩
  exact congrArg Prod.fst (Except.ok.inj (restored.symm.trans again))

theorem DocumentField.HasType.unique {recorded : DocumentField} {first second : FieldType}
    (kind : recorded.HasType first) (otherKind : recorded.HasType second)
    (name : first.name = second.name) (inside : first.Everywhere Layout.Regular)
    (otherInside : second.Everywhere Layout.Regular) : first = second := by
  cases kind with
  | @nested _ document layout embeds described =>
    obtain ⟨other, rfl, alsoDescribed⟩ := otherKind.embedded embeds
    have same := described.unique (inside layout rfl) alsoDescribed (otherInside other rfl)
    rw [same]
  | @bitfield _ base width flat narrowed =>
    cases otherKind with
    | nested embeds => cases flat.symm.trans embeds
    | bitfield _ alsoNarrowed =>
      obtain rfl := Option.some.inj (narrowed.symm.trans alsoNarrowed)
      rw [BaseType.name_inj name]
    | plain _ whole => cases narrowed.symm.trans whole
  | plain flat whole =>
    cases otherKind with
    | nested embeds => cases flat.symm.trans embeds
    | bitfield _ narrowed => cases narrowed.symm.trans whole
    | plain => rw [BaseType.name_inj name]

theorem DocumentField.Declares.unique {recorded : DocumentField} {first second : Member}
    (declares : recorded.Declares first) (alsoDeclares : recorded.Declares second)
    (inside : first.type.Everywhere Layout.Regular)
    (otherInside : second.type.Everywhere Layout.Regular) : first = second := by
  obtain ⟨name, length⟩ := declares.name_length
  obtain ⟨otherName, otherLength⟩ := alsoDeclares.name_length
  have type := declares.kind.unique alsoDeclares.kind
    (declares.type.symm.trans alsoDeclares.type) inside otherInside
  obtain ⟨_, _, _⟩ := first
  obtain ⟨_, _, _⟩ := second
  obtain rfl := type
  obtain rfl := name.symm.trans otherName
  obtain rfl := length.symm.trans otherLength
  rfl

theorem members_unique {fields : List DocumentField} {first second : List Member}
    (declares : List.Forall₂ DocumentField.Declares fields first)
    (alsoDeclares : List.Forall₂ DocumentField.Declares fields second)
    (inside : ∀ member ∈ first, member.type.Everywhere Layout.Regular)
    (otherInside : ∀ member ∈ second, member.type.Everywhere Layout.Regular) : first = second := by
  induction declares generalizing second with
  | nil => exact (List.forall₂_nil_left_iff.mp alsoDeclares).symm
  | cons here _ ih =>
    obtain ⟨member, rest, alsoHere, later, rfl⟩ := List.forall₂_cons_left_iff.mp alsoDeclares
    obtain ⟨inHere, inLater⟩ := List.forall_mem_cons.mp inside
    obtain ⟨otherInHere, otherInLater⟩ := List.forall_mem_cons.mp otherInside
    rw [here.unique alsoHere inHere otherInHere, ih later inLater otherInLater]

namespace Document

theorem Describes.declares {document : Document} {layout : Layout}
    (describes : document.Describes layout) :
    List.Forall₂ DocumentField.Declares document.fields (layout.fields.map Field.member) := by
  cases describes with
  | intro _ _ _ _ fields =>
    rw [List.forall₂_map_right_iff]
    exact fields.imp fun _ _ => DocumentField.Describes.declares

theorem Describes.order {document : Document} {layout : Layout}
    (describes : document.Describes layout) : document.order = layout.order := by
  cases describes with
  | intro _ order => exact order

theorem Describes.totals {document : Document} {layout : Layout}
    (describes : document.Describes layout) :
    document.bits = layout.bits ∧ document.bytes = layout.byteSize := by
  cases describes with
  | intro _ _ bits bytes => exact ⟨bits, bytes⟩

theorem Describes.offsets {document : Document} {layout : Layout}
    (describes : document.Describes layout) :
    document.fields.map DocumentField.offset = layout.fields.map Field.offset := by
  cases describes with
  | intro _ _ _ _ fields =>
    rw [← List.forall₂_eq_eq_eq, List.forall₂_map_left_iff, List.forall₂_map_right_iff]
    exact fields.imp fun _ _ => DocumentField.Describes.offset

/-- The layout depends on what is declared only. -/
theorem Describes.eq_of_declares {document other : Document} {layout otherLayout : Layout}
    (describes : document.Describes layout) (admissible : layout.Admissible)
    (otherDescribes : other.Describes otherLayout) (otherAdmissible : otherLayout.Admissible)
    (name : other.name = document.name) (order : other.order = document.order)
    (declares : ∀ members, List.Forall₂ DocumentField.Declares other.fields members →
      List.Forall₂ DocumentField.Declares document.fields members) : otherLayout = layout := by
  have inside {layout : Layout} (admissible : layout.Admissible) :
      ∀ member ∈ layout.fields.map Field.member, member.type.Everywhere Layout.Regular :=
    List.forall_mem_map.mpr fun field member inner => admissible.inside member
  have members := members_unique (declares _ otherDescribes.declares) describes.declares
    (inside otherAdmissible) (inside admissible)
  have names : otherLayout.name = layout.name := by
    rw [← otherDescribes.name, name, describes.name]
  have orders : otherLayout.order = layout.order := by
    rw [← otherDescribes.order, order, describes.order]
  exact otherAdmissible.here.placed.ext admissible.here.placed names orders members

/-- A document and a corrupted form of it do not both describe admissible layouts. -/
theorem Corrupted.not_describes {document other : Document} (corrupted : document.Corrupted other)
    {layout : Layout} (describes : document.Describes layout) (admissible : layout.Admissible)
    {otherLayout : Layout} (otherAdmissible : otherLayout.Admissible) :
    ¬ other.Describes otherLayout := by
  intro otherDescribes
  -- Totals and offsets declare nothing, so that both layouts are the same one. A nested document
  -- is left to the induction: it and its corrupted form describe the layouts of nested structs.
  induction corrupted generalizing layout otherLayout with
  | here changed =>
    cases changed with
    | bits differs =>
      obtain rfl := describes.eq_of_declares admissible otherDescribes otherAdmissible rfl rfl
        fun _ => id
      exact differs (otherDescribes.totals.1.trans describes.totals.1.symm)
    | bytes differs =>
      obtain rfl := describes.eq_of_declares admissible otherDescribes otherAdmissible rfl rfl
        fun _ => id
      exact differs (otherDescribes.totals.2.trans describes.totals.2.symm)
  | @field document before after field moved fields changed =>
    cases changed with
    | @intro offset differs =>
      have declares (members : List Member) (declared : List.Forall₂ DocumentField.Declares
          (before ++ { field with offset := offset } :: after) members) :
          List.Forall₂ DocumentField.Declares document.fields members := by
        rw [fields]
        refine forall₂_replace declared fun member here => ?_
        obtain ⟨name, length⟩ := here.name_length
        exact .intro name here.type length (here.kind.weaken rfl rfl (fun _ => id) fun _ => id)
      obtain rfl := describes.eq_of_declares admissible otherDescribes otherAdmissible rfl rfl
        declares
      have offsets := otherDescribes.offsets.trans describes.offsets.symm
      rw [fields, List.map_append, List.map_append] at offsets
      exact differs (List.cons.inj (List.append_cancel_left offsets)).1
  | @nested document before after field inner changedInner fields embeds changed ih =>
    cases describes with
    | intro _ _ _ _ described =>
      cases otherDescribes with
      | intro _ _ _ _ otherDescribed =>
        rw [fields] at described
        obtain ⟨placed, member, here⟩ := exists_of_forall₂_append described
        obtain ⟨otherPlaced, otherMember, otherHere⟩ := exists_of_forall₂_append otherDescribed
        obtain ⟨nested, type, inside⟩ := here.declares.kind.embedded embeds
        obtain ⟨otherNested, otherType, otherInside⟩ := otherHere.declares.kind.embedded rfl
        exact ih inside (admissible.inside member type)
          (otherAdmissible.inside otherMember otherType) otherInside

/-- A document from which a layout is restored describes it at every depth, and the layout has its
fields where they are placed anew. It is restored as well if entries of the document are left out
or spelled in another way, and nothing is restored if one offset or total is another one. -/
theorem restore_of_edited (document : Document) (layout : Layout) (nested : List Layout)
    (restored : document.restore = .ok (layout, nested)) :
    document.Describes layout ∧ layout.Admissible ∧
      (∀ other, Relation.ReflTransGen Relaxed document other →
        other.restore = .ok (layout, nested)) ∧
      ∀ other, document.Corrupted other → ∀ result, other.restore ≠ .ok result := by
  obtain ⟨describes, admissible, rfl⟩ := (document.restoresDescribed layout nested).mp restored
  refine ⟨describes, admissible, fun other relaxed => ?_, fun other corrupted result found => ?_⟩
  · refine (other.restoresDescribed layout layout.inner).mpr ⟨?_, admissible, rfl⟩
    induction relaxed with
    | refl => exact describes
    | tail _ step ih => exact step.describes ih
  · obtain ⟨otherLayout, otherNested⟩ := result
    obtain ⟨otherDescribes, otherAdmissible, _⟩ :=
      (other.restoresDescribed otherLayout otherNested).mp found
    exact corrupted.not_describes describes admissible otherAdmissible otherDescribes

theorem restore_of_edited_frame :
    Sample.frame.document.restore = .ok (Sample.frame, [Sample.point]) ∧
      (∀ other, Relation.ReflTransGen Relaxed Sample.frame.document other →
        other.restore = .ok (Sample.frame, [Sample.point])) ∧
      ∀ other, Sample.frame.document.Corrupted other → ∀ result, other.restore ≠ .ok result := by
  have restored : Sample.frame.document.restore = .ok (Sample.frame, [Sample.point]) :=
    Sample.frame_storable.admissible.restore_document
  exact ⟨restored, (restore_of_edited _ _ _ restored).2.2⟩

end Document

end PackedStruct
