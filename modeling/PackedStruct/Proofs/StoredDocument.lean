import PackedStruct.Session
import PackedStruct.Proofs.DeclaredLayout
import PackedStruct.Proofs.DocumentJson
import PackedStruct.Proofs.ExportedDocument

namespace PackedStruct

/-- The arrays of a layout have the lengths that its document records. -/
theorem Document.WordSized.wordLengths {document : Document} (small : document.WordSized)
    {layout : Layout} (describes : document.Describes layout) :
    layout.Everywhere Layout.WordLengths := by
  induction small generalizing layout with
  | @intro document _ _ numbers _ ih =>
    cases describes with
    | intro _ _ _ _ fields =>
      refine .intro ?_ ?_
      · intro field member length array
        obtain ⟨recorded, inside, described⟩ := exists_of_mem_right fields member
        refine numbers recorded inside length ?_
        have same : recorded.length = some length := described.declares.name_length.2.trans array
        simp [DocumentField.numbers, same]
      · intro field member inner type
        obtain ⟨recorded, inside, described⟩ := exists_of_mem_right fields member
        have kind := described.declares.kind
        change recorded.HasType field.type at kind
        rw [type] at kind
        cases kind with
        | nested embeds inside' => exact ih recorded inside _ embeds inside'

theorem Field.numbers_documentField_lt {field : Field} (offset : field.offset < UInt64.size)
    (length : ∀ n, field.length = some n → n < UInt64.size)
    (width : ∀ base n, field.type = .bitfield base n → n < UInt64.size) :
    ∀ n ∈ field.documentField.numbers, n < UInt64.size := by
  have bits (base : BaseType) : base.bits < UInt64.size := by cases base <;> decide
  obtain ⟨name, type, length', place⟩ := field
  intro n member
  cases type with
  | bitfield base narrow =>
    simp only [documentField, DocumentField.numbers, List.mem_cons, List.mem_append,
      Option.mem_toList, reduceCtorEq, or_false, Option.some.injEq] at member
    rcases member with rfl | rfl | array
    · exact offset
    · exact width base _ rfl
    · exact length n array
  | plain base =>
    cases length' with
    | none =>
      simp only [documentField, DocumentField.numbers, List.mem_cons, List.mem_append,
        Option.mem_toList, reduceCtorEq, or_false, false_or, Option.some.injEq] at member
      rcases member with rfl | rfl
      · exact offset
      · exact bits base
    | some count =>
      simp only [documentField, DocumentField.numbers, List.mem_cons, List.mem_append,
        Option.mem_toList, reduceCtorEq, false_or, Option.some.injEq] at member
      rcases member with rfl | rfl | rfl
      · exact offset
      · exact bits base
      · exact length _ rfl
  | nested inner =>
    simp only [documentField, DocumentField.numbers, List.mem_cons, List.mem_append,
      Option.mem_toList, reduceCtorEq, false_or] at member
    rcases member with rfl | array
    · exact offset
    · exact length n array

theorem Field.nested_documentField_iff {field : Field} {document : Document} :
    field.documentField.nested = some document ↔
      ∃ inner, field.type = .nested inner ∧ document = inner.document := by
  obtain ⟨name, type, length, offset⟩ := field
  cases type with
  | bitfield base width => exact ⟨nofun, nofun⟩
  | plain base => cases length <;> exact ⟨nofun, nofun⟩
  | nested inner =>
    constructor
    · intro embeds
      exact ⟨inner, rfl, (Option.some.inj embeds).symm⟩
    · rintro ⟨_, ⟨⟩, rfl⟩
      rfl

namespace Layout

theorem Regular.offset_le {layout : Layout} (regular : layout.Regular) {field : Field}
    (member : field ∈ layout.fields) : field.offset ≤ maxLayoutBits := by
  have inside := (Placed.fields_ascending regular.placed).bounds (List.mem_map_of_mem member)
  have total := regular.bits_le
  have stop : field.range.stop = field.offset + field.span := rfl
  omega

/-- No number in the document of a layout that can be stored is too large. -/
theorem Storable.wordSized {layout : Layout} (storable : layout.Storable) :
    layout.document.WordSized := by
  -- Offsets and totals are bounded by the limit of layouts, and lengths are by assumption: an array
  -- of empty structs takes no bits.
  obtain ⟨admissible, lengths⟩ := storable
  have limit : maxLayoutBits < UInt64.size := by decide
  induction admissible with
  | @intro layout regular _ ih =>
    have bits := regular.bits_le
    have numbers (field : Field) (member : field ∈ layout.fields) :
        ∀ n ∈ field.documentField.numbers, n < UInt64.size := by
      refine field.numbers_documentField_lt ?_ (lengths.here field member) ?_
      · exact Nat.lt_of_le_of_lt (regular.offset_le member) limit
      · intro base width narrow
        have := ((regular.members field member).bitfield base width narrow).2.1
        exact Nat.lt_of_le_of_lt this (by decide)
    have inside (field : Field) (member : field ∈ layout.fields) (document : Document)
        (embeds : field.documentField.nested = some document) : document.WordSized := by
      obtain ⟨inner, type, rfl⟩ := Field.nested_documentField_iff.mp embeds
      exact ih field member inner type (lengths.inside member type)
    obtain ⟨name, order, fields, total⟩ := layout
    have bytes : byteSize ⟨name, order, fields, total⟩ < UInt64.size := by
      rw [byteSize]
      omega
    rw [document]
    refine .intro (Nat.lt_of_le_of_lt bits limit) bytes ?_ ?_
    · rw [documentFields_eq, List.forall_mem_map]
      exact numbers
    · rw [documentFields_eq, List.forall_mem_map]
      exact inside

/-- The document is read back from its JSON value. -/
theorem Storable.ofJson?_document {layout : Layout} (storable : layout.Storable) :
    Document.ofJson? layout.document.toJson = some layout.document := by
  have read := storable.wordSized.readsBack layout.document.toJson.depth
  rwa [if_pos (Nat.le_refl _)] at read

/-- A session that imports the document of a layout has the layout. -/
theorem Admissible.importDocument {layout : Layout} (admissible : layout.Admissible)
    (session : Session) :
    ∃ after, session.importDocument layout.document = .ok (layout, after) ∧
      after.catalog.get? layout.name = some layout := by
  refine ⟨_, bind_eq_ok_iff.mpr ⟨_, admissible.restore_document, rfl⟩, ?_⟩
  rw [Catalog.get?_insert, if_pos rfl]

theorem Storable.importJson_document {layout : Layout} (storable : layout.Storable)
    (session : Session) :
    ∃ after, session.importJson layout.document.toJson = .ok (layout, after) ∧
      after.catalog.get? layout.name = some layout := by
  rw [Session.importJson, storable.ofJson?_document]
  exact storable.admissible.importDocument session

end Layout

end PackedStruct
