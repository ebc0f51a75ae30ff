import PackedStruct.Proofs.JsonText
import PackedStruct.Proofs.Reachable

namespace PackedStruct

section Known

variable {settings : Settings} {commands : List Session.Command} {struct : String} {layout : Layout}

/-- A struct of a session that was started stands under its name and can be stored. -/
theorem Session.storable_of_layout
    (known : ((start settings).performAll commands).layout struct = .ok layout) :
    layout.name = struct ∧ layout.Storable := by
  refine (sound_start settings).performAll commands struct layout ?_
  unfold Session.layout at known
  split at known
  · rename_i found
    obtain rfl := Except.ok.inj known
    exact found
  · cases known

theorem Session.layout_eq_ok {session : Session}
    (known : session.catalog.get? struct = some layout) : session.layout struct = .ok layout := by
  rw [Session.layout, known]

theorem Session.document_eq_ok {session : Session} (known : session.layout struct = .ok layout) :
    session.document struct = .ok layout.document := by
  rw [Session.document, known]
  rfl

end Known

/-- Every admissible layout is restored from its document, with the layouts nested in it, innermost
first. Hence a struct that a session knows is the same in any new session that imports its
document. -/
theorem Session.importJson_document_of_known :
    (∀ layout : Layout, layout.Admissible →
      layout.document.restore = .ok (layout, layout.inner)) ∧
    ∀ (settings other : Settings) (commands : List Command) (struct : String) (layout : Layout),
      ((start settings).performAll commands).layout struct = .ok layout →
      ∃ document after,
        ((start settings).performAll commands).document struct = .ok document ∧
        (start other).importJson document.toJson = .ok (layout, after) ∧
        after.layout struct = .ok layout := by
  refine ⟨fun layout => Layout.Admissible.restore_document, ?_⟩
  intro settings other commands struct layout known
  obtain ⟨rfl, storable⟩ := storable_of_layout known
  obtain ⟨after, imported, there⟩ := storable.importJson_document (start other)
  exact ⟨layout.document, after, document_eq_ok known, imported, layout_eq_ok there⟩

def Session.importing (layout : Layout) : Session :=
  (start .default).performAll [.importJson layout.document.toJson]

theorem Session.layout_importing {layout : Layout} (storable : layout.Storable) :
    (importing layout).layout layout.name = .ok layout :=
  layout_eq_ok (get?_performAll_importJson (start .default) storable)

theorem Session.importJson_document_frame :
    Sample.frame.document.restore = .ok (Sample.frame, [Sample.point]) ∧
      ∃ document after, (Session.importing Sample.frame).document "frame" = .ok document ∧
        (start (.ofOrder .big)).importJson document.toJson = .ok (Sample.frame, after) ∧
        after.layout "frame" = .ok Sample.frame := by
  have known : (Session.importing Sample.frame).layout "frame" = .ok Sample.frame :=
    layout_importing Sample.frame_storable
  exact ⟨importJson_document_of_known.1 Sample.frame Sample.frame_storable.admissible,
    importJson_document_of_known.2 .default (.ofOrder .big)
      [.importJson Sample.frame.document.toJson] "frame" Sample.frame known⟩

private theorem readable_nat {n : Nat} (small : n < UInt64.size) : (Json.nat n).Readable := by
  have size : UInt64.size = 2 ^ 64 := rfl
  exact .int ⟨by omega, by omega⟩

theorem DocumentField.readable {field : DocumentField}
    (small : ∀ n ∈ field.numbers, n < UInt64.size)
    (embedded : ∀ inner, field.nested = some inner → inner.toJson.Readable) :
    field.toJson.Readable := by
  rw [toJson_eq]
  refine .obj ?_
  rintro ⟨name, json⟩ inside
  obtain ⟨text, rfl⟩ | ⟨n, recorded, rfl⟩ | ⟨inner, embeds, rfl⟩ :=
    eq_of_mem_entries (mem_membersOf_iff.mp inside)
  · exact .str text
  · exact readable_nat (small n recorded)
  · exact embedded inner embeds

theorem Document.WordSized.readable {document : Document} (small : document.WordSized) :
    document.toJson.Readable := by
  induction small with
  | @intro document bits bytes numbers _ ih =>
    obtain ⟨name, order, total, size, fields⟩ := document
    have items : (Json.arr (fieldsToJson fields)).Readable := by
      rw [fieldsToJson_eq]
      refine .arr (List.forall_mem_map.mpr fun field member => ?_)
      exact field.readable (numbers field member) (ih field member)
    rw [toJson]
    refine .obj ?_
    simp only [List.forall_mem_cons]
    exact ⟨.str _, .str _, readable_nat bits, readable_nat bytes, items, List.forall_mem_nil _⟩

/-- The text of a document of 64-bit numbers is read back if it does not nest too deeply. -/
theorem Document.WordSized.ofText?_text {document : Document} (small : document.WordSized) :
    Document.ofText? document.text =
      if document.toJson.depth ≤ Json.depthLimit then some document else none := by
  rw [ofText?, text, small.readable.ofText?_indented, Option.bind_some, small.readsBack]

mutual

/-- How many structs are nested in one another, the outermost one included. -/
def Layout.levels : Layout → Nat
  | ⟨_, _, fields, _⟩ => levelsOfFields fields + 1

def levelsOfFields : List Field → Nat
  | [] => 0
  | field :: rest => max field.levels (levelsOfFields rest)

def Field.levels : Field → Nat
  | ⟨_, type, _, _⟩ => type.levels

/-- The levels of a nested struct. Other types have none. -/
def FieldType.levels : FieldType → Nat
  | .nested layout => layout.levels
  | .bitfield .. => 0
  | .plain _ => 0

end

theorem Field.levels_eq (field : Field) : field.levels = field.type.levels := by
  cases field
  rw [levels]

theorem levelsOfFields_le_iff {fields : List Field} {n : Nat} :
    levelsOfFields fields ≤ n ↔ ∀ field ∈ fields, field.type.levels ≤ n := by
  induction fields with
  | nil => simp [levelsOfFields]
  | cons field rest ih =>
    rw [levelsOfFields, Nat.max_le, ih, List.forall_mem_cons, Field.levels_eq]

theorem FieldType.levels_le_iff {type : FieldType} {n : Nat} :
    type.levels ≤ n ↔ ∀ inner, type = .nested inner → inner.levels ≤ n := by
  cases type with
  | nested layout =>
    rw [levels]
    exact ⟨fun below inner same => FieldType.nested.inj same ▸ below, fun all => all layout rfl⟩
  | bitfield base width => exact ⟨nofun, fun _ => Nat.zero_le n⟩
  | plain base => exact ⟨nofun, fun _ => Nat.zero_le n⟩

theorem Layout.levels_le_succ_iff {layout : Layout} {n : Nat} :
    layout.levels ≤ n + 1 ↔
      ∀ field ∈ layout.fields, ∀ inner, field.type = .nested inner → inner.levels ≤ n := by
  cases layout
  rw [levels, Nat.add_le_add_iff_right, levelsOfFields_le_iff]
  exact forall₂_congr fun _ _ => FieldType.levels_le_iff

/-- Each level takes three containers: the object of the document, the list of its fields and the
object of the field that holds the next document. -/
theorem Layout.depth_document_le_iff {layout : Layout} {n : Nat} :
    layout.document.toJson.depth ≤ 3 * n + 1 ↔ layout.levels ≤ n := by
  induction n generalizing layout with
  | zero =>
    have levels : ¬ layout.levels ≤ 0 := by
      cases layout
      simp [levels]
    have depth : ¬ layout.document.toJson.depth ≤ 1 := by
      cases layout
      simp [document, Document.toJson, Json.depth, Json.membersDepth]
    exact iff_of_false depth levels
  | succ n ih =>
    have fields : layout.document.fields = layout.fields.map Field.documentField := by
      cases layout
      rw [document, documentFields_eq]
    have below (field : Field) : field.documentField.toJson.depth ≤ 3 * n + 1 + 1 ↔
        ∀ inner, field.type = .nested inner → inner.levels ≤ n := by
      rw [DocumentField.depth_toJson_le_iff]
      simp only [Field.nested_documentField_iff, ← ih]
      constructor
      · exact fun each inner type => each _ ⟨inner, type, rfl⟩
      · rintro each _ ⟨inner, type, rfl⟩
        exact each inner type
    -- Three containers a level are one more than needed where the innermost struct has no fields.
    have containers : 3 * (n + 1) + 1 = 3 * n + 1 + 1 + 2 := by omega
    rw [containers, Document.depth_toJson_le_iff, levels_le_succ_iff, fields, List.forall_mem_map]
    exact forall₂_congr fun field _ => below field

def Document.maxLevels : Nat := 42

theorem Layout.Storable.ofText?_document {layout : Layout} (storable : layout.Storable) :
    Document.ofText? layout.document.text =
      if layout.levels ≤ Document.maxLevels then some layout.document else none := by
  have room : layout.document.toJson.depth ≤ Json.depthLimit ↔
      layout.levels ≤ Document.maxLevels := @depth_document_le_iff layout Document.maxLevels
  rw [storable.wordSized.ofText?_text]
  simp only [room]

/-- The text of the document of a struct that a session knows is imported as the same struct by any
new session if the structs are not nested too deeply. Otherwise the text is refused. -/
theorem Session.importText_document_of_known (settings other : Settings)
    (commands : List Command) (struct : String) (layout : Layout)
    (known : ((start settings).performAll commands).layout struct = .ok layout) :
    ∃ document, ((start settings).performAll commands).document struct = .ok document ∧
      (layout.levels ≤ Document.maxLevels →
        ∃ after, (start other).importText document.text = .ok (layout, after) ∧
          after.layout struct = .ok layout) ∧
      (Document.maxLevels < layout.levels →
        (start other).importText document.text = .error .unreadableDocument) := by
  obtain ⟨rfl, storable⟩ := storable_of_layout known
  have read := storable.ofText?_document
  refine ⟨layout.document, document_eq_ok known, fun room => ?_, fun deep => ?_⟩
  · obtain ⟨after, imported, there⟩ := storable.admissible.importDocument (start other)
    rw [if_pos room] at read
    rw [importText, read]
    exact ⟨after, imported, layout_eq_ok there⟩
  · rw [if_neg (Nat.not_le_of_lt deep)] at read
    rw [importText, read]
    rfl

theorem Session.importText_document_frame :
    ∃ document after, (Session.importing Sample.frame).document "frame" = .ok document ∧
      (start (.ofOrder .big)).importText document.text = .ok (Sample.frame, after) ∧
      after.layout "frame" = .ok Sample.frame := by
  have known : (Session.importing Sample.frame).layout "frame" = .ok Sample.frame :=
    layout_importing Sample.frame_storable
  have shallow : Sample.frame.levels ≤ Document.maxLevels := by
    simp [Sample.frame, Sample.point, Layout.levels, levelsOfFields, Field.levels,
      FieldType.levels, Document.maxLevels]
  obtain ⟨document, exported, room, _⟩ := importText_document_of_known .default (.ofOrder .big)
    [.importJson Sample.frame.document.toJson] "frame" Sample.frame known
  obtain ⟨after, imported, there⟩ := room shallow
  exact ⟨document, after, exported, imported, there⟩

namespace Sample

/-- A struct of one byte inside as many others as the number tells. -/
def tower : Nat → Layout
  | 0 => ⟨"t0", .little, [⟨"x", .plain .char, none, 0⟩], 8⟩
  | n + 1 => ⟨"t" ++ toString (n + 1), .little, [⟨"x", .nested (tower n), none, 0⟩], 8⟩

theorem bits_tower (n : Nat) : (tower n).bits = 8 := by
  cases n <;> rfl

theorem levels_tower (n : Nat) : (tower n).levels = n + 1 := by
  induction n with
  | zero => rfl
  | succ n ih => simp [tower, Layout.levels, levelsOfFields, Field.levels, FieldType.levels, ih]

theorem tower_storable (n : Nat) : (tower n).Storable := by
  induction n with
  | zero =>
    have made : Layout.ofMembers "t0" .little [⟨"x", .plain .char, none⟩] = .ok (tower 0) := rfl
    refine ⟨Layout.admissible_of_ofMembers made (List.nodup_singleton _) ?_ ?_,
      Layout.everywhere_of_ofMembers made ?_ ?_⟩
    · exact List.forall_mem_singleton.mpr ⟨by rintro _ _ ⟨⟩, by rintro _ ⟨⟩⟩
    · exact List.forall_mem_singleton.mpr (by rintro _ ⟨⟩)
    · exact List.forall_mem_singleton.mpr (by rintro _ ⟨⟩)
    · exact List.forall_mem_singleton.mpr (by rintro _ ⟨⟩)
  | succ n ih =>
    have made : Layout.ofMembers ("t" ++ toString (n + 1)) .little
        [⟨"x", .nested (tower n), none⟩] = .ok (tower (n + 1)) := by
      refine Layout.ofMembers_eq_ok_iff.mpr ⟨?_, rfl, rfl⟩
      simp only [placeAll, Member.place?, FieldType.alignment, FieldType.width, bits_tower]
      rfl
    refine ⟨Layout.admissible_of_ofMembers made (List.nodup_singleton _) ?_ ?_,
      Layout.everywhere_of_ofMembers made ?_ ?_⟩
    · exact List.forall_mem_singleton.mpr ⟨by rintro _ _ ⟨⟩, by rintro _ ⟨⟩⟩
    · refine List.forall_mem_singleton.mpr ?_
      rintro _ ⟨⟩
      exact ih.admissible
    · exact List.forall_mem_singleton.mpr (by rintro _ ⟨⟩)
    · refine List.forall_mem_singleton.mpr ?_
      rintro _ ⟨⟩
      exact ih.lengths

end Sample

/-- Not every struct that a session knows can be imported from the text of its document. -/
theorem Session.importText_document_tower :
    (importing (Sample.tower 42)).layout "t42" = .ok (Sample.tower 42) ∧
      (importing (Sample.tower 42)).document "t42" = .ok (Sample.tower 42).document ∧
      (start .default).importText (Sample.tower 42).document.text =
        .error .unreadableDocument := by
  have known : (importing (Sample.tower 42)).layout "t42" = .ok (Sample.tower 42) :=
    layout_importing (Sample.tower_storable 42)
  have deep : ¬ (Sample.tower 42).levels ≤ Document.maxLevels := by
    rw [Sample.levels_tower]
    decide
  refine ⟨known, document_eq_ok known, ?_⟩
  rw [importText, (Sample.tower_storable 42).ofText?_document, if_neg deep]
  rfl

end PackedStruct
