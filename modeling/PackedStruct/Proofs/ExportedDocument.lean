import PackedStruct.Document.Export
import PackedStruct.Proofs.RestoredDocument

namespace PackedStruct

theorem documentFields_eq (fields : List Field) :
    documentFields fields = fields.map Field.documentField := by
  induction fields with
  | nil => rfl
  | cons field rest ih => rw [documentFields, ih, List.map_cons]

theorem Field.describes_documentField {field : Field}
    (nested : ∀ inner, field.type = .nested inner → inner.document.Describes inner) :
    field.documentField.Describes field := by
  have mask (text : String) (found : some field.range.maskText = some text) :
      Text.numeral? 16 (Text.dropHexMark text.toList) = some field.range.maskNumber := by
    obtain rfl := Option.some.inj found
    exact field.range.numeral?_maskText
  obtain ⟨name, type, length, offset⟩ := field
  cases type with
  | bitfield base width =>
    rw [documentField]
    exact .intro (.intro rfl rfl rfl (.bitfield rfl rfl)) rfl mask
  | plain base =>
    have size (recorded : Nat) (found : some base.bits = some recorded) : recorded = base.bits :=
      (Option.some.inj found).symm
    cases length with
    | none =>
      rw [documentField]
      exact .intro (.intro rfl rfl rfl (.plain rfl rfl size nofun)) rfl mask
    | some length =>
      rw [documentField]
      exact .intro (.intro rfl rfl rfl (.plain rfl rfl nofun size)) rfl mask
  | nested inner =>
    rw [documentField]
    exact .intro (.intro rfl rfl rfl (.nested rfl (nested inner rfl))) rfl nofun

namespace Layout

theorem Admissible.document_describes {layout : Layout} (admissible : layout.Admissible) :
    layout.document.Describes layout := by
  induction admissible with
  | @intro layout _ _ ih =>
    have fields : List.Forall₂ DocumentField.Describes (documentFields layout.fields)
        layout.fields := by
      rw [documentFields_eq, List.forall₂_map_left_iff, List.forall₂_same]
      intro field member
      exact Field.describes_documentField (ih field member)
    cases layout
    rw [document]
    exact .intro rfl rfl rfl rfl fields

/-- The layout can be restored from its document, and so can the layouts nested in it. -/
theorem Admissible.restore_document {layout : Layout} (admissible : layout.Admissible) :
    layout.document.restore = .ok (layout, layout.inner) :=
  (layout.document.restoresDescribed layout layout.inner).mpr
    ⟨admissible.document_describes, admissible, rfl⟩

end Layout

end PackedStruct
