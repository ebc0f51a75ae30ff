import PackedStruct.Proofs.Effects

namespace PackedStruct

namespace Catalog

theorem ext_get? {catalog other : Catalog} (same : ∀ name, catalog.get? name = other.get? name) :
    catalog = other := by
  have entries : catalog.layouts.entries = other.layouts.entries :=
    catalog.layouts.sorted.ext other.layouts.sorted same
  have layouts : catalog.layouts = other.layouts := SortedMap.ext entries
  cases catalog
  exact congrArg mk layouts

theorem get?_insert_of_ne {catalog : Catalog} {layout : Layout} {name : String}
    (apart : name ≠ layout.name) : (catalog.insert layout).get? name = catalog.get? name := by
  rw [get?_insert, if_neg apart]

theorem insert_comm {catalog : Catalog} {layout other : Layout}
    (apart : layout.name ≠ other.name) :
    (catalog.insert layout).insert other = (catalog.insert other).insert layout := by
  apply ext_get?
  intro name
  simp only [get?_insert]
  by_cases here : name = layout.name
  · have there : name ≠ other.name := by rwa [here]
    simp only [if_pos here, if_neg there]
  · simp only [if_neg here]

end Catalog

namespace Definition

/-- The types of the fields that are no bitfields. -/
def Declaration.usedTypes (declared : Declaration) : List String :=
  (declared.members.filter fun member => member.width.isNone).map MemberDeclaration.type

/-- The types that a text names for fields that are no bitfields. What is no definition has no
fields. -/
def usedTypes (constants : Constants) (text : String) : List String :=
  match declarationOf constants text with
  | .ok declared => declared.usedTypes
  | .error _ => []

theorem usedTypes_eq {constants : Constants} {text : String} {declared : Declaration}
    (read : declarationOf constants text = .ok declared) :
    usedTypes constants text = declared.usedTypes := by
  rw [usedTypes, read]

variable {catalog other : Catalog}

/-- The type of a bitfield is not looked up. -/
theorem MemberDeclaration.resolveType_congr {declared : MemberDeclaration} (struct : String)
    (agree : declared.width = none → catalog.get? declared.type = other.get? declared.type) :
    declared.resolveType struct catalog = declared.resolveType struct other := by
  unfold resolveType
  cases width : declared.width with
  | some width => cases BaseType.ofName? declared.type <;> rfl
  | none => rw [agree width]

theorem Declaration.layout_congr {declared : Declaration} (order : ByteOrder)
    (agree : ∀ type ∈ declared.usedTypes, catalog.get? type = other.get? type) :
    declared.layout order catalog = declared.layout order other := by
  have members : declared.resolve catalog = declared.resolve other := by
    apply mapM_congr
    intro member inside
    have type : member.resolveType declared.name catalog =
        member.resolveType declared.name other := by
      apply MemberDeclaration.resolveType_congr
      intro whole
      apply agree
      exact List.mem_map_of_mem (List.mem_filter.mpr ⟨inside, by rw [whole]; rfl⟩)
    rw [type]
  rw [layout, layout, members]

end Definition

namespace Session

variable {session after : Session} {text : String}

theorem define_congr {other : Session} (settings : session.settings = other.settings)
    (agree : ∀ type ∈ Definition.usedTypes session.settings.constants text,
      session.catalog.get? type = other.catalog.get? type) :
    (session.define text).map Prod.fst = (other.define text).map Prod.fst := by
  rw [define, define, ← settings]
  cases read : Definition.declarationOf session.settings.constants text with
  | error cause => rfl
  | ok declared =>
    rw [Definition.usedTypes_eq read] at agree
    rw [ok_bind, ok_bind, Definition.Declaration.layout_congr _ agree]
    cases declared.layout session.settings.order other.catalog <;> rfl

/-- What is defined is not changed by a layout that it does not use. -/
theorem define_after_insert {layout other : Layout}
    (defined : session.define text = .ok (layout, after))
    (unused : other.name ∉ Definition.usedTypes session.settings.constants text) :
    { session with catalog := session.catalog.insert other }.define text =
      .ok (layout, { session with catalog := (session.catalog.insert other).insert layout }) := by
  obtain ⟨declared, read, made, _⟩ := define_eq_ok_iff.mp defined
  rw [Definition.usedTypes_eq read] at unused
  refine define_eq_ok_iff.mpr ⟨declared, read, ?_, rfl⟩
  rw [← made]
  apply Definition.Declaration.layout_congr
  intro type used
  exact Catalog.get?_insert_of_ne (ne_of_mem_of_not_mem used unused)

/-- A text defines the same layout, or fails in the same way, in all sessions with the same settings
that agree on the types that it uses. Two texts that define different structs, neither of which is
used by the other text, can be defined in any order: the layouts and the session after both are the
same. -/
theorem define_independent (session : Session) :
    (∀ (other : Session) (text : String), session.settings = other.settings →
      (∀ type ∈ Definition.usedTypes session.settings.constants text,
        session.catalog.get? type = other.catalog.get? type) →
      (session.define text).map Prod.fst = (other.define text).map Prod.fst) ∧
    ∀ (first second : String) (layout other : Layout) (afterFirst afterSecond : Session),
      session.define first = .ok (layout, afterFirst) →
      session.define second = .ok (other, afterSecond) →
      layout.name ≠ other.name →
      other.name ∉ Definition.usedTypes session.settings.constants first →
      layout.name ∉ Definition.usedTypes session.settings.constants second →
      ∃ final, afterFirst.define second = .ok (other, final) ∧
        afterSecond.define first = .ok (layout, final) := by
  refine ⟨fun other text => define_congr, ?_⟩
  intro first second layout other afterFirst afterSecond definedFirst definedSecond apart
    unusedByFirst unusedBySecond
  obtain ⟨_, _, _, rfl⟩ := define_eq_ok_iff.mp definedFirst
  obtain ⟨_, _, _, rfl⟩ := define_eq_ok_iff.mp definedSecond
  refine ⟨_, define_after_insert definedSecond unusedBySecond, ?_⟩
  rw [Catalog.insert_comm apart]
  exact define_after_insert definedFirst unusedByFirst

end Session

namespace Sample

def pixel : Layout :=
  ⟨"pixel", .little, [⟨"red", .bitfield .char 5, none, 0⟩, ⟨"green", .bitfield .char 6, none, 5⟩],
    11⟩

theorem declarationOf_row :
    Definition.declarationOf (knowing [cell]).settings.constants
        "typedef struct \x7b cell cells[2]; \x7d row;" =
      .ok ⟨"row", [⟨"cell", "cells", none, some 2, ⟨1, 18⟩⟩]⟩ := by
  decide +kernel

theorem declarationOf_pixel :
    Definition.declarationOf (knowing [cell]).settings.constants
        "typedef struct \x7b char red : 5; char green : 6; \x7d pixel;" =
      .ok ⟨"pixel", [⟨"char", "red", some 5, none, ⟨1, 18⟩⟩,
        ⟨"char", "green", some 6, none, ⟨1, 32⟩⟩]⟩ := by
  decide +kernel

end Sample

/-- The struct `row` is the same whether `pixel` is known or not, and both can be defined first. -/
theorem Session.define_independent_pixel :
    ((Sample.knowing [Sample.cell]).define
          "typedef struct \x7b cell cells[2]; \x7d row;").map Prod.fst =
        ((Sample.knowing [Sample.cell, Sample.pixel]).define
          "typedef struct \x7b cell cells[2]; \x7d row;").map Prod.fst ∧
      ∃ final,
        (Sample.knowing [Sample.cell, Sample.row]).define
            "typedef struct \x7b char red : 5; char green : 6; \x7d pixel;" =
          .ok (Sample.pixel, final) ∧
        (Sample.knowing [Sample.cell, Sample.pixel]).define
            "typedef struct \x7b cell cells[2]; \x7d row;" = .ok (Sample.row, final) := by
  obtain ⟨same, either⟩ := define_independent (Sample.knowing [Sample.cell])
  constructor
  · refine same (Sample.knowing [Sample.cell, Sample.pixel]) _ rfl fun type used => ?_
    rw [Definition.usedTypes_eq Sample.declarationOf_row] at used
    obtain rfl : type = "cell" := List.mem_singleton.mp used
    rfl
  · apply either _ _ _ _ _ _ (define_eq_ok_iff.mpr ⟨_, Sample.declarationOf_row, rfl, rfl⟩)
      (define_eq_ok_iff.mpr ⟨_, Sample.declarationOf_pixel, rfl, rfl⟩)
    · decide
    · rw [Definition.usedTypes_eq Sample.declarationOf_row]
      decide
    · rw [Definition.usedTypes_eq Sample.declarationOf_pixel]
      decide

end PackedStruct
