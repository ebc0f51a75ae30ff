import PackedStruct.Proofs.Effects
import PackedStruct.Proofs.JoinedText

/-! Definitions in one text or in several: entering them together is entering one text after the
other. The places of the declarations differ, but no layout depends on them. -/

namespace PackedStruct

namespace Definition

def MemberDeclaration.Moved (declared moved : MemberDeclaration) : Prop :=
  moved = { declared with position := moved.position }

structure Declaration.Moved (declared moved : Declaration) : Prop where
  name : moved.name = declared.name
  members : List.Forall₂ MemberDeclaration.Moved declared.members moved.members

theorem map_name_of_moved {members moved : List MemberDeclaration}
    (each : List.Forall₂ MemberDeclaration.Moved members moved) :
    moved.map MemberDeclaration.name = members.map MemberDeclaration.name := by
  induction each with
  | nil => rfl
  | cons here _ ih => rw [List.map_cons, List.map_cons, ih, here]

theorem MemberDeclaration.Written.exists_moved {declared : MemberDeclaration}
    {part other : List PlacedToken} (written : declared.Written part)
    (same : bare other = bare part) : ∃ moved, declared.Moved moved ∧ moved.Written other := by
  cases written with
  | @intro front back bounds qualifies bounded ending =>
    rw [bare_append] at same
    obtain ⟨otherFront, rest, rfl, sameFront, tail⟩ := List.map_eq_append_iff.mp same
    obtain ⟨position, otherBack, rfl, sameBack⟩ := bare_eq_cons_iff.mp tail
    refine ⟨{ declared with position := position }, rfl, ?_⟩
    have front : bare otherFront = bare front := sameFront
    refine .intro ?_ bounded (sameBack.trans ending)
    rw [front]
    exact qualifies

/-- Where each item of a list has another form, so has the whole list. -/
theorem exists_forall₂_moved {α : Type} {written : α → List PlacedToken → Prop}
    {movedTo : α → α → Prop}
    (each : ∀ item part other, written item part → bare other = bare part →
      ∃ moved, movedTo item moved ∧ written moved other)
    {items : List α} {parts : List (List PlacedToken)} (all : List.Forall₂ written items parts)
    {tokens : List PlacedToken} (same : bare tokens = bare parts.flatten) :
    ∃ moved others, List.Forall₂ movedTo items moved ∧ List.Forall₂ written moved others ∧
      tokens = others.flatten := by
  induction all generalizing tokens with
  | nil => exact ⟨[], [], .nil, .nil, bare_eq_nil_iff.mp same⟩
  | @cons item part _ _ here _ ih =>
    rw [List.flatten_cons, bare_append] at same
    obtain ⟨other, rest, rfl, sameHere, sameLater⟩ := List.map_eq_append_iff.mp same
    obtain ⟨first, movedHere, writtenHere⟩ := each item part other here sameHere
    obtain ⟨moved, others, movedLater, writtenLater, rfl⟩ := ih sameLater
    exact ⟨first :: moved, other :: others, .cons movedHere movedLater,
      .cons writtenHere writtenLater, rfl⟩

theorem Declaration.Written.exists_moved {declared : Declaration} {part other : List PlacedToken}
    (written : declared.Written part) (same : bare other = bare part) :
    ∃ moved, declared.Moved moved ∧ moved.Written other := by
  cases written with
  | @intro head tail parts tag heading members distinct ending =>
    rw [bare_append, bare_append] at same
    obtain ⟨otherHead, rest, rfl, sameHead, behind⟩ := List.map_eq_append_iff.mp same
    obtain ⟨body, otherTail, rfl, sameBody, sameTail⟩ := List.map_eq_append_iff.mp behind
    obtain ⟨moved, others, each, written, rfl⟩ :=
      exists_forall₂_moved (fun _ _ _ => MemberDeclaration.Written.exists_moved) members sameBody
    refine ⟨⟨declared.name, moved⟩, ⟨rfl, each⟩, ?_⟩
    refine .intro tag (sameHead.trans heading) written ?_ (sameTail.trans ending)
    rw [map_name_of_moved each]
    exact distinct

theorem exists_declarations_moved {tokens others : List PlacedToken} {declared : List Declaration}
    (read : declarations tokens = .ok declared) (same : bare others = bare tokens) :
    ∃ moved, List.Forall₂ Declaration.Moved declared moved ∧ declarations others = .ok moved := by
  obtain ⟨nonempty, parts, written, rfl⟩ := takeDeclarations_eq_ok_iff.mp read
  obtain ⟨moved, others, each, rewritten, rfl⟩ :=
    exists_forall₂_moved (fun _ _ _ => Declaration.Written.exists_moved) written same
  refine ⟨moved, each, takeDeclarations_eq_ok_iff.mpr ⟨?_, others, rewritten, rfl⟩⟩
  rintro rfl
  exact nonempty (List.forall₂_nil_right_iff.mp each)

theorem declarations_append {before after : List PlacedToken} {declared others : List Declaration}
    (readBefore : declarations before = .ok declared)
    (readAfter : declarations after = .ok others) :
    declarations (before ++ after) = .ok (declared ++ others) := by
  obtain ⟨nonempty, parts, written, rfl⟩ := takeDeclarations_eq_ok_iff.mp readBefore
  obtain ⟨_, more, rewritten, rfl⟩ := takeDeclarations_eq_ok_iff.mp readAfter
  refine takeDeclarations_eq_ok_iff.mpr ⟨?_, parts ++ more, ?_, List.flatten_append.symm⟩
  · simp [nonempty]
  · exact List.rel_append written rewritten

theorem getLast?_of_declarations {tokens : List PlacedToken} {declared : List Declaration}
    (read : declarations tokens = .ok declared) :
    (bare tokens).getLast? = some .semicolon := by
  obtain ⟨nonempty, parts, written, rfl⟩ := takeDeclarations_eq_ok_iff.mp read
  clear read
  induction written with
  | nil => exact absurd rfl nonempty
  | cons here later ih =>
    rw [List.flatten_cons, bare_append, List.getLast?_append, here.getLast?_bare]
    cases later with
    | nil => rfl
    | cons _ _ =>
      rw [ih (List.cons_ne_nil _ _)]
      rfl

variable {order : ByteOrder} {catalog middle final : Catalog}

/-- The place of a field is told in failures only. -/
theorem MemberDeclaration.Moved.resolveType {declared moved : MemberDeclaration}
    (same : declared.Moved moved) {struct : String} {type : FieldType}
    (resolved : declared.resolveType struct catalog = .ok type) :
    moved.resolveType struct catalog = .ok type := by
  rw [same]
  unfold MemberDeclaration.resolveType at resolved ⊢
  cases width : declared.width with
  | none =>
    cases known : BaseType.ofName? declared.type with
    | none =>
      simp only [width, known] at resolved ⊢
      exact resolved
    | some base =>
      simp only [width, known] at resolved ⊢
      exact resolved
  | some narrow =>
    cases known : BaseType.ofName? declared.type with
    | none =>
      simp only [width, known] at resolved
      cases resolved
    | some base =>
      simp only [width, known] at resolved ⊢
      split at resolved
      · cases resolved
      · rename_i fits
        rw [if_neg fits]
        exact resolved

theorem resolve_moved {members moved : List MemberDeclaration}
    (each : List.Forall₂ MemberDeclaration.Moved members moved) {struct : String}
    {resolved : List Member}
    (types : members.mapM (fun member => do
      let type ← member.resolveType struct catalog
      return Member.mk member.name type member.length) = .ok resolved) :
    moved.mapM (fun member => do
      let type ← member.resolveType struct catalog
      return Member.mk member.name type member.length) =
        (.ok resolved : Except DefinitionError (List Member)) := by
  rw [mapM_eq_ok_iff] at types ⊢
  induction each generalizing resolved with
  | nil => exact types
  | cons here _ ih =>
    obtain ⟨first, others, found, later, rfl⟩ := List.forall₂_cons_left_iff.mp types
    obtain ⟨type, known, same⟩ := bind_eq_ok_iff.mp found
    refine .cons (bind_eq_ok_iff.mpr ⟨type, here.resolveType known, ?_⟩) (ih later)
    rw [here]
    exact same

theorem Declaration.Moved.layout {declared moved : Declaration} (same : declared.Moved moved)
    {layout : Layout} (made : declared.layout order catalog = .ok layout) :
    moved.layout order catalog = .ok layout := by
  obtain ⟨members, resolved, placed⟩ := bind_eq_ok_iff.mp made
  have types : moved.resolve catalog = .ok members := by
    rw [Declaration.resolve, same.name]
    exact resolve_moved same.members resolved
  refine bind_eq_ok_iff.mpr ⟨members, types, ?_⟩
  rw [same.name]
  exact placed

theorem layoutAll_moved {declared moved : List Declaration}
    (each : List.Forall₂ Declaration.Moved declared moved) {layouts : List Layout}
    (made : layoutAll order catalog declared = .ok (layouts, final)) :
    layoutAll order catalog moved = .ok (layouts, final) := by
  induction each generalizing catalog layouts with
  | nil => exact made
  | cons here _ ih =>
    obtain ⟨layout, others, first, later, rfl⟩ := layoutAll_cons_eq_ok_iff.mp made
    exact layoutAll_cons_eq_ok_iff.mpr ⟨layout, others, here.layout first, ih later, rfl⟩

/-- Later declarations are laid out in the catalog that the earlier ones leave behind. -/
theorem layoutAll_append {declared others : List Declaration} {layouts more : List Layout}
    (first : layoutAll order catalog declared = .ok (layouts, middle))
    (second : layoutAll order middle others = .ok (more, final)) :
    layoutAll order catalog (declared ++ others) = .ok (layouts ++ more, final) := by
  induction declared generalizing catalog layouts with
  | nil =>
    cases first
    exact second
  | cons head rest ih =>
    obtain ⟨layout, tail, here, later, rfl⟩ := layoutAll_cons_eq_ok_iff.mp first
    rw [List.cons_append, layoutAll_cons_eq_ok_iff]
    exact ⟨layout, tail ++ more, here, ih later, rfl⟩

theorem layoutAll_singleton_eq_ok_iff {declared : List Declaration} {layout : Layout} :
    layoutAll order catalog declared = .ok ([layout], final) ↔
      ∃ only : Declaration, declared = [only] ∧ only.layout order catalog = .ok layout ∧
        final = catalog.insert layout := by
  constructor
  · intro made
    cases declared with
    | nil => cases made
    | cons only rest =>
      obtain ⟨_, _, here, later, same⟩ := layoutAll_cons_eq_ok_iff.mp made
      obtain ⟨rfl, rfl⟩ := List.cons.inj same
      cases rest with
      | nil =>
        cases later
        exact ⟨only, rfl, here, rfl⟩
      | cons second others =>
        obtain ⟨_, _, _, _, excess⟩ := layoutAll_cons_eq_ok_iff.mp later
        cases excess
  · rintro ⟨only, rfl, here, rfl⟩
    exact layoutAll_cons_eq_ok_iff.mpr ⟨layout, [], here, rfl, rfl⟩

variable {constants : Constants}

theorem declarationsOf_eq_ok_iff {text : String} {declared : List Declaration} :
    declarationsOf constants text = .ok declared ↔
      ∃ tokens, tokensOf constants text = .ok tokens ∧ declarations tokens = .ok declared := by
  simp only [declarationsOf, bind_eq_ok_iff, mapError_eq_ok_iff]

theorem declarationOf_eq_ok_iff {text : String} {declared : Declaration} :
    declarationOf constants text = .ok declared ↔
      declarationsOf constants text = .ok [declared] := by
  rw [declarationsOf_eq_ok_iff]
  simp only [declarationOf, bind_eq_ok_iff, mapError_eq_ok_iff, declaration_eq_ok_iff,
    declarations_eq_ok_singleton_iff]

theorem declarationsOf_joined {first second : String} {declared others : List Declaration}
    (readFirst : declarationsOf constants first = .ok declared)
    (readSecond : declarationsOf constants second = .ok others) :
    ∃ moved, List.Forall₂ Declaration.Moved others moved ∧
      declarationsOf constants (first ++ "\n" ++ second) = .ok (declared ++ moved) := by
  obtain ⟨tokens, lexed, parsed⟩ := declarationsOf_eq_ok_iff.mp readFirst
  obtain ⟨more, lexedMore, parsedMore⟩ := declarationsOf_eq_ok_iff.mp readSecond
  obtain ⟨shifted, lexedBoth, same⟩ :=
    tokensOf_joined lexed (getLast?_of_declarations parsed) lexedMore
  obtain ⟨moved, each, parsedMoved⟩ := exists_declarations_moved parsedMore same
  have both := declarations_append parsed parsedMoved
  exact ⟨moved, each, declarationsOf_eq_ok_iff.mpr ⟨_, lexedBoth, both⟩⟩

end Definition

namespace Session

variable {session after : Session}

theorem defineAll_append {middle : Session} {first second : String} {layouts others : List Layout}
    (definedFirst : session.defineAll first = .ok (layouts, middle))
    (definedSecond : middle.defineAll second = .ok (others, after)) :
    session.defineAll (first ++ "\n" ++ second) = .ok (layouts ++ others, after) := by
  obtain ⟨declared, catalog, read, placed, rfl⟩ := defineAll_eq_ok_iff.mp definedFirst
  obtain ⟨later, final, readLater, placedLater, rfl⟩ := defineAll_eq_ok_iff.mp definedSecond
  obtain ⟨moved, each, both⟩ := Definition.declarationsOf_joined read readLater
  have joined := Definition.layoutAll_append placed (Definition.layoutAll_moved each placedLater)
  exact defineAll_eq_ok_iff.mpr ⟨_, final, both, joined, rfl⟩

theorem define_iff_defineAll {text : String} {layout : Layout} :
    session.define text = .ok (layout, after) ↔
      session.defineAll text = .ok ([layout], after) := by
  simp only [define_eq_ok_iff, defineAll_eq_ok_iff, Definition.declarationOf_eq_ok_iff,
    Definition.layoutAll_singleton_eq_ok_iff]
  constructor
  · rintro ⟨declared, read, made, rfl⟩
    exact ⟨[declared], _, read, ⟨declared, rfl, made, rfl⟩, rfl⟩
  · rintro ⟨_, _, read, ⟨declared, rfl, made, rfl⟩, rfl⟩
    exact ⟨declared, read, made, rfl⟩

/-- Two texts that can be entered one after the other can be joined by a line break and entered at
once, with the same layouts and the same session in the end. A text that is one definition is
entered by `define` as it is by `defineAll`. -/
theorem defineAll_joined (session : Session) :
    (∀ first second layouts others middle after,
      session.defineAll first = .ok (layouts, middle) →
      middle.defineAll second = .ok (others, after) →
      session.defineAll (first ++ "\n" ++ second) = .ok (layouts ++ others, after)) ∧
    ∀ text layout after, session.define text = .ok (layout, after) ↔
      session.defineAll text = .ok ([layout], after) := by
  refine ⟨fun first second layouts others middle after => ?_, fun text layout after => ?_⟩
  · exact defineAll_append
  · exact define_iff_defineAll

end Session

namespace Sample

theorem defineAll_cell :
    (Session.start .default).defineAll "typedef struct \x7b char x; \x7d cell; // one byte" =
      .ok ([cell], knowing [cell]) := by
  refine Session.defineAll_eq_ok_iff.mpr
    ⟨[⟨"cell", [⟨"char", "x", none, none, ⟨1, 18⟩⟩]⟩], _, ?_, rfl, rfl⟩
  decide +kernel

theorem defineAll_row :
    (knowing [cell]).defineAll "typedef struct \x7b cell cells[2]; \x7d row;" =
      .ok ([row], knowing [cell, row]) := by
  refine Session.defineAll_eq_ok_iff.mpr
    ⟨[⟨"row", [⟨"cell", "cells", none, some 2, ⟨1, 18⟩⟩]⟩], _, ?_, rfl, rfl⟩
  decide +kernel

end Sample

/-- The second text uses the struct of the first one, which ends in a comment. -/
theorem Session.defineAll_joined_row :
    (start .default).define "typedef struct \x7b char x; \x7d cell; // one byte" =
        .ok (Sample.cell, Sample.knowing [Sample.cell]) ∧
      (start .default).defineAll ("typedef struct \x7b char x; \x7d cell; // one byte" ++ "\n" ++
        "typedef struct \x7b cell cells[2]; \x7d row;") =
          .ok ([Sample.cell, Sample.row], Sample.knowing [Sample.cell, Sample.row]) := by
  obtain ⟨joined, single⟩ := defineAll_joined (start .default)
  constructor
  · exact (single _ _ _).mpr Sample.defineAll_cell
  · exact joined _ _ _ _ _ _ Sample.defineAll_cell Sample.defineAll_row

end PackedStruct
