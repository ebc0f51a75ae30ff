import Mathlib.Data.List.Nodup
import PackedStruct.Proofs.LeafPlaces
import PackedStruct.Proofs.PathText

namespace PackedStruct

theorem eq_of_prefix_of_length {α : Type} {first second whole : List α} (left : first <+: whole)
    (right : second <+: whole) (lengths : first.length = second.length) : first = second :=
  (List.prefix_of_prefix_length_le left right (Nat.le_of_eq lengths)).eq_of_length lengths

def PathsApart (leaves others : List Leaf) : Prop :=
  (leaves.map Leaf.path).Disjoint (others.map Leaf.path)

/-- Where all paths of each list go on from a path of their own, the lists have none in common. -/
theorem pathsApart_of_prefix {leaves others : List Leaf} {path other : Path}
    (below : ∀ leaf ∈ leaves, path <+: leaf.path)
    (belowOther : ∀ leaf ∈ others, other <+: leaf.path) (lengths : path.length = other.length)
    (differ : path ≠ other) : PathsApart leaves others := by
  intro shared here there
  obtain ⟨leaf, member, rfl⟩ := List.mem_map.mp here
  obtain ⟨twin, otherMember, same⟩ := List.mem_map.mp there
  have otherPrefix := belowOther twin otherMember
  rw [same] at otherPrefix
  exact differ (eq_of_prefix_of_length (below leaf member) otherPrefix lengths)

/-- The elements of a field have paths of one length, and no two the same. -/
theorem Field.pairwise_places (field : Field) (base : Nat) (path : Path) :
    (field.places base path).Pairwise fun place other =>
      place.2.length = other.2.length ∧ place.2 ≠ other.2 := by
  obtain ⟨name, type, _ | length, offset⟩ := field
  · exact List.pairwise_singleton _ _
  · rw [places, List.pairwise_map]
    refine List.nodup_range.imp fun differ => ⟨?_, ?_⟩
    · simp
    · simpa using differ

theorem Field.nodup_paths {field : Field} (below : field.type.LeavesBelow) {struct : String}
    (element : ∀ base path,
      ((field.type.leavesFrom struct field.name base path).map Leaf.path).Nodup)
    (base : Nat) (path : Path) :
    ((field.leavesFrom struct base path).map Leaf.path).Nodup := by
  rw [leavesFrom_eq, List.map_flatMap, List.nodup_flatMap]
  refine ⟨fun place _ => element place.1 place.2, ?_⟩
  refine (field.pairwise_places base path).imp fun {place other} apart => ?_
  exact pathsApart_of_prefix (fun _ member => below member) (fun _ member => below member) apart.1
    apart.2

/-- No two leaves of a well-formed layout have the same path. -/
theorem Layout.WellFormed.nodup_paths {layout : Layout} (wellFormed : layout.WellFormed)
    (base : Nat) (path : Path) : ((layout.leavesFrom base path).map Leaf.path).Nodup := by
  induction wellFormed generalizing base path with
  | @intro layout sound inside ih =>
    have below {field : Field} (member : field ∈ layout.fields) : field.type.LeavesBelow :=
      WellFormed.leavesBelow (.intro sound inside) member
    rw [leavesFrom_eq, List.map_flatMap, List.nodup_flatMap]
    constructor
    · intro field member
      apply Field.nodup_paths (below member)
      intro start here
      rcases field.type.nested_or_integer with ⟨inner, type⟩ | integer
      · rw [type, FieldType.leavesFrom]
        exact ih field member inner type start here
      · rw [FieldType.leavesFrom_integer integer]
        exact List.nodup_singleton _
    · have names : layout.fields.Pairwise fun field other => field.name ≠ other.name :=
        List.pairwise_map.mp sound.distinct
      refine names.imp_of_mem fun {field other} member otherMember differ => ?_
      apply pathsApart_of_prefix
      · exact fun _ leafMember => Field.prefix_of_mem_leavesFrom (below member) leafMember
      · exact fun _ leafMember => Field.prefix_of_mem_leavesFrom (below otherMember) leafMember
      · simp
      · simpa using differ

def Layout.Identified (layout : Layout) : Prop :=
  ∀ field ∈ layout.fields, Text.isIdentifier field.name.toList = true

instance (layout : Layout) : Decidable layout.Identified :=
  inferInstanceAs
    (Decidable (∀ field ∈ layout.fields, Text.isIdentifier field.name.toList = true))

theorem Field.plain_of_mem_places {field : Field}
    (named : Text.isIdentifier field.name.toList = true) {base : Nat} {path : Path}
    (plain : ∀ step ∈ path, step.Plain) {place : Nat × Path}
    (member : place ∈ field.places base path) : ∀ step ∈ place.2, step.Plain := by
  obtain ⟨name, type, _ | length, offset⟩ := field
  · obtain rfl := List.mem_singleton.mp member
    exact List.forall_mem_append.mpr ⟨plain, List.forall_mem_singleton.mpr named⟩
  · obtain ⟨i, _, rfl⟩ := List.mem_map.mp member
    refine List.forall_mem_append.mpr ⟨plain, List.forall_mem_cons.mpr ⟨named, ?_⟩⟩
    exact List.forall_mem_singleton.mpr trivial

theorem Layout.steps_plain {layout : Layout} (identified : layout.Everywhere Identified)
    {base : Nat} {path : Path} (plain : ∀ step ∈ path, step.Plain) {leaf : Leaf}
    (member : leaf ∈ layout.leavesFrom base path) : ∀ step ∈ leaf.path, step.Plain := by
  apply identified.forall_leaves (fun _ _ path => ∀ step ∈ path, step.Plain)
    (fun leaf => ∀ step ∈ leaf.path, step.Plain) _ plain member
  intro outer base path here plain field fieldMember place placeMember
  have element := field.plain_of_mem_places (here field fieldMember) plain placeMember
  exact ⟨fun _ _ => element, fun _ => element⟩

theorem Layout.WellFormed.path_plain {layout : Layout} (wellFormed : layout.WellFormed)
    (identified : layout.Everywhere Identified) {leaf : Leaf} (member : leaf ∈ layout.leaves) :
    leaf.path.Plain := by
  refine ⟨?_, steps_plain identified (by simp) member⟩
  rw [leaves, leavesFrom_eq, List.mem_flatMap] at member
  obtain ⟨field, fieldMember, inside⟩ := member
  obtain ⟨rest, path⟩ := Field.prefix_of_mem_leavesFrom (wellFormed.leavesBelow fieldMember) inside
  exact ⟨field.name, by simp [← path]⟩

/-- A field of a struct inside a layout, or one element of it: the struct and the field that it
belongs to, and its first bit in the outermost struct. It has a length if it is a whole array. -/
structure Part where
  struct : String
  field : String
  type : FieldType
  length : Option Nat
  start : Nat

namespace Part

def range (part : Part) : BitRange :=
  ⟨part.start, part.type.width⟩

def isInteger (part : Part) : Bool :=
  part.length.isNone && part.type.isInteger

/-- The part that one step leads to: an element of an array, or a field of a struct. -/
def next? (part : Part) : Step → Option Part
  | .index i =>
    match part.length with
    | some length =>
      if i < length then
        some { part with length := none, start := part.start + i * part.type.width }
      else none
    | none => none
  | .field name =>
    match part.length, part.type with
    | none, .nested layout =>
      (layout.field? name).map fun field =>
        ⟨layout.name, field.name, field.type, field.length, part.start + field.offset⟩
    | _, _ => none

end Part

def Layout.part? (layout : Layout) (path : Path) : Option Part :=
  path.foldlM Part.next? ⟨"", "", .nested layout, none, 0⟩

theorem Layout.part?_append (layout : Layout) (path steps : Path) :
    layout.part? (path ++ steps) =
      (layout.part? path).bind fun part => steps.foldlM Part.next? part :=
  List.foldlM_append

theorem Layout.field?_eq_some {layout : Layout} (distinct : (layout.fields.map Field.name).Nodup)
    {field : Field} (member : field ∈ layout.fields) : layout.field? field.name = some field := by
  rw [field?]
  cases found : layout.fields.find? fun other => other.name == field.name with
  | none =>
    have absent := List.find?_eq_none.mp found field member
    simp at absent
  | some other =>
    have named : other.name = field.name := by simpa using List.find?_some found
    rw [List.inj_on_of_nodup_map distinct (List.mem_of_find?_eq_some found) member named]

theorem Layout.field?_eq_some_iff {layout : Layout}
    (distinct : (layout.fields.map Field.name).Nodup) {name : String} {field : Field} :
    layout.field? name = some field ↔ field ∈ layout.fields ∧ field.name = name := by
  constructor
  · intro found
    exact ⟨List.mem_of_find?_eq_some found, by simpa using List.find?_some found⟩
  · rintro ⟨member, rfl⟩
    exact layout.field?_eq_some distinct member

theorem Part.field_of_mem_places {root inner : Layout} {struct field : String} {start : Nat}
    {path : Path} (here : root.part? path = some ⟨struct, field, .nested inner, none, start⟩)
    (distinct : (inner.fields.map Field.name).Nodup) {deeper : Field}
    (member : deeper ∈ inner.fields) {place : Nat × Path}
    (placeMember : place ∈ deeper.places start path) :
    root.part? place.2 = some ⟨inner.name, deeper.name, deeper.type, none, place.1⟩ := by
  have found := inner.field?_eq_some distinct member
  obtain ⟨name, type, _ | length, offset⟩ := deeper
  · obtain rfl := List.mem_singleton.mp placeMember
    rw [Layout.part?_append, here]
    simp [Part.next?, found]
  · obtain ⟨i, below, rfl⟩ := List.mem_map.mp placeMember
    rw [Layout.part?_append, here]
    simp [Part.next?, found, List.mem_range.mp below, Nat.add_assoc]

/-- Every leaf is the element of an integer type that stands at its path. -/
theorem Layout.WellFormed.part?_leaf {root layout : Layout} (wellFormed : layout.WellFormed)
    {struct field : String} {base : Nat} {path : Path}
    (here : root.part? path = some ⟨struct, field, .nested layout, none, base⟩) {leaf : Leaf}
    (member : leaf ∈ layout.leavesFrom base path) :
    ∃ part, root.part? leaf.path = some part ∧ part.isInteger ∧ part.struct = leaf.struct ∧
      part.field = leaf.field ∧ part.range = leaf.range := by
  -- On the way the path to a struct is that of a single element.
  apply wellFormed.forall_leaves
    (fun inner base path => ∃ struct field,
      root.part? path = some ⟨struct, field, .nested inner, none, base⟩)
    (fun leaf => ∃ part, root.part? leaf.path = some part ∧ part.isInteger ∧
      part.struct = leaf.struct ∧ part.field = leaf.field ∧ part.range = leaf.range)
    _ ⟨struct, field, here⟩ member
  rintro outer base path sound ⟨struct, field, here⟩ deeper deeperMember place placeMember
  have element := Part.field_of_mem_places here sound.distinct deeperMember placeMember
  constructor
  · intro inner type
    rw [type] at element
    exact ⟨_, _, element⟩
  · intro integer
    exact ⟨_, element, integer, rfl, rfl, rfl⟩

end PackedStruct
