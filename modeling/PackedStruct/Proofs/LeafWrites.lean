import PackedStruct.Packing.Pack
import PackedStruct.Proofs.LeafPlaces
import PackedStruct.Proofs.Lookup
import PackedStruct.Proofs.ValuePaths

namespace PackedStruct

def Leaf.write? (root : Value) (leaf : Leaf) : Option Write :=
  ((root.at? leaf.path).bind Value.raw?).map fun raw => ⟨leaf.range, raw⟩

theorem Value.writeTo_eq_ok_iff {value : Value} {range : BitRange} {path : Path}
    {writes : List Write} :
    value.writeTo range path = .ok writes ↔
      ∃ raw, value.raw? = some raw ∧ writes = [⟨range, raw⟩] := by
  unfold writeTo
  split
  · rename_i absent
    simp [absent]
  · rename_i raw found
    simp [found, eq_comm]

theorem Value.itemsFor_eq_ok_iff {value : Value} {length : Nat} {path : Path}
    {items : List Value} :
    value.itemsFor length path = .ok items ↔ value = .array items ∧ items.length ≤ length := by
  unfold itemsFor
  cases value with
  | array found =>
    simp only [items?, array.injEq]
    split
    · simp
      rintro rfl
      assumption
    · simp
      rintro rfl
      omega
  | _ => simp [items?]

/-- A field that the tree has no entry for writes nothing, any other one what its value writes. -/
theorem writesOfFields_cons_eq_ok_iff {field : Field} {rest : List Field} {base : Nat}
    {path : Path} {tree : Tree} {writes : List Write} :
    writesOfFields (field :: rest) base path tree = .ok writes ↔
      ∃ first others,
        (tree.lookup field.name = none ∧ first = [] ∨
          ∃ value, tree.lookup field.name = some value ∧
            field.writesAt base path value = .ok first) ∧
        writesOfFields rest base path tree = .ok others ∧ writes = first ++ others := by
  rw [writesOfFields]
  cases tree.lookup field.name with
  | none =>
    simp only [bind_eq_ok_iff]
    simp [pure, Except.pure, eq_comm]
  | some value =>
    simp only [bind_eq_ok_iff]
    simp [pure, Except.pure, eq_comm]

namespace FieldType

theorem writesAt_integer {type : FieldType} (integer : type.isInteger) (base : Nat) (path : Path)
    (value : Value) : type.writesAt base path value = value.writeTo ⟨base, type.width⟩ path := by
  cases type with
  | nested inner => cases integer
  | bitfield type width => rw [writesAt, FieldType.width]
  | plain type => rw [writesAt, FieldType.width]

theorem writesAt_nested_eq_ok_iff {inner : Layout} {base : Nat} {path : Path} {value : Value}
    {writes : List Write} :
    (nested inner).writesAt base path value = .ok writes ↔
      ∃ tree, value = .tree tree ∧ inner.writesAt base path tree = .ok writes := by
  rw [writesAt]
  cases value <;> simp [Value.tree?]

end FieldType

theorem Layout.writesAt_eq (layout : Layout) (base : Nat) (path : Path) (tree : Tree) :
    layout.writesAt base path tree = writesOfFields layout.fields base path tree := by
  cases layout
  rw [writesAt]

theorem Field.writesAt_scalar {field : Field} (scalar : field.length = none) (base : Nat)
    (path : Path) (value : Value) :
    field.writesAt base path value =
      field.type.writesAt (base + field.offset) (path ++ [.field field.name]) value := by
  obtain ⟨name, type, _ | length, offset⟩ := field
  · rw [writesAt]
  · cases scalar

/-- An array writes what its items write, one after the other. -/
theorem Field.writesAt_array_eq_ok_iff {field : Field} {length : Nat}
    (array : field.length = some length) {base : Nat} {path : Path} {value : Value}
    {writes : List Write} :
    field.writesAt base path value = .ok writes ↔
      ∃ items parts, value = .array items ∧ items.length ≤ length ∧
        List.Forall₂ (fun entry part => field.type.writesAt
            (base + (field.offset + entry.2 * field.type.width))
            (path ++ [.field field.name, .index entry.2]) entry.1 = .ok part) items.zipIdx parts ∧
        writes = parts.flatten := by
  obtain ⟨name, type, _ | count, offset⟩ := field
  · cases array
  · obtain rfl := Option.some.inj array
    rw [writesAt]
    simp only [bind_eq_ok_iff, mapM_eq_ok_iff, Value.itemsFor_eq_ok_iff]
    simp [pure, Except.pure, eq_comm, and_assoc]

/-- What a type writes for a value in `root` is the write of each leaf that `root` has a value for.
It is shown for structs by induction and handed on to their fields and elements. -/
def FieldType.WritesLeaves (type : FieldType) (root : Value) : Prop :=
  ∀ ⦃base : Nat⦄ ⦃path : Path⦄ ⦃value : Value⦄ ⦃writes : List Write⦄,
    root.at? path = some value → type.writesAt base path value = .ok writes →
    ∀ struct field, writes = (type.leavesFrom struct field base path).filterMap (Leaf.write? root)

variable {root : Value}

theorem FieldType.writesLeaves_integer {type : FieldType} (integer : type.isInteger) :
    type.WritesLeaves root := by
  intro base path value writes here written struct field
  rw [writesAt_integer integer, Value.writeTo_eq_ok_iff] at written
  obtain ⟨raw, found, rfl⟩ := written
  simp [leavesFrom_integer integer, Leaf.write?, here, found]

/-- Leaves below a path that leads nowhere are not written. -/
theorem filterMap_write?_eq_nil {leaves : List Leaf} {path : Path} (absent : root.at? path = none)
    (below : ∀ leaf ∈ leaves, path <+: leaf.path) : leaves.filterMap (Leaf.write? root) = [] := by
  rw [List.filterMap_eq_nil_iff]
  intro leaf member
  rw [Leaf.write?, Value.at?_eq_none_of_prefix absent (below leaf member), Option.bind_none,
    Option.map_none]

private theorem flatMap_range_of_nil {α : Type} {part : Nat → List α} {count length : Nat}
    (fits : count ≤ length) (past : ∀ i, count ≤ i → part i = []) :
    (List.range length).flatMap part = (List.range count).flatMap part := by
  obtain ⟨more, rfl⟩ := Nat.exists_eq_add_of_le fits
  have tail : ((List.range more).map (count + ·)).flatMap part = [] := by
    rw [List.flatMap_map, List.flatMap_eq_nil_iff]
    intro i _
    exact past _ (Nat.le_add_right _ _)
  rw [List.range_add, List.flatMap_append, tail, List.append_nil]

/-- Results for the items of a list, each told by its item and index, one after the other. -/
private theorem flatten_eq_flatMap_range {α β : Type} {items : List α} {parts : List (List β)}
    {relation : α × Nat → List β → Prop} (related : List.Forall₂ relation items.zipIdx parts)
    {part : Nat → List β}
    (told : ∀ (i : Nat) (inside : i < items.length) (result : List β),
      relation (items[i], i) result → result = part i) :
    parts.flatten = (List.range items.length).flatMap part := by
  have lengths : parts.length = items.length := by
    rw [← related.length_eq, List.length_zipIdx]
  rw [List.flatMap_def]
  congr 1
  apply List.ext_getElem
  · rw [lengths, List.length_map, List.length_range]
  · intro i inParts _
    have inside : i < items.length := by omega
    have here := related.get (by rwa [List.length_zipIdx]) inParts
    rw [List.get_eq_getElem, List.getElem_zipIdx, Nat.zero_add] at here
    rw [List.getElem_map, List.getElem_range]
    exact told i inside _ here

theorem Field.writesAt_eq_filterMap {field : Field} (below : field.type.LeavesBelow)
    (element : field.type.WritesLeaves root) {base : Nat} {path : Path} {value : Value}
    {writes : List Write} (here : root.at? (path ++ [.field field.name]) = some value)
    (written : field.writesAt base path value = .ok writes) (struct : String) :
    writes = (field.leavesFrom struct base path).filterMap (Leaf.write? root) := by
  rw [leavesFrom_eq, List.filterMap_flatMap]
  cases array : field.length with
  | none =>
    rw [writesAt_scalar array] at written
    rw [places, array, List.flatMap_singleton]
    exact element here written struct field.name
  | some length =>
    obtain ⟨items, parts, rfl, fits, related, rfl⟩ :=
      (writesAt_array_eq_ok_iff array).mp written
    have item (i : Nat) : root.at? (path ++ [.field field.name, .index i]) = items[i]? :=
      Value.at?_index here i
    -- The elements that the value has no items for lie below paths that lead nowhere.
    have missing (i : Nat) (past : items.length ≤ i) : (field.type.leavesFrom struct field.name
        (base + (field.offset + i * field.type.width))
        (path ++ [.field field.name, .index i])).filterMap (Leaf.write? root) = [] := by
      apply filterMap_write?_eq_nil
      · exact (item i).trans (List.getElem?_eq_none past)
      · exact fun leaf member => below member
    rw [places, array, List.flatMap_map, flatMap_range_of_nil fits missing]
    refine flatten_eq_flatMap_range related fun i inside part partWritten => ?_
    exact element ((item i).trans (List.getElem?_eq_getElem inside)) partWritten struct field.name

theorem writesOfFields_eq_filterMap {fields : List Field} {base : Nat} {path : Path} {tree : Tree}
    (here : root.at? path = some (.tree tree))
    (below : ∀ field ∈ fields, field.type.LeavesBelow)
    (element : ∀ field ∈ fields, field.type.WritesLeaves root) {writes : List Write}
    (written : writesOfFields fields base path tree = .ok writes) (struct : String) :
    writes = (fields.flatMap fun field => field.leavesFrom struct base path).filterMap
      (Leaf.write? root) := by
  induction fields generalizing writes with
  | nil => exact (Except.ok.inj written).symm
  | cons field rest ih =>
    have fieldBelow := below field List.mem_cons_self
    have entry : root.at? (path ++ [.field field.name]) = tree.lookup field.name :=
      Value.at?_field here field.name
    obtain ⟨first, others, head, tail, rfl⟩ := writesOfFields_cons_eq_ok_iff.mp written
    rw [List.flatMap_cons, List.filterMap_append]
    congr 1
    · rcases head with ⟨absent, rfl⟩ | ⟨value, found, firstWritten⟩
      · exact (filterMap_write?_eq_nil (entry.trans absent) fun _ =>
          Field.prefix_of_mem_leavesFrom fieldBelow).symm
      · exact Field.writesAt_eq_filterMap fieldBelow (element field List.mem_cons_self)
          (entry.trans found) firstWritten struct
    · exact ih (fun other member => below other (List.mem_cons_of_mem _ member))
        (fun other member => element other (List.mem_cons_of_mem _ member)) tail

/-- The writes of a tree are those of the leaves that it has values for. -/
theorem Layout.WellFormed.writesAt_eq_filterMap {layout : Layout} (wellFormed : layout.WellFormed)
    {base : Nat} {path : Path} {tree : Tree} {writes : List Write}
    (here : root.at? path = some (.tree tree))
    (written : layout.writesAt base path tree = .ok writes) :
    writes = (layout.leavesFrom base path).filterMap (Leaf.write? root) := by
  induction wellFormed generalizing base path tree writes with
  | @intro layout sound inside ih =>
    have below (field : Field) (member : field ∈ layout.fields) : field.type.LeavesBelow :=
      Layout.WellFormed.leavesBelow (.intro sound inside) member
    have element (field : Field) (member : field ∈ layout.fields) :
        field.type.WritesLeaves root := by
      rcases field.type.nested_or_integer with ⟨inner, type⟩ | integer
      · intro base path value writes here written struct name
        rw [type, FieldType.writesAt_nested_eq_ok_iff] at written
        obtain ⟨tree, rfl, innerWritten⟩ := written
        rw [type, FieldType.leavesFrom]
        exact ih field member inner type here innerWritten
      · exact FieldType.writesLeaves_integer integer
    rw [leavesFrom_eq]
    rw [writesAt_eq] at written
    exact writesOfFields_eq_filterMap here below element written layout.name

end PackedStruct
