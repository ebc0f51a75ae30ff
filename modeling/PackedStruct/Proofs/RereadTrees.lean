import PackedStruct.Packing.Pack
import PackedStruct.Proofs.CompactText
import PackedStruct.Proofs.Lookup
import PackedStruct.Proofs.WellFormed
import PackedStruct.Value.Json

namespace PackedStruct

/-- What holds of an array if it holds of its items, and of a tree if it holds of its values, holds
of every value. -/
theorem Value.part_induction {motive : Value → Prop} (unsigned : ∀ n, motive (.unsigned n))
    (signed : ∀ n, motive (.signed n))
    (array : ∀ items, (∀ item ∈ items, motive item) → motive (.array items))
    (tree : ∀ entries : Tree, (∀ entry ∈ entries, motive entry.2) → motive (.tree entries))
    (value : Value) : motive value :=
  @Value.rec motive (fun items => ∀ item ∈ items, motive item)
    (fun entries => ∀ entry ∈ entries, motive entry.2) (fun entry => motive entry.2)
    unsigned signed array tree
    (List.forall_mem_nil _) (fun _ _ here later => List.forall_mem_cons.mpr ⟨here, later⟩)
    (List.forall_mem_nil _) (fun _ _ here later => List.forall_mem_cons.mpr ⟨here, later⟩)
    (fun _ _ value => value) value

/-- The keys of each tree in the value grow from entry to entry. -/
inductive Value.Ordered : Value → Prop where
  | unsigned (n : UInt64) : Ordered (.unsigned n)
  | signed (n : Int64) : Ordered (.signed n)
  | array {items : List Value} (each : ∀ item ∈ items, item.Ordered) : Ordered (.array items)
  | tree {entries : Tree} (sorted : Entries.Sorted entries)
    (each : ∀ entry ∈ entries, entry.2.Ordered) : Ordered (.tree entries)

mutual

def Value.depth : Value → Nat
  | .array items => itemsDepth items + 1
  | .tree entries => entriesDepth entries + 1
  | _ => 0

def Value.itemsDepth : List Value → Nat
  | [] => 0
  | item :: rest => max item.depth (itemsDepth rest)

def Value.entriesDepth : List (String × Value) → Nat
  | [] => 0
  | (_, value) :: rest => max value.depth (entriesDepth rest)

end

mutual

/-- The value that is read from the text of a value. -/
def Value.reread : Value → Value
  | .unsigned n => .unsigned n
  | .signed n => if 0 ≤ n then .unsigned n.toUInt64 else .signed n
  | .array items => .array (rereadItems items)
  | .tree entries => .tree (rereadEntries entries)

def Value.rereadItems : List Value → List Value
  | [] => []
  | item :: rest => item.reread :: rereadItems rest

/-- The keys stay as they are. -/
def Value.rereadEntries : List (String × Value) → List (String × Value)
  | [] => []
  | (key, value) :: rest => (key, value.reread) :: rereadEntries rest

end

namespace Tree

/-- The keys of the tree, and of each tree in it, grow from entry to entry. -/
def Ordered (tree : Tree) : Prop :=
  (Value.tree tree).Ordered

/-- How many arrays and trees are open at the most deeply nested place, the tree itself
included. -/
def depth (tree : Tree) : Nat :=
  (Value.tree tree).depth

def reread (tree : Tree) : Tree :=
  Value.rereadEntries tree

end Tree

namespace Value

theorem itemsToJson_eq (items : List Value) : itemsToJson items = items.map toJson := by
  induction items with
  | nil => rfl
  | cons item rest ih => rw [itemsToJson, ih, List.map_cons]

theorem entriesToJson_eq (entries : List (String × Value)) :
    entriesToJson entries = entries.map fun entry => (entry.1, entry.2.toJson) := by
  induction entries with
  | nil => rfl
  | cons entry rest ih => rw [entriesToJson, ih, List.map_cons]

theorem rereadItems_eq (items : List Value) : rereadItems items = items.map reread := by
  induction items with
  | nil => rfl
  | cons item rest ih => rw [rereadItems, ih, List.map_cons]

theorem rereadEntries_eq (entries : List (String × Value)) :
    rereadEntries entries = entries.map fun entry => (entry.1, entry.2.reread) := by
  induction entries with
  | nil => rfl
  | cons entry rest ih => rw [rereadEntries, ih, List.map_cons]

theorem readable_toJson (value : Value) : value.toJson.Readable := by
  induction value using part_induction with
  | unsigned n =>
    have small : n.toNat < 2 ^ 64 := n.toNat_lt
    exact .int ⟨by omega, by omega⟩
  | signed n =>
    have low := n.le_toInt
    have high := n.toInt_lt
    exact .int ⟨by omega, by omega⟩
  | array items each =>
    rw [toJson, itemsToJson_eq]
    exact .arr (List.forall_mem_map.mpr each)
  | tree entries each =>
    rw [toJson, entriesToJson_eq]
    exact .obj (List.forall_mem_map.mpr each)

theorem depth_toJson (value : Value) : value.toJson.depth = value.depth := by
  induction value using part_induction with
  | unsigned n => rfl
  | signed n => rfl
  | array items each =>
    have deepest : Json.itemsDepth (itemsToJson items) = itemsDepth items := by
      induction items with
      | nil => rfl
      | cons item rest ih =>
        obtain ⟨here, later⟩ := List.forall_mem_cons.mp each
        rw [itemsToJson, Json.itemsDepth, itemsDepth, here, ih later]
    rw [toJson, Json.depth, depth, deepest]
  | tree entries each =>
    have deepest : Json.membersDepth (entriesToJson entries) = entriesDepth entries := by
      induction entries with
      | nil => rfl
      | cons entry rest ih =>
        obtain ⟨here, later⟩ := List.forall_mem_cons.mp each
        rw [entriesToJson, Json.membersDepth, entriesDepth, here, ih later]
    rw [toJson, Json.depth, depth, deepest]

theorem ofJson?_int_toInt (n : Int64) : ofJson? (.int n.toInt) = some (signed n).reread := by
  have order : 0 ≤ n ↔ 0 ≤ n.toInt := by
    rw [Int64.le_iff_toInt_le, Int64.toInt_zero]
  -- The sign that is written decides which kind of integer is read.
  cases same : n.toInt with
  | ofNat k =>
    have nonnegative : 0 ≤ n := by
      rw [order, same]
      exact Int.natCast_nonneg k
    have word : UInt64.ofNat k = n.toUInt64 := by
      rw [← Int64.toUInt64_ofNat', ← Int64.ofInt_eq_ofNat, ← Int.ofNat_eq_natCast, ← same,
        Int64.ofInt_toInt]
    rw [ofJson?, reread, if_pos nonnegative, word]
  | negSucc k =>
    have negative : ¬ 0 ≤ n := by
      rw [order, same]
      omega
    rw [ofJson?, ← same, Int64.ofInt_toInt, reread, if_neg negative]

theorem ofItems?_itemsToJson {items : List Value}
    (each : ∀ item ∈ items, ofJson? item.toJson = some item.reread) :
    ofItems? (itemsToJson items) = some (rereadItems items) := by
  induction items with
  | nil => rfl
  | cons item rest ih =>
    obtain ⟨here, later⟩ := List.forall_mem_cons.mp each
    rw [itemsToJson, ofItems?, here, ih later]
    rfl

theorem ofMembers?_entriesToJson {entries : Tree}
    (each : ∀ entry ∈ entries, ofJson? entry.2.toJson = some entry.2.reread) :
    ofMembers? (entriesToJson entries) = some (rereadEntries entries) := by
  induction entries with
  | nil => rfl
  | cons entry rest ih =>
    obtain ⟨here, later⟩ := List.forall_mem_cons.mp each
    rw [entriesToJson, ofMembers?, here, ih later]
    rfl

/-- The keys are already in order when they are read. -/
theorem ofList_rereadEntries {entries : Tree} (sorted : Entries.Sorted entries) :
    Entries.ofList (rereadEntries entries) = rereadEntries entries := by
  rw [rereadEntries_eq]
  exact Entries.ofList_of_sorted (List.pairwise_map.mpr sorted)

theorem Ordered.ofJson?_toJson {value : Value} (ordered : value.Ordered) :
    ofJson? value.toJson = some value.reread := by
  induction ordered with
  | unsigned n =>
    have word : ofJson? (Json.word n) = some (.unsigned (UInt64.ofNat n.toNat)) := rfl
    rw [toJson, word, UInt64.ofNat_toNat, reread]
  | signed n => exact ofJson?_int_toInt n
  | array each ih => rw [toJson, ofJson?, ofItems?_itemsToJson ih, Option.map_some, reread]
  | tree sorted each ih =>
    rw [toJson, ofJson?, ofMembers?_entriesToJson ih, Option.map_some, ofList_rereadEntries sorted,
      reread]

end Value

namespace Tree

theorem Ordered.ofJson?_toJson {tree : Tree} (ordered : tree.Ordered) :
    ofJson? tree.toJson = some tree.reread := by
  cases ordered with
  | tree sorted each =>
    rw [toJson, ofJson?, Value.ofMembers?_entriesToJson fun entry member =>
      (each entry member).ofJson?_toJson, Option.map_some, Value.ofList_rereadEntries sorted]
    rfl

theorem Ordered.ofText?_text {tree : Tree} (ordered : tree.Ordered) :
    ofText? tree.text = if tree.depth ≤ Json.depthLimit then some tree.reread else none := by
  have readable : tree.toJson.Readable := (Value.tree tree).readable_toJson
  have depth : tree.toJson.depth = tree.depth := (Value.tree tree).depth_toJson
  rw [ofText?, text, readable.ofText?_compact]
  simp only [Option.bind_eq_bind, Option.bind_some, depth, ordered.ofJson?_toJson]

end Tree

namespace Value

theorem raw?_reread (value : Value) : value.reread.raw? = value.raw? := by
  cases value with
  | unsigned n => rfl
  | signed n =>
    rw [reread]
    split <;> rfl
  | array items => rfl
  | tree entries => rfl

theorem items?_reread (value : Value) :
    value.reread.items? = value.items?.map (List.map reread) := by
  cases value with
  | unsigned n => rfl
  | signed n =>
    rw [reread]
    split <;> rfl
  | array items => rw [reread, items?, rereadItems_eq, items?, Option.map_some]
  | tree entries => rfl

theorem tree?_reread (value : Value) : value.reread.tree? = value.tree?.map Tree.reread := by
  cases value with
  | unsigned n => rfl
  | signed n =>
    rw [reread]
    split <;> rfl
  | array items => rfl
  | tree entries => rfl

end Value

theorem Tree.lookup_reread (tree : Tree) (name : String) :
    tree.reread.lookup name = (tree.lookup name).map Value.reread := by
  rw [reread, Value.rereadEntries_eq]
  induction tree with
  | nil => rfl
  | cons entry rest ih =>
    rw [List.map_cons, List.lookup_cons, List.lookup_cons, ih]
    by_cases here : name == entry.1 <;> simp [here]

theorem Value.itemsFor_reread (value : Value) (length : Nat) (path : Path) :
    value.reread.itemsFor length path = (value.itemsFor length path).map (List.map reread) := by
  rw [itemsFor, itemsFor, items?_reread]
  cases value.items? with
  | none => rfl
  | some items =>
    simp only [Option.map_some, List.length_map]
    split <;> rfl

theorem Value.writeTo_reread (value : Value) (range : BitRange) (path : Path) :
    value.reread.writeTo range path = value.writeTo range path := by
  rw [writeTo, writeTo, raw?_reread]

mutual

theorem Layout.writesAt_reread (base : Nat) (path : Path) (tree : Tree) :
    (layout : Layout) → layout.writesAt base path tree.reread = layout.writesAt base path tree
  | ⟨_, _, fields, _⟩ => by
    rw [Layout.writesAt, Layout.writesAt, writesOfFields_reread base path tree fields]

theorem writesOfFields_reread (base : Nat) (path : Path) (tree : Tree) :
    (fields : List Field) →
      writesOfFields fields base path tree.reread = writesOfFields fields base path tree
  | [] => rfl
  | field :: rest => by
    have here (value : Value) := Field.writesAt_reread base path value field
    rw [writesOfFields, writesOfFields, Tree.lookup_reread,
      writesOfFields_reread base path tree rest]
    cases tree.lookup field.name with
    | none => rfl
    | some value => simp only [Option.map_some, here]

theorem Field.writesAt_reread (base : Nat) (path : Path) (value : Value) :
    (field : Field) → field.writesAt base path value.reread = field.writesAt base path value
  | ⟨name, type, none, _⟩ => by
    rw [Field.writesAt, Field.writesAt, FieldType.writesAt_reread _ _ value type]
  | ⟨name, type, some length, offset⟩ => by
    have element (entry : Value × Nat) := FieldType.writesAt_reread
      (base + (offset + entry.2 * type.width)) (path ++ [.field name, .index entry.2]) entry.1 type
    rw [Field.writesAt, Field.writesAt, Value.itemsFor_reread]
    cases value.itemsFor length (path ++ [.field name]) with
    | error cause => rfl
    | ok items =>
      -- The items keep their indices, and each of them has the writes that it had.
      simp only [Except.map, ok_bind, List.zipIdx_map, List.mapM_map, Function.comp_def, Prod.map,
        id_eq, element]

theorem FieldType.writesAt_reread (base : Nat) (path : Path) (value : Value) :
    (type : FieldType) → type.writesAt base path value.reread = type.writesAt base path value
  | .nested inner => by
    have deeper (tree : Tree) := Layout.writesAt_reread base path tree inner
    rw [FieldType.writesAt, FieldType.writesAt, Value.tree?_reread]
    cases value.tree? with
    | none => rfl
    | some tree => exact deeper tree
  | .bitfield _ width => by
    rw [FieldType.writesAt, FieldType.writesAt, Value.writeTo_reread]
  | .plain type => by
    rw [FieldType.writesAt, FieldType.writesAt, Value.writeTo_reread]

end

theorem Layout.pack_reread (layout : Layout) (tree : Tree) :
    layout.pack tree.reread = layout.pack tree := by
  rw [pack, pack, writesAt_reread]

/-- The text of a tree is read as the tree, but for signed integers that are not negative, unless it
nests too deeply. Each layout makes of both trees the same bytes, or refuses both for the same
reason. -/
theorem Tree.text_roundTrip {tree : Tree} (ordered : tree.Ordered) :
    Tree.ofText? tree.text =
      (if tree.depth ≤ Json.depthLimit then some tree.reread else none) ∧
    ∀ layout : Layout, layout.pack tree.reread = layout.pack tree :=
  ⟨ordered.ofText?_text, fun layout => layout.pack_reread tree⟩

namespace Sample

/-- A key that is escaped, an integer that comes back unsigned, and one that does not. -/
def escaped : Tree :=
  [("\"\\\n𝄞", .array []), ("kind", .signed 5),
    ("path", .array [.tree [("x", .signed (-1))], .tree []])]

theorem escaped_ordered : escaped.Ordered := by
  have empty : (Value.tree []).Ordered := .tree .nil (List.forall_mem_nil _)
  have point : (Value.tree [("x", .signed (-1))]).Ordered :=
    .tree (List.pairwise_singleton _ _) (List.forall_mem_singleton.mpr (.signed _))
  have path : (Value.array [.tree [("x", .signed (-1))], .tree []]).Ordered :=
    .array (List.forall_mem_cons.mpr ⟨point, List.forall_mem_singleton.mpr empty⟩)
  have sorted : Entries.Sorted escaped := by
    unfold Entries.Sorted escaped
    decide +kernel
  refine .tree sorted ?_
  rw [escaped, List.forall_mem_cons, List.forall_mem_cons, List.forall_mem_singleton]
  exact ⟨.array (List.forall_mem_nil _), .signed 5, path⟩

end Sample

theorem Tree.text_roundTrip_escaped :
    Sample.escaped.Ordered ∧
    Tree.ofText? Sample.escaped.text =
      some [("\"\\\n𝄞", .array []), ("kind", .unsigned 5),
        ("path", .array [.tree [("x", .signed (-1))], .tree []])] ∧
    Sample.frame.pack Sample.escaped.reread = Sample.frame.pack Sample.escaped := by
  obtain ⟨read, packed⟩ := Tree.text_roundTrip Sample.escaped_ordered
  refine ⟨Sample.escaped_ordered, ?_, packed Sample.frame⟩
  rw [read]
  rfl

end PackedStruct
