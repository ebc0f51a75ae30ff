import PackedStruct.Proofs.PackedNumber
import PackedStruct.Proofs.PathText

namespace PackedStruct

mutual

/-- The entries for the fields of the layout are accepted. Fields without an entry and entries
without a field do not matter. -/
inductive Layout.Accepts : Layout → Tree → Prop where
  | intro {layout : Layout} {tree : Tree}
      (entries : ∀ field ∈ layout.fields, ∀ value, tree.lookup field.name = some value →
        field.Accepts value) : layout.Accepts tree

/-- An array has at most as many items as the field has elements. -/
inductive Field.Accepts : Field → Value → Prop where
  | scalar {field : Field} {value : Value} (scalar : field.length = none)
      (element : field.type.Accepts value) : field.Accepts value
  | array {field : Field} {length : Nat} {items : List Value} (array : field.length = some length)
      (fits : items.length ≤ length) (elements : ∀ item ∈ items, field.type.Accepts item) :
      field.Accepts (.array items)

inductive FieldType.Accepts : FieldType → Value → Prop where
  | unsigned {type : FieldType} {word : UInt64} (integer : type.isInteger) :
      type.Accepts (.unsigned word)
  | signed {type : FieldType} {word : Int64} (integer : type.isInteger) :
      type.Accepts (.signed word)
  | nested {inner : Layout} {tree : Tree} (accepts : inner.Accepts tree) :
      FieldType.Accepts (.nested inner) (.tree tree)

end

/-- A value of the wrong shape, and the path to it. -/
structure Violation where
  path : Path
  cause : Misfit
  deriving DecidableEq, Repr

namespace Violation

/-- The violation as it is seen from further outside. -/
def below (steps : Path) (violation : Violation) : Violation :=
  ⟨steps ++ violation.path, violation.cause⟩

end Violation

def Value.integerViolations (value : Value) : List Violation :=
  if value.raw?.isSome then [] else [⟨[], .notInteger⟩]

def lengthViolations (length : Nat) (items : List Value) : List Violation :=
  if length < items.length then [⟨[], .tooMany items.length length⟩] else []

mutual

/-- All violations in a tree, depth first in the order of the fields and elements. -/
def Layout.violations : Layout → Tree → List Violation
  | ⟨_, _, fields, _⟩, tree => violationsOfFields fields tree

def violationsOfFields : List Field → Tree → List Violation
  | [], _ => []
  | field :: rest, tree =>
    (match tree.lookup field.name with
      | none => []
      | some value => field.violations value) ++ violationsOfFields rest tree

/-- The violations in the value of a field. An array with too many items is one itself and comes
before those of its items. -/
def Field.violations : Field → Value → List Violation
  | ⟨name, type, none, _⟩, value => (type.violations value).map (.below [.field name])
  | ⟨name, type, some length, _⟩, value =>
    match value.items? with
    | none => [⟨[.field name], .notArray⟩]
    | some items =>
      (lengthViolations length items).map (.below [.field name]) ++
        items.zipIdx.flatMap fun (item, i) =>
          (type.violations item).map (.below [.field name, .index i])

def FieldType.violations : FieldType → Value → List Violation
  | .nested layout, value =>
    match value.tree? with
    | none => [⟨[], .notStruct⟩]
    | some tree => layout.violations tree
  | .bitfield _ _, value => value.integerViolations
  | .plain _, value => value.integerViolations

end

theorem FieldType.integerViolations_eq_nil_iff {type : FieldType} (integer : type.isInteger)
    {value : Value} : value.integerViolations = [] ↔ type.Accepts value := by
  constructor
  · intro none
    cases value with
    | unsigned word => exact .unsigned integer
    | signed word => exact .signed integer
    | array items => cases none
    | tree entries => cases none
  · intro accepts
    cases accepts with
    | unsigned => rfl
    | signed => rfl
    | nested => cases integer

theorem lengthViolations_eq_nil_iff {length : Nat} {items : List Value} :
    lengthViolations length items = [] ↔ items.length ≤ length := by
  rw [lengthViolations]
  by_cases tooMany : length < items.length
  · simp [tooMany]
  · simp [tooMany, Nat.le_of_not_lt tooMany]

theorem forall_mem_zipIdx_iff {α : Type} {items : List α} {property : α → Prop} :
    (∀ entry ∈ items.zipIdx, property entry.1) ↔ ∀ item ∈ items, property item := by
  rw [← List.forall_mem_map, List.zipIdx_map_fst]

mutual

theorem Layout.violations_eq_nil_iff (tree : Tree) :
    (layout : Layout) → (layout.violations tree = [] ↔ layout.Accepts tree)
  | ⟨_, _, fields, _⟩ => by
    rw [Layout.violations, violationsOfFields_eq_nil_iff tree fields]
    constructor
    · exact fun entries => .intro entries
    · intro accepts
      cases accepts with
      | intro entries => exact entries

theorem violationsOfFields_eq_nil_iff (tree : Tree) :
    (fields : List Field) → (violationsOfFields fields tree = [] ↔
      ∀ field ∈ fields, ∀ value, tree.lookup field.name = some value → field.Accepts value)
  | [] => by simp [violationsOfFields]
  | field :: rest => by
    have here (value : Value) := Field.violations_eq_nil_iff value field
    rw [violationsOfFields, List.append_eq_nil_iff, violationsOfFields_eq_nil_iff tree rest,
      List.forall_mem_cons]
    apply and_congr_left'
    cases tree.lookup field.name with
    | none => simp
    | some value => simp [here]

theorem Field.violations_eq_nil_iff (value : Value) :
    (field : Field) → (field.violations value = [] ↔ field.Accepts value)
  | ⟨name, type, none, offset⟩ => by
    rw [Field.violations, List.map_eq_nil_iff, FieldType.violations_eq_nil_iff value type]
    constructor
    · exact fun element => .scalar rfl element
    · intro accepts
      cases accepts with
      | scalar _ element => exact element
      | array array => cases array
  | ⟨name, type, some length, offset⟩ => by
    have element (item : Value) := FieldType.violations_eq_nil_iff item type
    rw [Field.violations]
    constructor
    · intro none
      cases value with
      | array items =>
        simp only [Value.items?, List.append_eq_nil_iff, List.map_eq_nil_iff,
          lengthViolations_eq_nil_iff, List.flatMap_eq_nil_iff, element] at none
        exact .array rfl none.1 (forall_mem_zipIdx_iff.mp none.2)
      | unsigned word => cases none
      | signed word => cases none
      | tree entries => cases none
    · intro accepts
      cases accepts with
      | scalar scalar => cases scalar
      | array array fits elements =>
        cases array
        simp only [Value.items?, List.append_eq_nil_iff, List.map_eq_nil_iff,
          lengthViolations_eq_nil_iff, List.flatMap_eq_nil_iff, element]
        exact ⟨fits, forall_mem_zipIdx_iff.mpr elements⟩

theorem FieldType.violations_eq_nil_iff (value : Value) :
    (type : FieldType) → (type.violations value = [] ↔ type.Accepts value)
  | .nested layout => by
    have inner (tree : Tree) := Layout.violations_eq_nil_iff tree layout
    rw [FieldType.violations]
    constructor
    · intro none
      cases value with
      | tree entries => exact .nested ((inner entries).mp none)
      | unsigned word => cases none
      | signed word => cases none
      | array items => cases none
    · intro accepts
      cases accepts with
      | unsigned integer => cases integer
      | signed integer => cases integer
      | nested accepts => exact (inner _).mpr accepts
  | .bitfield _ _ => by
    rw [FieldType.violations]
    exact FieldType.integerViolations_eq_nil_iff rfl
  | .plain _ => by
    rw [FieldType.violations]
    exact FieldType.integerViolations_eq_nil_iff rfl

end

/-- A computation at a path reports violations below it: it fails with the first one, and succeeds
if there are none. -/
def Reports {α : Type} (path : Path) (outcome : Except PackingError α) :
    List Violation → Prop
  | [] => ∃ result, outcome = .ok result
  | first :: _ => outcome = .error (.misfit (path ++ first.path) first.cause)

section Reports

variable {α β : Type} {path : Path} {violations others : List Violation}

theorem reports_below_iff {outcome : Except PackingError α} (steps : Path) :
    Reports path outcome (violations.map (.below steps)) ↔
      Reports (path ++ steps) outcome violations := by
  cases violations with
  | nil => rfl
  | cons first rest => simp only [List.map_cons, Reports, Violation.below, List.append_assoc]

/-- What goes wrong in a first step comes before what goes wrong in a second one. -/
theorem Reports.bind {first : Except PackingError α} {second : α → Except PackingError β}
    (here : Reports path first violations)
    (later : ∀ result, first = .ok result → Reports path (second result) others) :
    Reports path (first >>= second) (violations ++ others) := by
  cases violations with
  | nil =>
    obtain ⟨result, done⟩ := here
    rw [done, ok_bind, List.nil_append]
    exact later result done
  | cons violation rest =>
    have failed : first = _ := here
    rw [failed]
    rfl

theorem Reports.pure {outcome : Except PackingError α} (here : Reports path outcome violations)
    (result : α → β) : Reports path (outcome >>= fun a => pure (result a)) violations := by
  rw [← List.append_nil violations]
  exact here.bind fun a _ => ⟨result a, rfl⟩

theorem Reports.mapM {items : List α} {action : α → Except PackingError β}
    {found : α → List Violation}
    (each : ∀ item ∈ items, Reports path (action item) (found item)) :
    Reports path (items.mapM action) (items.flatMap found) := by
  induction items with
  | nil => exact ⟨[], rfl⟩
  | cons item rest ih =>
    obtain ⟨here, later⟩ := List.forall_mem_cons.mp each
    rw [List.mapM_cons, List.flatMap_cons]
    exact here.bind fun result _ => (ih later).pure fun results => result :: results

end Reports

theorem Value.reports_writeTo (value : Value) (range : BitRange) (path : Path) :
    Reports path (value.writeTo range path) value.integerViolations := by
  rw [writeTo, integerViolations]
  cases value.raw? with
  | none => simp [Reports]
  | some raw => exact ⟨_, rfl⟩

/-- The number of the items is looked at before any of them. -/
theorem reports_itemsFor (length : Nat) (items : List Value) (path : Path) :
    Reports path ((Value.array items).itemsFor length path) (lengthViolations length items) := by
  rw [lengthViolations]
  by_cases tooMany : length < items.length
  · simp [Value.itemsFor, Value.items?, Reports, tooMany]
  · simp [Value.itemsFor, Value.items?, Reports, tooMany]

mutual

theorem Layout.reports_writesAt (base : Nat) (path : Path) (tree : Tree) :
    (layout : Layout) → Reports path (layout.writesAt base path tree) (layout.violations tree)
  | ⟨_, _, fields, _⟩ => by
    rw [Layout.writesAt, Layout.violations]
    exact reports_writesOfFields base path tree fields

theorem reports_writesOfFields (base : Nat) (path : Path) (tree : Tree) :
    (fields : List Field) →
      Reports path (writesOfFields fields base path tree) (violationsOfFields fields tree)
  | [] => ⟨[], rfl⟩
  | field :: rest => by
    have here (value : Value) := Field.reports_writesAt base path value field
    have later := reports_writesOfFields base path tree rest
    rw [writesOfFields, violationsOfFields]
    cases tree.lookup field.name with
    | none => exact later.pure fun others => [] ++ others
    | some value => exact (here value).bind fun first _ => later.pure fun others => first ++ others

theorem Field.reports_writesAt (base : Nat) (path : Path) (value : Value) :
    (field : Field) → Reports path (field.writesAt base path value) (field.violations value)
  | ⟨name, type, none, offset⟩ => by
    rw [Field.writesAt, Field.violations, reports_below_iff]
    exact FieldType.reports_writesAt _ _ value type
  | ⟨name, type, some length, offset⟩ => by
    have element (item : Value) (i : Nat) := FieldType.reports_writesAt
      (base + (offset + i * type.width)) (path ++ [.field name, .index i]) item type
    rw [Field.writesAt, Field.violations]
    cases value with
    | array items =>
      apply Reports.bind
      · rw [reports_below_iff]
        exact reports_itemsFor length items _
      · intro taken found
        obtain ⟨⟨⟩, _⟩ := Value.itemsFor_eq_ok_iff.mp found
        apply Reports.pure
        apply Reports.mapM
        intro entry _
        rw [reports_below_iff]
        exact element entry.1 entry.2
    | _ => rfl

theorem FieldType.reports_writesAt (base : Nat) (path : Path) (value : Value) :
    (type : FieldType) → Reports path (type.writesAt base path value) (type.violations value)
  | .nested layout => by
    have inner (tree : Tree) := Layout.reports_writesAt base path tree layout
    rw [FieldType.writesAt, FieldType.violations]
    cases value.tree? with
    | none => simp [Reports]
    | some tree => exact inner tree
  | .bitfield _ _ => by
    rw [FieldType.writesAt, FieldType.violations]
    exact value.reports_writeTo _ path
  | .plain _ => by
    rw [FieldType.writesAt, FieldType.violations]
    exact value.reports_writeTo _ path

end

namespace Path

/-- The text of a path that begins with a name: names are joined by points, and indices stand in
brackets behind them. -/
def dotted (path : Path) : String :=
  String.ofList (path.flatMap Step.piece).tail

theorem text_eq_dotted {name : String} (begun : name ≠ "") (rest : Path) :
    text (.field name :: rest) = dotted (.field name :: rest) := by
  rw [dotted, ← cons_toList_text begun rest, List.tail_cons, String.ofList_toList]

end Path

theorem Field.head?_of_mem_violations {field : Field} {value : Value} {violation : Violation}
    (member : violation ∈ field.violations value) :
    ∃ rest, violation.path = .field field.name :: rest := by
  have below {steps : Path} {inside : List Violation}
      (found : violation ∈ inside.map (.below (.field field.name :: steps))) :
      ∃ rest, violation.path = .field field.name :: rest := by
    obtain ⟨deeper, _, rfl⟩ := List.mem_map.mp found
    exact ⟨steps ++ deeper.path, rfl⟩
  obtain ⟨name, type, _ | length, offset⟩ := field
  · rw [violations] at member
    exact below member
  · rw [violations] at member
    cases found : value.items? with
    | none =>
      rw [found, List.mem_singleton] at member
      exact ⟨[], by rw [member]⟩
    | some items =>
      rw [found, List.mem_append, List.mem_flatMap] at member
      rcases member with atArray | ⟨entry, _, atItem⟩
      · exact below atArray
      · exact below atItem

theorem Layout.exists_field_of_mem_violations {layout : Layout} {tree : Tree}
    {violation : Violation} (member : violation ∈ layout.violations tree) :
    ∃ field ∈ layout.fields, ∃ rest, violation.path = .field field.name :: rest := by
  obtain ⟨_, _, fields, _⟩ := layout
  rw [violations] at member
  induction fields with
  | nil => cases member
  | cons field rest ih =>
    rw [violationsOfFields, List.mem_append] at member
    rcases member with here | later
    · cases found : tree.lookup field.name with
      | none =>
        rw [found] at here
        cases here
      | some value =>
        rw [found] at here
        exact ⟨field, List.mem_cons_self, Field.head?_of_mem_violations here⟩
    · obtain ⟨other, inside, begins⟩ := ih later
      exact ⟨other, List.mem_cons_of_mem _ inside, begins⟩

namespace Layout

theorem reports_pack (layout : Layout) (tree : Tree) :
    Reports [] (layout.pack tree) (layout.violations tree) :=
  (layout.reports_writesAt 0 [] tree).pure _

/-- A tree is packed if and only if the layout accepts it. Otherwise the first of its violations is
reported, whatever the order of its entries is, and nothing else can go wrong. -/
theorem pack_reports_first {layout : Layout} (named : ∀ field ∈ layout.fields, field.name ≠ "")
    (tree : Tree) :
    ((∃ bytes, layout.pack tree = .ok bytes) ↔ layout.Accepts tree) ∧
    ∀ cause, layout.pack tree = .error cause ↔
      ∃ first later, layout.violations tree = first :: later ∧
        cause = .misfit first.path first.cause ∧
        cause.message = "invalid value for field '" ++ first.path.dotted ++ "': " ++
          first.cause.reason := by
  have reports := layout.reports_pack tree
  rw [← violations_eq_nil_iff]
  cases all : layout.violations tree with
  | nil =>
    rw [all] at reports
    obtain ⟨bytes, packed⟩ := reports
    simp [packed]
  | cons first later =>
    rw [all] at reports
    have failed : layout.pack tree = .error (.misfit first.path first.cause) := reports
    have member : first ∈ layout.violations tree := by
      rw [all]
      exact List.mem_cons_self
    obtain ⟨field, known, rest, path⟩ := exists_field_of_mem_violations member
    have text : first.path.text = first.path.dotted := by
      rw [path, Path.text_eq_dotted (named field known)]
    rw [failed]
    refine ⟨by simp, fun cause => ?_⟩
    constructor
    · intro same
      obtain rfl := Except.error.inj same
      refine ⟨first, later, rfl, rfl, ?_⟩
      show "invalid value for field '" ++ first.path.text ++ "': " ++ first.cause.reason = _
      rw [text]
    · rintro ⟨_, _, same, rfl, _⟩
      obtain ⟨rfl, rfl⟩ := List.cons.inj same
      rfl

end Layout

namespace Sample

/-- An entry that belongs to no field, and a tree in place of an integer. -/
def crooked : Tree :=
  [("extra", .array []), ("path", .array [.tree [], .tree [("x", .unsigned 9), ("y", .tree [])]])]

end Sample

namespace Layout

theorem pack_reports_first_frame :
    (∀ field ∈ Sample.frame.fields, field.name ≠ "") ∧ ¬ Sample.frame.Accepts Sample.crooked ∧
      ∃ cause, Sample.frame.pack Sample.crooked = .error cause ∧
        cause.message = "invalid value for field 'path[1].y': expected an integer" := by
  have named : ∀ field ∈ Sample.frame.fields, field.name ≠ "" := by decide
  obtain ⟨packs, reports⟩ := pack_reports_first named Sample.crooked
  have failed : Sample.frame.pack Sample.crooked =
      .error (.misfit [.field "path", .index 1, .field "y"] .notInteger) := rfl
  refine ⟨named, ?_, _, failed, ?_⟩
  · rw [← packs, failed]
    rintro ⟨bytes, packed⟩
    cases packed
  · obtain ⟨first, later, all, _, message⟩ := (reports _).mp failed
    obtain ⟨rfl, rfl⟩ := List.cons.inj all.symm
    rw [message]
    decide

end Layout

end PackedStruct
