import PackedStruct.Proofs.DocumentRoundTrip
import PackedStruct.Stepwise

namespace PackedStruct

namespace Catalog

def lastOf? (layouts : List Layout) (name : String) : Option Layout :=
  layouts.reverse.find? fun layout => layout.name == name

/-- The layout of the name among some, where the first one counts. -/
def firstOf? (layouts : List Layout) (name : String) : Option Layout :=
  layouts.find? fun layout => layout.name == name

theorem lastOf?_cons (layout : Layout) (rest : List Layout) (name : String) :
    lastOf? (layout :: rest) name =
      (lastOf? rest name).or (if name = layout.name then some layout else none) := by
  rw [lastOf?, List.reverse_cons, List.find?_append, lastOf?]
  by_cases same : layout.name = name
  · simp [same]
  · simp [same, Ne.symm same]

theorem firstOf?_cons (layout : Layout) (rest : List Layout) (name : String) :
    firstOf? (layout :: rest) name =
      if name = layout.name then some layout else firstOf? rest name := by
  by_cases same : layout.name = name
  · simp [firstOf?, same]
  · simp [firstOf?, same, Ne.symm same]

theorem lastOf?_eq_none {layouts : List Layout} {name : String}
    (apart : ∀ layout ∈ layouts, layout.name ≠ name) : lastOf? layouts name = none := by
  rw [lastOf?, List.find?_eq_none]
  intro layout member
  simpa using apart layout (List.mem_reverse.mp member)

theorem get?_insertIfNew (catalog : Catalog) (layout : Layout) (name : String) :
    (catalog.insertIfNew layout).get? name =
      (catalog.get? name).or (if name = layout.name then some layout else none) := by
  unfold insertIfNew
  split
  · rename_i taken
    obtain ⟨known, found⟩ := Option.isSome_iff_exists.mp taken
    have here : catalog.get? layout.name = some known := found
    by_cases same : name = layout.name
    · rw [same, here]
      rfl
    · simp [same]
  · rename_i new
    have absent : catalog.get? layout.name = none := by
      simpa [contains, SortedMap.contains, get?] using new
    rw [get?_insert]
    by_cases same : name = layout.name
    · rw [same, absent, if_pos rfl]
      rfl
    · simp [same]

/-- Of several new layouts with one name the first is entered, and none whose name is taken. -/
theorem get?_foldl_insertIfNew (catalog : Catalog) (layouts : List Layout) (name : String) :
    (layouts.foldl insertIfNew catalog).get? name =
      (catalog.get? name).or (firstOf? layouts name) := by
  induction layouts generalizing catalog with
  | nil => exact (Option.or_none).symm
  | cons layout rest ih =>
    rw [List.foldl_cons, ih, get?_insertIfNew, firstOf?_cons, Option.or_assoc]
    by_cases same : name = layout.name
    · simp [same]
    · simp [same]

end Catalog

namespace Definition

variable {order : ByteOrder} {catalog final : Catalog}

theorem layoutAll_cons_eq_ok_iff {declared : Declaration} {rest : List Declaration}
    {layouts : List Layout} :
    layoutAll order catalog (declared :: rest) = .ok (layouts, final) ↔
      ∃ layout others, declared.layout order catalog = .ok layout ∧
        layoutAll order (catalog.insert layout) rest = .ok (others, final) ∧
        layouts = layout :: others := by
  constructor
  · intro made
    obtain ⟨layout, first, later⟩ := bind_eq_ok_iff.mp made
    obtain ⟨⟨others, last⟩, tail, same⟩ := bind_eq_ok_iff.mp later
    cases same
    exact ⟨layout, others, first, tail, rfl⟩
  · rintro ⟨layout, others, first, tail, rfl⟩
    refine bind_eq_ok_iff.mpr ⟨layout, first, ?_⟩
    exact bind_eq_ok_iff.mpr ⟨(others, final), tail, rfl⟩

theorem Declaration.name_of_layout {declared : Declaration} {layout : Layout}
    (made : declared.layout order catalog = .ok layout) : layout.name = declared.name := by
  obtain ⟨members, _, placed⟩ := bind_eq_ok_iff.mp made
  exact (Layout.ofMembers_eq_ok_iff.mp (mapError_eq_ok_iff.mp placed)).2.1

/-- The layouts have the names of their declarations, and the last one of each name stays. -/
theorem entries_of_layoutAll {declared : List Declaration} {layouts : List Layout}
    (made : layoutAll order catalog declared = .ok (layouts, final)) :
    layouts.map Layout.name = declared.map Declaration.name ∧
      ∀ name, final.get? name = (Catalog.lastOf? layouts name).or (catalog.get? name) := by
  induction declared generalizing catalog layouts with
  | nil =>
    cases made
    exact ⟨rfl, fun _ => rfl⟩
  | cons first rest ih =>
    obtain ⟨layout, others, here, later, rfl⟩ := layoutAll_cons_eq_ok_iff.mp made
    obtain ⟨names, entries⟩ := ih later
    refine ⟨?_, fun name => ?_⟩
    · rw [List.map_cons, List.map_cons, names, first.name_of_layout here]
    · rw [entries, Catalog.get?_insert, Catalog.lastOf?_cons, Option.or_assoc]
      by_cases same : name = layout.name
      · simp [same]
      · simp [same]

end Definition

namespace Settings

variable (settings : Settings)

@[simp] theorem order_define (constants : List (String × UInt64)) :
    (settings.define constants).order = settings.order := rfl

@[simp] theorem define_nil : settings.define [] = settings := rfl

theorem define_append (first second : List (String × UInt64)) :
    settings.define (first ++ second) = (settings.define first).define second := by
  simp only [define, SortedMap.insertAll_append]

theorem get?_define (constants : List (String × UInt64)) (name : String) :
    (settings.define constants).constants.get? name =
      (constants.reverse.lookup name).or (settings.constants.get? name) :=
  settings.constants.get?_insertAll constants name

/-- A constant has the last value that is given for its name, or else the value that it had. -/
theorem get?_define_eq_some_iff {constants : List (String × UInt64)} {name : String}
    {value : UInt64} :
    (settings.define constants).constants.get? name = some value ↔
      Entries.LastOf constants name value ∨
        (∀ pair ∈ constants, pair.1 ≠ name) ∧ settings.constants.get? name = some value := by
  rw [get?_define, Option.or_eq_some_iff, Entries.lookup_reverse_eq_some_iff,
    Entries.lookup_reverse_eq_none_iff]

end Settings

namespace Session

variable {session after : Session}

theorem define_eq_ok_iff {text : String} {layout : Layout} :
    session.define text = .ok (layout, after) ↔
      ∃ declared, Definition.declarationOf session.settings.constants text = .ok declared ∧
        declared.layout session.settings.order session.catalog = .ok layout ∧
        after = { session with catalog := session.catalog.insert layout } := by
  constructor
  · intro defined
    obtain ⟨declared, read, made⟩ := bind_eq_ok_iff.mp defined
    obtain ⟨layout, placed, same⟩ := bind_eq_ok_iff.mp made
    cases same
    exact ⟨declared, read, placed, rfl⟩
  · rintro ⟨declared, read, placed, rfl⟩
    refine bind_eq_ok_iff.mpr ⟨declared, read, ?_⟩
    exact bind_eq_ok_iff.mpr ⟨layout, placed, rfl⟩

theorem defineAll_eq_ok_iff {text : String} {layouts : List Layout} :
    session.defineAll text = .ok (layouts, after) ↔
      ∃ declared catalog,
        Definition.declarationsOf session.settings.constants text = .ok declared ∧
        Definition.layoutAll session.settings.order session.catalog declared =
          .ok (layouts, catalog) ∧
        after = { session with catalog := catalog } := by
  constructor
  · intro defined
    obtain ⟨declared, read, made⟩ := bind_eq_ok_iff.mp defined
    obtain ⟨⟨layouts, catalog⟩, placed, same⟩ := bind_eq_ok_iff.mp made
    cases same
    exact ⟨declared, catalog, read, placed, rfl⟩
  · rintro ⟨declared, catalog, read, placed, rfl⟩
    refine bind_eq_ok_iff.mpr ⟨declared, read, ?_⟩
    exact bind_eq_ok_iff.mpr ⟨(layouts, catalog), placed, rfl⟩

theorem importRead_eq_ok_iff {document? : Option Document} {layout : Layout} :
    session.importRead document? = .ok (layout, after) ↔
      ∃ document, document? = some document ∧ document.restore = .ok (layout, layout.inner) ∧
        after = { session with
          catalog := (layout.inner.foldl Catalog.insertIfNew session.catalog).insert layout } := by
  cases document? with
  | none =>
    constructor
    · intro imported
      cases imported
    · rintro ⟨_, ⟨⟩, _⟩
  | some document =>
    constructor
    · intro imported
      obtain ⟨⟨layout, nested⟩, restored, same⟩ := bind_eq_ok_iff.mp imported
      obtain ⟨_, _, rfl⟩ := (document.restoresDescribed layout nested).mp restored
      cases same
      exact ⟨document, rfl, restored, rfl⟩
    · rintro ⟨_, ⟨⟩, restored, rfl⟩
      exact bind_eq_ok_iff.mpr ⟨(layout, layout.inner), restored, rfl⟩

/-- Another session differs in its catalog only, which has under each name what `known` has. -/
structure Becomes (session after : Session) (known : String → Option Layout) : Prop where
  settings : after.settings = session.settings
  labels : after.labels = session.labels
  catalog : ∀ name, after.catalog.get? name = known name

/-- The document has been imported: its own struct has the layout, and each name of a nested struct
that was free has the first layout of that name. -/
structure Imports (session : Session) (document : Document) (layout : Layout) (after : Session) :
    Prop where
  restored : document.restore = .ok (layout, layout.inner)
  named : layout.name = document.name
  becomes : session.Becomes after fun name =>
    if name = document.name then some layout
    else (session.catalog.get? name).or (Catalog.firstOf? layout.inner name)

/-- What a command does that succeeds with some layouts. -/
inductive Effect (session : Session) : Command → List Layout → Session → Prop where
  | defineConstants (constants : List (String × UInt64)) :
      session.Effect (.defineConstants constants) []
        { session with settings := session.settings.define constants }
  | addLabels (struct field : String) (labels : List (UInt64 × String)) :
      session.Effect (.addLabels struct field labels) []
        { session with labels := session.labels.add struct field labels }
  | define {text : String} {declared : Definition.Declaration} {layout : Layout} {after : Session}
      (declares : Definition.declarationOf session.settings.constants text = .ok declared)
      (placed : declared.layout session.settings.order session.catalog = .ok layout)
      (named : layout.name = declared.name)
      (becomes : session.Becomes after fun name =>
        if name = declared.name then some layout else session.catalog.get? name) :
      session.Effect (.define text) [layout] after
  | defineAll {text : String} {declared : List Definition.Declaration} {layouts : List Layout}
      {after : Session}
      (declares : Definition.declarationsOf session.settings.constants text = .ok declared)
      (placed : Definition.layoutAll session.settings.order session.catalog declared =
        .ok (layouts, after.catalog))
      (named : layouts.map Layout.name = declared.map Definition.Declaration.name)
      (becomes : session.Becomes after fun name =>
        (Catalog.lastOf? layouts name).or (session.catalog.get? name)) :
      session.Effect (.defineAll text) layouts after
  | importJson {json : Json} {document : Document} {layout : Layout} {after : Session}
      (read : Document.ofJson? json = some document)
      (imports : session.Imports document layout after) :
      session.Effect (.importJson json) [layout] after
  | importText {text : String} {document : Document} {layout : Layout} {after : Session}
      (read : Document.ofText? text = some document)
      (imports : session.Imports document layout after) :
      session.Effect (.importText text) [layout] after

theorem exists_imports {document? : Option Document} {layout : Layout}
    (imported : session.importRead document? = .ok (layout, after)) :
    ∃ document, document? = some document ∧ session.Imports document layout after := by
  obtain ⟨document, read, restored, rfl⟩ := importRead_eq_ok_iff.mp imported
  have describes := ((document.restoresDescribed layout _).mp restored).1
  refine ⟨document, read, restored, describes.name.symm, rfl, rfl, fun name => ?_⟩
  rw [Catalog.get?_insert, Catalog.get?_foldl_insertIfNew, describes.name]

theorem effect_of_attempt {command : Command} {layouts : List Layout}
    (done : session.attempt command = .ok (layouts, after)) :
    session.Effect command layouts after := by
  cases command with
  | defineConstants constants =>
    cases done
    exact .defineConstants constants
  | addLabels struct field labels =>
    cases done
    exact .addLabels struct field labels
  | define text =>
    obtain ⟨⟨layout, next⟩, defined, same⟩ := map_eq_ok_iff.mp done
    cases same
    obtain ⟨declared, declares, placed, rfl⟩ := define_eq_ok_iff.mp defined
    have named := declared.name_of_layout placed
    refine .define declares placed named ⟨rfl, rfl, fun name => ?_⟩
    rw [Catalog.get?_insert, named]
  | defineAll text =>
    obtain ⟨declared, catalog, declares, placed, rfl⟩ := defineAll_eq_ok_iff.mp done
    obtain ⟨named, entries⟩ := Definition.entries_of_layoutAll placed
    exact .defineAll declares placed named ⟨rfl, rfl, entries⟩
  | importJson json =>
    obtain ⟨⟨layout, next⟩, imported, same⟩ := map_eq_ok_iff.mp done
    cases same
    obtain ⟨document, read, imports⟩ := exists_imports imported
    exact .importJson read imports
  | importText text =>
    obtain ⟨⟨layout, next⟩, imported, same⟩ := map_eq_ok_iff.mp done
    cases same
    obtain ⟨document, read, imports⟩ := exists_imports imported
    exact .importText read imports

/-- The layouts that commands enter under the names that they are about. Commands that fail enter
none. -/
def entered (session : Session) : List Command → List Layout
  | [] => []
  | command :: rest =>
    match session.perform command with
    | (after, .ok layouts) => layouts ++ after.entered rest
    | (after, .error _) => after.entered rest

/-- A command keeps the layout of a struct that it does not define or import. -/
theorem Effect.get?_eq_some {command : Command} {layouts : List Layout}
    (effect : session.Effect command layouts after) {struct : String} {layout : Layout}
    (known : session.catalog.get? struct = some layout)
    (apart : ∀ other ∈ layouts, other.name ≠ struct) :
    after.catalog.get? struct = some layout := by
  have ofImport {document : Document} {root : Layout}
      (imports : session.Imports document root after) (other : root.name ≠ struct) :
      after.catalog.get? struct = some layout := by
    rw [imports.becomes.catalog, ← imports.named, if_neg (Ne.symm other), known]
    rfl
  cases effect with
  | defineConstants => exact known
  | addLabels => exact known
  | define _ _ named becomes =>
    have other := apart _ (List.mem_singleton_self _)
    rw [becomes.catalog, ← named, if_neg (Ne.symm other)]
    exact known
  | defineAll _ _ _ becomes =>
    rw [becomes.catalog, Catalog.lastOf?_eq_none apart]
    exact known
  | importJson _ imports => exact ofImport imports (apart _ (List.mem_singleton_self _))
  | importText _ imports => exact ofImport imports (apart _ (List.mem_singleton_self _))

theorem get?_performAll {commands : List Command} {struct : String} {layout : Layout}
    (known : session.catalog.get? struct = some layout)
    (apart : ∀ other ∈ session.entered commands, other.name ≠ struct) :
    (session.performAll commands).catalog.get? struct = some layout := by
  induction commands generalizing session with
  | nil => exact known
  | cons command rest ih =>
    change ((session.perform command).1.performAll rest).catalog.get? struct = some layout
    unfold entered perform at apart
    cases done : session.attempt command with
    | ok result =>
      obtain ⟨layouts, after⟩ := result
      rw [done] at apart
      have effect := effect_of_attempt done
      have kept : after.catalog.get? struct = some layout :=
        effect.get?_eq_some known fun other here => apart other (List.mem_append_left _ here)
      rw [perform, done]
      exact ih kept fun other later => apart other (List.mem_append_right _ later)
    | error cause =>
      rw [done] at apart
      rw [perform, done]
      exact ih known apart

def Command.constants : Command → List (String × UInt64)
  | .defineConstants constants => constants
  | _ => []

theorem Effect.settings {command : Command} {layouts : List Layout}
    (effect : session.Effect command layouts after) :
    after.settings = session.settings.define command.constants := by
  cases effect with
  | defineConstants => rfl
  | addLabels => rfl
  | define _ _ _ becomes => exact becomes.settings
  | defineAll _ _ _ becomes => exact becomes.settings
  | importJson _ imports => exact imports.becomes.settings
  | importText _ imports => exact imports.becomes.settings

theorem settings_perform (session : Session) (command : Command) :
    (session.perform command).1.settings = session.settings.define command.constants := by
  rw [perform]
  cases done : session.attempt command with
  | ok result => exact (effect_of_attempt done).settings
  | error cause =>
    cases command with
    | defineConstants => cases done
    | _ => rfl

/-- In a run the constants are those that its commands have given one after the other. The byte
order stays. -/
theorem settings_performAll (session : Session) (commands : List Command) :
    (session.performAll commands).settings =
      session.settings.define (commands.flatMap Command.constants) := by
  induction commands generalizing session with
  | nil => rfl
  | cons command rest ih =>
    change ((session.perform command).1.performAll rest).settings = _
    rw [ih, settings_perform, List.flatMap_cons, Settings.define_append]

theorem get?_constants_performAll (commands : List Command) {name : String} {value : UInt64} :
    (session.performAll commands).settings.constants.get? name = some value ↔
      Entries.LastOf (commands.flatMap Command.constants) name value ∨
        (∀ pair ∈ commands.flatMap Command.constants, pair.1 ≠ name) ∧
          session.settings.constants.get? name = some value := by
  rw [settings_performAll, Settings.get?_define_eq_some_iff]

/-- Another session answers as this one does about a struct. -/
structure AnswersAlike (session after : Session) (struct : String) : Prop where
  layout : after.layout struct = session.layout struct
  pack : ∀ tree, after.pack struct tree = session.pack struct tree
  unpack : ∀ bytes, after.unpack struct bytes = session.unpack struct bytes
  document : after.document struct = session.document struct

theorem get?_of_layout {struct : String} {layout : Layout}
    (known : session.layout struct = .ok layout) :
    session.catalog.get? struct = some layout := by
  unfold Session.layout at known
  split at known
  · rename_i found
    cases known
    exact found
  · cases known

theorem answersAlike_of_layout {struct : String}
    (same : after.layout struct = session.layout struct) : session.AnswersAlike after struct where
  layout := same
  pack := fun _ => by rw [pack, pack, withLayout, withLayout, same]
  unpack := fun _ => by rw [unpack, unpack, withLayout, withLayout, same]
  document := by rw [document, document, same]

/-- A command that fails leaves the session as it was, although it might have changed it on its
way, and one that succeeds has its effect only. So a struct that is known stays the same in every
run that enters no other layout under its name. -/
theorem perform_effect (session : Session) :
    (∀ command, (Change.ofCommand command).outcome session =
      ((session.perform command).2, (session.perform command).1)) ∧
    (∀ command cause after, session.perform command = (after, .error cause) → after = session) ∧
    (∀ command layouts after, session.perform command = (after, .ok layouts) →
      session.Effect command layouts after) ∧
    ∀ commands struct layout, session.layout struct = .ok layout →
      (∀ other ∈ session.entered commands, other.name ≠ struct) →
      session.AnswersAlike (session.performAll commands) struct := by
  refine ⟨fun command => Change.outcome_ofCommand command, ?_, ?_, ?_⟩
  · intro command cause after failed
    unfold perform at failed
    split at failed
    · cases failed
    · cases failed
      rfl
  · intro command layouts after done
    unfold perform at done
    split at done
    · rename_i attempted
      cases done
      exact effect_of_attempt attempted
    · cases done
  · intro commands struct layout known apart
    apply answersAlike_of_layout
    rw [known]
    exact layout_eq_ok (get?_performAll (get?_of_layout known) apart)

end Session

namespace Sample

def cell : Layout := ⟨"cell", .little, [⟨"x", .plain .char, none, 0⟩], 8⟩

def row : Layout := ⟨"row", .little, [⟨"cells", .nested cell, some 2, 0⟩], 16⟩

def knowing (layouts : List Layout) : Session :=
  { Session.start .default with catalog := layouts.foldl Catalog.insert .empty }

/-- Another struct of the name `cell`. -/
def wideCell : Layout := ⟨"cell", .little, [⟨"x", .plain .short, none, 0⟩], 16⟩

theorem perform_define_wideCell :
    (knowing [cell, row]).perform (.define "typedef struct \x7b short x; \x7d cell;") =
      (knowing [wideCell, row], .ok [wideCell]) := by
  have defined : (knowing [cell, row]).define "typedef struct \x7b short x; \x7d cell;" =
      .ok (wideCell, knowing [wideCell, row]) := by
    refine Session.define_eq_ok_iff.mpr ⟨⟨"cell", [⟨"short", "x", none, none, ⟨1, 18⟩⟩]⟩, ?_⟩
    refine ⟨?_, rfl, rfl⟩
    decide +kernel
  rw [Session.perform, Session.attempt, defined]
  rfl

theorem perform_import_unfinished (session : Session) :
    session.perform (.importText "\x7b") = (session, .error .unreadableDocument) := by
  have unread : Document.ofText? "\x7b" = none := by decide +kernel
  rw [Session.perform, Session.attempt, Session.importText, unread]
  rfl

end Sample

/-- A text that is no document is refused, and the struct `row` stays as it is when the struct
`cell`, which is nested in it, is defined anew. -/
theorem Session.perform_effect_row :
    (∃ after cause, (Sample.knowing [Sample.cell, Sample.row]).perform (.importText "\x7b") =
        (after, .error cause) ∧ after = Sample.knowing [Sample.cell, Sample.row]) ∧
      (Sample.knowing [Sample.cell, Sample.row]).Effect
        (.define "typedef struct \x7b short x; \x7d cell;") [Sample.wideCell]
        (Sample.knowing [Sample.wideCell, Sample.row]) ∧
      (Sample.knowing [Sample.cell, Sample.row]).AnswersAlike
        ((Sample.knowing [Sample.cell, Sample.row]).performAll
          [.importText "\x7b", .define "typedef struct \x7b short x; \x7d cell;"]) "row" := by
  have refused := Sample.perform_import_unfinished (Sample.knowing [Sample.cell, Sample.row])
  have defined := Sample.perform_define_wideCell
  obtain ⟨_, unchanged, changed, kept⟩ := perform_effect (Sample.knowing [Sample.cell, Sample.row])
  refine ⟨⟨_, _, refused, unchanged _ _ _ refused⟩, changed _ _ _ defined, ?_⟩
  apply kept _ "row" Sample.row rfl
  simp only [entered, refused, defined, List.append_nil, List.forall_mem_singleton]
  decide

end PackedStruct
