import PackedStruct.Session

/-! Commands as computations that change a session on their way, one entry at a time. They are the
commands of a session: none has changed anything by the time it fails. -/

namespace PackedStruct

namespace Session

/-- A computation that changes a session. Where it fails, the changes up to there stay. -/
abbrev Change (α : Type) := ExceptT DefinitionError (StateM Session) α

namespace Change

variable {α β : Type}

/-- What became of the computation, and the session that it leaves. -/
def outcome (change : Change α) (session : Session) : Except DefinitionError α × Session :=
  change.run.run session

/-- Goes on with the value if there is one. -/
def ofExcept (value : Except DefinitionError α) : Change α :=
  ExceptT.mk (pure value)

def enter (layout : Layout) : Change Unit :=
  modify fun session => { session with catalog := session.catalog.insert layout }

def enterIfNew (layout : Layout) : Change Unit := do
  let session ← get
  if session.catalog.contains layout.name then return () else enter layout

def define (text : String) : Change (List Layout) := do
  let session ← get
  let declared ← ofExcept (Definition.declarationOf session.settings.constants text)
  let layout ← ofExcept (declared.layout session.settings.order session.catalog)
  enter layout
  return [layout]

/-- Enters the structs that a text defines. The later ones are resolved by a copy of the catalog
that takes the place of the catalog in the end. -/
def defineAll (text : String) : Change (List Layout) := do
  let session ← get
  let declared ← ofExcept (Definition.declarationsOf session.settings.constants text)
  let (layouts, copy) ← ofExcept
    (Definition.layoutAll session.settings.order session.catalog declared)
  modify fun session => { session with catalog := copy }
  return layouts

/-- Enters the structs nested in a document where their names are free, then its own struct. -/
def importRead : Option Document → Change (List Layout)
  | none => throw .unreadableDocument
  | some document => do
    let (layout, nested) ← ofExcept document.restore
    nested.forM enterIfNew
    enter layout
    return [layout]

def ofCommand : Command → Change (List Layout)
  | .defineConstants constants => do
    modify fun session => session.defineConstants constants
    return []
  | .addLabels struct field labels => do
    modify fun session => session.addLabels struct field labels
    return []
  | .define text => define text
  | .defineAll text => defineAll text
  | .importJson json => importRead (Document.ofJson? json)
  | .importText text => importRead (Document.ofText? text)

variable {session : Session}

theorem outcome_bind (change : Change α) (next : α → Change β) :
    (change >>= next).outcome session =
      match change.outcome session with
      | (.ok value, after) => (next value).outcome after
      | (.error cause, after) => (.error cause, after) := by
  change (match change.outcome session with
    | (outcome, after) => (ExceptT.bindCont next outcome).run after) = _
  cases change.outcome session with
  | mk outcome after => cases outcome <;> rfl

theorem outcome_bind_ofExcept (value : Except DefinitionError α) (next : α → Change β) :
    (ofExcept value >>= next).outcome session =
      match value with
      | .ok value => (next value).outcome session
      | .error cause => (.error cause, session) := by
  cases value <;> rfl

theorem outcome_get_bind (next : Session → Change α) :
    (get >>= next).outcome session = (next session).outcome session :=
  rfl

theorem outcome_enterIfNew (layout : Layout) :
    (enterIfNew layout).outcome session =
      (.ok (), { session with catalog := session.catalog.insertIfNew layout }) := by
  rw [enterIfNew, outcome_get_bind]
  by_cases taken : session.catalog.layouts.contains layout.name
  · rw [if_pos (show session.catalog.contains layout.name = true from taken)]
    rw [Catalog.insertIfNew, if_pos taken]
    rfl
  · rw [if_neg (show ¬ session.catalog.contains layout.name = true from taken)]
    rw [Catalog.insertIfNew, if_neg taken]
    rfl

theorem outcome_forM_enterIfNew (layouts : List Layout) :
    Change.outcome (layouts.forM enterIfNew) session =
      (.ok (), { session with catalog := layouts.foldl Catalog.insertIfNew session.catalog }) := by
  induction layouts generalizing session with
  | nil => rfl
  | cons layout rest ih =>
    change (enterIfNew layout >>= fun _ => rest.forM enterIfNew).outcome session = _
    rw [outcome_bind, outcome_enterIfNew]
    exact ih

theorem outcome_define (text : String) :
    (define text).outcome session =
      match session.define text with
      | .ok (layout, after) => (.ok [layout], after)
      | .error cause => (.error cause, session) := by
  rw [define, Session.define, outcome_get_bind, outcome_bind_ofExcept]
  cases Definition.declarationOf session.settings.constants text with
  | error cause => rfl
  | ok declared =>
    simp only [bind, Except.bind]
    cases declared.layout session.settings.order session.catalog with
    | error cause => rfl
    | ok layout => rfl

theorem outcome_defineAll (text : String) :
    (defineAll text).outcome session =
      match session.defineAll text with
      | .ok (layouts, after) => (.ok layouts, after)
      | .error cause => (.error cause, session) := by
  rw [defineAll, Session.defineAll, outcome_get_bind, outcome_bind_ofExcept]
  cases Definition.declarationsOf session.settings.constants text with
  | error cause => rfl
  | ok declared =>
    simp only [bind, Except.bind]
    cases Definition.layoutAll session.settings.order session.catalog declared with
    | error cause => rfl
    | ok made => rfl

theorem outcome_importRead (document? : Option Document) :
    (importRead document?).outcome session =
      match session.importRead document? with
      | .ok (layout, after) => (.ok [layout], after)
      | .error cause => (.error cause, session) := by
  cases document? with
  | none => rfl
  | some document =>
    rw [importRead, Session.importRead, importDocument, outcome_bind_ofExcept]
    cases document.restore with
    | error cause => rfl
    | ok restored =>
      simp only [outcome_bind, outcome_forM_enterIfNew]
      rfl

/-- A command changes a session as its computation does. -/
theorem outcome_ofCommand (command : Command) :
    (ofCommand command).outcome session =
      ((session.perform command).2, (session.perform command).1) := by
  cases command with
  | defineConstants constants => rfl
  | addLabels struct field labels => rfl
  | define text =>
    rw [ofCommand, outcome_define, perform, attempt]
    cases session.define text <;> rfl
  | defineAll text =>
    rw [ofCommand, outcome_defineAll, perform, attempt]
    cases session.defineAll text <;> rfl
  | importJson json =>
    rw [ofCommand, outcome_importRead, perform, attempt, importJson]
    cases session.importRead (Document.ofJson? json) <;> rfl
  | importText text =>
    rw [ofCommand, outcome_importRead, perform, attempt, importText]
    cases session.importRead (Document.ofText? text) <;> rfl

end Change

end Session

end PackedStruct
