import PackedStruct.Definition.Resolve
import PackedStruct.Definition.Source
import PackedStruct.Document.Export
import PackedStruct.Document.Import
import PackedStruct.Document.Json
import PackedStruct.Dump
import PackedStruct.Packing.Pack
import PackedStruct.Settings

namespace PackedStruct

structure Session where
  settings : Settings
  catalog : Catalog
  labels : Labels

namespace Session

def start (settings : Settings) : Session :=
  ⟨settings, .empty, .empty⟩

def defineConstants (session : Session) (constants : List (String × UInt64)) : Session :=
  { session with settings := session.settings.define constants }

def addLabels (session : Session) (struct field : String) (labels : List (UInt64 × String)) :
    Session :=
  { session with labels := session.labels.add struct field labels }

def define (session : Session) (text : String) : Except DefinitionError (Layout × Session) := do
  let declared ← Definition.declarationOf session.settings.constants text
  let layout ← declared.layout session.settings.order session.catalog
  return (layout, { session with catalog := session.catalog.insert layout })

/-- Enters all structs that a text defines, or none. -/
def defineAll (session : Session) (text : String) :
    Except DefinitionError (List Layout × Session) := do
  let declared ← Definition.declarationsOf session.settings.constants text
  let (layouts, catalog) ← Definition.layoutAll session.settings.order session.catalog declared
  return (layouts, { session with catalog := catalog })

/-- Enters the struct of a document, and the structs nested in it whose names are free. -/
def importDocument (session : Session) (document : Document) :
    Except DefinitionError (Layout × Session) := do
  let (layout, nested) ← document.restore
  let catalog := (nested.foldl Catalog.insertIfNew session.catalog).insert layout
  return (layout, { session with catalog := catalog })

def importRead (session : Session) : Option Document → Except DefinitionError (Layout × Session)
  | none => .error .unreadableDocument
  | some document => session.importDocument document

def importJson (session : Session) (json : Json) : Except DefinitionError (Layout × Session) :=
  session.importRead (Document.ofJson? json)

def importText (session : Session) (text : String) : Except DefinitionError (Layout × Session) :=
  session.importRead (Document.ofText? text)

inductive Command where
  | defineConstants (constants : List (String × UInt64))
  | addLabels (struct field : String) (labels : List (UInt64 × String))
  | define (text : String)
  | defineAll (text : String)
  | importJson (json : Json)
  | importText (text : String)

/-- The layouts that a command enters under the names it is about, and the session after it. A
command that fails has no such session. -/
def attempt (session : Session) : Command → Except DefinitionError (List Layout × Session)
  | .defineConstants constants => .ok ([], session.defineConstants constants)
  | .addLabels struct field labels => .ok ([], session.addLabels struct field labels)
  | .define text => (session.define text).map fun (layout, session) => ([layout], session)
  | .defineAll text => session.defineAll text
  | .importJson json => (session.importJson json).map fun (layout, session) => ([layout], session)
  | .importText text => (session.importText text).map fun (layout, session) => ([layout], session)

/-- The session after a command, and what became of the command. -/
def perform (session : Session) (command : Command) :
    Session × Except DefinitionError (List Layout) :=
  match session.attempt command with
  | .ok (layouts, session) => (session, .ok layouts)
  | .error cause => (session, .error cause)

/-- The session after some commands, whether they failed or not. -/
def performAll (session : Session) (commands : List Command) : Session :=
  commands.foldl (fun session command => (session.perform command).1) session

def layout (session : Session) (struct : String) : Except LookupError Layout :=
  match session.catalog.get? struct with
  | some layout => .ok layout
  | none => .error (.noStruct struct)

def field (session : Session) (struct name : String) : Except LookupError Field := do
  let layout ← session.layout struct
  match layout.field? name with
  | some field => return field
  | none => throw (.noField ⟨struct, name⟩)

def locate (session : Session) (struct path : String) : Except LookupError (Nat × Field) := do
  let layout ← session.layout struct
  (layout.locate path).mapError .noField

def withLayout {α : Type} (session : Session) (struct : String)
    (answer : Layout → Except PackingError α) : Except Error α := do
  let layout ← (session.layout struct).mapError .lookup
  (answer layout).mapError .packing

def pack (session : Session) (struct : String) (tree : Tree) : Except Error (List UInt8) :=
  session.withLayout struct fun layout => layout.pack tree

def packHex (session : Session) (struct : String) (tree : Tree) : Except Error String :=
  session.withLayout struct fun layout => layout.packHex tree

def unpack (session : Session) (struct : String) (bytes : List UInt8) : Except Error Tree :=
  session.withLayout struct fun layout => layout.unpack bytes

def unpackHex (session : Session) (struct text : String) : Except Error Tree :=
  session.withLayout struct fun layout => layout.unpackHex text

def dump (session : Session) (struct : String) (bytes : List UInt8) : Except Error String :=
  session.withLayout struct fun layout => layout.dump bytes session.labels

def document (session : Session) (struct : String) : Except LookupError Document :=
  (session.layout struct).map Layout.document

def label (session : Session) (struct field : String) (value : UInt64) :
    Except LookupError String :=
  (session.labels.label struct field value).mapError .noLabel

end Session

end PackedStruct
