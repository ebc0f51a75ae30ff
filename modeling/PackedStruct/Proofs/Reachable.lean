import PackedStruct.Proofs.StoredDocument

namespace PackedStruct

theorem Layout.Storable.of_mem_inner {layout inner : Layout} (storable : layout.Storable)
    (member : inner ∈ layout.inner) : inner.Storable :=
  ⟨storable.admissible.of_mem_inner member, storable.lengths.of_mem_inner member⟩

/-- What is restored from a document of 64-bit numbers can be stored. -/
theorem Document.WordSized.storable {document : Document} (small : document.WordSized)
    {layout : Layout} {nested : List Layout} (restored : document.restore = .ok (layout, nested)) :
    layout.Storable ∧ ∀ inner ∈ nested, inner.Storable := by
  obtain ⟨describes, admissible, rfl⟩ := (document.restoresDescribed layout nested).mp restored
  have storable : layout.Storable := ⟨admissible, small.wordLengths describes⟩
  exact ⟨storable, fun inner => storable.of_mem_inner⟩

theorem Catalog.Sound.insertAllNew {catalog : Catalog} (sound : catalog.Sound)
    {layouts : List Layout} (storable : ∀ layout ∈ layouts, layout.Storable) :
    (layouts.foldl Catalog.insertIfNew catalog).Sound := by
  induction layouts generalizing catalog with
  | nil => exact sound
  | cons layout rest ih =>
    obtain ⟨here, later⟩ := List.forall_mem_cons.mp storable
    exact ih (sound.insertIfNew here) later

namespace Session

variable {session after : Session}

def Sound (session : Session) : Prop :=
  session.catalog.Sound

theorem sound_start (settings : Settings) : (start settings).Sound :=
  Catalog.sound_empty

theorem Sound.define {text : String} {layout : Layout} (sound : session.Sound)
    (defined : session.define text = .ok (layout, after)) : after.Sound := by
  obtain ⟨declared, read, defined⟩ := bind_eq_ok_iff.mp defined
  obtain ⟨layout, made, same⟩ := bind_eq_ok_iff.mp defined
  cases same
  exact Catalog.Sound.insert sound
    ((Definition.lawful_of_declarationOf read).storable sound made)

theorem Sound.defineAll {text : String} {layouts : List Layout} (sound : session.Sound)
    (defined : session.defineAll text = .ok (layouts, after)) : after.Sound := by
  obtain ⟨declared, read, defined⟩ := bind_eq_ok_iff.mp defined
  obtain ⟨⟨layouts, catalog⟩, made, same⟩ := bind_eq_ok_iff.mp defined
  cases same
  exact Definition.sound_of_layoutAll (Definition.lawful_of_declarationsOf read) sound made

theorem Sound.importRead {document? : Option Document} {layout : Layout} (sound : session.Sound)
    (small : ∀ document, document? = some document → document.WordSized)
    (imported : session.importRead document? = .ok (layout, after)) : after.Sound := by
  cases document? with
  | none => cases imported
  | some document =>
    obtain ⟨⟨layout, nested⟩, restored, same⟩ := bind_eq_ok_iff.mp imported
    cases same
    obtain ⟨outer, inner⟩ := (small document rfl).storable restored
    exact (Catalog.Sound.insertAllNew sound inner).insert outer

/-- One command that succeeds keeps the catalog sound. -/
theorem Sound.attempt {command : Command} {layouts : List Layout} (sound : session.Sound)
    (done : session.attempt command = .ok (layouts, after)) : after.Sound := by
  cases command with
  | defineConstants constants =>
    cases done
    exact sound
  | addLabels struct field labels =>
    cases done
    exact sound
  | define text =>
    obtain ⟨⟨layout, next⟩, defined, same⟩ := map_eq_ok_iff.mp done
    cases same
    exact sound.define defined
  | defineAll text => exact sound.defineAll done
  | importJson json =>
    obtain ⟨⟨layout, next⟩, imported, same⟩ := map_eq_ok_iff.mp done
    cases same
    exact sound.importRead (fun _ => Document.wordSized_of_read) imported
  | importText text =>
    obtain ⟨⟨layout, next⟩, imported, same⟩ := map_eq_ok_iff.mp done
    cases same
    refine sound.importRead (fun document read => ?_) imported
    obtain ⟨json, _, read⟩ := Option.bind_eq_some_iff.mp read
    exact Document.wordSized_of_read read

/-- One command keeps the catalog sound, whether it succeeds or not. -/
theorem Sound.perform (sound : session.Sound) (command : Command) :
    (session.perform command).1.Sound := by
  unfold Session.perform
  split
  · rename_i done
    exact sound.attempt done
  · exact sound

theorem Sound.performAll (sound : session.Sound) (commands : List Command) :
    (session.performAll commands).Sound := by
  induction commands generalizing session with
  | nil => exact sound
  | cons command rest ih => exact ih (sound.perform command)

/-- A layout that a session has after some commands, whether they failed or not, has the name that
it stands under. At every depth it is regular and within the limit. -/
theorem known_admissible (settings : Settings) (commands : List Command) {name : String}
    {layout : Layout}
    (known : ((start settings).performAll commands).catalog.get? name = some layout) :
    layout.name = name ∧
      layout.Everywhere fun layout => layout.Regular ∧ layout.bits ≤ maxLayoutBits := by
  obtain ⟨named, storable⟩ := (sound_start settings).performAll commands name layout known
  exact ⟨named, storable.admissible.imp fun _ regular => ⟨regular, regular.bits_le⟩⟩

/-- A layout is known after its document has been imported. -/
theorem get?_performAll_importJson (session : Session) {layout : Layout}
    (storable : layout.Storable) :
    (session.performAll [.importJson layout.document.toJson]).catalog.get? layout.name =
      some layout := by
  obtain ⟨after, imported, known⟩ := storable.importJson_document session
  have done : session.attempt (.importJson layout.document.toJson) = .ok ([layout], after) :=
    map_eq_ok_iff.mpr ⟨_, imported, rfl⟩
  have performed : (session.perform (.importJson layout.document.toJson)).1 = after := by
    rw [perform, done]
  exact (congrArg (fun session : Session => session.catalog.get? layout.name) performed).trans known

theorem known_admissible_frame :
    ((start .default).performAll [.importJson Sample.frame.document.toJson]).catalog.get? "frame" =
        some Sample.frame ∧
      Sample.frame.name = "frame" ∧
      Sample.frame.Everywhere fun layout => layout.Regular ∧ layout.bits ≤ maxLayoutBits := by
  have known := get?_performAll_importJson (start .default) Sample.frame_storable
  exact ⟨known, known_admissible .default [.importJson Sample.frame.document.toJson] known⟩

end Session

end PackedStruct
