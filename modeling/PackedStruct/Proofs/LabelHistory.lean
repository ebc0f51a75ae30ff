import PackedStruct.Proofs.Effects

/-! The labels of a session as what its commands have given. A run is two runs side by side: the
commands that give labels make the labels, all other commands make the settings and the catalog,
and neither part looks at the other. -/

namespace PackedStruct

namespace Labels

theorem ofField?_add (labels : Labels) (struct field : String) (given : List (UInt64 × String))
    (s f : String) :
    (labels.add struct field given).ofField? s f =
      if struct = s ∧ field = f then some (((labels.ofField? s f).getD .empty).insertAll given)
      else labels.ofField? s f := by
  rw [ofField?, add, SortedMap.get?_insert, ofField?]
  by_cases sameStruct : struct = s
  · subst sameStruct
    rw [if_pos rfl, Option.bind_some, SortedMap.get?_insert]
    -- A struct without labels is as good as one with no labelled fields.
    have inside : (((labels.byStruct.get? struct).getD .empty).get? f) =
        (labels.byStruct.get? struct).bind fun fields => fields.get? f := by
      cases labels.byStruct.get? struct <;> rfl
    by_cases sameField : field = f
    · subst sameField
      rw [if_pos rfl, if_pos ⟨rfl, rfl⟩, inside]
    · rw [if_neg (Ne.symm sameField), if_neg (mt And.right sameField), inside]
  · rw [if_neg (Ne.symm sameStruct), if_neg (mt And.left sameStruct)]

/-- The labels that are known of a field after more are given for it. -/
def extend (known : Option (SortedMap UInt64 String)) (given : List (UInt64 × String)) :
    Option (SortedMap UInt64 String) :=
  some ((known.getD .empty).insertAll given)

theorem extend_append (known : Option (SortedMap UInt64 String))
    (first second : List (UInt64 × String)) :
    extend known (first ++ second) = extend (extend known first) second := by
  simp only [extend, Option.getD_some, SortedMap.insertAll_append]

/-- What is given first and what is given later counts as if it were given at once. -/
theorem foldl_extend (known : Option (SortedMap UInt64 String))
    (given : List (List (UInt64 × String))) :
    given.foldl extend known = if given = [] then known else extend known given.flatten := by
  induction given generalizing known with
  | nil => rfl
  | cons first rest ih =>
    rw [List.foldl_cons, ih, if_neg (List.cons_ne_nil _ _)]
    cases rest with
    | nil => rw [if_pos rfl, List.flatten_singleton]
    | cons next rest =>
      rw [if_neg (List.cons_ne_nil _ _), ← extend_append, ← List.flatten_cons]

end Labels

namespace Session

namespace Command

def givesLabels : Command → Bool
  | .addLabels .. => true
  | _ => false

def pairsFor? (struct field : String) : Command → Option (List (UInt64 × String))
  | .addLabels s f pairs => if s = struct ∧ f = field then some pairs else none
  | _ => none

def relabel (labels : Labels) : Command → Labels
  | .addLabels struct field pairs => labels.add struct field pairs
  | _ => labels

end Command

def labelling (commands : List Command) : List Command :=
  commands.filter Command.givesLabels

def withoutLabels (commands : List Command) : List Command :=
  commands.filter fun command => !command.givesLabels

/-- The pairs that commands give for a field, each list for one command. -/
def pairsGiven (commands : List Command) (struct field : String) : List (List (UInt64 × String)) :=
  commands.filterMap (Command.pairsFor? struct field)

theorem ofField?_relabel (labels : Labels) (command : Command) (struct field : String) :
    (command.relabel labels).ofField? struct field =
      (command.pairsFor? struct field).elim (labels.ofField? struct field)
        (Labels.extend (labels.ofField? struct field)) := by
  cases command with
  | addLabels s f pairs =>
    rw [Command.relabel, Labels.ofField?_add, Command.pairsFor?]
    by_cases same : s = struct ∧ f = field
    · rw [if_pos same, if_pos same]
      rfl
    · rw [if_neg same, if_neg same]
      rfl
  | _ => rfl

theorem ofField?_foldl_relabel (labels : Labels) (commands : List Command)
    (struct field : String) :
    (commands.foldl Command.relabel labels).ofField? struct field =
      (pairsGiven commands struct field).foldl Labels.extend (labels.ofField? struct field) := by
  induction commands generalizing labels with
  | nil => rfl
  | cons command rest ih =>
    rw [List.foldl_cons, ih, ofField?_relabel, pairsGiven, pairsGiven, List.filterMap_cons]
    cases command.pairsFor? struct field <;> rfl

def withLabels (session : Session) (labels : Labels) : Session :=
  { session with labels := labels }

variable {session : Session}

theorem define_withLabels (text : String) (labels : Labels) :
    (session.withLabels labels).define text =
      (session.define text).map fun (layout, after) => (layout, after.withLabels labels) := by
  rw [define, define]
  change (Definition.declarationOf session.settings.constants text >>= fun declared =>
    declared.layout session.settings.order session.catalog >>= _) = _
  cases Definition.declarationOf session.settings.constants text with
  | error cause => rfl
  | ok declared =>
    rw [ok_bind, ok_bind]
    cases declared.layout session.settings.order session.catalog <;> rfl

theorem defineAll_withLabels (text : String) (labels : Labels) :
    (session.withLabels labels).defineAll text =
      (session.defineAll text).map fun (layouts, after) => (layouts, after.withLabels labels) := by
  rw [defineAll, defineAll]
  change (Definition.declarationsOf session.settings.constants text >>= fun declared =>
    Definition.layoutAll session.settings.order session.catalog declared >>= _) = _
  cases Definition.declarationsOf session.settings.constants text with
  | error cause => rfl
  | ok declared =>
    rw [ok_bind, ok_bind]
    cases Definition.layoutAll session.settings.order session.catalog declared <;> rfl

theorem importRead_withLabels (document? : Option Document) (labels : Labels) :
    (session.withLabels labels).importRead document? =
      (session.importRead document?).map fun (layout, after) =>
        (layout, after.withLabels labels) := by
  cases document? with
  | none => rfl
  | some document =>
    rw [importRead, importRead, importDocument, importDocument]
    cases document.restore <;> rfl

theorem attempt_withLabels {command : Command} (quiet : command.givesLabels = false)
    (labels : Labels) :
    (session.withLabels labels).attempt command =
      (session.attempt command).map fun (layouts, after) =>
        (layouts, after.withLabels labels) := by
  cases command with
  | defineConstants constants => rfl
  | addLabels struct field pairs => cases quiet
  | define text =>
    rw [attempt, attempt, define_withLabels]
    cases session.define text <;> rfl
  | defineAll text => exact defineAll_withLabels text labels
  | importJson json =>
    rw [attempt, attempt, importJson, importJson, importRead_withLabels]
    cases session.importRead (Document.ofJson? json) <;> rfl
  | importText text =>
    rw [attempt, attempt, importText, importText, importRead_withLabels]
    cases session.importRead (Document.ofText? text) <;> rfl

/-- A command that gives no labels does not look at any. -/
theorem perform_withLabels {command : Command} (quiet : command.givesLabels = false)
    (labels : Labels) :
    (session.withLabels labels).perform command =
      ((session.perform command).1.withLabels labels, (session.perform command).2) := by
  rw [perform, perform, attempt_withLabels quiet]
  cases session.attempt command <;> rfl

theorem labels_perform {command : Command} (quiet : command.givesLabels = false) :
    (session.perform command).1.labels = session.labels :=
  congrArg (fun performed => performed.1.labels) (perform_withLabels quiet session.labels)

theorem performAll_withLabels {commands : List Command}
    (quiet : ∀ command ∈ commands, command.givesLabels = false) (labels : Labels) :
    (session.withLabels labels).performAll commands =
      (session.performAll commands).withLabels labels := by
  induction commands generalizing session with
  | nil => rfl
  | cons command rest ih =>
    obtain ⟨here, later⟩ := List.forall_mem_cons.mp quiet
    rw [performAll, performAll, List.foldl_cons, List.foldl_cons, perform_withLabels here]
    exact ih later

/-- The commands that give labels make the labels, the others all else. -/
theorem performAll_eq (session : Session) (commands : List Command) :
    session.performAll commands =
      (session.performAll (withoutLabels commands)).withLabels
        (commands.foldl Command.relabel session.labels) := by
  induction commands generalizing session with
  | nil => rfl
  | cons command rest ih =>
    have step : session.performAll (command :: rest) =
        (session.perform command).1.performAll rest := rfl
    cases gives : command.givesLabels with
    | false =>
      have same : command.relabel session.labels = (session.perform command).1.labels := by
        rw [labels_perform gives]
        cases command with
        | addLabels => cases gives
        | _ => rfl
      rw [step, ih, withoutLabels, withoutLabels, List.filter_cons_of_pos (by rw [gives]; rfl),
        List.foldl_cons, same]
      rfl
    | true =>
      obtain ⟨struct, field, pairs, rfl⟩ : ∃ struct field pairs,
          command = .addLabels struct field pairs := by
        cases command with
        | addLabels struct field pairs => exact ⟨struct, field, pairs, rfl⟩
        | _ => cases gives
      have others : ∀ command ∈ withoutLabels rest, command.givesLabels = false := by
        intro command member
        simpa using (List.mem_filter.mp member).2
      have labelled : (session.perform (.addLabels struct field pairs)).1 =
          session.withLabels (session.labels.add struct field pairs) := rfl
      rw [step, ih, labelled, performAll_withLabels others]
      rfl

/-- What the session knows of the labels of a field is what the commands have given for it: of each
value the last label. The field is labelled once a command has given labels for it, even if there
were none to give. -/
structure Remembers (session : Session) (commands : List Command) (struct field : String) :
    Prop where
  label : ∀ value label, session.label struct field value = .ok label ↔
    Entries.LastOf (pairsGiven commands struct field).flatten value label
  missing : ∀ value cause, session.label struct field value = .error cause ↔
    cause = .noLabel ⟨struct, field, value⟩ ∧
      ∀ pair ∈ (pairsGiven commands struct field).flatten, pair.1 ≠ value
  absent : session.labels.ofField? struct field = none ↔
    ∀ pairs, Command.addLabels struct field pairs ∉ commands
  entries : ∀ known, session.labels.ofField? struct field = some known →
    ∀ value label, (value, label) ∈ known.entries ↔
      Entries.LastOf (pairsGiven commands struct field).flatten value label

theorem pairsGiven_eq_nil_iff {commands : List Command} {struct field : String} :
    pairsGiven commands struct field = [] ↔
      ∀ pairs, Command.addLabels struct field pairs ∉ commands := by
  rw [pairsGiven, List.filterMap_eq_nil_iff]
  constructor
  · intro none pairs member
    have given := none _ member
    rw [Command.pairsFor?, if_pos ⟨rfl, rfl⟩] at given
    cases given
  · intro absent command member
    cases command with
    | addLabels s f pairs =>
      refine if_neg ?_
      rintro ⟨rfl, rfl⟩
      exact absent pairs member
    | _ => rfl

/-- All that is known of a field in the end, found under each value. -/
theorem ofField?_performAll (settings : Settings) (commands : List Command)
    (struct field : String) :
    ((start settings).performAll commands).labels.ofField? struct field =
      if pairsGiven commands struct field = [] then none
      else some (.ofList (pairsGiven commands struct field).flatten) := by
  rw [performAll_eq]
  exact (ofField?_foldl_relabel .empty commands struct field).trans (Labels.foldl_extend none _)

theorem get?_ofList_eq_some_iff {pairs : List (UInt64 × String)} {value : UInt64}
    {label : String} :
    (SortedMap.ofList pairs).get? value = some label ↔ Entries.LastOf pairs value label := by
  rw [← Entries.lookup_reverse_eq_some_iff, ← Entries.lookup_ofList]
  rfl

theorem label?_performAll (settings : Settings) (commands : List Command)
    (struct field : String) (value : UInt64) :
    ((start settings).performAll commands).labels.label? struct field value =
      (pairsGiven commands struct field).flatten.reverse.lookup value := by
  rw [Labels.label?, ofField?_performAll]
  split
  · rename_i none
    rw [none]
    rfl
  · exact Entries.lookup_ofList _ value

theorem remembers_performAll (settings : Settings) (commands : List Command)
    (struct field : String) :
    ((start settings).performAll commands).Remembers commands struct field where
  label value label := by
    rw [← Entries.lookup_reverse_eq_some_iff, ← label?_performAll settings, Session.label,
      Labels.label]
    cases ((start settings).performAll commands).labels.label? struct field value <;>
      simp [Except.mapError]
  missing value cause := by
    rw [← Entries.lookup_reverse_eq_none_iff, ← label?_performAll settings, Session.label,
      Labels.label]
    cases ((start settings).performAll commands).labels.label? struct field value <;>
      simp [Except.mapError, eq_comm]
  absent := by
    rw [ofField?_performAll, ← pairsGiven_eq_nil_iff]
    split
    · rename_i none
      exact iff_of_true rfl none
    · rename_i given
      exact iff_of_false nofun given
  entries known found value label := by
    rw [ofField?_performAll] at found
    split at found
    · cases found
    · obtain rfl := Option.some.inj found
      rw [← get?_ofList_eq_some_iff]
      exact (Entries.lookup_eq_some_iff_mem (Entries.sorted_ofList _).nodup value label).symm

theorem foldl_relabel_labelling (labels : Labels) (commands : List Command) :
    (labelling commands).foldl Command.relabel labels = commands.foldl Command.relabel labels := by
  rw [labelling, List.foldl_filter]
  congr 1
  funext labels command
  cases command <;> rfl

/-- After any commands a new session remembers what they have given, for every field. Its labels are
those of a run of the commands that give labels, and all else is as after a run of the others:
constants, layouts, and what is packed and unpacked. -/
theorem labels_remembered (settings : Settings) (commands : List Command) :
    (∀ struct field, ((start settings).performAll commands).Remembers commands struct field) ∧
    ((start settings).performAll commands).labels =
      ((start settings).performAll (labelling commands)).labels ∧
    ((start settings).performAll commands).settings =
      ((start settings).performAll (withoutLabels commands)).settings ∧
    ((start settings).performAll commands).catalog =
      ((start settings).performAll (withoutLabels commands)).catalog ∧
    ∀ struct, ((start settings).performAll (withoutLabels commands)).AnswersAlike
      ((start settings).performAll commands) struct := by
  refine ⟨remembers_performAll settings commands, ?_, ?_, ?_, fun struct => ?_⟩
  · rw [performAll_eq, performAll_eq _ (labelling commands)]
    exact (foldl_relabel_labelling .empty commands).symm
  · rw [performAll_eq]
    rfl
  · rw [performAll_eq]
    rfl
  · apply answersAlike_of_layout
    rw [performAll_eq]
    rfl

/-- A later label counts, also behind a text that defines nothing, and labels of another struct do
not. -/
example : ((start .default).performAll [.addLabels "header" "kind" [(0, "PING"), (3, "DATA")],
    .define "struct", .addLabels "other" "kind" [(0, "OFF")],
    .addLabels "header" "kind" [(0, "HELLO")]]).label "header" "kind" 0 = .ok "HELLO" := by
  decide +kernel

end Session

end PackedStruct
