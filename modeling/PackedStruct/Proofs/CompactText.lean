import PackedStruct.Proofs.JsonText

namespace PackedStruct.Json

def SpelledOnLine (json : Json) : Prop :=
  Spells (compactChars json) json.written

theorem spells_compactItems {items : List Json} (each : ∀ item ∈ items, item.SpelledOnLine) :
    Spells (compactItems items) (writtenItems items) := by
  induction items with
  | nil => exact Spells.nil
  | cons item rest ih =>
    have first := each item List.mem_cons_self
    cases rest with
    | nil => exact first
    | cons next rest =>
      have later := ih fun item member => each item (List.mem_cons_of_mem _ member)
      rw [compactItems, writtenItems]
      · exact spells_comma first later
      all_goals exact List.cons_ne_nil _ _

theorem spells_compactMembers {members : List (String × Json)}
    (each : ∀ member ∈ members, member.2.SpelledOnLine) :
    Spells (compactMembers members) (writtenMembers members) := by
  induction members with
  | nil => exact Spells.nil
  | cons member rest ih =>
    obtain ⟨key, value⟩ := member
    have first := each _ List.mem_cons_self
    cases rest with
    | nil => exact spells_member key first
    | cons next rest =>
      have later := ih fun member inside => each member (List.mem_cons_of_mem _ inside)
      have text : compactMembers ((key, value) :: next :: rest) =
          quote key ++ ':' :: (compactChars value ++ ',' :: compactMembers (next :: rest)) := by
        rw [compactMembers]
        · simp only [List.append_assoc, List.cons_append]
        · exact List.cons_ne_nil _ _
      rw [text, writtenMembers]
      · exact spells_member key (spells_comma first later)
      · exact List.cons_ne_nil _ _

theorem Readable.spelledOnLine {json : Json} (readable : json.Readable) : json.SpelledOnLine := by
  induction readable with
  | null => exact spells_word (by decide) fun _ => rfl
  | bool value =>
    cases value
    · exact spells_word (by decide) fun _ => rfl
    · exact spells_word (by decide) fun _ => rfl
  | int n => exact spells_int n
  | str text => exact spells_word (by decide) (scanToken_quote text)
  | @arr items each ih =>
    have last : Spells [']'] [.closeArray] := spells_word (by decide) fun _ => rfl
    have inside := (spells_compactItems ih).append last fun rest _ => settled_cons (by decide) _
    exact spells_mark (by decide) (fun _ => rfl) inside
  | @obj members each ih =>
    have last : Spells ['}'] [.closeObject] := spells_word (by decide) fun _ => rfl
    have inside := (spells_compactMembers ih).append last fun rest _ => settled_cons (by decide) _
    exact spells_mark (by decide) (fun _ => rfl) inside

/-- What is written on one line is read back. -/
theorem Readable.ofText?_compact {json : Json} (readable : json.Readable) :
    ofText? json.compact = some json :=
  readable.ofText?_of_spells readable.spelledOnLine

end PackedStruct.Json
