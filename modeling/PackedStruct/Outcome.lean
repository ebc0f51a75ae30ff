namespace PackedStruct

@[simp]
theorem ok_bind {ε α β : Type} (a : α) (next : α → Except ε β) : (.ok a >>= next) = next a :=
  rfl

/-- A sequence of two steps succeeds when both do. -/
theorem bind_eq_ok_iff {ε α β : Type} {first : Except ε α} {second : α → Except ε β} {b : β} :
    (first >>= second) = .ok b ↔ ∃ a, first = .ok a ∧ second a = .ok b := by
  cases first <;> simp [bind, Except.bind]

theorem map_eq_ok_iff {ε α β : Type} {result : α → β} {outcome : Except ε α} {b : β} :
    outcome.map result = .ok b ↔ ∃ a, outcome = .ok a ∧ result a = b := by
  cases outcome <;> simp [Except.map]

/-- A last step that cannot fail does not change when there is a failure. -/
theorem bind_pure_eq_error_iff {ε α β : Type} {outcome : Except ε α} {result : α → β} {cause : ε} :
    (outcome >>= fun a => pure (result a)) = .error cause ↔ outcome = .error cause := by
  cases outcome with
  | error other => simp [bind, Except.bind]
  | ok value => exact ⟨nofun, nofun⟩

/-- Naming the cause of a failure differently does not make it succeed. -/
theorem mapError_eq_ok_iff {ε ε' α : Type} {rename : ε → ε'} {outcome : Except ε α} {a : α} :
    outcome.mapError rename = .ok a ↔ outcome = .ok a := by
  cases outcome with
  | error cause =>
    constructor <;> rintro ⟨⟩
  | ok value =>
    constructor <;> rintro ⟨⟩ <;> rfl

/-- What is refused on a condition succeeds without it. -/
theorem refuse_eq_ok_iff {ε β : Type} {refused : Prop} [Decidable refused] {cause : ε}
    {next : Unit → Except ε β} {b : β} :
    (if refused then throw cause >>= next else next ()) = .ok b ↔ ¬ refused ∧ next () = .ok b := by
  by_cases holds : refused
  · rw [if_pos holds]
    exact ⟨nofun, fun both => absurd holds both.1⟩
  · rw [if_neg holds]
    exact ⟨fun rest => ⟨holds, rest⟩, And.right⟩

end PackedStruct
