namespace PackedStruct.Word

/-- The sum, unless it does not fit in 64 bits. -/
def add? (a b : Nat) : Option Nat :=
  if a + b < UInt64.size then some (a + b) else none

/-- The product, unless it does not fit in 64 bits. -/
def mul? (a b : Nat) : Option Nat :=
  if a * b < UInt64.size then some (a * b) else none

theorem add?_eq_some_iff {a b c : Nat} : add? a b = some c ↔ a + b = c ∧ c < UInt64.size := by
  unfold add?
  split <;> simp <;> omega

theorem mul?_eq_some_iff {a b c : Nat} : mul? a b = some c ↔ a * b = c ∧ c < UInt64.size := by
  unfold mul?
  split
  · simp
    rintro rfl
    assumption
  · simp
    rintro rfl
    omega

end PackedStruct.Word
