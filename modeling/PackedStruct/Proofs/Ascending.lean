import PackedStruct.Proofs.ImageBits

namespace PackedStruct

/-- The ranges lie between two bits, and each one starts at or after the stop of the one before. -/
def Ascending : Nat → Nat → List BitRange → Prop
  | low, high, [] => low ≤ high
  | low, high, range :: rest => low ≤ range.offset ∧ Ascending range.stop high rest

namespace Ascending

variable {low middle high : Nat} {ranges first second : List BitRange} {range : BitRange}

theorem weaken {less more : Nat} (ascending : Ascending low high ranges) (below : less ≤ low)
    (above : high ≤ more) : Ascending less more ranges := by
  induction ranges generalizing low less with
  | nil => exact Nat.le_trans below (Nat.le_trans ascending above)
  | cons range rest ih => exact ⟨Nat.le_trans below ascending.1, ih ascending.2 (Nat.le_refl _)⟩

theorem low_le_high (ascending : Ascending low high ranges) : low ≤ high := by
  induction ranges generalizing low with
  | nil => exact ascending
  | cons range rest ih =>
    have later := ih ascending.2
    have earlier := ascending.1
    rw [BitRange.stop] at later
    omega

theorem bounds (ascending : Ascending low high ranges) (member : range ∈ ranges) :
    low ≤ range.offset ∧ range.stop ≤ high := by
  induction ranges generalizing low with
  | nil => cases member
  | cons head rest ih =>
    rcases List.mem_cons.mp member with rfl | later
    · exact ⟨ascending.1, ascending.2.low_le_high⟩
    · have inside := ih ascending.2 later
      have earlier := ascending.1
      rw [BitRange.stop] at inside
      exact ⟨by omega, inside.2⟩

theorem append (lower : Ascending low middle first) (upper : Ascending middle high second) :
    Ascending low high (first ++ second) := by
  induction first generalizing low with
  | nil => exact upper.weaken lower (Nat.le_refl _)
  | cons range rest ih => exact ⟨lower.1, ih lower.2⟩

theorem sublist (ascending : Ascending low high ranges) (sub : List.Sublist first ranges) :
    Ascending low high first := by
  induction sub generalizing low with
  | slnil => exact ascending
  | cons range _ ih =>
    have order : low ≤ range.stop := by
      have earlier := ascending.1
      rw [BitRange.stop]
      omega
    exact ih (ascending.2.weaken order (Nat.le_refl _))
  | cons_cons range _ ih => exact ⟨ascending.1, ih ascending.2⟩

/-- Ranges stay ascending when each one is cut into ascending parts. -/
theorem flatMap {α : Type} {items : List α} {whole : α → BitRange} {parts : α → List BitRange}
    (ascending : Ascending low high (items.map whole))
    (inside : ∀ item ∈ items, Ascending (whole item).offset (whole item).stop (parts item)) :
    Ascending low high (items.flatMap parts) := by
  induction items generalizing low with
  | nil => exact ascending
  | cons item rest ih =>
    have here := (inside item List.mem_cons_self).weaken ascending.1 (Nat.le_refl _)
    rw [List.flatMap_cons]
    exact here.append (ih ascending.2 fun other member =>
      inside other (List.mem_cons_of_mem _ member))

theorem shift (ascending : Ascending low high ranges) (base : Nat) :
    Ascending (base + low) (base + high)
      (ranges.map fun range => ⟨base + range.offset, range.width⟩) := by
  induction ranges generalizing low with
  | nil => exact Nat.add_le_add_left ascending base
  | cons range rest ih =>
    have later := ih ascending.2
    rw [BitRange.stop, ← Nat.add_assoc] at later
    exact ⟨Nat.add_le_add_left ascending.1 base, later⟩

/-- Elements of one width that follow one another. -/
theorem elements (start width count : Nat) :
    Ascending start (start + width * count)
      ((List.range count).map fun i => ⟨start + i * width, width⟩) := by
  induction count with
  | zero => exact Nat.le_refl _
  | succ count ih =>
    rw [List.range_succ, List.map_append]
    refine ih.append ⟨?_, ?_⟩
    · rw [Nat.mul_comm]
    · change start + count * width + width ≤ start + width * (count + 1)
      rw [Nat.mul_succ, Nat.mul_comm]
      omega

/-- A bit lies in one range at most. -/
theorem eq_of_covers {α : Type} {items : List α} {range : α → BitRange}
    (ascending : Ascending low high (items.map range)) {left right : α} (leftMember : left ∈ items)
    (rightMember : right ∈ items) {bit : Nat} (inLeft : (range left).covers bit)
    (inRight : (range right).covers bit) : left = right := by
  induction items generalizing low with
  | nil => cases leftMember
  | cons item rest ih =>
    have above {other : α} (member : other ∈ rest) : (range item).stop ≤ (range other).offset :=
      (ascending.2.bounds (List.mem_map_of_mem member)).1
    rw [BitRange.covers_iff] at inLeft inRight
    rw [BitRange.stop] at above
    rcases List.mem_cons.mp leftMember with rfl | leftLater
    · rcases List.mem_cons.mp rightMember with rfl | rightLater
      · rfl
      · have := above rightLater
        omega
    · rcases List.mem_cons.mp rightMember with rfl | rightLater
      · have := above leftLater
        omega
      · exact ih ascending.2 leftLater rightLater

end Ascending

/-- The low bits of an integer at the place of the range. -/
def BitRange.place (range : BitRange) (n : Nat) : Nat :=
  n % 2 ^ range.width * 2 ^ range.offset

theorem BitRange.testBit_place (range : BitRange) (n i : Nat) :
    (range.place n).testBit i = (range.covers i && n.testBit (i - range.offset)) := by
  rw [place, Nat.testBit_mul_two_pow, Nat.testBit_mod_two_pow, ← Bool.and_assoc]
  congr 1
  rw [Bool.eq_iff_iff, covers_iff, Bool.and_eq_true, decide_eq_true_eq, decide_eq_true_eq]
  omega

theorem BitRange.place_lt (range : BitRange) (n : Nat) : range.place n < 2 ^ range.stop := by
  rw [place, stop, Nat.add_comm, Nat.pow_add]
  exact Nat.mul_lt_mul_of_pos_right (Nat.mod_lt _ (Nat.two_pow_pos _)) (Nat.two_pow_pos _)

section Parts

variable {α : Type} {items : List α} {range : α → BitRange} {low high : Nat}

theorem dvd_sum_place (part : α → Nat) (ascending : Ascending low high (items.map range)) :
    2 ^ low ∣ (items.map fun item => (range item).place (part item)).sum := by
  induction items generalizing low with
  | nil => exact Nat.dvd_zero _
  | cons item rest ih =>
    have later := ih (ascending.2.weaken (Nat.le_trans ascending.1 (Nat.le_add_right _ _))
      (Nat.le_refl _))
    have here : 2 ^ low ∣ (range item).place (part item) :=
      Nat.dvd_mul_left_of_dvd (Nat.pow_dvd_pow 2 ascending.1) _
    exact Nat.dvd_add here later

/-- The sum of parts at ascending ranges has at each bit what the part there has. -/
theorem testBit_sum_place (part : α → Nat) (ascending : Ascending low high (items.map range))
    (i : Nat) :
    (items.map fun item => (range item).place (part item)).sum.testBit i =
      items.any fun item =>
        (range item).covers i && (part item).testBit (i - (range item).offset) := by
  induction items generalizing low with
  | nil => simp
  | cons item rest ih =>
    -- The later parts sum to a multiple of the power that this part stays below: no carry.
    obtain ⟨multiple, split⟩ := dvd_sum_place part ascending.2
    have bits := ih ascending.2
    rw [List.map_cons, List.sum_cons, List.any_cons, ← bits, ← BitRange.testBit_place, split,
      Nat.add_comm, Nat.testBit_two_pow_mul_add _ ((range item).place_lt (part item)),
      Nat.testBit_two_pow_mul]
    by_cases below : i < (range item).stop
    · simp [below]
    · have absent := testBit_above ((range item).place_lt (part item)) (Nat.not_lt.mp below)
      simp [below, absent]
      omega

theorem sum_place_lt (part : α → Nat) (ascending : Ascending low high (items.map range)) :
    (items.map fun item => (range item).place (part item)).sum < 2 ^ high := by
  apply Nat.lt_pow_two_of_testBit
  intro i above
  rw [testBit_sum_place part ascending, List.any_eq_false]
  intro item member
  have inside := ascending.bounds (List.mem_map_of_mem member)
  rw [BitRange.stop] at inside
  rw [Bool.and_eq_true, BitRange.covers_iff]
  omega

/-- Every part can be had back from the sum. -/
theorem sum_place_div_mod (part : α → Nat) (ascending : Ascending low high (items.map range))
    {item : α} (member : item ∈ items) :
    (items.map fun item => (range item).place (part item)).sum / 2 ^ (range item).offset %
      2 ^ (range item).width = part item % 2 ^ (range item).width := by
  apply Nat.eq_of_testBit_eq
  intro i
  rw [Nat.testBit_mod_two_pow, Nat.testBit_mod_two_pow, Nat.testBit_div_two_pow,
    testBit_sum_place part ascending]
  by_cases inside : i < (range item).width
  · have covered : (range item).covers (i + (range item).offset) := by
      rw [Nat.add_comm]
      exact ((range item).covers_offset_add i).mpr inside
    rw [Bool.eq_iff_iff]
    simp only [inside, decide_true, Bool.true_and, List.any_eq_true, Bool.and_eq_true]
    constructor
    · rintro ⟨other, otherMember, otherCovers, bit⟩
      obtain rfl := ascending.eq_of_covers otherMember member otherCovers covered
      rwa [Nat.add_sub_cancel] at bit
    · intro bit
      refine ⟨item, member, covered, ?_⟩
      rwa [Nat.add_sub_cancel]
  · simp [inside]

end Parts

end PackedStruct
