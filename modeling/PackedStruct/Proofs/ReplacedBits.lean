import PackedStruct.Proofs.Ascending

namespace PackedStruct

namespace BitRange

/-- The integer with the bits of the range replaced by the low bits of another one: what is above
the range, the new bits at their place, and what is below the range. -/
def replace (range : BitRange) (number value : Nat) : Nat :=
  number / 2 ^ range.stop * 2 ^ range.stop + range.place value + number % 2 ^ range.offset

theorem offset_le_stop (range : BitRange) : range.offset ≤ range.stop :=
  Nat.le_add_right _ _

/-- The sum carries nowhere, since each of its parts ends where the next one begins. -/
theorem replace_eq_or (range : BitRange) (number value : Nat) :
    range.replace number value =
      number / 2 ^ range.stop * 2 ^ range.stop |||
        (range.place value ||| number % 2 ^ range.offset) := by
  have low : number % 2 ^ range.offset < 2 ^ range.offset := Nat.mod_lt _ (Nat.two_pow_pos _)
  have joined : range.place value + number % 2 ^ range.offset =
      range.place value ||| number % 2 ^ range.offset := by
    rw [place, Nat.mul_comm]
    exact Nat.two_pow_add_eq_or_of_lt low _
  have bound : range.place value ||| number % 2 ^ range.offset < 2 ^ range.stop := by
    apply Nat.or_lt_two_pow (range.place_lt value)
    exact Nat.lt_of_lt_of_le low (Nat.pow_le_pow_right (by decide) range.offset_le_stop)
  rw [replace, Nat.add_assoc, joined, Nat.mul_comm]
  exact Nat.two_pow_add_eq_or_of_lt bound _

/-- The bits of the range are those of the value, and every other bit is kept. -/
theorem testBit_replace (range : BitRange) (number value i : Nat) :
    (range.replace number value).testBit i =
      if range.covers i then value.testBit (i - range.offset) else number.testBit i := by
  have order := range.offset_le_stop
  rw [replace_eq_or, Nat.testBit_or, Nat.testBit_or, Nat.testBit_mul_two_pow,
    Nat.testBit_div_two_pow, testBit_place, Nat.testBit_mod_two_pow]
  by_cases covered : range.covers i
  · have inside := (range.covers_iff i).mp covered
    have below : ¬ range.stop ≤ i := by
      rw [stop]
      omega
    have above : ¬ i < range.offset := by omega
    simp [covered, below, above]
  · by_cases high : range.stop ≤ i
    · have above : ¬ i < range.offset := by omega
      simp [covered, high, above]
    · have low : i < range.offset := by
        rw [covers_iff] at covered
        rw [stop] at high
        omega
      simp [covered, high, low]

/-- Above all bits that are set, to replace is to add. -/
theorem replace_of_lt (range : BitRange) {number : Nat} (below : number < 2 ^ range.offset)
    (value : Nat) : range.replace number value = number + range.place value := by
  have short : number < 2 ^ range.stop :=
    Nat.lt_of_lt_of_le below (Nat.pow_le_pow_right (by decide) range.offset_le_stop)
  rw [replace, Nat.div_eq_of_lt short, Nat.mod_eq_of_lt below, Nat.zero_mul, Nat.zero_add,
    Nat.add_comm]

/-- Only the low bits of the value count. -/
theorem replace_mod (range : BitRange) (number value : Nat) :
    range.replace number (value % 2 ^ range.width) = range.replace number value := by
  rw [replace, replace, place, place, Nat.mod_mod]

end BitRange

namespace Image

variable (image : Image) {range : BitRange} (narrow : range.width ≤ 64)
  (inside : range.stop ≤ 8 * image.size)
include narrow inside

/-- Writing replaces the bits of the packed integer. -/
theorem number_write (value : UInt64) :
    (image.write range value).number = range.replace image.number value.toNat := by
  apply Nat.eq_of_testBit_eq
  intro i
  rw [testBit_write image narrow inside, BitRange.testBit_replace]

/-- A write above all bits that are set is an addition. -/
theorem number_write_of_lt (value : UInt64) (below : image.number < 2 ^ range.offset) :
    (image.write range value).number = image.number + range.place value.toNat := by
  rw [number_write image narrow inside, range.replace_of_lt below]

/-- The bits of a value that are above the width of the range are not written. -/
theorem write_cut (value : UInt64) :
    image.write range (value &&& lowOnes range.width) = image.write range value := by
  apply eq_of_number_eq
  · rw [size_write, size_write]
  · rw [number_write image narrow inside, number_write image narrow inside, UInt64.toNat_and,
      toNat_lowOnes narrow, Nat.and_two_pow_sub_one_eq_mod, BitRange.replace_mod]

/-- What is written is read, modulo two to the width. -/
theorem toNat_read_write (value : UInt64) :
    ((image.write range value).read range).toNat = value.toNat % 2 ^ range.width := by
  apply Nat.eq_of_testBit_eq
  intro i
  rw [testBit_read _ narrow, testBit_write image narrow inside, Nat.testBit_mod_two_pow]
  by_cases within : i < range.width
  · rw [if_pos ((range.covers_offset_add i).mpr within), Nat.add_sub_cancel_left]
  · rw [decide_eq_false within, Bool.false_and, Bool.false_and]

end Image

end PackedStruct
