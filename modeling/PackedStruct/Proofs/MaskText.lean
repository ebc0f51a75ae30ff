import PackedStruct.Proofs.Ascending
import PackedStruct.Proofs.Numeral

namespace PackedStruct.BitRange

def maskNumber (range : BitRange) : Nat :=
  (2 ^ range.width - 1) * 2 ^ range.offset

theorem testBit_maskNumber (range : BitRange) (bit : Nat) :
    range.maskNumber.testBit bit = range.covers bit := by
  have ones : range.maskNumber = range.place (2 ^ range.width - 1) := by
    rw [place, maskNumber, Nat.mod_eq_of_lt (Nat.sub_lt (Nat.two_pow_pos _) (by decide))]
  rw [ones, testBit_place, Nat.testBit_two_pow_sub_one, Bool.eq_iff_iff, Bool.and_eq_true,
    covers_iff, decide_eq_true_eq]
  omega

theorem maskNumber_lt (range : BitRange) : range.maskNumber < 2 ^ range.stop := by
  apply Nat.lt_pow_two_of_testBit
  intro bit above
  rw [testBit_maskNumber, Bool.eq_false_iff, Ne, covers_iff]
  rw [stop] at above
  omega

theorem maskNibble_lt (range : BitRange) (n : Nat) : range.maskNibble n < 16 := by
  have bound : 2 ^ min 4 (range.stop - 4 * n) ≤ 2 ^ 4 :=
    Nat.pow_le_pow_right (by decide) (Nat.min_le_left _ _)
  have positive := Nat.two_pow_pos (min 4 (range.offset - 4 * n))
  rw [maskNibble, Nat.one_shiftLeft, Nat.one_shiftLeft]
  omega

/-- The nibbles are the digits of the integer in base sixteen. -/
theorem maskNibble_eq (range : BitRange) (n : Nat) :
    range.maskNibble n = range.maskNumber / 16 ^ n % 16 := by
  have power : 16 ^ n = 2 ^ (4 * n) := by rw [Nat.pow_mul]
  have sixteen : 16 = 2 ^ 4 := rfl
  rw [power, sixteen]
  apply Nat.eq_of_testBit_eq
  intro bit
  rw [Nat.testBit_mod_two_pow, Nat.testBit_div_two_pow, testBit_maskNumber]
  by_cases inside : bit < 4
  · rw [testBit_maskNibble range n inside, Nat.add_comm]
    simp [inside]
  · have small : range.maskNibble n < 2 ^ 4 := range.maskNibble_lt n
    rw [testBit_above small (Nat.not_lt.mp inside)]
    simp [inside]

theorem numeral?_maskDigits (range : BitRange) :
    Text.numeral? 16 range.maskDigits = some range.maskNumber := by
  rw [maskDigits]
  split
  · rename_i empty
    rw [maskNumber, empty]
    simp [Text.numeral?, Text.digit?, Text.hexDigit?]
  · rename_i wide
    have digits : (fun n => Nat.digitChar (range.maskNibble n)) =
        fun n => Nat.digitChar (range.maskNumber / 16 ^ n % 16) := by
      funext n
      rw [maskNibble_eq]
    have enough : range.maskNumber < 16 ^ ((range.stop + 3) / 4) := by
      have power : 16 ^ ((range.stop + 3) / 4) = 2 ^ (4 * ((range.stop + 3) / 4)) := by
        rw [Nat.pow_mul]
      rw [power]
      exact Nat.lt_of_lt_of_le range.maskNumber_lt (Nat.pow_le_pow_right (by decide) (by omega))
    rw [digits, Text.numeral?_eq_some_iff, Text.foldlM_lowDigits, Nat.zero_mul, Nat.zero_add,
      Nat.mod_eq_of_lt enough]
    refine ⟨?_, rfl⟩
    rw [Ne, List.map_eq_nil_iff, List.reverse_eq_nil_iff, List.range_eq_nil]
    rw [stop]
    omega

/-- The digits of a mask are already in lower case. -/
theorem significant_maskDigits (range : BitRange) :
    Text.significant range.maskDigits = range.maskDigits.dropWhile (· == '0') := by
  have lower : ∀ c ∈ range.maskDigits, c.toLower = c := by
    intro c member
    rw [maskDigits] at member
    split at member
    · obtain rfl := List.mem_singleton.mp member
      rfl
    · obtain ⟨n, _, rfl⟩ := List.mem_map.mp member
      exact Text.toLower_of_hexDigit? (Text.hexDigit?_digitChar _ (range.maskNibble_lt n))
  rw [Text.significant]
  refine (List.map_congr_left fun c member => lower c ?_).trans (List.map_id _)
  exact (List.dropWhile_sublist _).mem member

/-- A text matches the mask when it is a numeral of the mask's integer. -/
theorem maskMatches_iff (range : BitRange) (text : String) :
    range.maskMatches text = true ↔
      Text.numeral? 16 (Text.dropHexMark text.toList) = some range.maskNumber := by
  have normal : range.maskMatches text = true ↔
      (Text.dropHexMark text.toList ≠ [] ∧
        ∀ c ∈ Text.dropHexMark text.toList, (Text.hexDigit? c).isSome) ∧
      Text.significant (Text.dropHexMark text.toList) = Text.significant range.maskDigits := by
    rw [significant_maskDigits]
    simp [maskMatches, Text.significant]
  rw [normal, ← Text.exists_numeral?_iff]
  constructor
  · rintro ⟨⟨n, read⟩, same⟩
    rw [read, Text.eq_of_significant_eq read range.numeral?_maskDigits same]
  · intro read
    refine ⟨⟨_, read⟩, ?_⟩
    rw [Text.significant_of_numeral? read,
      Text.significant_of_numeral? range.numeral?_maskDigits]

/-- The text of a mask denotes it. -/
theorem numeral?_maskText (range : BitRange) :
    Text.numeral? 16 (Text.dropHexMark range.maskText.toList) = some range.maskNumber := by
  rw [maskText, String.toList_ofList]
  exact range.numeral?_maskDigits

end PackedStruct.BitRange
