import PackedStruct.Proofs.GuardedBits
import PackedStruct.Proofs.Lexemes
import PackedStruct.Proofs.MaskText

namespace PackedStruct

theorem toNat_setWidth_allOnes {n : Nat} (narrow : n ≤ 128) :
    ((BitVec.allOnes n).setWidth 128).toNat = 2 ^ n - 1 := by
  have bound : 2 ^ n ≤ 2 ^ 128 := Nat.pow_le_pow_right (by decide) narrow
  have positive := Nat.two_pow_pos n
  rw [BitVec.toNat_setWidth, BitVec.toNat_allOnes, Nat.mod_eq_of_lt (by omega)]

theorem Guarded.wideOnes_eq {n : Nat} (narrow : n ≤ 128) :
    wideOnes n = .ok ((BitVec.allOnes n).setWidth 128) := by
  rw [wideOnes]
  by_cases full : n = 128
  · subst full
    rfl
  · have small : n < 128 := by omega
    have large : 2 ^ n < 2 ^ 128 := Nat.pow_lt_pow_right (by decide) small
    have positive := Nat.two_pow_pos n
    have power : ((1 : BitVec 128) <<< n).toNat = 2 ^ n := by
      rw [BitVec.toNat_shiftLeft, Nat.shiftLeft_eq]
      exact (congrArg (· % 2 ^ 128) (Nat.one_mul _)).trans (Nat.mod_eq_of_lt large)
    have nonzero : (1 : BitVec 128) <<< n ≠ 0 := by
      intro zero
      rw [zero] at power
      exact Nat.ne_of_lt positive power
    have less : (1 : BitVec 128) <<< n - 1 = (BitVec.allOnes n).setWidth 128 := by
      apply BitVec.eq_of_toNat_eq
      rw [toNat_setWidth_allOnes narrow, BitVec.toNat_sub, power]
      show (2 ^ 128 - 1 + 2 ^ n) % 2 ^ 128 = 2 ^ n - 1
      omega
    rw [if_neg full, shiftWideLeft, if_pos small, ok_bind, if_neg nonzero, less]

namespace BitRange

theorem maskNibble_ne_zero {range : BitRange} {n bit : Nat} (small : bit < 4)
    (covered : range.covers (4 * n + bit) = true) : range.maskNibble n ≠ 0 := by
  intro zero
  have found := range.testBit_maskNibble n small
  rw [zero, covered, Nat.zero_testBit] at found
  cases found

/-- The first digit of a mask stands for its highest bit. -/
theorem exists_maskDigits_eq_cons {range : BitRange} (wide : range.width ≠ 0) :
    ∃ n rest, range.maskDigits = Nat.digitChar (range.maskNibble n) :: rest ∧
      range.maskNibble n ≠ 0 := by
  obtain ⟨last, count⟩ : ∃ last, (range.stop + 3) / 4 = last + 1 := by
    rw [stop]
    exact ⟨(range.offset + range.width + 3) / 4 - 1, by omega⟩
  -- The last bit of the range lies in the last nibble.
  have highest : range.covers (4 * last + (range.stop - 1 - 4 * last)) = true := by
    rw [stop] at count ⊢
    rw [covers_iff]
    omega
  refine ⟨last, (List.range last).reverse.map fun n => Nat.digitChar (range.maskNibble n), ?_,
    maskNibble_ne_zero (by omega) highest⟩
  rw [maskDigits, if_neg wide, count, List.range_succ, List.reverse_append,
    List.reverse_singleton, List.singleton_append, List.map_cons]

theorem maskNumber_eq_zero_iff {range : BitRange} : range.maskNumber = 0 ↔ range.width = 0 := by
  rw [maskNumber, Nat.mul_eq_zero, or_iff_left (Nat.ne_of_gt (Nat.two_pow_pos _)),
    Nat.sub_eq_zero_iff_le]
  constructor
  · intro small
    by_contra wide
    have large := Nat.pow_lt_pow_right (show 1 < 2 by decide) (Nat.pos_of_ne_zero wide)
    omega
  · intro empty
    rw [empty, Nat.pow_zero]

/-- The digits of a mask are those that its integer is written with. -/
theorem maskDigits_eq (range : BitRange) : range.maskDigits = Nat.toDigits 16 range.maskNumber := by
  by_cases wide : range.width = 0
  · rw [maskNumber_eq_zero_iff.mpr wide, maskDigits, if_pos wide, Nat.toDigits_zero]
  · obtain ⟨n, rest, digits, positive⟩ := exists_maskDigits_eq_cons wide
    have leading : ¬ (Nat.digitChar (range.maskNibble n) == '0') = true := by
      rwa [beq_iff_eq, Nat.digitChar_eq_zero]
    have kept : range.maskDigits.dropWhile (· == '0') = range.maskDigits := by
      rw [digits]
      exact List.dropWhile_cons_of_neg leading
    rw [← kept, ← significant_maskDigits, Text.significant_of_numeral? range.numeral?_maskDigits,
      if_neg (mt maskNumber_eq_zero_iff.mp wide)]

theorem maskText_eq (range : BitRange) :
    range.maskText = "0x" ++ String.ofList (Nat.toDigits 16 range.maskNumber) := by
  rw [maskText, maskDigits_eq, ← String.ofList_toList (s := "0x"), ← String.ofList_append]
  rfl

theorem toNat_mask? (range : BitRange) :
    range.mask?.map BitVec.toNat = if range.stop ≤ 128 then some range.maskNumber else none := by
  rw [mask?]
  by_cases fits : range.stop ≤ 128
  · have narrow : range.width ≤ 128 := Nat.le_trans (Nat.le_add_left _ _) fits
    have bound : range.maskNumber < 2 ^ 128 :=
      Nat.lt_of_lt_of_le range.maskNumber_lt (Nat.pow_le_pow_right (by decide) fits)
    rw [if_pos fits, if_pos fits, Option.map_some, BitVec.toNat_shiftLeft,
      toNat_setWidth_allOnes narrow, Nat.shiftLeft_eq]
    exact congrArg some (Nat.mod_eq_of_lt bound)
  · rw [if_neg fits, if_neg fits, Option.map_none]

theorem mask?_of_empty {range : BitRange} (empty : range.width = 0) (fits : range.stop ≤ 128) :
    range.mask? = some 0 := by
  rw [mask?, if_pos fits, empty]
  simp

theorem guardedMask?_eq (range : BitRange) : range.guardedMask? = .ok range.mask? := by
  by_cases fits : range.stop ≤ 128
  · have word : Word.add? range.offset range.width = some range.stop :=
      if_pos (Nat.lt_of_le_of_lt fits (by decide))
    have narrow : range.width ≤ 128 := Nat.le_trans (Nat.le_add_left _ _) fits
    have inside : ¬ 128 < range.stop := Nat.not_lt.mpr fits
    by_cases empty : range.width = 0
    · simp only [guardedMask?, word, if_neg inside, if_pos empty, mask?_of_empty empty fits]
    · have shift : range.offset < 128 := by
        rw [stop] at fits
        omega
      simp only [guardedMask?, word, if_neg inside, if_neg empty, Guarded.wideOnes_eq narrow,
        ok_bind, Guarded.shiftWideLeft, if_pos shift, mask?, if_pos fits]
      rfl
  · rw [guardedMask?, mask?, if_neg fits]
    split
    · rfl
    · rename_i stop added
      have same : stop = range.stop := (Word.add?_eq_some_iff.mp added).1.symm
      exact if_pos (same ▸ Nat.lt_of_not_le fits)

section Bounds

variable {range : BitRange} (small : range.stop < UInt64.size)
include small

theorem guardedCovers_eq (bit : Nat) : range.guardedCovers bit = .ok (range.covers bit) := by
  rw [guardedCovers, covers]
  by_cases above : range.offset ≤ bit
  · rw [if_pos above, Guarded.add_eq small, ok_bind, decide_eq_true above, Bool.true_and]
    rfl
  · rw [if_neg above, decide_eq_false above, Bool.false_and]

theorem guardedSetBit_eq {n i : Nat} (word : 4 * n + i < UInt64.size) (nibble : Nat) :
    range.guardedSetBit n nibble i =
      .ok (if range.covers (4 * n + i) then nibble ||| 1 <<< i else nibble) := by
  have first : Guarded.mul n 4 = .ok (4 * n) := by
    rw [Guarded.mul_eq (by omega), Nat.mul_comm]
  rw [guardedSetBit, first, ok_bind, Guarded.add_eq word, ok_bind, guardedCovers_eq small]
  rfl

/-- The bits of a nibble after `count` rounds. -/
theorem foldlM_guardedSetBit {n count : Nat} (word : 4 * n + count ≤ UInt64.size) :
    ∃ nibble, (List.range count).foldlM (range.guardedSetBit n) 0 = .ok nibble ∧
      ∀ i, nibble.testBit i = (decide (i < count) && range.covers (4 * n + i)) := by
  induction count with
  | zero => exact ⟨0, rfl, fun i => by simp⟩
  | succ count ih =>
    obtain ⟨nibble, made, bits⟩ := ih (by omega)
    refine ⟨if range.covers (4 * n + count) then nibble ||| 1 <<< count else nibble, ?_, ?_⟩
    · rw [List.range_succ, List.foldlM_append, made, ok_bind, List.foldlM_cons,
        guardedSetBit_eq small (by omega)]
      rfl
    · intro i
      have one : (1 <<< count).testBit i = decide (i = count) := by
        rw [Nat.one_shiftLeft, Nat.testBit_two_pow, decide_eq_decide]
        exact eq_comm
      -- The round sets its own bit and leaves the others.
      by_cases here : i = count
      · subst here
        cases covered : range.covers (4 * n + i) <;> simp [bits, one]
      · have same : i < count + 1 ↔ i < count := by omega
        cases covered : range.covers (4 * n + count) <;> simp [bits, one, here, same]

theorem guardedNibble_eq {n : Nat} (word : 4 * n + 4 ≤ UInt64.size) :
    range.guardedNibble n = .ok (range.maskNibble n) := by
  obtain ⟨nibble, made, bits⟩ := foldlM_guardedSetBit small word
  have same : nibble = range.maskNibble n := by
    apply Nat.eq_of_testBit_eq
    intro i
    rw [bits]
    by_cases inside : i < 4
    · rw [testBit_maskNibble range n inside, decide_eq_true inside, Bool.true_and]
    · have below : range.maskNibble n < 2 ^ 4 := range.maskNibble_lt n
      rw [testBit_above below (Nat.not_lt.mp inside), decide_eq_false inside, Bool.false_and]
  rw [guardedNibble, made, same]

theorem guardedMaskText_eq : range.guardedMaskText = .ok range.maskText := by
  have digit (n : Nat) (member : n ∈ (List.range ((range.stop + 3) / 4)).reverse) :
      (range.guardedNibble n >>= fun nibble => pure (Nat.digitChar nibble)) =
        .ok (Nat.digitChar (range.maskNibble n)) := by
    have below : n < (range.stop + 3) / 4 := List.mem_range.mp (List.mem_reverse.mp member)
    have size : UInt64.size = 2 ^ 64 := rfl
    rw [guardedNibble_eq small (by omega)]
    rfl
  rw [guardedMaskText, maskText, maskDigits]
  by_cases empty : range.width = 0
  · rw [if_pos empty, if_pos empty]
  · rw [if_neg empty, if_neg empty, Guarded.add_eq small, ok_bind]
    exact congrArg (· >>= fun digits => pure (String.ofList ('0' :: 'x' :: digits)))
      (mapM_eq_ok_map digit)

theorem guardedMaskMatches_eq (text : String) :
    range.guardedMaskMatches text = .ok (range.maskMatches text) := by
  have digits : range.maskText.toList.drop 2 = range.maskDigits := by
    rw [maskText, String.toList_ofList]
    rfl
  simp only [guardedMaskMatches, maskMatches, guardedMaskText_eq small, ok_bind, digits]
  generalize Text.dropHexMark text.toList = given
  cases given.isEmpty
  · cases given.all fun c => (Text.hexDigit? c).isSome
    · rfl
    · rfl
  · rfl

end Bounds

/-- The text of a mask, its value in 128 bits and the texts that match it stand for one integer,
and they are found without a step out of bounds. -/
theorem maskForms_agree (range : BitRange) (small : range.stop < UInt64.size) :
    (range.guardedMaskText = .ok range.maskText ∧
      range.maskText = "0x" ++ String.ofList (Nat.toDigits 16 range.maskNumber)) ∧
    (range.guardedMask? = .ok range.mask? ∧
      range.mask?.map BitVec.toNat =
        if range.stop ≤ 128 then some range.maskNumber else none) ∧
    ∀ text, range.guardedMaskMatches text = .ok (range.maskMatches text) ∧
      (range.maskMatches text = true ↔
        Text.Denotes 16 (Text.dropHexMark text.toList) range.maskNumber) := by
  refine ⟨⟨guardedMaskText_eq small, range.maskText_eq⟩,
    ⟨range.guardedMask?_eq, range.toNat_mask?⟩, fun text => ⟨guardedMaskMatches_eq small text, ?_⟩⟩
  rw [maskMatches_iff, Text.numeral?_eq_some_iff_denotes]

/-- The twelve bits from bit six upwards. -/
theorem maskForms_agree_twelve :
    (⟨6, 12⟩ : BitRange).stop < UInt64.size ∧
    (⟨6, 12⟩ : BitRange).guardedMaskText = .ok "0x3ffc0" ∧
    (⟨6, 12⟩ : BitRange).mask?.map BitVec.toNat = some 0x3ffc0 ∧
    (⟨6, 12⟩ : BitRange).guardedMaskMatches "0X0003FfC0" = .ok true := by
  have agree := maskForms_agree ⟨6, 12⟩ (by decide)
  obtain ⟨⟨text, written⟩, ⟨_, value⟩, matched⟩ := agree
  have digits : Nat.toDigits 16 (⟨6, 12⟩ : BitRange).maskNumber = ['3', 'f', 'f', 'c', '0'] := by
    decide
  refine ⟨by decide, ?_, ?_, ?_⟩
  · rw [text, written, digits]
    rfl
  · rw [value]
    rfl
  · rw [(matched _).1]
    exact congrArg _ (by decide)

end BitRange

end PackedStruct
