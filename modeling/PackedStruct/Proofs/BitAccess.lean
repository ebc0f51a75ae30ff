import PackedStruct.Proofs.GuardedBits
import PackedStruct.Proofs.LeafGeometry

namespace PackedStruct

namespace BitRange

theorem Disjoint.not_covers {first second : BitRange} (disjoint : first.Disjoint second) {bit : Nat}
    (covered : second.covers bit) : ¬ first.covers bit :=
  fun also => disjoint bit ⟨also, covered⟩

end BitRange

namespace Image

section Disjoint

variable (image : Image) {range other : BitRange} (disjoint : range.Disjoint other)
  (narrow : range.width ≤ 64) (inside : range.stop ≤ 8 * image.size)
  (otherNarrow : other.width ≤ 64)
include disjoint narrow inside otherNarrow

/-- A write is not seen where no bit of its range is read. -/
theorem read_write_of_disjoint (value : UInt64) :
    (image.write range value).read other = image.read other := by
  apply read_congr otherNarrow
  intro bit covered
  rw [testBit_write image narrow inside, if_neg (disjoint.not_covers covered)]

/-- Writes that share no bit can be done in either order. -/
theorem write_comm_of_disjoint (otherInside : other.stop ≤ 8 * image.size) (value word : UInt64) :
    (image.write range value).write other word = (image.write other word).write range value := by
  have still : other.stop ≤ 8 * (image.write range value).size := by rwa [size_write]
  have otherStill : range.stop ≤ 8 * (image.write other word).size := by rwa [size_write]
  apply eq_of_number_eq
  · simp only [size_write]
  · apply Nat.eq_of_testBit_eq
    intro bit
    rw [testBit_write _ otherNarrow still, testBit_write image narrow inside,
      testBit_write _ narrow otherStill, testBit_write image otherNarrow otherInside]
    by_cases covered : other.covers bit
    · have free := disjoint.not_covers covered
      simp only [covered, free, ↓reduceIte, Bool.false_eq_true]
    · simp only [covered, ↓reduceIte, Bool.false_eq_true]

end Disjoint

/-- To access a range of at most 64 bits inside an image is to do arithmetic on the packed integer.
A read is a quotient and a remainder. A write keeps the size and replaces the bits of the range by
the low bits of the value, so that these are read back, and ranges without a common bit do not see
one another. Going through the bytes a part at a time gives the same, and stays in bounds. -/
theorem access_arithmetic (image : Image) {range : BitRange} (narrow : range.width ≤ 64)
    (inside : range.stop ≤ 8 * image.size) :
    (image.read range).toNat = image.number / 2 ^ range.offset % 2 ^ range.width ∧
    (∀ value,
      (image.write range value).size = image.size ∧
      (image.write range value).number = range.replace image.number value.toNat ∧
      (∀ bit, (image.write range value).number.testBit bit =
        if range.covers bit then value.toNat.testBit (bit - range.offset)
        else image.number.testBit bit) ∧
      ((image.write range value).read range).toNat = value.toNat % 2 ^ range.width ∧
      ∀ other : BitRange, other.width ≤ 64 → other.stop ≤ 8 * image.size →
        range.Disjoint other →
        (image.write range value).read other = image.read other ∧
        ∀ word, (image.write range value).write other word =
          (image.write other word).write range value) ∧
    (range.stop < UInt64.size →
      Guarded.readFrom image range 0 0 = .ok (image.read range) ∧
      ∀ value, Guarded.writeFrom value range image 0 = .ok (image.write range value)) := by
  refine ⟨image.toNat_read narrow, fun value => ⟨image.size_write range value,
    image.number_write narrow inside value, image.testBit_write narrow inside value,
    image.toNat_read_write narrow inside value, ?_⟩, fun small => ?_⟩
  · intro other otherNarrow otherInside disjoint
    exact ⟨image.read_write_of_disjoint disjoint narrow inside otherNarrow value,
      image.write_comm_of_disjoint disjoint narrow inside otherNarrow otherInside value⟩
  · have bounds : Guarded.InBounds range image.size := ⟨⟨inside, small⟩, narrow⟩
    exact ⟨Guarded.readFrom_zero bounds, Guarded.writeFrom_zero bounds⟩

end Image

namespace Sample

def tenBytes : Image :=
  .ofBytes .little [0x12, 0x34, 0x56, 0x78, 0x9a, 0xbc, 0xde, 0xf0, 0x0f, 0xa5]

end Sample

/-- A word of 64 bits that lies in nine bytes, and the bits above it, which begin in the last of
these bytes. -/
theorem Image.access_arithmetic_nineBytes :
    (⟨3, 64⟩ : BitRange).width ≤ 64 ∧ (⟨3, 64⟩ : BitRange).stop ≤ 8 * Sample.tenBytes.size ∧
    Sample.tenBytes.number / 2 ^ 3 % 2 ^ 64 = 0xfe1bd7934f0ac682 ∧
    Guarded.readFrom Sample.tenBytes ⟨3, 64⟩ 0 0 = .ok 0xfe1bd7934f0ac682 ∧
    ((Sample.tenBytes.write ⟨3, 64⟩ 0x8000000000000001).read ⟨3, 64⟩).toNat =
      0x8000000000000001 ∧
    (Sample.tenBytes.write ⟨3, 64⟩ 0x8000000000000001).read ⟨67, 13⟩ = 0x14a1 ∧
    (Sample.tenBytes.write ⟨3, 64⟩ 0x8000000000000001).write ⟨67, 13⟩ 5 =
      (Sample.tenBytes.write ⟨67, 13⟩ 5).write ⟨3, 64⟩ 0x8000000000000001 := by
  have narrow : (⟨3, 64⟩ : BitRange).width ≤ 64 := by decide
  have inside : (⟨3, 64⟩ : BitRange).stop ≤ 8 * Sample.tenBytes.size := by decide
  have word : Sample.tenBytes.read ⟨3, 64⟩ = 0xfe1bd7934f0ac682 := by decide
  have above : Sample.tenBytes.read ⟨67, 13⟩ = 0x14a1 := by decide
  obtain ⟨quotient, written, steps⟩ := access_arithmetic Sample.tenBytes narrow inside
  obtain ⟨_, _, _, back, others⟩ := written 0x8000000000000001
  obtain ⟨free, comm⟩ := others ⟨67, 13⟩ (by decide) (by decide)
    (BitRange.disjoint_of_stop_le (by decide))
  rw [word] at quotient
  refine ⟨narrow, inside, quotient.symm, ?_, back, free.trans above, comm 5⟩
  rw [(steps (by decide)).1, word]

end PackedStruct
