import PackedStruct.Bits.Image
import PackedStruct.Proofs.Number

/-! Reads and writes of an image, which go through its bytes in chunks, as arithmetic on the packed
integer. Both are brought down to single bits. -/

namespace PackedStruct

/-- Bits above an integer are clear. -/
theorem testBit_above {n high i : Nat} (below : n < 2 ^ high) (above : high ≤ i) :
    n.testBit i = false :=
  Nat.testBit_lt_two_pow (Nat.lt_of_lt_of_le below (Nat.pow_le_pow_right (by decide) above))

theorem toUInt8_mod {n : Nat} (small : n < 8) : n.toUInt8.toNat % 8 = n := by
  rw [Nat.toUInt8, UInt8.toNat_ofNat']
  omega

theorem toUInt64_mod {n : Nat} (small : n < 64) : n.toUInt64.toNat % 64 = n := by
  rw [Nat.toUInt64, UInt64.toNat_ofNat']
  omega

theorem toNat_one_shiftLeft {n : Nat} (small : n < 64) :
    ((1 : UInt64) <<< n.toUInt64).toNat = 2 ^ n := by
  have power : 2 ^ n < 2 ^ 64 := Nat.pow_lt_pow_right (by decide) small
  rw [UInt64.toNat_shiftLeft, toUInt64_mod small, UInt64.toNat_one, Nat.shiftLeft_eq, Nat.one_mul,
    Nat.mod_eq_of_lt power]

theorem toNat_lowOnes {n : Nat} (narrow : n ≤ 64) : (lowOnes n).toNat = 2 ^ n - 1 := by
  unfold lowOnes
  by_cases full : 64 ≤ n
  · obtain rfl : n = 64 := by omega
    rfl
  · have bit := toNat_one_shiftLeft (show n < 64 by omega)
    have positive : (1 : UInt64) ≤ 1 <<< n.toUInt64 := by
      rw [UInt64.le_iff_toNat_le, bit]
      exact Nat.one_le_two_pow
    rw [if_neg full, UInt64.toNat_sub_of_le _ _ positive, bit]
    rfl

theorem testBit_lowOnes {n : Nat} (narrow : n ≤ 64) (i : Nat) :
    (lowOnes n).toNat.testBit i = decide (i < n) := by
  rw [toNat_lowOnes narrow, Nat.testBit_two_pow_sub_one]

structure Chunk.Fits (chunk : Chunk) : Prop where
  start : chunk.shift < 8
  byte : chunk.shift + chunk.width ≤ 8
  low : chunk.low < 64
  word : chunk.low + chunk.width ≤ 64

namespace BitRange

@[simp] theorem byte_chunk (range : BitRange) (byte : Nat) : (range.chunk byte).byte = byte := rfl

theorem covers_iff (range : BitRange) (bit : Nat) :
    range.covers bit = true ↔ range.offset ≤ bit ∧ bit < range.offset + range.width := by
  rw [covers, Bool.and_eq_true, decide_eq_true_eq, decide_eq_true_eq, stop]

theorem covers_offset_add (range : BitRange) (i : Nat) :
    range.covers (range.offset + i) = true ↔ i < range.width := by
  rw [covers_iff]
  omega

/-- A byte on the way from the first bit of the range to its stop. -/
structure Meets (range : BitRange) (byte : Nat) : Prop where
  below : 8 * byte < range.offset + range.width
  above : range.offset < 8 * byte + 8

theorem Meets.chunk_fits {range : BitRange} {byte : Nat} (meets : range.Meets byte)
    (narrow : range.width ≤ 64) : (range.chunk byte).Fits := by
  obtain ⟨below, above⟩ := meets
  constructor <;> dsimp only [chunk, stop] <;> omega

theorem Meets.chunk_place {range : BitRange} {byte : Nat} (meets : range.Meets byte) :
    8 * byte + (range.chunk byte).shift = range.offset + (range.chunk byte).low := by
  obtain ⟨below, above⟩ := meets
  dsimp only [chunk, stop]
  omega

/-- The chunk of a byte is the part of the range in the byte. -/
theorem Meets.chunk_covers {range : BitRange} {byte : Nat} (meets : range.Meets byte) (i : Nat) :
    8 * byte + (range.chunk byte).shift ≤ i ∧
        i < 8 * byte + (range.chunk byte).shift + (range.chunk byte).width ↔
      i / 8 = byte ∧ range.covers i := by
  obtain ⟨below, above⟩ := meets
  rw [covers_iff]
  dsimp only [chunk, stop]
  omega

/-- Every byte that holds bits of the range has its chunk. -/
theorem exists_chunks (range : BitRange) :
    ∃ bytes : List Nat, range.chunks = bytes.map range.chunk ∧
      (∀ byte ∈ bytes, range.Meets byte) ∧ ∀ bit, range.covers bit → bit / 8 ∈ bytes := by
  by_cases empty : range.width = 0
  · refine ⟨[], by simp [chunks, empty], by simp, ?_⟩
    intro bit covered
    rw [covers_iff] at covered
    omega
  · refine ⟨List.range' (range.offset / 8) ((range.stop + 7) / 8 - range.offset / 8),
      by simp [chunks, empty], ?_, ?_⟩
    · intro byte member
      rw [List.mem_range'_1, stop] at member
      constructor <;> omega
    · intro bit covered
      rw [covers_iff] at covered
      rw [List.mem_range'_1, stop]
      omega

end BitRange

namespace Image

def number (image : Image) : Nat :=
  byteNumber image.bytes.toList

@[simp] theorem number_ofBytes (order : ByteOrder) (bytes : List UInt8) :
    (ofBytes order bytes).number = order.number bytes := by
  rw [ByteOrder.number_eq, number, ofBytes]

@[simp] theorem number_toBytes (image : Image) (order : ByteOrder) :
    order.number (image.toBytes order) = image.number := by
  rw [ByteOrder.number_eq, toBytes, ByteOrder.arrange_arrange, number]

@[simp] theorem number_zero (size : Nat) : (zero size).number = 0 := by
  induction size with
  | zero => rfl
  | succ size ih =>
    simp only [number, zero, Array.toList_replicate] at ih
    simp [number, zero, List.replicate_succ, ih]

theorem testBit_number (image : Image) (i : Nat) :
    image.number.testBit i = (image.bytes.getD (i / 8) 0).toNat.testBit (i % 8) := by
  rw [number, testBit_byteNumber, List.getD_eq_getElem?_getD, Array.getElem?_toList,
    Array.getD_eq_getD_getElem?]

/-- Images of one size that hold one integer are the same. -/
theorem eq_of_number_eq {first second : Image} (sizes : first.size = second.size)
    (numbers : first.number = second.number) : first = second := by
  have little : ByteOrder.little.number first.bytes.toList =
      ByteOrder.little.number second.bytes.toList := numbers
  have bytes : first.bytes.toList = second.bytes.toList :=
    ByteOrder.eq_of_number_eq sizes little
  cases first
  cases second
  exact congrArg Image.mk (Array.toList_inj.mp bytes)

theorem testBit_readChunk (image : Image) {chunk : Chunk} (fits : chunk.Fits) (i : Nat) :
    (image.readChunk chunk).toNat.testBit i =
      (decide (chunk.low ≤ i ∧ i < chunk.low + chunk.width) &&
        image.number.testBit (8 * chunk.byte + chunk.shift + (i - chunk.low))) := by
  obtain ⟨start, inside, low, room⟩ := fits
  rw [readChunk, UInt64.toNat_shiftLeft, toUInt64_mod low, Nat.testBit_mod_two_pow,
    Nat.testBit_shiftLeft, UInt64.toNat_and, Nat.testBit_and, testBit_lowOnes (by omega),
    UInt8.toNat_toUInt64, UInt8.toNat_shiftRight, toUInt8_mod start, Nat.testBit_shiftRight,
    testBit_number]
  by_cases here : chunk.low ≤ i ∧ i < chunk.low + chunk.width
  · have byte : (8 * chunk.byte + chunk.shift + (i - chunk.low)) / 8 = chunk.byte := by omega
    have bit : (8 * chunk.byte + chunk.shift + (i - chunk.low)) % 8 =
        chunk.shift + (i - chunk.low) := by omega
    have small : i < 64 := by omega
    have within : i - chunk.low < chunk.width := by omega
    simp [here, byte, bit, small, within]
  · by_cases above : chunk.low ≤ i
    · have outside : ¬ i - chunk.low < chunk.width := by omega
      simp [here, outside]
    · simp [above]

private theorem testBit_foldl_or {α : Type} (bits : α → UInt64) (parts : List α) (start : UInt64)
    (i : Nat) :
    (parts.foldl (fun value part => value ||| bits part) start).toNat.testBit i =
      (start.toNat.testBit i || parts.any fun part => (bits part).toNat.testBit i) := by
  induction parts generalizing start with
  | nil => simp
  | cons part rest ih =>
    rw [List.foldl_cons, ih, UInt64.toNat_or, Nat.testBit_or, List.any_cons, Bool.or_assoc]

theorem testBit_readChunk_chunk (image : Image) {range : BitRange} (narrow : range.width ≤ 64)
    {byte : Nat} (meets : range.Meets byte) (i : Nat) :
    (image.readChunk (range.chunk byte)).toNat.testBit i = true ↔
      (range.offset + i) / 8 = byte ∧ i < range.width ∧
        image.number.testBit (range.offset + i) = true := by
  have place := meets.chunk_place
  have covers := meets.chunk_covers (range.offset + i)
  have position (above : (range.chunk byte).low ≤ i) :
      8 * byte + (range.chunk byte).shift + (i - (range.chunk byte).low) = range.offset + i := by
    omega
  rw [BitRange.covers_iff] at covers
  rw [testBit_readChunk image (meets.chunk_fits narrow), Bool.and_eq_true, decide_eq_true_eq,
    BitRange.byte_chunk]
  constructor
  · rintro ⟨here, bit⟩
    rw [position here.1] at bit
    exact ⟨by omega, by omega, bit⟩
  · rintro ⟨here, inside, bit⟩
    have above : (range.chunk byte).low ≤ i := by omega
    rw [position above]
    exact ⟨by omega, bit⟩

theorem testBit_read (image : Image) {range : BitRange} (narrow : range.width ≤ 64) (i : Nat) :
    (image.read range).toNat.testBit i =
      (decide (i < range.width) && image.number.testBit (range.offset + i)) := by
  obtain ⟨bytes, chunks, meets, touched⟩ := range.exists_chunks
  rw [read, testBit_foldl_or, chunks, List.any_map, UInt64.toNat_zero, Nat.zero_testBit,
    Bool.false_or, Bool.eq_iff_iff, List.any_eq_true, Bool.and_eq_true, decide_eq_true_eq]
  constructor
  · rintro ⟨byte, member, bit⟩
    exact ((testBit_readChunk_chunk image narrow (meets byte member) i).mp bit).2
  · rintro ⟨inside, bit⟩
    have member : (range.offset + i) / 8 ∈ bytes :=
      touched _ ((range.covers_offset_add i).mpr inside)
    exact ⟨_, member,
      (testBit_readChunk_chunk image narrow (meets _ member) i).mpr ⟨rfl, inside, bit⟩⟩

/-- Reading is division and remainder of the packed integer. -/
theorem toNat_read (image : Image) {range : BitRange} (narrow : range.width ≤ 64) :
    (image.read range).toNat = image.number / 2 ^ range.offset % 2 ^ range.width := by
  apply Nat.eq_of_testBit_eq
  intro i
  rw [testBit_read image narrow, Nat.testBit_mod_two_pow, Nat.testBit_div_two_pow, Nat.add_comm]

/-- Images that agree on the bits of a range are read alike there. -/
theorem read_congr {image other : Image} {range : BitRange} (narrow : range.width ≤ 64)
    (same : ∀ bit, range.covers bit → image.number.testBit bit = other.number.testBit bit) :
    image.read range = other.read range := by
  apply UInt64.toNat_inj.mp
  apply Nat.eq_of_testBit_eq
  intro i
  rw [testBit_read image narrow, testBit_read other narrow]
  by_cases inside : i < range.width
  · rw [same (range.offset + i) ((range.covers_offset_add i).mpr inside)]
  · simp [inside]

private theorem testBit_toNat_not (byte : UInt8) {i : Nat} (small : i < 8) :
    (~~~byte).toNat.testBit i = !byte.toNat.testBit i := by
  have bound : byte.toNat < 2 ^ 8 := byte.toNat_lt
  have complement : UInt8.size - 1 - byte.toNat = 2 ^ 8 - (byte.toNat + 1) := by
    change 256 - 1 - byte.toNat = 256 - (byte.toNat + 1)
    omega
  rw [UInt8.toNat_not, complement, Nat.testBit_two_pow_sub_succ bound]
  simp [small]

theorem testBit_replaceBits {chunk : Chunk} (fits : chunk.Fits) (value : UInt64) (byte : UInt8)
    {i : Nat} (small : i < 8) :
    (replaceBits chunk value byte).toNat.testBit i =
      if chunk.shift ≤ i ∧ i < chunk.shift + chunk.width then
        value.toNat.testBit (chunk.low + (i - chunk.shift))
      else byte.toNat.testBit i := by
  obtain ⟨start, inside, low, room⟩ := fits
  have raised (bits : UInt8) : (bits <<< chunk.shift.toUInt8).toNat.testBit i =
      (decide (chunk.shift ≤ i) && bits.toNat.testBit (i - chunk.shift)) := by
    rw [UInt8.toNat_shiftLeft, toUInt8_mod start, Nat.testBit_mod_two_pow, Nat.testBit_shiftLeft]
    simp [small]
  have ones : (lowOnes chunk.width).toUInt8.toNat.testBit (i - chunk.shift) =
      decide (i - chunk.shift < chunk.width) := by
    rw [UInt64.toNat_toUInt8, Nat.testBit_mod_two_pow, testBit_lowOnes (by omega)]
    simp [show i - chunk.shift < 8 by omega]
  have part : ((value >>> chunk.low.toUInt64) &&& lowOnes chunk.width).toUInt8.toNat.testBit
      (i - chunk.shift) =
      (decide (i - chunk.shift < chunk.width) &&
        value.toNat.testBit (chunk.low + (i - chunk.shift))) := by
    rw [UInt64.toNat_toUInt8, Nat.testBit_mod_two_pow, UInt64.toNat_and, Nat.testBit_and,
      UInt64.toNat_shiftRight, toUInt64_mod low, Nat.testBit_shiftRight, testBit_lowOnes (by omega)]
    simp [show i - chunk.shift < 8 by omega, Bool.and_comm]
  rw [replaceBits, UInt8.toNat_or, Nat.testBit_or, UInt8.toNat_and, Nat.testBit_and,
    testBit_toNat_not _ small, raised, raised, ones, part]
  by_cases here : chunk.shift ≤ i ∧ i < chunk.shift + chunk.width
  · have within : i - chunk.shift < chunk.width := by omega
    simp [here, within]
  · by_cases above : chunk.shift ≤ i
    · have outside : ¬ i - chunk.shift < chunk.width := by omega
      simp [here, outside]
    · simp [above]

/-- A chunk write replaces the bits of the range that lie in its byte, and no others. -/
theorem testBit_writeChunk (value : UInt64) (image : Image) {range : BitRange}
    (narrow : range.width ≤ 64) {byte : Nat} (meets : range.Meets byte)
    (inside : byte < image.size) (i : Nat) :
    (writeChunk value image (range.chunk byte)).number.testBit i =
      if i / 8 = byte ∧ range.covers i then value.toNat.testBit (i - range.offset)
      else image.number.testBit i := by
  rw [testBit_number, testBit_number, writeChunk, BitRange.byte_chunk]
  by_cases here : i / 8 = byte
  · subst here
    have bound : i / 8 < image.bytes.size := inside
    have covers := meets.chunk_covers i
    have place := meets.chunk_place
    simp only [Array.getD_eq_getD_getElem?, Array.getElem?_modify, ↓reduceIte,
      Array.getElem?_eq_getElem bound, Option.map_some, Option.getD_some]
    rw [testBit_replaceBits (meets.chunk_fits narrow) _ _ (by omega)]
    by_cases covered : range.covers i
    · have within := covers.mpr ⟨rfl, covered⟩
      rw [if_pos (by omega), if_pos ⟨trivial, covered⟩]
      congr 1
      omega
    · rw [if_neg (fun within => covered (covers.mp (by omega)).2),
        if_neg (fun both => covered both.2)]
  · rw [if_neg (fun both => here both.1)]
    simp [Array.getD_eq_getD_getElem?, Array.getElem?_modify, Ne.symm here]

theorem testBit_foldl_writeChunk (value : UInt64) (image : Image) {range : BitRange}
    (narrow : range.width ≤ 64) {bytes : List Nat} (meets : ∀ byte ∈ bytes, range.Meets byte)
    (inside : range.stop ≤ 8 * image.size) (i : Nat) :
    ((bytes.map range.chunk).foldl (writeChunk value) image).number.testBit i =
      if i / 8 ∈ bytes ∧ range.covers i then value.toNat.testBit (i - range.offset)
      else image.number.testBit i := by
  induction bytes generalizing image with
  | nil => simp
  | cons byte rest ih =>
    have here := meets byte List.mem_cons_self
    have bound : byte < image.size := by
      have below := here.below
      rw [BitRange.stop] at inside
      omega
    have later (other : Nat) (member : other ∈ rest) : range.Meets other :=
      meets other (List.mem_cons_of_mem _ member)
    rw [List.map_cons, List.foldl_cons, ih _ later (by rwa [size_writeChunk]),
      testBit_writeChunk value image narrow here bound]
    by_cases again : i / 8 ∈ rest
    · by_cases covered : range.covers i <;> simp [again, covered]
    · simp [again]

/-- Writing replaces the bits of the range, and no others. -/
theorem testBit_write (image : Image) {range : BitRange} (narrow : range.width ≤ 64)
    (inside : range.stop ≤ 8 * image.size) (value : UInt64) (i : Nat) :
    (image.write range value).number.testBit i =
      if range.covers i then value.toNat.testBit (i - range.offset)
      else image.number.testBit i := by
  obtain ⟨bytes, chunks, meets, touched⟩ := range.exists_chunks
  rw [write, chunks, testBit_foldl_writeChunk value image narrow meets inside]
  by_cases covered : range.covers i
  · simp [covered, touched i covered]
  · simp [covered]

end Image

end PackedStruct
