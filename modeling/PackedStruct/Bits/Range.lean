import PackedStruct.Text.Numeral

namespace PackedStruct

/-- The `width` bits from bit `offset` upwards. -/
structure BitRange where
  offset : Nat
  width : Nat
  deriving DecidableEq, Repr

namespace BitRange

/-- The first bit above the range. -/
def stop (range : BitRange) : Nat :=
  range.offset + range.width

/-- Whether the range holds a bit. -/
def covers (range : BitRange) (bit : Nat) : Bool :=
  range.offset ≤ bit && bit < range.stop

/-- The mask with the bits of the range set, if it has at most 128 bits. -/
def mask? (range : BitRange) : Option (BitVec 128) :=
  if range.stop ≤ 128 then some ((BitVec.allOnes range.width).setWidth 128 <<< range.offset)
  else none

/-- The bits `4 * n` to `4 * n + 3` of the mask as a number below sixteen. Those of the range are
next to one another, so that the number is the difference of two powers of two. -/
def maskNibble (range : BitRange) (n : Nat) : Nat :=
  1 <<< min 4 (range.stop - 4 * n) - 1 <<< min 4 (range.offset - 4 * n)

private theorem testBit_shiftLeft_sub : ∀ high < 5, ∀ low < 5, low ≤ high → ∀ bit < 4,
    (1 <<< high - 1 <<< low).testBit bit = (decide (low ≤ bit) && decide (bit < high)) := by
  decide

theorem testBit_maskNibble (range : BitRange) (n : Nat) {bit : Nat} (h : bit < 4) :
    (range.maskNibble n).testBit bit = range.covers (4 * n + bit) := by
  have order : range.offset ≤ range.stop := Nat.le_add_right _ _
  rw [maskNibble, testBit_shiftLeft_sub _ (by omega) _ (by omega) (by omega) _ h, covers,
    Bool.eq_iff_iff]
  simp
  omega

/-- The mask in hexadecimal digits, as few as hold it. -/
def maskDigits (range : BitRange) : List Char :=
  if range.width = 0 then ['0']
  else (List.range ((range.stop + 3) / 4)).reverse.map fun n => Nat.digitChar (range.maskNibble n)

/-- The mask in hexadecimal, for ranges of any size. -/
def maskText (range : BitRange) : String :=
  String.ofList ('0' :: 'x' :: range.maskDigits)

/-- Whether a hexadecimal text denotes the mask. The mark `0x`, the case of the digits and leading
zeros do not matter. -/
def maskMatches (range : BitRange) (text : String) : Bool :=
  let digits := Text.dropHexMark text.toList
  !digits.isEmpty && digits.all (fun c => (Text.hexDigit? c).isSome) &&
    (digits.dropWhile (· == '0')).map Char.toLower == range.maskDigits.dropWhile (· == '0')

end BitRange

end PackedStruct
