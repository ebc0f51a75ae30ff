import Mathlib.Data.Nat.Digits.Lemmas
import PackedStruct.ByteOrder

namespace PackedStruct

/-- The integer whose digits in base 256 are the bytes, least significant byte first. -/
def byteNumber (bytes : List UInt8) : Nat :=
  Nat.ofDigits 256 (bytes.map UInt8.toNat)

@[simp] theorem byteNumber_nil : byteNumber [] = 0 := rfl

@[simp] theorem byteNumber_cons (byte : UInt8) (bytes : List UInt8) :
    byteNumber (byte :: bytes) = byte.toNat + 256 * byteNumber bytes := by
  simp only [byteNumber, List.map_cons, Nat.ofDigits_cons]

/-- Bit `i` of the integer is bit `i % 8` of byte `i / 8`; there are no bits above the bytes. -/
theorem testBit_byteNumber (bytes : List UInt8) (i : Nat) :
    (byteNumber bytes).testBit i = (bytes.getD (i / 8) 0).toNat.testBit (i % 8) := by
  induction bytes generalizing i with
  | nil => simp
  | cons byte rest ih =>
    have low : byte.toNat < 2 ^ 8 := byte.toNat_lt
    have split : byteNumber (byte :: rest) = 2 ^ 8 * byteNumber rest + byte.toNat := by
      rw [byteNumber_cons]
      omega
    rw [split, Nat.testBit_two_pow_mul_add _ low]
    by_cases first : i < 8
    · have here : i / 8 = 0 := by omega
      have same : i % 8 = i := by omega
      simp only [first, ↓reduceIte, here, same, List.getD_cons_zero]
    · have next : i / 8 = (i - 8) / 8 + 1 := by omega
      have same : i % 8 = (i - 8) % 8 := by omega
      simp only [first, ↓reduceIte, ih, next, same, List.getD_cons_succ]

/-- The bytes are the digits of their integer. -/
theorem map_byteNumber_div (bytes : List UInt8) :
    (List.range bytes.length).map (fun i => UInt8.ofNat (byteNumber bytes / 256 ^ i)) = bytes := by
  induction bytes with
  | nil => rfl
  | cons byte rest ih =>
    have low : byte.toNat < 256 := byte.toNat_lt
    have first : UInt8.ofNat (byteNumber (byte :: rest) / 256 ^ 0) = byte := by
      apply UInt8.toNat_inj.mp
      rw [byteNumber_cons, Nat.pow_zero, Nat.div_one, UInt8.toNat_ofNat']
      omega
    have later (i : Nat) :
        byteNumber (byte :: rest) / 256 ^ (i + 1) = byteNumber rest / 256 ^ i := by
      rw [Nat.pow_succ', ← Nat.div_div_eq_div_mul, byteNumber_cons,
        Nat.add_mul_div_left _ _ (by decide), Nat.div_eq_of_lt low, Nat.zero_add]
    simp only [List.length_cons, List.range_succ_eq_map, List.map_cons, List.map_map, first,
      Function.comp_def, Nat.succ_eq_add_one, later, ih]

namespace ByteOrder

/-- The integer that bytes in this order denote. With the most significant byte first, each byte
moves those before it up. -/
def number : ByteOrder → List UInt8 → Nat
  | .little, bytes => byteNumber bytes
  | .big, bytes => bytes.foldl (fun n byte => 256 * n + byte.toNat) 0

/-- The `size` lowest bytes of an integer, in this order. -/
def render : ByteOrder → Nat → Nat → List UInt8
  | .little, size, n => (List.range size).map fun i => UInt8.ofNat (n / 256 ^ i)
  | .big, size, n => (List.range size).map fun i => UInt8.ofNat (n / 256 ^ (size - 1 - i))

theorem number_eq (order : ByteOrder) (bytes : List UInt8) :
    order.number bytes = byteNumber (order.arrange bytes) := by
  cases order with
  | little => rfl
  | big =>
    rw [number, arrange, byteNumber, List.map_reverse, Nat.ofDigits_eq_foldr, List.foldr_reverse,
      List.foldl_map]
    simp only [Nat.cast_id, Nat.add_comm]

theorem render_eq (order : ByteOrder) (size n : Nat) :
    order.render size n =
      order.arrange ((List.range size).map fun i => UInt8.ofNat (n / 256 ^ i)) := by
  cases order with
  | little => rfl
  | big =>
    rw [render, arrange]
    apply List.ext_getElem
    · simp only [List.length_map, List.length_reverse]
    · intro i _ _
      simp only [List.getElem_map, List.getElem_reverse, List.getElem_range, List.length_map,
        List.length_range]

theorem render_number (order : ByteOrder) (bytes : List UInt8) :
    order.render bytes.length (order.number bytes) = bytes := by
  have digits := map_byteNumber_div (order.arrange bytes)
  rw [length_arrange] at digits
  rw [render_eq, number_eq, digits, arrange_arrange]

/-- Byte strings of one length that denote one integer are the same. -/
theorem eq_of_number_eq {order : ByteOrder} {first second : List UInt8}
    (lengths : first.length = second.length) (numbers : order.number first = order.number second) :
    first = second := by
  rw [← render_number order first, ← render_number order second, lengths, numbers]

end ByteOrder

end PackedStruct
