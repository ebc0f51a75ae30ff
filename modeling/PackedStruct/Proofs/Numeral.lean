import Mathlib.Tactic.IntervalCases
import PackedStruct.Text.Numeral

namespace PackedStruct.Text

theorem hexDigit?_digitChar : ∀ value < 16, hexDigit? (Nat.digitChar value) = some value := by
  decide

theorem digit?_digitChar {radix value : Nat} (small : radix ≤ 16) (below : value < radix) :
    digit? radix (Nat.digitChar value) = some value := by
  rw [digit?, hexDigit?_digitChar value (by omega), Option.filter_some]
  simp [below]

private theorem char_le_iff (low c : Char) : low ≤ c ↔ low.toNat ≤ c.toNat := Iff.rfl

/-- A digit and its value, in numbers. -/
theorem hexDigit?_eq_some_iff (c : Char) (value : Nat) :
    hexDigit? c = some value ↔
      (48 ≤ c.toNat ∧ c.toNat ≤ 57 ∧ value = c.toNat - 48) ∨
      (97 ≤ c.toNat ∧ c.toNat ≤ 102 ∧ value = c.toNat - 97 + 10) ∨
      (65 ≤ c.toNat ∧ c.toNat ≤ 70 ∧ value = c.toNat - 65 + 10) := by
  have marks : '0'.toNat = 48 ∧ '9'.toNat = 57 ∧ 'a'.toNat = 97 ∧ 'f'.toNat = 102 ∧
      'A'.toNat = 65 ∧ 'F'.toNat = 70 := by decide
  obtain ⟨zero, nine, a, f, upperA, upperF⟩ := marks
  simp only [hexDigit?, char_le_iff, zero, nine, a, f, upperA, upperF]
  split
  · simp only [Option.some.injEq]
    omega
  · split
    · simp only [Option.some.injEq]
      omega
    · split
      · simp only [Option.some.injEq]
        omega
      · simp only [reduceCtorEq, false_iff]
        omega

theorem eq_zero_of_hexDigit? {c : Char} (digit : hexDigit? c = some 0) : c = '0' := by
  rw [hexDigit?_eq_some_iff] at digit
  have number : c.toNat = 48 := by omega
  rw [← Char.ofNat_toNat c, number]

theorem hexDigit?_lt {c : Char} {value : Nat} (digit : hexDigit? c = some value) : value < 16 := by
  rw [hexDigit?_eq_some_iff] at digit
  omega

theorem mem_of_hexDigit? {c : Char} {value : Nat} (digit : hexDigit? c = some value) :
    c ∈ "0123456789abcdefABCDEF".toList := by
  rw [hexDigit?_eq_some_iff] at digit
  have same : c = Char.ofNat c.toNat := (Char.ofNat_toNat c).symm
  generalize c.toNat = n at digit same
  subst same
  rcases digit with ⟨low, high, rfl⟩ | ⟨low, high, rfl⟩ | ⟨low, high, rfl⟩ <;>
    interval_cases n <;> decide

/-- The lowercase form of a digit is the digit that its value is written with. -/
theorem toLower_of_hexDigit? {c : Char} {value : Nat} (digit : hexDigit? c = some value) :
    c.toLower = Nat.digitChar value := by
  have each : ("0123456789abcdefABCDEF".toList.all fun d =>
      (hexDigit? d).map Nat.digitChar == some d.toLower) = true := by decide
  have here := beq_iff_eq.mp (List.all_eq_true.mp each c (mem_of_hexDigit? digit))
  rw [digit] at here
  exact (Option.some.inj here).symm

/-- A character whose lowercase form is a digit is that digit. -/
theorem hexDigit?_of_toLower {c : Char} {value : Nat} (below : value < 16)
    (lower : c.toLower = Nat.digitChar value) : hexDigit? c = some value := by
  unfold Char.toLower at lower
  split at lower
  · rename_i capital
    have low : 65 ≤ c.toNat := UInt32.le_iff_toNat_le.mp capital.1
    have high : c.toNat ≤ 90 := UInt32.le_iff_toNat_le.mp capital.2
    have raised : c.toNat + 32 = (Nat.digitChar value).toNat := by
      rw [← lower]
      change c.toNat + 32 = (c.val + 32).toNat
      rw [UInt32.toNat_add]
      change c.toNat + 32 = (c.toNat + 32) % 2 ^ 32
      omega
    -- No decimal digit is the lowercase form of a capital.
    rw [hexDigit?_eq_some_iff]
    interval_cases value <;> simp [Nat.digitChar] at raised <;> omega
  · rw [lower]
    exact hexDigit?_digitChar value below

/-- The number of a numeral with one digit more at its end. -/
def appendDigit (radix value : Nat) (c : Char) : Option Nat :=
  (digit? radix c).map (value * radix + ·)

theorem numeral?_eq_some_iff {radix n : Nat} {digits : List Char} :
    numeral? radix digits = some n ↔
      digits ≠ [] ∧ digits.foldlM (appendDigit radix) 0 = some n := by
  cases digits with
  | nil => simp [numeral?]
  | cons c rest => exact (and_iff_right (List.cons_ne_nil c rest)).symm

theorem appendDigit_digitChar {radix digit : Nat} (small : radix ≤ 16) (below : digit < radix)
    (value : Nat) :
    appendDigit radix value (Nat.digitChar digit) = some (value * radix + digit) := by
  rw [appendDigit, digit?_digitChar small below, Option.map_some]

theorem appendDigit_eq_some_iff {value number : Nat} {c : Char} :
    appendDigit 16 value c = some number ↔
      ∃ digit, hexDigit? c = some digit ∧ number = value * 16 + digit := by
  rw [appendDigit, Option.map_eq_some_iff]
  constructor
  · rintro ⟨digit, found, rfl⟩
    exact ⟨digit, (Option.filter_eq_some_iff.mp found).1, rfl⟩
  · rintro ⟨digit, found, rfl⟩
    refine ⟨digit, ?_, rfl⟩
    rw [digit?, found, Option.filter_some, if_pos (decide_eq_true (hexDigit?_lt found))]

/-- The digits that a number is written with denote it. -/
theorem numeral?_toDigits {radix : Nat} (large : 1 < radix) (small : radix ≤ 16) (n : Nat) :
    numeral? radix (Nat.toDigits radix n) = some n := by
  refine numeral?_eq_some_iff.mpr ⟨Nat.toDigits_ne_nil, ?_⟩
  induction n using Nat.strongRecOn with
  | ind n ih =>
    rw [Nat.toDigits_eq_if large]
    split
    · rename_i below
      rw [List.foldlM_cons, appendDigit_digitChar small below, Nat.zero_mul, Nat.zero_add]
      rfl
    · rename_i above
      have positive : 0 < radix := by omega
      have smaller : n / radix < n := Nat.div_lt_self (by omega) large
      rw [List.foldlM_append, ih _ smaller]
      change [_].foldlM (appendDigit radix) (n / radix) = some n
      rw [List.foldlM_cons, appendDigit_digitChar small (Nat.mod_lt n positive), Nat.div_add_mod']
      rfl

theorem toList_toString (n : Nat) : (toString n).toList = Nat.toDigits 10 n := by
  change n.repr.toList = _
  rw [Nat.repr_eq_ofList_toDigits, String.toList_ofList]

theorem numeral?_toString (n : Nat) : numeral? 10 (toString n).toList = some n := by
  rw [toList_toString]
  exact numeral?_toDigits (by decide) (by decide) n

/-- The digits that matter: without leading zeros and in lower case. -/
def significant (digits : List Char) : List Char :=
  (digits.dropWhile (· == '0')).map Char.toLower

private theorem toDigits_append_of_foldlM {digits : List Char} {value number : Nat}
    (positive : 0 < value) (read : digits.foldlM (appendDigit 16) value = some number) :
    Nat.toDigits 16 value ++ digits.map Char.toLower = Nat.toDigits 16 number := by
  induction digits generalizing value with
  | nil =>
    obtain rfl := Option.some.inj read
    simp
  | cons c rest ih =>
    rw [List.foldlM_cons] at read
    obtain ⟨next, appended, later⟩ := Option.bind_eq_some_iff.mp read
    obtain ⟨digit, found, rfl⟩ := appendDigit_eq_some_iff.mp appended
    have below := hexDigit?_lt found
    have joined := Nat.toDigits_append_toDigits (b := 16) (by decide) positive below
    rw [Nat.toDigits_of_lt_base below] at joined
    rw [← ih (by omega) later, Nat.mul_comm, ← joined, List.map_cons, toLower_of_hexDigit? found,
      List.append_assoc, List.singleton_append]

/-- What matters of a numeral is the way its number is written. -/
theorem significant_of_numeral? {digits : List Char} {n : Nat}
    (read : numeral? 16 digits = some n) :
    significant digits = if n = 0 then [] else Nat.toDigits 16 n := by
  replace read := (numeral?_eq_some_iff.mp read).2
  induction digits with
  | nil =>
    obtain rfl := Option.some.inj read
    rfl
  | cons c rest ih =>
    rw [List.foldlM_cons] at read
    obtain ⟨value, appended, later⟩ := Option.bind_eq_some_iff.mp read
    obtain ⟨digit, found, rfl⟩ := appendDigit_eq_some_iff.mp appended
    rw [Nat.zero_mul, Nat.zero_add] at later
    by_cases zero : digit = 0
    · subst zero
      rw [significant, List.dropWhile_cons_of_pos (by simp [eq_zero_of_hexDigit? found])]
      exact ih later
    · -- The first digit that is not zero leads the number.
      have leading : c ≠ '0' := by
        rintro rfl
        exact zero (Option.some.inj found).symm
      have written := toDigits_append_of_foldlM (Nat.pos_of_ne_zero zero) later
      rw [Nat.toDigits_of_lt_base (hexDigit?_lt found), List.singleton_append] at written
      have positive : n ≠ 0 := by
        rintro rfl
        rw [Nat.toDigits_zero, List.cons.injEq] at written
        exact zero (Nat.digitChar_eq_zero.mp written.1)
      rw [significant, List.dropWhile_cons_of_neg (by simp [leading]), if_neg positive, ← written,
        List.map_cons, toLower_of_hexDigit? found]

/-- Numerals with the same digits that matter denote the same number. -/
theorem eq_of_significant_eq {first second : List Char} {m n : Nat}
    (readFirst : numeral? 16 first = some m) (readSecond : numeral? 16 second = some n)
    (same : significant first = significant second) : m = n := by
  rw [significant_of_numeral? readFirst, significant_of_numeral? readSecond] at same
  split at same <;> split at same
  · omega
  · exact absurd same.symm Nat.toDigits_ne_nil
  · exact absurd same Nat.toDigits_ne_nil
  · have numbers := congrArg (numeral? 16) same
    rw [numeral?_toDigits (by decide) (by decide), numeral?_toDigits (by decide) (by decide)]
      at numbers
    exact Option.some.inj numbers

/-- A text is a numeral when it consists of digits, at least one. -/
theorem exists_numeral?_iff (digits : List Char) :
    (∃ n, numeral? 16 digits = some n) ↔
      digits ≠ [] ∧ ∀ c ∈ digits, (hexDigit? c).isSome := by
  have all (value : Nat) : (∃ n, digits.foldlM (appendDigit 16) value = some n) ↔
      ∀ c ∈ digits, (hexDigit? c).isSome := by
    induction digits generalizing value with
    | nil => simp
    | cons c rest ih =>
      rw [List.foldlM_cons, List.forall_mem_cons]
      constructor
      · rintro ⟨n, read⟩
        obtain ⟨next, appended, later⟩ := Option.bind_eq_some_iff.mp read
        obtain ⟨digit, found, rfl⟩ := appendDigit_eq_some_iff.mp appended
        exact ⟨Option.isSome_of_eq_some found, (ih _).mp ⟨n, later⟩⟩
      · rintro ⟨here, others⟩
        obtain ⟨digit, found⟩ := Option.isSome_iff_exists.mp here
        obtain ⟨n, later⟩ := (ih (value * 16 + digit)).mpr others
        exact ⟨n, Option.bind_eq_some_iff.mpr
          ⟨_, appendDigit_eq_some_iff.mpr ⟨digit, found, rfl⟩, later⟩⟩
  simp only [numeral?_eq_some_iff, exists_and_left, all 0]

/-- The `count` lowest digits of a number, highest first, denote its remainder. -/
theorem foldlM_lowDigits (n count value : Nat) :
    ((List.range count).reverse.map fun i => Nat.digitChar (n / 16 ^ i % 16)).foldlM
      (appendDigit 16) value = some (value * 16 ^ count + n % 16 ^ count) := by
  induction count generalizing value with
  | zero => simp [Nat.mod_one]
  | succ count ih =>
    have below : n / 16 ^ count % 16 < 16 := Nat.mod_lt _ (by decide)
    rw [List.range_succ, List.reverse_append, List.reverse_singleton, List.singleton_append,
      List.map_cons, List.foldlM_cons, appendDigit_digitChar (by decide) below]
    change List.foldlM _ _ _ = _
    rw [ih, Nat.pow_succ, Nat.mod_mul, Nat.add_mul, Nat.mul_assoc, Nat.mul_comm 16,
      Nat.mul_comm (16 ^ count) (n / 16 ^ count % 16), Nat.add_assoc,
      Nat.add_comm (n % 16 ^ count)]

/-- What may stand in front of hexadecimal digits. -/
def hexMarks : List (List Char) :=
  [[], ['0', 'x'], ['0', 'X']]

/-- A hexadecimal text written in another way: with another mark or none, with more or fewer zeros
in front, with digits of the other case. -/
inductive Respelled : String → String → Prop where
  | intro {mark otherMark : List Char} {zeros otherZeros : Nat} {digits otherDigits : List Char}
      (marked : mark ∈ hexMarks) (otherMarked : otherMark ∈ hexMarks)
      (hexadecimal : ∀ c ∈ digits, (hexDigit? c).isSome)
      (cases : otherDigits.map Char.toLower = digits.map Char.toLower)
      (nonempty : otherZeros + otherDigits.length ≠ 0) :
      Respelled (String.ofList (mark ++ (List.replicate zeros '0' ++ digits)))
        (String.ofList (otherMark ++ (List.replicate otherZeros '0' ++ otherDigits)))

theorem dropHexMark_append {mark digits : List Char} (marked : mark ∈ hexMarks)
    (hexadecimal : ∀ c ∈ digits, (hexDigit? c).isSome) : dropHexMark (mark ++ digits) = digits := by
  simp only [hexMarks, List.mem_cons, List.not_mem_nil, or_false] at marked
  rcases marked with rfl | rfl | rfl
  · -- Digits never look like a mark: its letter is none of them.
    rw [List.nil_append, dropHexMark]
    have unmarked : hexMark? digits = none := by
      unfold hexMark?
      split
      · have letter := hexadecimal 'x' (by simp)
        cases letter
      · have letter := hexadecimal 'X' (by simp)
        cases letter
      · rfl
    rw [unmarked, Option.getD_none]
  · rfl
  · rfl

theorem foldlM_zeros (zeros : Nat) (digits : List Char) :
    (List.replicate zeros '0' ++ digits).foldlM (appendDigit 16) 0 =
      digits.foldlM (appendDigit 16) 0 := by
  induction zeros with
  | zero => rfl
  | succ zeros ih => exact ih

private theorem hexDigit?_congr {c other : Char} (same : other.toLower = c.toLower)
    (hexadecimal : (hexDigit? c).isSome) : hexDigit? other = hexDigit? c := by
  obtain ⟨value, digit⟩ := Option.isSome_iff_exists.mp hexadecimal
  rw [digit]
  exact hexDigit?_of_toLower (hexDigit?_lt digit) (same.trans (toLower_of_hexDigit? digit))

theorem map_hexDigit?_congr {digits others : List Char}
    (cases : others.map Char.toLower = digits.map Char.toLower)
    (hexadecimal : ∀ c ∈ digits, (hexDigit? c).isSome) :
    others.map hexDigit? = digits.map hexDigit? := by
  induction digits generalizing others with
  | nil => rw [List.map_eq_nil_iff.mp cases]
  | cons c rest ih =>
    obtain ⟨other, later, rfl, same, tail⟩ := List.map_eq_cons_iff.mp cases
    obtain ⟨here, hexRest⟩ := List.forall_mem_cons.mp hexadecimal
    rw [List.map_cons, List.map_cons, hexDigit?_congr same here, ih tail hexRest]

theorem foldlM_congr {digits others : List Char}
    (values : others.map hexDigit? = digits.map hexDigit?) (value : Nat) :
    others.foldlM (appendDigit 16) value = digits.foldlM (appendDigit 16) value := by
  induction digits generalizing others value with
  | nil => rw [List.map_eq_nil_iff.mp values]
  | cons c rest ih =>
    obtain ⟨other, later, rfl, same, tail⟩ := List.map_eq_cons_iff.mp values
    have first : appendDigit 16 value other = appendDigit 16 value c := by
      rw [appendDigit, appendDigit, digit?, digit?, same]
    rw [List.foldlM_cons, List.foldlM_cons, first]
    congr
    funext next
    exact ih tail next

/-- A text denotes the same number however it is spelled. -/
theorem Respelled.numeral? {first second : String} (respelled : Respelled first second) {n : Nat}
    (read : numeral? 16 (dropHexMark first.toList) = some n) :
    numeral? 16 (dropHexMark second.toList) = some n := by
  cases respelled with
  | @intro mark otherMark zeros otherZeros digits otherDigits marked otherMarked hexadecimal cases
      nonempty =>
    have values := map_hexDigit?_congr cases hexadecimal
    have zeroDigit (count : Nat) : ∀ c ∈ List.replicate count '0', (hexDigit? c).isSome := by
      intro c member
      rw [List.eq_of_mem_replicate member]
      rfl
    have otherHexadecimal : ∀ c ∈ otherDigits, (hexDigit? c).isSome := by
      intro c member
      have value : hexDigit? c ∈ digits.map hexDigit? := values ▸ List.mem_map_of_mem member
      obtain ⟨digit, digitMember, same⟩ := List.mem_map.mp value
      rw [← same]
      exact hexadecimal digit digitMember
    rw [String.toList_ofList, dropHexMark_append marked
      (List.forall_mem_append.mpr ⟨zeroDigit zeros, hexadecimal⟩), numeral?_eq_some_iff,
      foldlM_zeros] at read
    rw [String.toList_ofList, dropHexMark_append otherMarked
      (List.forall_mem_append.mpr ⟨zeroDigit otherZeros, otherHexadecimal⟩), numeral?_eq_some_iff,
      foldlM_zeros, foldlM_congr values]
    refine ⟨?_, read.2⟩
    intro empty
    have length := congrArg List.length empty
    rw [List.length_append, List.length_replicate, List.length_nil] at length
    exact nonempty length

end PackedStruct.Text
