import PackedStruct.Packing.Pack
import PackedStruct.Packing.Unpack
import PackedStruct.Proofs.Lexemes
import PackedStruct.Proofs.WellFormed

namespace PackedStruct

namespace Text

/-- Two digits for each byte, the one for its higher half first. -/
inductive HexDigits : List UInt8 → List Char → Prop where
  | nil : HexDigits [] []
  | cons {byte : UInt8} {bytes : List UInt8} {high low : Char} {digits : List Char}
      (upper : hexDigit? high = some (byte.toNat / 16))
      (lower : hexDigit? low = some (byte.toNat % 16))
      (rest : HexDigits bytes digits) : HexDigits (byte :: bytes) (high :: low :: digits)

/-- The digits of the bytes, with what may stand around them. -/
inductive HexText (bytes : List UInt8) : String → Prop where
  | intro {before mark digits after : List Char} (blankBefore : ∀ c ∈ before, isBlank c = true)
      (marked : mark ∈ hexMarks) (spelled : HexDigits bytes digits)
      (blankAfter : ∀ c ∈ after, isBlank c = true) :
      HexText bytes (String.ofList (before ++ (mark ++ digits) ++ after))

theorem HexDigits.isSome_hexDigit? {bytes : List UInt8} {digits : List Char}
    (spelled : HexDigits bytes digits) : ∀ c ∈ digits, (hexDigit? c).isSome := by
  induction spelled with
  | nil => exact nofun
  | cons upper lower _ ih =>
    rw [List.forall_mem_cons, List.forall_mem_cons]
    exact ⟨Option.isSome_of_eq_some upper, Option.isSome_of_eq_some lower, ih⟩

theorem HexDigits.length_eq {bytes : List UInt8} {digits : List Char}
    (spelled : HexDigits bytes digits) : digits.length = 2 * bytes.length := by
  induction spelled with
  | nil => rfl
  | cons _ _ _ ih =>
    simp only [List.length_cons, ih]
    omega

/-- Digits in pairs spell bytes. -/
theorem exists_hexDigits : ∀ {digits : List Char}, digits.length % 2 = 0 →
    (∀ c ∈ digits, (hexDigit? c).isSome) → ∃ bytes, HexDigits bytes digits
  | [], _, _ => ⟨[], .nil⟩
  | [_], even, _ => by cases even
  | high :: low :: rest, even, hexadecimal => by
    obtain ⟨upperDigit, lowerDigit, others⟩ :=
      List.forall_mem_cons.mp hexadecimal |>.imp_right List.forall_mem_cons.mp
    obtain ⟨upper, upperRead⟩ := Option.isSome_iff_exists.mp upperDigit
    obtain ⟨lower, lowerRead⟩ := Option.isSome_iff_exists.mp lowerDigit
    rw [List.length_cons, List.length_cons] at even
    obtain ⟨bytes, spelled⟩ := exists_hexDigits (by omega) others
    have upperSmall := hexDigit?_lt upperRead
    have lowerSmall := hexDigit?_lt lowerRead
    have byte : (UInt8.ofNat (16 * upper + lower)).toNat = 16 * upper + lower := by
      rw [UInt8.toNat_ofNat']
      omega
    refine ⟨UInt8.ofNat (16 * upper + lower) :: bytes, .cons ?_ ?_ spelled⟩
    · rw [byte, upperRead]
      congr 1
      omega
    · rw [byte, lowerRead]
      congr 1
      omega

theorem hexDigits_hexOfBytes (bytes : List UInt8) : HexDigits bytes (hexOfBytes bytes) := by
  induction bytes with
  | nil => exact .nil
  | cons byte rest ih =>
    have small := byte.toNat_lt
    exact .cons (hexDigit?_digitChar _ (by omega)) (hexDigit?_digitChar _ (by omega)) ih

private theorem toList_loop (bytes : ByteArray) (i : Nat) (read : List UInt8) :
    ByteArray.toList.loop bytes i read = read.reverse ++ bytes.data.toList.drop i := by
  fun_induction ByteArray.toList.loop bytes i read with
  | case1 i read more ih =>
    have inside : i < bytes.data.toList.length := by simpa using more
    have here : bytes.get! i = bytes.data.toList[i] := getElem!_pos bytes.data i more
    rw [ih, List.drop_eq_getElem_cons inside, here, List.reverse_cons, List.append_assoc,
      List.singleton_append]
  | case2 i read finished =>
    have past : bytes.data.toList.length ≤ i := by simpa using Nat.le_of_not_lt finished
    rw [List.drop_eq_nil_of_le past, List.append_nil]

/-- The bytes of a text are those of its characters, one after the other. -/
theorem toList_toUTF8 (text : List Char) :
    (String.ofList text).toUTF8.toList = text.flatMap String.utf8EncodeChar := by
  rw [ByteArray.toList, toList_loop, String.toUTF8_eq_toByteArray, String.toByteArray_ofList,
    List.utf8Encode, List.toList_data_toByteArray]
  rfl

theorem utf8EncodeChar_of_hexDigit? {c : Char} (digit : (hexDigit? c).isSome) :
    ∃ byte : UInt8, String.utf8EncodeChar c = [byte] ∧ Char.ofNat byte.toNat = c := by
  obtain ⟨value, read⟩ := Option.isSome_iff_exists.mp digit
  rw [hexDigit?_eq_some_iff] at read
  have small : c.toNat ≤ 127 := by omega
  refine ⟨UInt8.ofNat c.toNat, if_pos small, ?_⟩
  rw [UInt8.toNat_ofNat', Nat.mod_eq_of_lt (by omega), Char.ofNat_toNat]

/-- Bytes above ASCII are no digits. -/
theorem hexDigit?_ofNat_eq_none {n : Nat} (above : 128 ≤ n) (byte : n < 256) :
    hexDigit? (Char.ofNat n) = none := by
  rw [Option.eq_none_iff_forall_ne_some]
  intro value read
  have number : (Char.ofNat n).toNat = n := by
    rw [Char.ofNat, dif_pos (Or.inl (by omega))]
    rfl
  rw [hexDigit?_eq_some_iff, number] at read
  omega

/-- A character that is no digit has a byte that is none. -/
theorem exists_mem_utf8EncodeChar {c : Char} (other : hexDigit? c = none) :
    ∃ byte ∈ String.utf8EncodeChar c, hexDigit? (Char.ofNat byte.toNat) = none := by
  have lead {n : Nat} {bytes : List UInt8} (above : 128 ≤ n) (small : n < 256) :
      ∃ byte ∈ UInt8.ofNat n :: bytes, hexDigit? (Char.ofNat byte.toNat) = none := by
    refine ⟨_, List.mem_cons_self, ?_⟩
    rw [UInt8.toNat_ofNat', Nat.mod_eq_of_lt small]
    exact hexDigit?_ofNat_eq_none above small
  unfold String.utf8EncodeChar
  dsimp only
  split
  · rename_i ascii
    refine ⟨_, List.mem_cons_self, ?_⟩
    rw [UInt8.toNat_ofNat', Nat.mod_eq_of_lt (Nat.lt_of_le_of_lt ascii (by decide))]
    change hexDigit? (Char.ofNat c.toNat) = none
    rwa [Char.ofNat_toNat]
  · split
    · exact lead (by omega) (by omega)
    · split
      · exact lead (by omega) (by omega)
      · exact lead (by omega) (by omega)

theorem hexDigitAt_eq_ok_iff {byte : UInt8} {position value : Nat} :
    hexDigitAt byte position = .ok value ↔ hexDigit? (Char.ofNat byte.toNat) = some value := by
  unfold hexDigitAt
  split
  · rename_i read
    simp [read]
  · rename_i read
    simp [read]

theorem bytesOfPairs_of_hexDigits {bytes : List UInt8} {digits : List Char}
    (spelled : HexDigits bytes digits) (position : Nat) :
    bytesOfPairs position (digits.flatMap String.utf8EncodeChar) = .ok bytes := by
  induction spelled generalizing position with
  | nil => rfl
  | @cons byte bytes high low digits upper lower _ ih =>
    obtain ⟨first, firstEncoded, firstRead⟩ :=
      utf8EncodeChar_of_hexDigit? (Option.isSome_of_eq_some upper)
    obtain ⟨second, secondEncoded, secondRead⟩ :=
      utf8EncodeChar_of_hexDigit? (Option.isSome_of_eq_some lower)
    have highRead : hexDigitAt first position = .ok (byte.toNat / 16) := by
      rw [hexDigitAt_eq_ok_iff, firstRead, upper]
    have lowRead : hexDigitAt second (position + 1) = .ok (byte.toNat % 16) := by
      rw [hexDigitAt_eq_ok_iff, secondRead, lower]
    rw [List.flatMap_cons, List.flatMap_cons, firstEncoded, secondEncoded]
    simp only [List.cons_append, List.nil_append, bytesOfPairs, highRead, lowRead, ih, ok_bind,
      Nat.div_add_mod', UInt8.ofNat_toNat]
    rfl

/-- Bytes that are read in pairs are digits. -/
theorem isSome_of_bytesOfPairs {position : Nat} {encoded bytes : List UInt8}
    (read : bytesOfPairs position encoded = .ok bytes) :
    ∀ byte ∈ encoded, (hexDigit? (Char.ofNat byte.toNat)).isSome := by
  fun_induction bytesOfPairs position encoded generalizing bytes with
  | case1 => exact nofun
  | case2 => cases read
  | case3 position high low rest ih =>
    obtain ⟨upper, highRead, read⟩ := bind_eq_ok_iff.mp read
    obtain ⟨lower, lowRead, read⟩ := bind_eq_ok_iff.mp read
    obtain ⟨others, later, _⟩ := bind_eq_ok_iff.mp read
    rw [List.forall_mem_cons, List.forall_mem_cons]
    exact ⟨Option.isSome_of_eq_some (hexDigitAt_eq_ok_iff.mp highRead),
      Option.isSome_of_eq_some (hexDigitAt_eq_ok_iff.mp lowRead), ih later⟩

theorem length_flatMap_utf8EncodeChar {digits : List Char}
    (hexadecimal : ∀ c ∈ digits, (hexDigit? c).isSome) :
    (digits.flatMap String.utf8EncodeChar).length = digits.length := by
  induction digits with
  | nil => rfl
  | cons c rest ih =>
    obtain ⟨here, later⟩ := List.forall_mem_cons.mp hexadecimal
    obtain ⟨byte, encoded, _⟩ := utf8EncodeChar_of_hexDigit? here
    rw [List.flatMap_cons, encoded, List.length_append, ih later, List.length_singleton,
      List.length_cons, Nat.add_comm]

theorem utf8ByteSize_ofList (text : List Char) :
    (String.ofList text).utf8ByteSize = (text.flatMap String.utf8EncodeChar).length := by
  rw [← String.size_toByteArray, String.toByteArray_ofList, List.utf8Encode,
    List.size_toByteArray]

/-- A text spells bytes when it has an even number of bytes and no character but digits. -/
theorem exists_hexDigits_iff {digits : List Char} :
    (∃ bytes, HexDigits bytes digits) ↔
      (String.ofList digits).utf8ByteSize % 2 = 0 ∧ ∀ c ∈ digits, (hexDigit? c).isSome := by
  rw [utf8ByteSize_ofList]
  constructor
  · rintro ⟨bytes, spelled⟩
    rw [length_flatMap_utf8EncodeChar spelled.isSome_hexDigit?, spelled.length_eq]
    exact ⟨Nat.mul_mod_right 2 _, spelled.isSome_hexDigit?⟩
  · rintro ⟨even, hexadecimal⟩
    rw [length_flatMap_utf8EncodeChar hexadecimal] at even
    exact exists_hexDigits even hexadecimal

/-- A text is read as the bytes that it spells, and no other text is read. -/
theorem bytesOfHex_eq_ok_iff {bytes : List UInt8} {digits : List Char} :
    bytesOfHex digits = .ok bytes ↔ HexDigits bytes digits := by
  have accepted {bytes : List UInt8} (spelled : HexDigits bytes digits) :
      bytesOfHex digits = .ok bytes := by
    have even := (exists_hexDigits_iff.mp ⟨bytes, spelled⟩).1
    rw [utf8ByteSize_ofList] at even
    rw [bytesOfHex, toList_toUTF8]
    exact (if_neg (by omega)).trans (bytesOfPairs_of_hexDigits spelled 0)
  refine ⟨fun read => ?_, accepted⟩
  have pairs := read
  rw [bytesOfHex, toList_toUTF8] at pairs
  split at pairs
  · cases pairs
  · rename_i even
    rw [← utf8ByteSize_ofList] at even
    have hexadecimal : ∀ c ∈ digits, (hexDigit? c).isSome := by
      intro c member
      by_contra other
      obtain ⟨byte, inside, none⟩ :=
        exists_mem_utf8EncodeChar (Option.not_isSome_iff_eq_none.mp other)
      have digit := isSome_of_bytesOfPairs pairs byte (List.mem_flatMap.mpr ⟨c, member, inside⟩)
      rw [none] at digit
      cases digit
    obtain ⟨spelledBytes, spelled⟩ := exists_hexDigits_iff.mpr ⟨by omega, hexadecimal⟩
    obtain rfl := Except.ok.inj (read.symm.trans (accepted spelled))
    exact spelled

theorem isBlank_of_hexDigit? {c : Char} (digit : (hexDigit? c).isSome) : isBlank c = false :=
  isBlank_of_isWordChar (isWordChar_of_isIdentifierChar (isIdentifierChar_of_hexDigit? digit))

/-- Neither marks nor digits are white space. -/
theorem isBlank_of_mem_marked {mark digits : List Char} (marked : mark ∈ hexMarks)
    (hexadecimal : ∀ c ∈ digits, (hexDigit? c).isSome) :
    ∀ c ∈ mark ++ digits, isBlank c = false := by
  have visible : ∀ mark ∈ hexMarks, ∀ c ∈ mark, isBlank c = false := by
    simp only [hexMarks, List.forall_mem_cons, List.not_mem_nil, false_imp_iff, implies_true,
      and_true]
    decide
  rw [List.forall_mem_append]
  exact ⟨visible mark marked, fun c member => isBlank_of_hexDigit? (hexadecimal c member)⟩

private theorem dropWhile_before {before core after : List Char}
    (blankBefore : ∀ c ∈ before, isBlank c = true) (visible : ∀ c ∈ core, isBlank c = false)
    (present : core ≠ []) : (before ++ (core ++ after)).dropWhile isBlank = core ++ after := by
  obtain ⟨c, rest, rfl⟩ := List.exists_cons_of_ne_nil present
  have other : ¬ isBlank c = true := by rw [visible c List.mem_cons_self]; decide
  rw [List.dropWhile_append_of_pos blankBefore, List.cons_append, List.dropWhile_cons_of_neg other]

/-- White space is trimmed from around a text without any. -/
theorem trim_surrounded {before core after : List Char}
    (blankBefore : ∀ c ∈ before, isBlank c = true) (visible : ∀ c ∈ core, isBlank c = false)
    (blankAfter : ∀ c ∈ after, isBlank c = true) : trim (before ++ core ++ after) = core := by
  by_cases present : core = []
  · have blank : ∀ c ∈ before ++ after, isBlank c = true :=
      List.forall_mem_append.mpr ⟨blankBefore, blankAfter⟩
    rw [present, List.append_nil, trim, List.dropWhile_eq_nil_iff.mpr blank]
    rfl
  · have backwards := @dropWhile_before after.reverse core.reverse [] (by simpa using blankAfter)
      (by simpa using visible) (by simpa using present)
    rw [List.append_nil] at backwards
    rw [trim, List.append_assoc, dropWhile_before blankBefore visible present, List.reverse_append,
      backwards, List.reverse_reverse]

theorem exists_trim (text : List Char) :
    ∃ before after, (∀ c ∈ before, isBlank c = true) ∧ (∀ c ∈ after, isBlank c = true) ∧
      text = before ++ trim text ++ after := by
  have blank (part : List Char) : ∀ c ∈ part.takeWhile isBlank, isBlank c = true :=
    fun _ member => List.mem_takeWhile_imp member
  refine ⟨text.takeWhile isBlank,
    (((text.dropWhile isBlank).reverse).takeWhile isBlank).reverse, blank text, ?_, ?_⟩
  · simpa using blank (text.dropWhile isBlank).reverse
  · rw [trim, List.append_assoc, ← List.reverse_append, List.takeWhile_append_dropWhile,
      List.reverse_reverse, List.takeWhile_append_dropWhile]

theorem exists_mark (text : List Char) : ∃ mark ∈ hexMarks, text = mark ++ dropHexMark text := by
  rw [dropHexMark]
  cases read : hexMark? text with
  | none => exact ⟨[], by decide, rfl⟩
  | some digits =>
    obtain ⟨x, rfl | rfl, rfl⟩ := hexMark?_eq_some_iff.mp read
    · exact ⟨['0', 'x'], by decide, rfl⟩
    · exact ⟨['0', 'X'], by decide, rfl⟩

/-- A text stands for bytes when what is left of it without white space and mark spells them. -/
theorem hexText_iff {bytes : List UInt8} {text : String} :
    HexText bytes text ↔ HexDigits bytes (dropHexMark (trim text.toList)) := by
  constructor
  · rintro ⟨blankBefore, marked, spelled, blankAfter⟩
    have visible := isBlank_of_mem_marked marked spelled.isSome_hexDigit?
    rw [String.toList_ofList, trim_surrounded blankBefore visible blankAfter,
      dropHexMark_append marked spelled.isSome_hexDigit?]
    exact spelled
  · intro spelled
    obtain ⟨before, after, blankBefore, blankAfter, around⟩ := exists_trim text.toList
    obtain ⟨mark, marked, behind⟩ := exists_mark (trim text.toList)
    rw [← String.ofList_toList (s := text), around, behind]
    exact .intro blankBefore marked spelled blankAfter

end Text

namespace Layout

theorem unpackHex_of_hexText (layout : Layout) {bytes : List UInt8} {text : String}
    (written : Text.HexText bytes text) : layout.unpackHex text = layout.unpack bytes := by
  rw [unpackHex, Text.bytesOfHex_eq_ok_iff.mpr (Text.hexText_iff.mp written)]

/-- Bytes are never refused as bad text. -/
theorem unpack_ne_badHex (layout : Layout) (bytes : List UInt8) (fault : Text.HexFault) :
    layout.unpack bytes ≠ .error (.badHex fault) := by
  intro failed
  rw [unpack, imageOf, bind_pure_eq_error_iff] at failed
  split at failed <;> cases failed

theorem unpackHex_eq_badHex_iff (layout : Layout) (text : String) :
    (∃ fault, layout.unpackHex text = .error (.badHex fault)) ↔
      ¬ ∃ bytes, Text.HexText bytes text := by
  constructor
  · rintro ⟨fault, failed⟩ ⟨bytes, written⟩
    rw [layout.unpackHex_of_hexText written] at failed
    exact layout.unpack_ne_badHex bytes fault failed
  · intro unwritten
    cases read : Text.bytesOfHex (Text.dropHexMark (Text.trim text.toList)) with
    | error fault => exact ⟨fault, by rw [unpackHex, read]⟩
    | ok bytes =>
      exact absurd ⟨bytes, Text.hexText_iff.mpr (Text.bytesOfHex_eq_ok_iff.mp read)⟩ unwritten

theorem packHex_eq_error_iff (layout : Layout) (tree : Tree) (cause : PackingError) :
    layout.packHex tree = .error cause ↔ layout.pack tree = .error cause :=
  bind_pure_eq_error_iff

theorem packHex_of_pack {layout : Layout} {tree : Tree} {bytes : List UInt8}
    (packed : layout.pack tree = .ok bytes) :
    ∃ text, layout.packHex tree = .ok text ∧ Text.HexText bytes text := by
  refine ⟨String.ofList (Text.hexOfBytes bytes), ?_, ?_⟩
  · rw [packHex, packed]
    rfl
  · have plain := @Text.HexText.intro bytes [] [] _ [] nofun (by decide)
      (Text.hexDigits_hexOfBytes bytes) nofun
    rwa [List.append_nil] at plain

/-- Hexadecimal text does for a layout what the bytes that it stands for do, and a text that stands
for none is refused as such. What is packed as text is the text of the bytes that are packed. -/
theorem hexText_agrees (layout : Layout) :
    (∀ bytes text, Text.HexText bytes text → layout.unpackHex text = layout.unpack bytes) ∧
    (∀ text,
      ((∃ fault, layout.unpackHex text = .error (.badHex fault)) ↔
        ¬ ∃ bytes, Text.HexText bytes text) ∧
      ((∃ fault, layout.unpackHex text = .error (.badHex fault)) ↔
        (String.ofList (Text.dropHexMark (Text.trim text.toList))).utf8ByteSize % 2 = 1 ∨
          ∃ c ∈ Text.dropHexMark (Text.trim text.toList), Text.hexDigit? c = none)) ∧
    ∀ tree,
      (∀ cause, layout.packHex tree = .error cause ↔ layout.pack tree = .error cause) ∧
      ∀ bytes, layout.pack tree = .ok bytes →
        ∃ text, layout.packHex tree = .ok text ∧ layout.unpackHex text = layout.unpack bytes := by
  refine ⟨fun _ _ => layout.unpackHex_of_hexText, fun text => ?_, fun tree => ?_⟩
  · refine ⟨layout.unpackHex_eq_badHex_iff text, ?_⟩
    rw [unpackHex_eq_badHex_iff]
    simp only [Text.hexText_iff, Text.exists_hexDigits_iff, not_and_or, not_forall,
      Option.not_isSome_iff_eq_none, exists_prop, Nat.mod_two_ne_zero]
  · refine ⟨layout.packHex_eq_error_iff tree, fun bytes packed => ?_⟩
    obtain ⟨text, written, hexText⟩ := packHex_of_pack packed
    exact ⟨text, written, layout.unpackHex_of_hexText hexText⟩

/-- Digits of both cases behind a mark, between white space: enough for `point`, too short for
`frame`. -/
theorem hexText_agrees_spaced :
    Text.HexText [0x5b, 0xaf] "\n0X5bAf\u2003 " ∧
      Sample.point.unpackHex "\n0X5bAf\u2003 " = .ok [("x", .unsigned 3), ("y", .unsigned 22)] ∧
      Sample.frame.unpackHex "\n0X5bAf\u2003 " = .error (.shortBuffer 8 2) := by
  have spelled : Text.HexDigits [0x5b, 0xaf] ['5', 'b', 'A', 'f'] :=
    .cons rfl rfl (.cons rfl rfl .nil)
  have written : Text.HexText [0x5b, 0xaf] "\n0X5bAf\u2003 " :=
    @Text.HexText.intro _ ['\n'] ['0', 'X'] _ ['\u2003', ' ']
      (List.forall_mem_singleton.mpr rfl) (by decide) spelled
      (List.forall_mem_cons.mpr ⟨rfl, List.forall_mem_singleton.mpr rfl⟩)
  exact ⟨written, (hexText_agrees Sample.point).1 _ _ written,
    (hexText_agrees Sample.frame).1 _ _ written⟩

end Layout

end PackedStruct
