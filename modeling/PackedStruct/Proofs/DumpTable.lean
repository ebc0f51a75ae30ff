import Mathlib.Tactic.IntervalCases
import PackedStruct.Dump
import PackedStruct.Proofs.LeafPaths
import PackedStruct.Proofs.MaskText
import PackedStruct.Proofs.TreeIntegers

namespace PackedStruct

namespace Text

/-- The lowest digits of a number in base sixteen with capital letters, highest digit first. -/
def upperDigits (count n : Nat) : List Char :=
  (List.range count).reverse.map fun i => (Nat.digitChar (n / 16 ^ i % 16)).toUpper

theorem upperDigits_add_two (count n : Nat) (byte : UInt8) :
    upperDigits (count + 2) (byte.toNat + 256 * n) =
      upperDigits count n ++ (hexPair byte).map Char.toUpper := by
  have small : byte.toNat < 256 := byte.toNat_lt
  have later (i : Nat) : (byte.toNat + 256 * n) / 16 ^ (2 + i) % 16 = n / 16 ^ i % 16 := by
    rw [Nat.pow_add, ← Nat.div_div_eq_div_mul]
    congr 2
    omega
  have high : (byte.toNat + 256 * n) / 16 % 16 = byte.toNat / 16 := by omega
  have low : (byte.toNat + 256 * n) % 16 = byte.toNat % 16 := by omega
  rw [upperDigits, Nat.add_comm count 2, List.range_add, List.reverse_append, List.map_append,
    ← List.map_reverse, List.map_map]
  simp [upperDigits, hexPair, Function.comp_def, later, high, low, List.range_succ]

/-- Two digits a byte, highest byte first, are the digits of the number that the bytes denote. -/
theorem upperHexOfBytes_reverse (bytes : List UInt8) :
    upperHexOfBytes bytes.reverse = upperDigits (2 * bytes.length) (byteNumber bytes) := by
  induction bytes with
  | nil => rfl
  | cons byte rest ih =>
    have front : upperHexOfBytes (byte :: rest).reverse =
        upperHexOfBytes rest.reverse ++ (hexPair byte).map Char.toUpper := by
      simp [upperHexOfBytes, hexOfBytes]
    rw [front, ih, byteNumber_cons, List.length_cons, Nat.mul_succ, upperDigits_add_two]

theorem hexDigit?_toUpper {c : Char} {value : Nat} (digit : hexDigit? c = some value) :
    hexDigit? c.toUpper = some value := by
  have each : ("0123456789abcdefABCDEF".toList.all fun d =>
      hexDigit? d.toUpper == hexDigit? d) = true := by decide
  exact (beq_iff_eq.mp (List.all_eq_true.mp each c (mem_of_hexDigit? digit))).trans digit

/-- Capital digits denote the same number. -/
theorem numeral?_upperHex (n : Nat) : numeral? 16 (upperHex n) = some n := by
  have read := numeral?_toDigits (by decide) (by decide : 16 ≤ 16) n
  have digits := ((exists_numeral?_iff _).mp ⟨n, read⟩).2
  rw [numeral?_eq_some_iff] at read ⊢
  obtain ⟨nonempty, value⟩ := read
  refine ⟨by simp [upperHex], (foldlM_congr ?_ 0).trans value⟩
  rw [upperHex, List.map_map]
  apply List.map_congr_left
  intro c member
  obtain ⟨digit, known⟩ := Option.isSome_iff_exists.mp (digits c member)
  exact (hexDigit?_toUpper known).trans known.symm

end Text

/-- How a label is shown behind a value. -/
def symbolText : Option String → String
  | none => ""
  | some symbol => " (" ++ symbol ++ ")"

/-- The line for an integer of the tree: the text of its path, its word in hexadecimal and in
decimal, the mask and the first bit of the element that stands at the path, and the label of the
word for the field that the element belongs to. -/
inductive Layout.Row (layout : Layout) (labels : Labels) (labelWidth maskWidth : Nat) :
    Path × UInt64 → String → Prop where
  | intro {path : Path} {word : UInt64} {part : Part} {hexadecimal decimal : String}
      (found : layout.part? path = some part) (integer : part.isInteger)
      (hexValue : Text.numeral? 16 hexadecimal.toList = some word.toNat)
      (decimalValue : Text.numeral? 10 decimal.toList = some word.toNat) :
      layout.Row labels labelWidth maskWidth (path, word)
        (padRight labelWidth path.text ++ "  " ++ padRight 18 ("0x" ++ hexadecimal) ++ "  mask " ++
          padRight maskWidth part.range.maskText ++ "  >> " ++ padRight 4 (toString part.start) ++
          " = " ++ decimal ++ symbolText (labels.label? part.struct part.field word))

theorem DumpLine.text_eq (labelWidth maskWidth : Nat) (line : DumpLine) :
    line.text labelWidth maskWidth =
      padRight labelWidth line.label ++ "  " ++
        padRight 18 ("0x" ++ String.ofList (Text.upperHex line.value.toNat)) ++ "  mask " ++
        padRight maskWidth line.mask ++ "  >> " ++ padRight 4 (toString line.shift) ++ " = " ++
        toString line.value.toNat ++ symbolText line.symbol := by
  rw [text]
  cases line.symbol with
  | none => exact (String.append_empty).symm
  | some symbol => simp [symbolText, String.append_assoc]

theorem Layout.WellFormed.row_dumpLine {layout : Layout} (wellFormed : layout.WellFormed)
    (labels : Labels) (labelWidth maskWidth : Nat) (image : Image) {leaf : Leaf}
    (member : leaf ∈ layout.leaves) :
    layout.Row labels labelWidth maskWidth (leaf.integer image)
      ((leaf.dumpLine image labels).text labelWidth maskWidth) := by
  obtain ⟨part, found, integer, struct, field, range⟩ := wellFormed.part?_leaf rfl member
  have start : part.start = leaf.range.offset := congrArg BitRange.offset range
  have hexValue := Text.numeral?_upperHex (image.read leaf.range).toNat
  have decimalValue := Text.numeral?_toString (image.read leaf.range).toNat
  rw [← String.toList_ofList (l := Text.upperHex _)] at hexValue
  have row : layout.Row labels labelWidth maskWidth (leaf.integer image) _ :=
    .intro found integer hexValue decimalValue
  rw [struct, field, range, start] at row
  rw [DumpLine.text_eq]
  exact row

namespace Text

def OneLine (text : String) : Prop :=
  '\n' ∉ text.toList

@[simp] theorem oneLine_append_iff (first second : String) :
    OneLine (first ++ second) ↔ OneLine first ∧ OneLine second := by
  simp [OneLine]

@[simp] theorem oneLine_padRight_iff (width : Nat) (text : String) :
    OneLine (padRight width text) ↔ OneLine text := by
  simp [padRight, OneLine]

theorem newline_notMem_of_isIdentifierChar {word : List Char}
    (inside : ∀ c ∈ word, isIdentifierChar c = true) : '\n' ∉ word := by
  intro member
  have wrong := inside _ member
  revert wrong
  decide

theorem newline_notMem_of_numeral? {digits : List Char} {n : Nat}
    (read : numeral? 16 digits = some n) : '\n' ∉ digits := by
  intro member
  have wrong := ((exists_numeral?_iff _).mp ⟨n, read⟩).2 _ member
  revert wrong
  decide

theorem oneLine_repr (n : Nat) : OneLine n.repr := by
  change '\n' ∉ (toString n).toList
  rw [toList_toString]
  exact newline_notMem_of_isIdentifierChar isIdentifierChar_of_mem_toDigits

end Text

theorem Step.Plain.newline_notMem_piece {step : Step} (plain : step.Plain) :
    '\n' ∉ step.piece := by
  cases step with
  | field name =>
    have inside := Text.newline_notMem_of_isIdentifierChar (Text.isIdentifierChar_of_mem plain)
    simpa [piece] using inside
  | index i =>
    have inside := Text.newline_notMem_of_isIdentifierChar
      (Text.isIdentifierChar_of_mem_toDigits (n := i))
    simpa [piece] using inside

theorem Path.Plain.oneLine_text {path : Path} (plain : path.Plain) : Text.OneLine path.text := by
  have pieces : '\n' ∉ path.flatMap Step.piece := by
    rw [List.mem_flatMap]
    rintro ⟨step, member, inside⟩
    exact (plain.2 step member).newline_notMem_piece inside
  rw [← plain.cons_toList_text] at pieces
  exact fun inside => pieces (List.mem_cons_of_mem _ inside)

theorem BitRange.oneLine_maskText (range : BitRange) : Text.OneLine range.maskText := by
  have digits := Text.newline_notMem_of_numeral? range.numeral?_maskDigits
  simpa [Text.OneLine, maskText] using digits

theorem DumpLine.oneLine_text {line : DumpLine} (label : Text.OneLine line.label)
    (mask : Text.OneLine line.mask)
    (symbol : ∀ text, line.symbol = some text → Text.OneLine text) (labelWidth maskWidth : Nat) :
    Text.OneLine (line.text labelWidth maskWidth) := by
  have marks : Text.OneLine "  " ∧ Text.OneLine "0x" ∧ Text.OneLine "  mask " ∧
      Text.OneLine "  >> " ∧ Text.OneLine " = " ∧ Text.OneLine " (" ∧ Text.OneLine ")" := by
    simp [Text.OneLine]
  have hexadecimal : Text.OneLine (String.ofList (Text.upperHex line.value.toNat)) := by
    rw [Text.OneLine, String.toList_ofList]
    exact Text.newline_notMem_of_numeral? (Text.numeral?_upperHex _)
  have shown : Text.OneLine (symbolText line.symbol) := by
    cases known : line.symbol with
    | none => simp [symbolText, Text.OneLine]
    | some text => simp [symbolText, marks, symbol text known]
  rw [text_eq]
  simp [marks, label, mask, hexadecimal, shown, Text.oneLine_repr]

theorem Image.packedText_ofBytes (order : ByteOrder) (bytes : List UInt8) :
    (Image.ofBytes order bytes).packedText =
      "0x" ++ String.ofList (Text.upperDigits (2 * bytes.length) (order.number bytes)) := by
  have size : (Image.ofBytes order bytes).bytes.toList.length = bytes.length :=
    Image.size_ofBytes order bytes
  have digits := Text.upperHexOfBytes_reverse (Image.ofBytes order bytes).bytes.toList
  rw [size] at digits
  rw [packedText, digits, ← Image.number_ofBytes, Image.number]

namespace Layout

variable {layout : Layout} {bytes : List UInt8}

theorem imageOf_eq_error_iff {cause : PackingError} :
    layout.imageOf bytes = .error cause ↔
      bytes.length < layout.byteSize ∧ cause = .shortBuffer layout.byteSize bytes.length := by
  unfold imageOf
  split
  · rename_i short
    rw [Except.error.injEq, eq_comm, and_iff_right short]
  · rename_i enough
    exact ⟨nofun, fun both => absurd both.1 enough⟩

theorem imageOf_eq_ok_iff {image : Image} :
    layout.imageOf bytes = .ok image ↔
      layout.byteSize ≤ bytes.length ∧
        image = .ofBytes layout.order (bytes.take layout.byteSize) := by
  unfold imageOf
  split
  · rename_i short
    exact ⟨nofun, fun both => absurd short (Nat.not_lt.mpr both.1)⟩
  · rename_i enough
    rw [Except.ok.injEq, eq_comm, and_iff_right (Nat.not_lt.mp enough)]

/-- The first line: the packed integer in two hexadecimal digits a byte. -/
def headLine (labelWidth size number : Nat) : String :=
  padRight labelWidth "packed" ++ "  " ++
    ("0x" ++ String.ofList (Text.upperDigits (2 * size) number))

/-- The text is the table of a packed integer and of the integers in a tree. It has one line for
each of them, and these are the lines of the text if no label has a line break in it. -/
structure Tabulates (layout : Layout) (labels : Labels) (number : Nat) (tree : Tree)
    (text : String) : Prop where
  lines : ∃ labelWidth maskWidth rows,
    text = "\n".intercalate (headLine labelWidth layout.byteSize number :: rows) ∧
    List.Forall₂ (layout.Row labels labelWidth maskWidth) (layout.integers tree) rows ∧
    ((∀ struct field value symbol, labels.label? struct field value = some symbol →
        Text.OneLine symbol) →
      text.toList.splitOn '\n' =
        (headLine labelWidth layout.byteSize number :: rows).map String.toList)
  distinct : ((layout.integers tree).map fun integer => integer.1.text).Nodup

theorem oneLine_headLine (labelWidth size number : Nat) :
    Text.OneLine (headLine labelWidth size number) := by
  have digits : Text.OneLine (String.ofList (Text.upperDigits (2 * size) number)) := by
    rw [Text.OneLine, String.toList_ofList]
    intro member
    obtain ⟨i, _, same⟩ := List.mem_map.mp member
    have apart : ∀ digit < 16, (Nat.digitChar digit).toUpper ≠ '\n' := by decide
    exact apart _ (Nat.mod_lt _ (by decide)) same
  have marks : Text.OneLine "packed" ∧ Text.OneLine "  " ∧ Text.OneLine "0x" := by
    simp [Text.OneLine]
  simp [headLine, marks, digits]

/-- The lines of a text that is made of lines are these. -/
theorem splitOn_lines {lines : List String} (nonempty : lines ≠ [])
    (each : ∀ line ∈ lines, Text.OneLine line) :
    ("\n".intercalate lines).toList.splitOn '\n' = lines.map String.toList :=
  Text.splitOn_intercalate '\n' nonempty each

theorem WellFormed.oneLine_dumpLine {layout : Layout} (wellFormed : layout.WellFormed)
    (identified : layout.Everywhere Identified) {labels : Labels}
    (each : ∀ struct field value symbol, labels.label? struct field value = some symbol →
      Text.OneLine symbol) (image : Image) (labelWidth maskWidth : Nat) {leaf : Leaf}
    (member : leaf ∈ layout.leaves) :
    Text.OneLine ((leaf.dumpLine image labels).text labelWidth maskWidth) := by
  apply DumpLine.oneLine_text
  · exact (wellFormed.path_plain identified member).oneLine_text
  · exact leaf.range.oneLine_maskText
  · exact fun symbol shown => each _ _ _ symbol shown

/-- No two leaves have the same text for a path. -/
theorem WellFormed.nodup_texts {layout : Layout} (wellFormed : layout.WellFormed)
    (identified : layout.Everywhere Identified) :
    (layout.leaves.map fun leaf => leaf.path.text).Nodup := by
  have paths : (layout.leaves.map Leaf.path).Nodup := wellFormed.nodup_paths 0 []
  have texts : ((layout.leaves.map Leaf.path).map Path.text).Nodup := by
    apply paths.map_on
    intro path member other otherMember same
    obtain ⟨leaf, leafMember, rfl⟩ := List.mem_map.mp member
    obtain ⟨twin, twinMember, rfl⟩ := List.mem_map.mp otherMember
    exact Path.text_inj (wellFormed.path_plain identified leafMember)
      (wellFormed.path_plain identified twinMember) same
  rw [List.map_map] at texts
  exact texts

theorem exists_table_eq (layout : Layout) (image : Image) (labels : Labels) {number : Nat}
    (packed : image.packedText =
      "0x" ++ String.ofList (Text.upperDigits (2 * layout.byteSize) number)) :
    ∃ labelWidth maskWidth, layout.table image labels =
      "\n".intercalate (headLine labelWidth layout.byteSize number :: layout.leaves.map fun leaf =>
        (leaf.dumpLine image labels).text labelWidth maskWidth) := by
  have rows (labelWidth maskWidth : Nat) :
      (layout.dumpLines image labels).map (DumpLine.text labelWidth maskWidth) =
        layout.leaves.map fun leaf => (leaf.dumpLine image labels).text labelWidth maskWidth :=
    List.map_map
  rw [table, packed]
  exact ⟨_, _, congrArg (fun rows => "\n".intercalate (_ :: rows)) (rows _ _)⟩

/-- What the table of an image tabulates is what is read from the image. -/
theorem WellFormed.tabulates_table {layout : Layout} (wellFormed : layout.WellFormed)
    (identified : layout.Everywhere Identified) (labels : Labels) (image : Image) {number : Nat}
    (packed : image.packedText =
      "0x" ++ String.ofList (Text.upperDigits (2 * layout.byteSize) number)) :
    layout.Tabulates labels number (layout.readAt image 0) (layout.table image labels) := by
  have integers : layout.integers (layout.readAt image 0) =
      layout.leaves.map (Leaf.integer image) := wellFormed.integersIn_readAt image 0 []
  obtain ⟨labelWidth, maskWidth, table⟩ := layout.exists_table_eq image labels packed
  refine ⟨⟨labelWidth, maskWidth, _, table, ?_, fun each => ?_⟩, ?_⟩
  · rw [integers, List.forall₂_map_left_iff, List.forall₂_map_right_iff, List.forall₂_same]
    exact fun leaf member => wellFormed.row_dumpLine labels labelWidth maskWidth image member
  · rw [table]
    apply splitOn_lines (List.cons_ne_nil _ _)
    refine List.forall_mem_cons.mpr ⟨oneLine_headLine _ _ _, List.forall_mem_map.mpr ?_⟩
    exact fun leaf member =>
      wellFormed.oneLine_dumpLine identified each image labelWidth maskWidth member
  · rw [integers, List.map_map]
    exact wellFormed.nodup_texts identified

end Layout

namespace Sample

theorem frame_identified : frame.Everywhere Layout.Identified :=
  frame_everywhere (by decide) (by decide)

/-- The integers are 7, 0, 0, 3, 0, 0 and 0. -/
theorem unpack_frame : frame.unpack [0, 6, 0, 0, 0, 0, 0, 7] =
    .ok [("kind", .unsigned 7), ("levels", .array [.unsigned 0, .unsigned 0]),
      ("path", .array [.tree [("x", .unsigned 3), ("y", .unsigned 0)],
        .tree [("x", .unsigned 0), ("y", .unsigned 0)]])] :=
  rfl

end Sample

end PackedStruct
