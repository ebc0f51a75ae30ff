import PackedStruct.Proofs.JsonScan

namespace PackedStruct.Json

/-- The value has no numbers but integers of 64 bits, at every depth. -/
inductive Readable : Json → Prop where
  | null : Readable .null
  | bool (value : Bool) : Readable (.bool value)
  | int {n : Int} (word : IsWord n) : Readable (.int n)
  | str (text : String) : Readable (.str text)
  | arr {items : List Json} (each : ∀ item ∈ items, item.Readable) : Readable (.arr items)
  | obj {members : List (String × Json)} (each : ∀ member ∈ members, member.2.Readable) :
    Readable (.obj members)

mutual

def written : Json → List Token
  | .arr items => .openArray :: writtenItems items ++ [.closeArray]
  | .obj members => .openObject :: writtenMembers members ++ [.closeObject]
  | .str text => [.str (some text)]
  | value => [.scalar value]

def writtenItems : List Json → List Token
  | [] => []
  | [item] => item.written
  | item :: rest => item.written ++ .comma :: writtenItems rest

def writtenMembers : List (String × Json) → List Token
  | [] => []
  | [(key, value)] => .str (some key) :: .colon :: value.written
  | (key, value) :: rest =>
    .str (some key) :: .colon :: (value.written ++ .comma :: writtenMembers rest)

end

/-- The reader takes the tokens of the value for the value. -/
def Reads (json : Json) : Prop :=
  ∀ frames, json.written.foldlM Reading.step (.open frames .value) = Reading.place json frames

/-- No value starts with a closing bracket. -/
theorem foldlM_written_valueOrClose (json : Json) (frames : List Frame) (rest : List Token) :
    (json.written ++ rest).foldlM Reading.step (.open frames .valueOrClose) =
      (json.written ++ rest).foldlM Reading.step (.open frames .value) := by
  cases json <;> simp [written] <;> rfl

theorem foldlM_writtenItems {items : List Json} (each : ∀ item ∈ items, item.Reads)
    (present : items ≠ []) (before : List Json) (frames : List Frame) :
    (writtenItems items).foldlM Reading.step (.open (.array before :: frames) .value) =
      some (.open (.array (items.reverse ++ before) :: frames) .commaOrClose) := by
  induction items generalizing before with
  | nil => exact absurd rfl present
  | cons item rest ih =>
    have first := each item List.mem_cons_self
    cases rest with
    | nil => exact first _
    | cons next rest =>
      have later := ih (fun item member => each item (List.mem_cons_of_mem _ member))
        (List.cons_ne_nil _ _) (item :: before)
      rw [writtenItems, List.foldlM_append, first, Reading.place, Option.bind_eq_bind,
        Option.bind_some, List.foldlM_cons]
      · simp only [Reading.step, Reading.advance, Option.bind_eq_bind, Option.bind_some, later,
          List.reverse_cons, List.append_assoc, List.cons_append, List.nil_append]
      · exact List.cons_ne_nil _ _

theorem foldlM_writtenMembers {members : List (String × Json)}
    (each : ∀ member ∈ members, member.2.Reads) (present : members ≠ [])
    (before : List (Option String × Json)) (frames : List Frame) :
    (writtenMembers members).foldlM Reading.step (.open (.object before :: frames) .key) =
      some (.open (.object ((members.map fun member => (some member.1, member.2)).reverse ++
        before) :: frames) .commaOrClose) := by
  induction members generalizing before with
  | nil => exact absurd rfl present
  | cons member rest ih =>
    obtain ⟨key, value⟩ := member
    have first := each _ List.mem_cons_self
    cases rest with
    | nil => exact first _
    | cons next rest =>
      have later := ih (fun member inside => each member (List.mem_cons_of_mem _ inside))
        (List.cons_ne_nil _ _) ((some key, value) :: before)
      rw [writtenMembers, List.foldlM_cons]
      · simp only [Reading.step, Reading.takeKey, Option.bind_eq_bind, Option.bind_some,
          List.foldlM_append, first _, Reading.place, List.foldlM_cons, Reading.advance, later,
          List.map_cons, List.reverse_cons, List.append_assoc, List.cons_append, List.nil_append]
      · exact List.cons_ne_nil _ _

theorem objectOf_reverse (members : List (String × Json)) :
    objectOf (members.map fun member => (some member.1, member.2)).reverse = .obj members := by
  have keys : (members.map fun member => (some member.1, member.2)).mapM
      (fun member => member.1.map (·, member.2)) = some members := by
    induction members with
    | nil => rfl
    | cons member rest ih =>
      rw [List.map_cons, List.mapM_cons, ih]
      rfl
  rw [objectOf, List.reverse_reverse]
  split
  · rename_i found
    rw [Option.some.inj (found.symm.trans keys)]
  · rename_i failed
    cases failed.symm.trans keys

theorem reads_arr {items : List Json} (each : ∀ item ∈ items, item.Reads) :
    (Json.arr items).Reads := by
  intro frames
  cases items with
  | nil => exact Option.bind_fun_some _
  | cons item rest =>
    have inside := foldlM_writtenItems each (List.cons_ne_nil _ _) [] frames
    have start : (writtenItems (item :: rest)).foldlM Reading.step
        (.open (.array [] :: frames) .valueOrClose) =
          (writtenItems (item :: rest)).foldlM Reading.step
            (.open (.array [] :: frames) .value) := by
      cases rest with
      | nil =>
        have single := foldlM_written_valueOrClose item (.array [] :: frames) []
        rwa [List.append_nil] at single
      | cons next rest => exact foldlM_written_valueOrClose item (.array [] :: frames) _
    rw [written, List.foldlM_append, List.foldlM_cons]
    simp only [Reading.step, Reading.start, Option.bind_eq_bind, Option.bind_some, start, inside,
      List.foldlM_cons, List.foldlM_nil, Reading.close, List.reverse_append, List.reverse_nil,
      List.reverse_reverse, List.nil_append, Option.bind_fun_some, Option.pure_def]

theorem reads_obj {members : List (String × Json)} (each : ∀ member ∈ members, member.2.Reads) :
    (Json.obj members).Reads := by
  intro frames
  cases members with
  | nil => exact Option.bind_fun_some _
  | cons member rest =>
    have inside := foldlM_writtenMembers each (List.cons_ne_nil _ _) [] frames
    have start : (writtenMembers (member :: rest)).foldlM Reading.step
        (.open (.object [] :: frames) .keyOrClose) =
          (writtenMembers (member :: rest)).foldlM Reading.step
            (.open (.object [] :: frames) .key) := by
      cases rest <;> rfl
    rw [List.append_nil] at inside
    rw [written, List.foldlM_append, List.foldlM_cons]
    simp only [Reading.step, Reading.start, Option.bind_eq_bind, Option.bind_some, start, inside,
      List.foldlM_cons, List.foldlM_nil, Reading.close, objectOf_reverse, Option.bind_fun_some,
      Option.pure_def]

theorem Readable.reads {json : Json} (readable : json.Readable) : json.Reads := by
  induction readable with
  | null => exact fun _ => Option.bind_fun_some _
  | bool value => exact fun _ => Option.bind_fun_some _
  | int word => exact fun _ => Option.bind_fun_some _
  | str text => exact fun _ => Option.bind_fun_some _
  | arr each ih => exact reads_arr ih
  | obj each ih => exact reads_obj ih

theorem settled_nil : Settled [] := by
  rintro _ ⟨⟩

theorem settled_cons {c : Char} (other : ¬ c.isDigit ∧ c ≠ '.' ∧ c ≠ 'e' ∧ c ≠ 'E')
    (rest : List Char) : Settled (c :: rest) := by
  rintro _ ⟨⟩
  exact other

/-- A mark stands alone, in front of any text. -/
theorem spells_mark {mark : Char} {token : Token} {text : List Char} {spelled : List Token}
    (visible : ¬ isSpace mark) (scanned : ∀ rest, scanToken (mark :: rest) = some (token, rest))
    (spells : Spells text spelled) : Spells (mark :: text) (token :: spelled) := by
  change Spells ([mark] ++ text) (token :: spelled)
  exact Spells.cons visible scanned spells

/-- Two parts of a container. The comma ends the first one if it is a number. -/
theorem spells_comma {text more : List Char} {spelled others : List Token}
    (first : Spells text spelled) (later : Spells more others) :
    Spells (text ++ ',' :: more) (spelled ++ .comma :: others) :=
  first.append (spells_mark (by decide) (fun _ => rfl) later)
    fun _ _ => settled_cons (by decide) _

/-- A token of several characters, in front of any text. -/
theorem spells_word {c : Char} {text : List Char} {token : Token} (visible : ¬ isSpace c)
    (scanned : ∀ rest, scanToken (c :: text ++ rest) = some (token, rest)) :
    Spells (c :: text) [token] :=
  Spells.single visible fun rest _ => scanned rest

theorem scanToken_quote (text : String) (rest : List Char) :
    scanToken (quote text ++ rest) = some (.str (some text), rest) := by
  have quoted : quote text ++ rest = '"' :: (text.toList.flatMap escapeChar ++ '"' :: rest) := by
    simp [quote]
  rw [quoted]
  simp only [scanToken, scanString_escaped, joinPieces_map_pieceOf, Option.bind_eq_bind,
    Option.bind_some, Option.map_some, String.ofList_toList, Option.pure_def]

/-- A member of an object: its key, a colon and the value. -/
theorem spells_member {text : List Char} {spelled : List Token} (key : String)
    (value : Spells text spelled) :
    Spells (quote key ++ ':' :: text) (.str (some key) :: .colon :: spelled) :=
  Spells.cons (by decide) (scanToken_quote key) (spells_mark (by decide) (fun _ => rfl) value)

theorem scanToken_digit {c : Char} (digit : c.isDigit) (rest : List Char) :
    scanToken (c :: rest) =
      (scanMagnitude false (c :: rest)).map fun (number, rest) => (.scalar number, rest) := by
  unfold scanToken
  split
  case h_12 => cases scanMagnitude false (c :: rest) <;> rfl
  all_goals
    rename_i same
    obtain ⟨rfl, rfl⟩ := List.cons.inj same
    cases digit

theorem spells_natural {n : Nat} (small : n < 2 ^ 64) :
    Spells (Nat.toDigits 10 n) [.scalar (.int n)] := by
  obtain ⟨c, digits, spelled⟩ :=
    List.exists_cons_of_ne_nil (Nat.toDigits_ne_nil (n := n) (b := 10))
  have digit : c.isDigit :=
    Nat.isDigit_of_mem_toDigits (b := 10) (n := n) (by decide) (by decide)
      (spelled ▸ List.mem_cons_self)
  have visible : ¬ isSpace c := by
    intro space
    simp only [isSpace, Bool.or_eq_true, beq_iff_eq] at space
    rcases space with ((rfl | rfl) | rfl) | rfl <;> cases digit
  rw [spelled]
  refine Spells.single visible fun rest settled => ?_
  have magnitude := scanMagnitude_toDigits settled (integer?_toDigits small)
  rw [spelled] at magnitude
  exact (scanToken_digit digit _).trans (congrArg _ magnitude)

theorem spells_negative {n : Nat} (positive : 0 < n) (small : n ≤ 2 ^ 63) :
    Spells ('-' :: Nat.toDigits 10 n) [.scalar (.int (-(n : Int)))] := by
  refine Spells.single (by decide) fun rest settled => ?_
  have magnitude := scanMagnitude_toDigits settled (integer?_toDigits_negative positive small)
  simp only [List.cons_append, scanToken, magnitude, Option.bind_eq_bind, Option.bind_some,
    Option.pure_def]

theorem spells_int {n : Int} (word : IsWord n) : Spells (toString n).toList [.scalar (.int n)] := by
  obtain ⟨low, high⟩ := word
  cases n with
  | ofNat n =>
    have text : (toString (Int.ofNat n)).toList = Nat.toDigits 10 n := Text.toList_toString n
    rw [text]
    refine spells_natural ?_
    rw [Int.ofNat_eq_natCast] at high
    omega
  | negSucc n =>
    have text : (toString (Int.negSucc n)).toList = '-' :: Nat.toDigits 10 (n + 1) := by
      change ("-" ++ toString (n + 1)).toList = _
      rw [String.toList_append, Text.toList_toString]
      rfl
    rw [text]
    refine spells_negative (Nat.succ_pos n) ?_
    rw [Int.negSucc_eq] at low
    omega

def SpelledOut (json : Json) : Prop :=
  ∀ level, Spells (indentedChars level json) json.written

theorem isSpace_of_mem_newLine {level : Nat} {c : Char} (member : c ∈ newLine level) :
    isSpace c := by
  rcases List.mem_cons.mp member with rfl | member
  · rfl
  · rw [(List.mem_replicate.mp member).2]
    rfl

theorem spells_newLine {text : List Char} {spelled : List Token} (level : Nat)
    (spells : Spells text spelled) : Spells (newLine level ++ text) spelled :=
  spells.blanks fun _ => isSpace_of_mem_newLine

theorem spells_closingLine {text : List Char} {spelled : List Token} (level : Nat) (empty : Bool)
    (spells : Spells text spelled) : Spells (closingLine level empty ++ text) spelled := by
  cases empty
  · exact spells_newLine level spells
  · exact spells

theorem settled_closingLine {mark : Char} (level : Nat) (empty : Bool)
    (other : ¬ mark.isDigit ∧ mark ≠ '.' ∧ mark ≠ 'e' ∧ mark ≠ 'E') (rest : List Char) :
    Settled (closingLine level empty ++ [mark] ++ rest) := by
  cases empty
  · exact settled_cons (by decide) _
  · exact settled_cons other _

theorem spells_indentedItems {items : List Json} (each : ∀ item ∈ items, item.SpelledOut)
    (level : Nat) : Spells (indentedItems level items) (writtenItems items) := by
  induction items with
  | nil => exact Spells.nil
  | cons item rest ih =>
    have first := each item List.mem_cons_self level
    cases rest with
    | nil => exact spells_newLine level first
    | cons next rest =>
      have later := ih fun item member => each item (List.mem_cons_of_mem _ member)
      rw [indentedItems, writtenItems, List.append_assoc]
      · exact spells_newLine level (spells_comma first later)
      all_goals exact List.cons_ne_nil _ _

theorem spells_indentedMembers {members : List (String × Json)}
    (each : ∀ member ∈ members, member.2.SpelledOut) (level : Nat) :
    Spells (indentedMembers level members) (writtenMembers members) := by
  induction members with
  | nil => exact Spells.nil
  | cons member rest ih =>
    obtain ⟨key, value⟩ := member
    have first := each _ List.mem_cons_self level
    cases rest with
    | nil =>
      rw [indentedMembers, List.append_assoc]
      exact spells_newLine level (spells_member key (first.blank rfl))
    | cons next rest =>
      have later := ih fun member inside => each member (List.mem_cons_of_mem _ inside)
      have text : indentedMembers level ((key, value) :: next :: rest) =
          newLine level ++ (quote key ++ ':' :: ' ' :: (indentedChars level value ++
            ',' :: indentedMembers level (next :: rest))) := by
        rw [indentedMembers]
        · simp only [List.append_assoc, List.cons_append]
        · exact List.cons_ne_nil _ _
      rw [text, writtenMembers]
      · exact spells_newLine level (spells_member key ((spells_comma first later).blank rfl))
      · exact List.cons_ne_nil _ _

theorem Readable.spelledOut {json : Json} (readable : json.Readable) : json.SpelledOut := by
  have closing {mark : Char} {token : Token} (level : Nat) (empty : Bool) (visible : ¬ isSpace mark)
      (scanned : ∀ rest, scanToken (mark :: rest) = some (token, rest)) :
      Spells (closingLine level empty ++ [mark]) [token] :=
    spells_closingLine level empty (spells_mark visible scanned Spells.nil)
  induction readable with
  | null => exact fun _ => spells_word (by decide) fun _ => rfl
  | bool value =>
    intro level
    cases value
    · exact spells_word (by decide) fun _ => rfl
    · exact spells_word (by decide) fun _ => rfl
  | int n => exact fun _ => spells_int n
  | str text => exact fun _ => spells_word (by decide) (scanToken_quote text)
  | @arr items each ih =>
    intro level
    have last : Spells (closingLine level items.isEmpty ++ [']']) [.closeArray] :=
      closing level items.isEmpty (by decide) fun _ => rfl
    have inside := (spells_indentedItems ih (level + 1)).append last
      fun rest _ => settled_closingLine level _ (by decide) rest
    simp only [indentedChars, written, List.cons_append, List.append_assoc]
    exact spells_mark (by decide) (fun _ => rfl) inside
  | @obj members each ih =>
    intro level
    have last : Spells (closingLine level members.isEmpty ++ ['}']) [.closeObject] :=
      closing level members.isEmpty (by decide) fun _ => rfl
    have inside := (spells_indentedMembers ih (level + 1)).append last
      fun rest _ => settled_closingLine level _ (by decide) rest
    simp only [indentedChars, written, List.cons_append, List.append_assoc]
    exact spells_mark (by decide) (fun _ => rfl) inside

/-- A text that spells the tokens of the value is read as the value. -/
theorem Readable.ofText?_of_spells {json : Json} (readable : json.Readable) {text : List Char}
    (spells : Spells text json.written) : ofText? (String.ofList text) = some json := by
  have spelled : tokens text = some json.written := by
    have empty : tokens [] = some [] := by
      rw [tokens]
      rfl
    have whole := spells [] settled_nil
    rwa [List.append_nil, empty, Option.map_some, List.append_nil] at whole
  have read := readable.reads []
  rw [ofText?, String.toList_ofList, spelled, Option.bind_some, ofTokens?, read]
  rfl

/-- What is written with indentation is read back. -/
theorem Readable.ofText?_indented {json : Json} (readable : json.Readable) :
    ofText? json.indented = some json :=
  readable.ofText?_of_spells (readable.spelledOut 0)

end PackedStruct.Json
