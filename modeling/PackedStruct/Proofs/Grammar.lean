import PackedStruct.Definition.Declaration
import PackedStruct.Proofs.Lookup

namespace PackedStruct.Definition

def bare (tokens : List PlacedToken) : List Token :=
  tokens.map PlacedToken.token

/-- The words in front of a type. They are passed over wherever they can be, so that a type of such
a name needs one in front of it. -/
structure Qualifies (words : List Token) (type : String) : Prop where
  written : words = [] ∨ words = [.ident "unsigned"] ∨ words = [.ident "struct"] ∨
    words = [.ident "unsigned", .ident "struct"]
  struct : type = "struct" → Token.ident "struct" ∈ words
  unsigned : type = "unsigned" → words ≠ []

/-- What stands behind the name of a field: a width, the length of an array, or neither. -/
inductive Bounds : Option Nat → Option Nat → List Token → Prop where
  | none : Bounds .none .none []
  | width {value : UInt64} (positive : value ≠ 0) :
      Bounds (some value.toNat) .none [.colon, .int value]
  | length {value : UInt64} (positive : value ≠ 0) :
      Bounds .none (some value.toNat) [.openBracket, .int value, .closeBracket]

/-- The field stands there as `[unsigned] [struct] type name ;`, with its bounds behind the name.
Only the place of the type is kept. -/
inductive MemberDeclaration.Written : MemberDeclaration → List PlacedToken → Prop where
  | intro {declared : MemberDeclaration} {front back : List PlacedToken} {bounds : List Token}
      (qualifies : Qualifies (bare front) declared.type)
      (bounded : Bounds declared.width declared.length bounds)
      (ending : bare back = .ident declared.name :: (bounds ++ [.semicolon])) :
      declared.Written (front ++ ⟨.ident declared.type, declared.position⟩ :: back)

/-- The struct stands there as `typedef struct [tag] { field* } name ;`, and no two fields have one
name. -/
inductive Declaration.Written : Declaration → List PlacedToken → Prop where
  | intro {declared : Declaration} {head tail : List PlacedToken}
      {parts : List (List PlacedToken)} (tag : Option String)
      (heading : bare head =
        .ident "typedef" :: .ident "struct" :: ((tag.map Token.ident).toList ++ [.openBrace]))
      (members : List.Forall₂ MemberDeclaration.Written declared.members parts)
      (distinct : (declared.members.map MemberDeclaration.name).Nodup)
      (ending : bare tail = [.closeBrace, .ident declared.name, .semicolon]) :
      declared.Written (head ++ (parts.flatten ++ tail))

theorem bare_eq_nil_iff {tokens : List PlacedToken} : bare tokens = [] ↔ tokens = [] :=
  List.map_eq_nil_iff

theorem bare_eq_cons_iff {tokens : List PlacedToken} {token : Token} {others : List Token} :
    bare tokens = token :: others ↔
      ∃ position rest, tokens = ⟨token, position⟩ :: rest ∧ bare rest = others := by
  constructor
  · intro same
    obtain ⟨⟨_, position⟩, rest, split, rfl, later⟩ := List.map_eq_cons_iff.mp same
    exact ⟨position, rest, split, later⟩
  · rintro ⟨position, rest, rfl, rfl⟩
    rfl

theorem bare_append (first second : List PlacedToken) :
    bare (first ++ second) = bare first ++ bare second :=
  List.map_append

variable {last : Position} {tokens rest : List PlacedToken}

theorem take_eq_ok_iff {expected : Expected} {token : Token} :
    take last expected token tokens = .ok rest ↔
      ∃ position, tokens = ⟨token, position⟩ :: rest := by
  cases tokens with
  | nil => simp [take]
  | cons first others =>
    obtain ⟨found, position⟩ := first
    by_cases same : found = token
    · simp [take, same]
    · simp [take, same]

theorem takeName_eq_ok_iff {expected : Expected} {name : String} {position : Position} :
    takeName last expected tokens = .ok (name, position, rest) ↔
      tokens = ⟨.ident name, position⟩ :: rest := by
  unfold takeName
  split
  · simp [and_assoc]
  · rename_i other
    constructor
    · intro taken
      cases taken
    · intro same
      exact absurd same (other _ _ _)

theorem takePositive_eq_ok_iff {expected : Expected} {n : Nat} :
    takePositive last expected tokens = .ok (n, rest) ↔
      ∃ value position, value ≠ 0 ∧ value.toNat = n ∧ tokens = ⟨.int value, position⟩ :: rest := by
  unfold takePositive
  split
  · rename_i value position others
    by_cases zero : value = 0
    · simp [zero]
    · simp [zero]
  · rename_i other
    constructor
    · intro taken
      cases taken
    · rintro ⟨value, position, _, _, same⟩
      exact absurd same (other _ _ _)

/-- A word is passed over if it comes next. -/
theorem skipWord_eq_cons_iff {word : String} {token : Token} {position : Position} :
    skipWord word tokens = ⟨token, position⟩ :: rest ↔
      (∃ place, tokens = ⟨.ident word, place⟩ :: ⟨token, position⟩ :: rest) ∨
        token ≠ .ident word ∧ tokens = ⟨token, position⟩ :: rest := by
  cases tokens with
  | nil => simp [skipWord]
  | cons first others =>
    obtain ⟨found, place⟩ := first
    by_cases same : found = .ident word
    · simp [skipWord, same]
      grind
    · simp [skipWord, same]
      grind

theorem skipWords_eq_cons_iff {type : String} {position : Position} :
    skipWord "struct" (skipWord "unsigned" tokens) = ⟨.ident type, position⟩ :: rest ↔
      ∃ front, Qualifies (bare front) type ∧
        tokens = front ++ ⟨.ident type, position⟩ :: rest := by
  simp only [skipWord_eq_cons_iff]
  constructor
  · rintro (⟨struct, (⟨unsigned, both⟩ | ⟨-, one⟩)⟩ | ⟨noStruct, (⟨unsigned, one⟩ | ⟨plain, none⟩)⟩)
    · exact ⟨[⟨_, unsigned⟩, ⟨_, struct⟩], ⟨by simp [bare], by simp [bare], by simp [bare]⟩, both⟩
    · exact ⟨[⟨_, struct⟩], ⟨by simp [bare], by simp [bare], by simp [bare]⟩, one⟩
    · exact ⟨[⟨_, unsigned⟩], ⟨by simp [bare], by simpa [bare] using noStruct, by simp [bare]⟩, one⟩
    · exact ⟨[], ⟨by simp [bare], by simpa [bare] using noStruct, by simpa [bare] using plain⟩,
        none⟩
  · rintro ⟨front, qualifies, rfl⟩
    obtain ⟨written, struct, unsigned⟩ := qualifies
    rcases written with words | words | words | words
    · rw [words] at struct unsigned
      rw [bare_eq_nil_iff.mp words]
      exact .inr ⟨by simpa using struct, .inr ⟨by simpa using unsigned, rfl⟩⟩
    · rw [words] at struct
      obtain ⟨place, _, rfl, rest⟩ := bare_eq_cons_iff.mp words
      rw [bare_eq_nil_iff.mp rest]
      exact .inr ⟨by simpa using struct, .inl ⟨place, rfl⟩⟩
    · obtain ⟨place, _, rfl, rest⟩ := bare_eq_cons_iff.mp words
      rw [bare_eq_nil_iff.mp rest]
      exact .inl ⟨place, .inr ⟨by simp, rfl⟩⟩
    · obtain ⟨first, _, rfl, more⟩ := bare_eq_cons_iff.mp words
      obtain ⟨second, _, rfl, rest⟩ := bare_eq_cons_iff.mp more
      rw [bare_eq_nil_iff.mp rest]
      exact .inl ⟨second, .inl ⟨first, rfl⟩⟩

/-- What is taken behind the name of a field, up to the end of it. -/
def TakesBounds (last : Position) (name : String) (width length : Option Nat)
    (tokens rest : List PlacedToken) : Prop :=
  ∃ middle others, takeWidth last tokens = .ok (width, middle) ∧
    takeLength last name width middle = .ok (length, others) ∧
    take last .semicolon .semicolon others = .ok rest

theorem TakesBounds.bounds {name : String} {width length : Option Nat}
    (taken : TakesBounds last name width length tokens rest) :
    ∃ bounds part, Bounds width length bounds ∧ bare part = bounds ++ [.semicolon] ∧
      tokens = part ++ rest := by
  obtain ⟨middle, others, narrowed, counted, ended⟩ := taken
  obtain ⟨stop, rfl⟩ := take_eq_ok_iff.mp ended
  unfold takeWidth at narrowed
  unfold takeLength at counted
  split at narrowed
  · rename_i colon _
    obtain ⟨⟨n, after⟩, positive, same⟩ := bind_eq_ok_iff.mp narrowed
    cases same
    obtain ⟨value, place, nonzero, rfl, rfl⟩ := takePositive_eq_ok_iff.mp positive
    split at counted
    · cases counted
    · cases counted
      exact ⟨_, [⟨.colon, colon⟩, ⟨.int value, place⟩, ⟨.semicolon, stop⟩], .width nonzero,
        rfl, rfl⟩
  · cases narrowed
    split at counted
    · rename_i bracket _ _
      rw [if_neg (show ¬ (none : Option Nat).isSome = true from Bool.false_ne_true)] at counted
      obtain ⟨⟨n, after⟩, positive, counted⟩ := bind_eq_ok_iff.mp counted
      obtain ⟨closed, closing, same⟩ := bind_eq_ok_iff.mp counted
      cases same
      obtain ⟨value, place, nonzero, rfl, rfl⟩ := takePositive_eq_ok_iff.mp positive
      obtain ⟨close, rfl⟩ := take_eq_ok_iff.mp closing
      exact ⟨_, [⟨.openBracket, bracket⟩, ⟨.int value, place⟩, ⟨.closeBracket, close⟩,
        ⟨.semicolon, stop⟩], .length nonzero, rfl, rfl⟩
    · cases counted
      exact ⟨_, [⟨.semicolon, stop⟩], .none, rfl, rfl⟩

theorem Bounds.takesBounds {width length : Option Nat} {bounds : List Token}
    (bounded : Bounds width length bounds) (last : Position) (name : String)
    {part : List PlacedToken} (same : bare part = bounds ++ [.semicolon])
    (rest : List PlacedToken) : TakesBounds last name width length (part ++ rest) rest := by
  cases bounded with
  | none =>
    simp only [List.nil_append, bare_eq_cons_iff, bare_eq_nil_iff] at same
    obtain ⟨stop, _, rfl, rfl⟩ := same
    exact ⟨_, _, rfl, rfl, rfl⟩
  | @width value positive =>
    simp only [List.cons_append, List.nil_append, bare_eq_cons_iff, bare_eq_nil_iff] at same
    obtain ⟨colon, _, rfl, place, _, rfl, stop, _, rfl, rfl⟩ := same
    have taken : takePositive last .width (⟨.int value, place⟩ :: ⟨.semicolon, stop⟩ :: rest) =
        .ok (value.toNat, ⟨.semicolon, stop⟩ :: rest) :=
      takePositive_eq_ok_iff.mpr ⟨value, place, positive, rfl, rfl⟩
    exact ⟨_, _, bind_eq_ok_iff.mpr ⟨_, taken, rfl⟩, rfl, rfl⟩
  | @length value positive =>
    simp only [List.cons_append, List.nil_append, bare_eq_cons_iff, bare_eq_nil_iff] at same
    obtain ⟨bracket, _, rfl, place, _, rfl, close, _, rfl, stop, _, rfl, rfl⟩ := same
    have taken : takePositive last .length
        (⟨.int value, place⟩ :: ⟨.closeBracket, close⟩ :: ⟨.semicolon, stop⟩ :: rest) =
        .ok (value.toNat, ⟨.closeBracket, close⟩ :: ⟨.semicolon, stop⟩ :: rest) :=
      takePositive_eq_ok_iff.mpr ⟨value, place, positive, rfl, rfl⟩
    exact ⟨_, _, rfl, bind_eq_ok_iff.mpr ⟨_, taken, rfl⟩, rfl⟩

theorem takeMember_eq_ok_iff_steps {declared : MemberDeclaration} :
    takeMember last tokens = .ok (declared, rest) ↔
      ∃ place part, skipWord "struct" (skipWord "unsigned" tokens) =
          ⟨.ident declared.type, declared.position⟩ :: ⟨.ident declared.name, place⟩ :: part ∧
        TakesBounds last declared.name declared.width declared.length part rest := by
  obtain ⟨type, name, width, length, position⟩ := declared
  constructor
  · intro taken
    obtain ⟨⟨type, position, afterType⟩, takenType, taken⟩ := bind_eq_ok_iff.mp taken
    obtain ⟨⟨name, place, afterName⟩, takenName, taken⟩ := bind_eq_ok_iff.mp taken
    obtain ⟨⟨width, afterWidth⟩, takenWidth, taken⟩ := bind_eq_ok_iff.mp taken
    obtain ⟨⟨length, afterLength⟩, takenLength, taken⟩ := bind_eq_ok_iff.mp taken
    obtain ⟨afterMark, takenMark, same⟩ := bind_eq_ok_iff.mp taken
    cases same
    obtain rfl := takeName_eq_ok_iff.mp takenName
    exact ⟨place, afterName, takeName_eq_ok_iff.mp takenType, _, _, takenWidth, takenLength,
      takenMark⟩
  · rintro ⟨place, part, words, middle, others, takenWidth, takenLength, takenMark⟩
    refine bind_eq_ok_iff.mpr ⟨_, takeName_eq_ok_iff.mpr words, ?_⟩
    refine bind_eq_ok_iff.mpr ⟨_, takeName_eq_ok_iff.mpr rfl, ?_⟩
    refine bind_eq_ok_iff.mpr ⟨_, takenWidth, ?_⟩
    refine bind_eq_ok_iff.mpr ⟨_, takenLength, ?_⟩
    exact bind_eq_ok_iff.mpr ⟨_, takenMark, rfl⟩

/-- What is taken as a field is what the grammar has for it. -/
theorem takeMember_eq_ok_iff {declared : MemberDeclaration} :
    takeMember last tokens = .ok (declared, rest) ↔
      ∃ part, declared.Written part ∧ tokens = part ++ rest := by
  rw [takeMember_eq_ok_iff_steps]
  constructor
  · rintro ⟨place, after, words, taken⟩
    obtain ⟨front, qualifies, rfl⟩ := skipWords_eq_cons_iff.mp words
    obtain ⟨bounds, part, bounded, written, rfl⟩ := taken.bounds
    have ending : bare (⟨.ident declared.name, place⟩ :: part) =
        .ident declared.name :: (bounds ++ [.semicolon]) :=
      bare_eq_cons_iff.mpr ⟨_, _, rfl, written⟩
    refine ⟨_, .intro qualifies bounded ending, ?_⟩
    rw [List.append_assoc, List.cons_append, List.cons_append]
  · rintro ⟨part, written, rfl⟩
    cases written with
    | @intro front back bounds qualifies bounded ending =>
      obtain ⟨place, part, rfl, written⟩ := bare_eq_cons_iff.mp ending
      refine ⟨place, part ++ rest, skipWords_eq_cons_iff.mpr ⟨front, qualifies, ?_⟩,
        bounded.takesBounds last declared.name written rest⟩
      rw [List.append_assoc, List.cons_append, List.cons_append]

/-- A field starts with a word. -/
theorem MemberDeclaration.Written.exists_cons {declared : MemberDeclaration}
    {part : List PlacedToken} (written : declared.Written part) :
    ∃ word position others, part = ⟨.ident word, position⟩ :: others := by
  cases written with
  | @intro front back bounds qualifies _ _ =>
    cases front with
    | nil => exact ⟨_, _, _, rfl⟩
    | cons first others =>
      obtain ⟨token, position⟩ := first
      have head : (bare (⟨token, position⟩ :: others)).head? = some token := rfl
      rcases qualifies.written with words | words | words | words
      · cases words
      all_goals
        rw [words] at head
        obtain rfl := Option.some.inj head
        exact ⟨_, _, _, rfl⟩

theorem takeMembers_of_takeMember {taken : List String} {declared : MemberDeclaration}
    {part : List PlacedToken} (written : declared.Written part)
    (free : declared.name ∉ taken) :
    takeMembers last taken (part ++ rest) =
      (takeMembers last (declared.name :: taken) rest).map fun found =>
        (declared :: found.1, found.2) := by
  have found : takeMember last (part ++ rest) = .ok (declared, rest) :=
    takeMember_eq_ok_iff.mpr ⟨part, written, rfl⟩
  obtain ⟨word, position, others, rfl⟩ := written.exists_cons
  rw [List.cons_append] at found ⊢
  have noBrace : Token.ident word ≠ .closeBrace := by
    intro same
    cases same
  rw [takeMembers, if_neg noBrace]
  split
  · rename_i failed
    rw [found] at failed
    cases failed
  · rename_i succeeded
    rw [found] at succeeded
    cases succeeded
    rw [if_neg (by simpa using free)]
    cases takeMembers last (declared.name :: taken) rest <;> rfl

/-- What is taken up to a closing brace are fields with names that are free and distinct. -/
theorem takeMembers_eq_ok_iff {taken : List String} {members : List MemberDeclaration} :
    takeMembers last taken tokens = .ok (members, rest) ↔
      ∃ parts close, List.Forall₂ MemberDeclaration.Written members parts ∧
        tokens = parts.flatten ++ ⟨.closeBrace, close⟩ :: rest ∧
        (∀ member ∈ members, member.name ∉ taken) ∧
        (members.map MemberDeclaration.name).Nodup := by
  constructor
  · intro found
    fun_induction takeMembers last taken tokens generalizing members rest with
    | case1 => cases found
    | case2 taken first after closes =>
      cases found
      obtain ⟨token, close⟩ := first
      obtain rfl : token = .closeBrace := closes
      exact ⟨[], close, .nil, rfl, List.forall_mem_nil _, .nil⟩
    | case3 => cases found
    | case4 => cases found
    | case5 taken first after _ member others here free ih =>
      obtain ⟨⟨later, final⟩, more, same⟩ := bind_eq_ok_iff.mp found
      cases same
      obtain ⟨part, written, split⟩ := takeMember_eq_ok_iff.mp here
      obtain ⟨parts, close, rest, rfl, names⟩ := ih more
      refine ⟨part :: parts, close, .cons written rest, ?_, fresh_cons_iff.mpr ⟨?_, names⟩⟩
      · rw [split, List.flatten_cons, List.append_assoc]
      · simpa using free
  · rintro ⟨parts, close, written, rfl, names⟩
    induction written generalizing taken with
    | nil =>
      rw [List.flatten_nil, List.nil_append, takeMembers, if_pos rfl]
    | @cons member part members parts here _ ih =>
      obtain ⟨free, names⟩ := fresh_cons_iff.mp names
      rw [List.flatten_cons, List.append_assoc, takeMembers_of_takeMember here free]
      exact map_eq_ok_iff.mpr ⟨_, ih names, rfl⟩

/-- In front of the brace a tag is passed over. -/
theorem skipName_eq_openBrace_iff {position : Position} :
    skipName tokens = ⟨.openBrace, position⟩ :: rest ↔
      ∃ (tag : Option String) (front : List PlacedToken),
        bare front = (tag.map Token.ident).toList ∧
          tokens = front ++ ⟨.openBrace, position⟩ :: rest := by
  constructor
  · intro opened
    unfold skipName at opened
    split at opened
    · rename_i name place others
      exact ⟨some name, [⟨.ident name, place⟩], rfl, congrArg _ opened⟩
    · exact ⟨none, [], rfl, opened⟩
  · rintro ⟨tag, front, tagged, rfl⟩
    cases tag with
    | none =>
      rw [bare_eq_nil_iff.mp tagged]
      rfl
    | some name =>
      obtain ⟨place, others, rfl, nothing⟩ := bare_eq_cons_iff.mp tagged
      rw [bare_eq_nil_iff.mp nothing]
      rfl

theorem takeDeclaration_eq_ok_iff_steps {declared : Declaration} :
    takeDeclaration last tokens = .ok (declared, rest) ↔
      ∃ first second third place stop others body,
        tokens = ⟨.ident "typedef", first⟩ :: ⟨.ident "struct", second⟩ :: others ∧
        skipName others = ⟨.openBrace, third⟩ :: body ∧
        takeMembers last [] body =
          .ok (declared.members, ⟨.ident declared.name, place⟩ :: ⟨.semicolon, stop⟩ :: rest) := by
  obtain ⟨name, members⟩ := declared
  constructor
  · intro taken
    obtain ⟨afterTypedef, takenTypedef, taken⟩ := bind_eq_ok_iff.mp taken
    obtain ⟨afterStruct, takenStruct, taken⟩ := bind_eq_ok_iff.mp taken
    obtain ⟨afterOpen, takenOpen, taken⟩ := bind_eq_ok_iff.mp taken
    obtain ⟨⟨members, afterMembers⟩, takenMembers, taken⟩ := bind_eq_ok_iff.mp taken
    obtain ⟨⟨name, place, afterName⟩, takenName, taken⟩ := bind_eq_ok_iff.mp taken
    obtain ⟨afterMark, takenMark, same⟩ := bind_eq_ok_iff.mp taken
    cases same
    obtain ⟨first, rfl⟩ := take_eq_ok_iff.mp takenTypedef
    obtain ⟨second, rfl⟩ := take_eq_ok_iff.mp takenStruct
    obtain ⟨third, opened⟩ := take_eq_ok_iff.mp takenOpen
    obtain rfl := takeName_eq_ok_iff.mp takenName
    obtain ⟨stop, rfl⟩ := take_eq_ok_iff.mp takenMark
    exact ⟨first, second, third, place, stop, afterStruct, afterOpen, rfl, opened, takenMembers⟩
  · rintro ⟨first, second, third, place, stop, others, body, rfl, opened, takenMembers⟩
    refine bind_eq_ok_iff.mpr ⟨_, take_eq_ok_iff.mpr ⟨first, rfl⟩, ?_⟩
    refine bind_eq_ok_iff.mpr ⟨_, take_eq_ok_iff.mpr ⟨second, rfl⟩, ?_⟩
    refine bind_eq_ok_iff.mpr ⟨_, take_eq_ok_iff.mpr ⟨third, opened⟩, ?_⟩
    refine bind_eq_ok_iff.mpr ⟨_, takenMembers, ?_⟩
    refine bind_eq_ok_iff.mpr ⟨_, takeName_eq_ok_iff.mpr rfl, ?_⟩
    exact bind_eq_ok_iff.mpr ⟨_, take_eq_ok_iff.mpr ⟨stop, rfl⟩, rfl⟩

/-- What is taken as a definition is what the grammar has for it. -/
theorem takeDeclaration_eq_ok_iff {declared : Declaration} :
    takeDeclaration last tokens = .ok (declared, rest) ↔
      ∃ part, declared.Written part ∧ tokens = part ++ rest := by
  rw [takeDeclaration_eq_ok_iff_steps]
  constructor
  · rintro ⟨first, second, third, place, stop, others, body, rfl, opened, takenMembers⟩
    obtain ⟨tag, front, tagged, rfl⟩ := skipName_eq_openBrace_iff.mp opened
    obtain ⟨parts, close, written, rfl, _, distinct⟩ := takeMembers_eq_ok_iff.mp takenMembers
    have heading : bare (⟨.ident "typedef", first⟩ :: ⟨.ident "struct", second⟩ ::
        (front ++ [⟨.openBrace, third⟩])) =
        .ident "typedef" :: .ident "struct" :: ((tag.map Token.ident).toList ++ [.openBrace]) := by
      rw [← tagged]
      simp [bare]
    have ending : bare [⟨.closeBrace, close⟩, ⟨.ident declared.name, place⟩, ⟨.semicolon, stop⟩] =
        [.closeBrace, .ident declared.name, .semicolon] := rfl
    refine ⟨_, .intro tag heading written distinct ending, ?_⟩
    simp
  · rintro ⟨part, written, rfl⟩
    cases written with
    | @intro head tail parts tag heading members distinct ending =>
      simp only [bare_eq_cons_iff, bare_eq_nil_iff] at heading ending
      obtain ⟨first, _, rfl, second, others, rfl, behind⟩ := heading
      obtain ⟨front, brace, rfl, tagged, opened⟩ := List.map_eq_append_iff.mp behind
      obtain ⟨third, _, rfl, nothing⟩ := bare_eq_cons_iff.mp opened
      obtain rfl := bare_eq_nil_iff.mp nothing
      obtain ⟨close, _, rfl, place, _, rfl, stop, _, rfl, rfl⟩ := ending
      refine ⟨first, second, third, place, stop, _, _, ?_,
        skipName_eq_openBrace_iff.mpr ⟨tag, front, tagged, rfl⟩,
        takeMembers_eq_ok_iff.mpr ⟨parts, close, members, rfl, fun _ _ => List.not_mem_nil,
          distinct⟩⟩
      simp

/-- A definition ends with a semicolon. -/
theorem Declaration.Written.getLast?_bare {declared : Declaration} {part : List PlacedToken}
    (written : declared.Written part) : (bare part).getLast? = some .semicolon := by
  cases written with
  | intro tag _ _ _ ending =>
    rw [bare_append, bare_append, ending]
    simp

theorem Declaration.Written.ne_nil {declared : Declaration} {part : List PlacedToken}
    (written : declared.Written part) : part ≠ [] := by
  rintro rfl
  cases written.getLast?_bare

theorem takeDeclarations_of_takeDeclaration {declared : Declaration}
    (found : takeDeclaration last tokens = .ok (declared, rest)) :
    takeDeclarations last tokens =
      if rest.isEmpty then .ok [declared]
      else do
        let others ← takeDeclarations last rest
        return declared :: others := by
  rw [takeDeclarations]
  split
  · rename_i failed
    rw [found] at failed
    cases failed
  · rename_i succeeded
    rw [found] at succeeded
    cases succeeded
    rfl

/-- What is taken as definitions, up to the last token, is what the grammar has for them. -/
theorem takeDeclarations_eq_ok_iff {declared : List Declaration} :
    takeDeclarations last tokens = .ok declared ↔
      declared ≠ [] ∧ ∃ parts, List.Forall₂ Declaration.Written declared parts ∧
        tokens = parts.flatten := by
  constructor
  · intro taken
    fun_induction takeDeclarations last tokens generalizing declared with
    | case1 => cases taken
    | case2 tokens first rest here none =>
      cases taken
      obtain ⟨part, written, rfl⟩ := takeDeclaration_eq_ok_iff.mp here
      obtain rfl := List.isEmpty_iff.mp none
      exact ⟨List.cons_ne_nil _ _, [part], .cons written .nil, rfl⟩
    | case3 tokens first rest here _ ih =>
      obtain ⟨others, later, same⟩ := bind_eq_ok_iff.mp taken
      cases same
      obtain ⟨part, written, rfl⟩ := takeDeclaration_eq_ok_iff.mp here
      obtain ⟨_, parts, rest, rfl⟩ := ih later
      exact ⟨List.cons_ne_nil _ _, part :: parts, .cons written rest, rfl⟩
  · rintro ⟨nonempty, parts, written, rfl⟩
    induction written with
    | nil => exact absurd rfl nonempty
    | @cons first part others parts here more ih =>
      have found : takeDeclaration last ((part :: parts).flatten) = .ok (first, parts.flatten) :=
        takeDeclaration_eq_ok_iff.mpr ⟨part, here, rfl⟩
      rw [takeDeclarations_of_takeDeclaration found]
      cases more with
      | nil => rfl
      | @cons second next _ later there =>
        have goesOn : ¬ (next :: later).flatten.isEmpty = true := by
          simp [there.ne_nil]
        rw [if_neg goesOn]
        exact bind_eq_ok_iff.mpr ⟨_, ih (List.cons_ne_nil _ _), rfl⟩

theorem declaration_eq_ok_iff {declared : Declaration} :
    declaration tokens = .ok declared ↔ declared.Written tokens := by
  unfold declaration
  rw [bind_eq_ok_iff]
  constructor
  · rintro ⟨⟨first, rest⟩, taken, ended⟩
    dsimp only at ended
    split at ended
    · rename_i none
      cases ended
      obtain ⟨part, written, rfl⟩ := takeDeclaration_eq_ok_iff.mp taken
      rw [List.isEmpty_iff.mp none, List.append_nil]
      exact written
    · cases ended
  · intro written
    refine ⟨(declared, []), takeDeclaration_eq_ok_iff.mpr ?_, rfl⟩
    exact ⟨tokens, written, (List.append_nil tokens).symm⟩

/-- One definition is the written form of one. -/
theorem declarations_eq_ok_singleton_iff {declared : Declaration} :
    declarations tokens = .ok [declared] ↔ declared.Written tokens := by
  rw [declarations, takeDeclarations_eq_ok_iff]
  simp [List.forall₂_cons_left_iff, List.forall₂_nil_left_iff]

/-- The tokens are definitions if and only if they are the written forms of some, at least one, one
after the other. They are one definition if and only if they are definitions and just one. -/
theorem declarations_iff_written (tokens : List PlacedToken) :
    (∀ declared, declarations tokens = .ok declared ↔
      declared ≠ [] ∧ ∃ parts, List.Forall₂ Declaration.Written declared parts ∧
        tokens = parts.flatten) ∧
    ∀ declared, declaration tokens = .ok declared ↔ declarations tokens = .ok [declared] := by
  refine ⟨fun declared => takeDeclarations_eq_ok_iff, fun declared => ?_⟩
  rw [declaration_eq_ok_iff, declarations_eq_ok_singleton_iff]

end PackedStruct.Definition
