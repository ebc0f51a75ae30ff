import PackedStruct.Json.Reader
import PackedStruct.Json.Writer
import PackedStruct.Proofs.Numeral

namespace PackedStruct.Json

/-- What a written character is read as. Only a control character without an escape of its own is
written by number. -/
def pieceOf (c : Char) : Piece :=
  if c.toNat < 0x20 ∧ c ∉ ['\x08', '\x0c', '\n', '\r', '\t'] then .unit c.toNat else .char c

/-- A control character is written with two digits. -/
private theorem numeral?_control : ∀ unit < 0x20,
    Text.numeral? 16 ['0', '0', Nat.digitChar (unit / 16), Nat.digitChar (unit % 16)] =
      some unit := by
  decide

theorem scanString_escapeChar (c : Char) (rest : List Char) :
    scanString (escapeChar c ++ rest) =
      (scanString rest).map fun (pieces, after) => (pieceOf c :: pieces, after) := by
  have step {read : Option (List Piece × List Char)} {piece : Piece} :
      (do let (pieces, after) ← read; return (piece :: pieces, after)) =
        read.map fun (pieces, after) => (piece :: pieces, after) := by
    cases read <;> rfl
  by_cases special : c ∈ ['"', '\\', '\x08', '\x0c', '\n', '\r', '\t']
  · simp only [List.mem_cons, List.not_mem_nil, or_false] at special
    rcases special with rfl | rfl | rfl | rfl | rfl | rfl | rfl <;> exact step
  · simp only [List.mem_cons, List.not_mem_nil, or_false, not_or] at special
    by_cases control : c.toNat < 0x20
    · have piece : pieceOf c = .unit c.toNat := by simp [pieceOf, special, control]
      have written : escapeChar c = ['\\', 'u', '0', '0', Nat.digitChar (c.toNat / 16),
          Nat.digitChar (c.toNat % 16)] := by
        simp [escapeChar, special, control]
      rw [written, piece, ← step]
      simp only [List.cons_append, List.nil_append, scanString, numeral?_control _ control]
      rfl
    · have piece : pieceOf c = .char c := by simp [pieceOf, control]
      have written : escapeChar c = [c] := by simp [escapeChar, special, control]
      rw [written, piece, ← step, List.singleton_append, scanString.eq_5]
      · simp [special, control]
      all_goals simp [special]

theorem scanString_escaped (text rest : List Char) :
    scanString (text.flatMap escapeChar ++ '"' :: rest) = some (text.map pieceOf, rest) := by
  induction text with
  | nil => rfl
  | cons c text ih =>
    rw [List.flatMap_cons, List.append_assoc, scanString_escapeChar, ih]
    rfl

/-- No control character is half of a pair. -/
theorem joinPieces_control {unit : Nat} (control : unit < 0x20) (pieces : List Piece) :
    joinPieces (.unit unit :: pieces) = (joinPieces pieces).map (Char.ofNat unit :: ·) := by
  have high : isHighSurrogate unit = false := by simp [isHighSurrogate]; omega
  have low : isLowSurrogate unit = false := by simp [isLowSurrogate]; omega
  match pieces with
  | [] => simp [joinPieces, high, low]
  | .char c :: rest => simp [joinPieces, high, low]
  | .unit value :: rest => simp [joinPieces, high, low]

theorem joinPieces_map_pieceOf (text : List Char) :
    joinPieces (text.map pieceOf) = some text := by
  induction text with
  | nil => rfl
  | cons c text ih =>
    rw [List.map_cons, pieceOf]
    split
    · rename_i control
      rw [joinPieces_control control.1, ih, Option.map_some, Char.ofNat_toNat]
    · rw [joinPieces, ih, Option.map_some]

def IsWord (n : Int) : Prop :=
  -2 ^ 63 ≤ n ∧ n < 2 ^ 64

/-- The number does not go on with the text. -/
def Settled (text : List Char) : Prop :=
  ∀ c ∈ text.head?, ¬ c.isDigit ∧ c ≠ '.' ∧ c ≠ 'e' ∧ c ≠ 'E'

theorem head?_toDigits {n : Nat} (positive : 0 < n) : (Nat.toDigits 10 n).head? ≠ some '0' := by
  induction n using Nat.strongRecOn with
  | ind n ih =>
    rw [Nat.toDigits_eq_if (by decide)]
    split
    · rename_i small
      have digits : ∀ n < 10, 0 < n → [Nat.digitChar n].head? ≠ some '0' := by decide
      exact digits n small positive
    · have smaller := ih (n / 10) (by omega) (by omega)
      rwa [List.head?_append, Option.or_of_isSome (by simp [Nat.toDigits_ne_nil])]

theorem scanDigits_append {digits rest : List Char} (some : digits ≠ [])
    (all : ∀ c ∈ digits, c.isDigit) (settled : Settled rest) :
    scanDigits (digits ++ rest) = .some (digits, rest) := by
  have stops : rest.takeWhile Char.isDigit = [] ∧ rest.dropWhile Char.isDigit = rest := by
    cases rest with
    | nil => exact ⟨rfl, rfl⟩
    | cons c rest =>
      have other := (settled c rfl).1
      exact ⟨List.takeWhile_cons_of_neg other, List.dropWhile_cons_of_neg other⟩
  have taken : (digits ++ rest).takeWhile Char.isDigit = digits := by
    rw [List.takeWhile_append_of_pos all, stops.1, List.append_nil]
  have left : (digits ++ rest).dropWhile Char.isDigit = rest := by
    rw [List.dropWhile_append_of_pos all, stops.2]
  rw [scanDigits, taken, left, if_neg (by simpa using some)]

theorem scanWhole_toDigits (n : Nat) {rest : List Char} (settled : Settled rest) :
    scanWhole (Nat.toDigits 10 n ++ rest) = some (Nat.toDigits 10 n, rest) := by
  have single : (Nat.toDigits 10 n).head? = some '0' → (Nat.toDigits 10 n).length = 1 := by
    rcases Nat.eq_zero_or_pos n with rfl | positive
    · exact fun _ => rfl
    · exact fun zero => absurd zero (head?_toDigits positive)
  rw [scanWhole, scanDigits_append Nat.toDigits_ne_nil
    (fun c => Nat.isDigit_of_mem_toDigits (by decide) (by decide)) settled, Option.filter_some]
  simpa using single

theorem scanMagnitude_toDigits {negative : Bool} {n : Nat} {number : Int} {rest : List Char}
    (settled : Settled rest) (read : integer? negative (Nat.toDigits 10 n) = some number) :
    scanMagnitude negative (Nat.toDigits 10 n ++ rest) = some (.int number, rest) := by
  have fraction : scanFraction rest = some ([], rest) := by
    unfold scanFraction
    split
    · exact absurd rfl (settled _ rfl).2.1
    · rfl
  have exponent : scanExponent rest = some ([], rest) := by
    cases rest with
    | nil => rfl
    | cons c rest =>
      obtain ⟨_, _, lower, upper⟩ := settled c rfl
      simp [scanExponent, lower, upper]
  simp [scanMagnitude, scanWhole_toDigits n settled, fraction, exponent, read]

theorem integer?_toDigits {n : Nat} (small : n < 2 ^ 64) :
    integer? false (Nat.toDigits 10 n) = some (n : Int) := by
  have denoted := Text.numeral?_toDigits (show 1 < 10 by decide) (show 10 ≤ 16 by decide) n
  simp only [integer?, denoted, Option.bind_eq_bind, Option.bind_some]
  exact if_pos small

theorem integer?_toDigits_negative {n : Nat} (positive : 0 < n) (small : n ≤ 2 ^ 63) :
    integer? true (Nat.toDigits 10 n) = some (-(n : Int)) := by
  have denoted := Text.numeral?_toDigits (show 1 < 10 by decide) (show 10 ≤ 16 by decide) n
  simp only [integer?, denoted, Option.bind_eq_bind, Option.bind_some, if_true]
  exact if_pos (And.intro positive small)

theorem tokens_of_scanToken {c : Char} {text rest : List Char} {token : Token}
    (visible : ¬ isSpace c) (scanned : scanToken (c :: text) = some (token, rest)) :
    tokens (c :: text) = (tokens rest).map (token :: ·) := by
  rw [tokens, List.dropWhile_cons_of_neg visible, List.isEmpty_cons, if_neg Bool.false_ne_true]
  split
  · rename_i failed
    rw [scanned] at failed
    cases failed
  · rename_i other after found
    rw [scanned] at found
    obtain ⟨rfl, rfl⟩ := Prod.mk.inj (Option.some.inj found)
    rfl

theorem tokens_blank {c : Char} (blank : isSpace c) (rest : List Char) :
    tokens (c :: rest) = tokens rest := by
  have dropped : (c :: rest).dropWhile isSpace = rest.dropWhile isSpace :=
    List.dropWhile_cons_of_pos blank
  rw [tokens, tokens, dropped]

/-- The text is read as the tokens, whatever settled text comes after it. -/
def Spells (text : List Char) (spelled : List Token) : Prop :=
  ∀ rest, Settled rest → tokens (text ++ rest) = (tokens rest).map (spelled ++ ·)

namespace Spells

variable {text more : List Char} {spelled others : List Token}

theorem nil : Spells [] [] := by
  intro rest _
  simp

theorem append (first : Spells text spelled) (second : Spells more others)
    (settled : ∀ rest, Settled rest → Settled (more ++ rest)) :
    Spells (text ++ more) (spelled ++ others) := by
  intro rest after
  rw [List.append_assoc, first _ (settled rest after), second rest after, Option.map_map]
  simp only [Function.comp_def, List.append_assoc]

theorem blank {c : Char} (space : isSpace c) (spells : Spells text spelled) :
    Spells (c :: text) spelled := by
  intro rest settled
  rw [List.cons_append, tokens_blank space, spells rest settled]

theorem blanks {spaces : List Char} (all : ∀ c ∈ spaces, isSpace c)
    (spells : Spells text spelled) : Spells (spaces ++ text) spelled := by
  induction spaces with
  | nil => exact spells
  | cons c spaces ih =>
    have later := ih fun c member => all c (List.mem_cons_of_mem _ member)
    exact later.blank (all c List.mem_cons_self)

theorem single {c : Char} {token : Token} (visible : ¬ isSpace c)
    (scanned : ∀ rest, Settled rest → scanToken (c :: text ++ rest) = some (token, rest)) :
    Spells (c :: text) [token] := by
  intro rest settled
  exact tokens_of_scanToken visible (scanned rest settled)

/-- A token that ends by itself, in front of any text. -/
theorem cons {c : Char} {start : List Char} {token : Token} (visible : ¬ isSpace c)
    (scanned : ∀ rest, scanToken (c :: start ++ rest) = some (token, rest))
    (spells : Spells text spelled) : Spells (c :: start ++ text) (token :: spelled) := by
  intro rest settled
  rw [List.append_assoc]
  refine (tokens_of_scanToken visible (scanned (text ++ rest))).trans ?_
  rw [spells rest settled, Option.map_map]
  rfl

end Spells

end PackedStruct.Json
