import Mathlib.Algebra.Group.Int.Defs
import PackedStruct.Layout.Path
import PackedStruct.Value.Basic

namespace PackedStruct

namespace Value

def next? : Value → Step → Option Value
  | .tree entries, .field name => entries.lookup name
  | .array items, .index i => items[i]?
  | _, _ => none

def at? (value : Value) (path : Path) : Option Value :=
  path.foldlM next? value

/-- The 64-bit word of an integer as a number. That of a negative one is in two's complement. -/
def word? : Value → Option Nat
  | .unsigned n => some n.toNat
  | .signed n => some (n.toInt % 2 ^ 64).toNat
  | _ => none

theorem at?_append (value : Value) (path steps : Path) :
    value.at? (path ++ steps) = (value.at? path).bind (·.at? steps) :=
  List.foldlM_append

theorem at?_concat (value : Value) (path : Path) (step : Step) :
    value.at? (path ++ [step]) = (value.at? path).bind (·.next? step) := by
  rw [at?_append]
  congr 1
  funext inner
  rw [at?, List.foldlM_cons]
  exact Option.bind_fun_some (inner.next? step)

/-- The entries of a value that is no tree are none. -/
theorem at?_entries (value : Value) (path : Path) (name : String) :
    value.at? (path ++ [.field name]) = (((value.at? path).bind tree?).getD []).lookup name := by
  rw [at?_concat]
  cases value.at? path with
  | none => rfl
  | some inner => cases inner <;> rfl

theorem at?_items (value : Value) (path : Path) (name : String) (i : Nat) :
    value.at? (path ++ [.field name, .index i]) =
      ((value.at? (path ++ [.field name])).bind items?).bind fun items => items[i]? := by
  have steps : path ++ [.field name, .index i] = path ++ [.field name] ++ [.index i] := by simp
  rw [steps, at?_concat]
  cases value.at? (path ++ [.field name]) with
  | none => rfl
  | some inner => cases inner <;> rfl

theorem at?_field {value : Value} {path : Path} {tree : Tree}
    (here : value.at? path = some (.tree tree)) (name : String) :
    value.at? (path ++ [.field name]) = tree.lookup name := by
  rw [at?_entries, here, Option.bind_some, tree?, Option.getD_some]

theorem at?_index {value : Value} {path : Path} {name : String} {items : List Value}
    (here : value.at? (path ++ [.field name]) = some (.array items)) (i : Nat) :
    value.at? (path ++ [.field name, .index i]) = items[i]? := by
  rw [at?_items, here, Option.bind_some, items?, Option.bind_some]

/-- Nothing lies below a path that leads nowhere. -/
theorem at?_eq_none_of_prefix {value : Value} {path longer : Path} (absent : value.at? path = none)
    (goesOn : path <+: longer) : value.at? longer = none := by
  obtain ⟨steps, rfl⟩ := goesOn
  rw [at?_append, absent, Option.bind_none]

theorem word?_eq_map_raw? (value : Value) : value.word? = value.raw?.map UInt64.toNat := by
  cases value with
  | signed n =>
    have bound : n.toBitVec.toNat < 2 ^ 64 := n.toBitVec.isLt
    have whole : n.toInt = if 2 * n.toBitVec.toNat < 2 ^ 64 then (n.toBitVec.toNat : Int)
        else (n.toBitVec.toNat : Int) - (2 ^ 64 : Nat) :=
      BitVec.toInt_eq_toNat_cond n.toBitVec
    rw [word?, raw?, Option.map_some, Option.some_inj, ← Int64.toNat_toBitVec, whole]
    split <;> omega
  | _ => rfl

end Value

def Tree.wordAt? (tree : Tree) (path : Path) : Option Nat :=
  ((Value.tree tree).at? path).bind Value.word?

end PackedStruct
