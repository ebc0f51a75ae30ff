namespace PackedStruct

namespace Entries

variable {κ β : Type} [Ord κ]

def insert (key : κ) (value : β) : List (κ × β) → List (κ × β)
  | [] => [(key, value)]
  | (k, v) :: rest =>
    match compare key k with
    | .lt => (key, value) :: (k, v) :: rest
    | .eq => (key, value) :: rest
    | .gt => (k, v) :: insert key value rest

/-- Stores the pairs one after the other, so that a later pair wins over an earlier one. -/
def insertAll (entries pairs : List (κ × β)) : List (κ × β) :=
  pairs.foldl (fun entries pair => insert pair.1 pair.2 entries) entries

/-- The pairs in key order, the last pair of each key kept. -/
def ofList (pairs : List (κ × β)) : List (κ × β) :=
  insertAll [] pairs

/-- Keys grow strictly from entry to entry. -/
def Sorted (entries : List (κ × β)) : Prop :=
  entries.Pairwise fun a b => compare a.1 b.1 = .lt

theorem mem_insert {key : κ} {value : β} {entry : κ × β} {entries : List (κ × β)}
    (h : entry ∈ insert key value entries) : entry = (key, value) ∨ entry ∈ entries := by
  induction entries with
  | nil => simpa [insert] using h
  | cons head rest ih =>
    unfold insert at h
    split at h
    · simpa using h
    · simp only [List.mem_cons] at h ⊢
      exact h.imp_right Or.inr
    · simp only [List.mem_cons] at h ⊢
      rcases h with h | h
      · exact .inr (.inl h)
      · exact (ih h).imp_right Or.inr

theorem sorted_insert [Std.TransOrd κ] (key : κ) (value : β) {entries : List (κ × β)}
    (h : Sorted entries) : Sorted (insert key value entries) := by
  induction entries with
  | nil => exact List.pairwise_singleton _ _
  | cons head rest ih =>
    obtain ⟨k, v⟩ := head
    obtain ⟨above, sorted⟩ := List.pairwise_cons.mp h
    unfold insert
    split
    · rename_i less
      refine List.pairwise_cons.mpr ⟨fun entry he => ?_, h⟩
      rcases List.mem_cons.mp he with rfl | he
      · exact less
      · exact Std.TransCmp.lt_trans less (above entry he)
    · rename_i same
      exact List.pairwise_cons.mpr
        ⟨fun entry he => Std.TransCmp.lt_of_eq_of_lt same (above entry he), sorted⟩
    · rename_i greater
      refine List.pairwise_cons.mpr ⟨fun entry he => ?_, ih sorted⟩
      rcases mem_insert he with rfl | he
      · exact Std.OrientedCmp.lt_of_gt greater
      · exact above entry he

theorem sorted_insertAll [Std.TransOrd κ] {entries : List (κ × β)} (h : Sorted entries)
    (pairs : List (κ × β)) : Sorted (insertAll entries pairs) := by
  induction pairs generalizing entries with
  | nil => exact h
  | cons pair rest ih => exact ih (sorted_insert pair.1 pair.2 h)

end Entries

/-- A map from `κ` to `β` with one entry per key, in key order. -/
structure SortedMap (κ β : Type) [Ord κ] where
  entries : List (κ × β)
  sorted : Entries.Sorted entries

namespace SortedMap

variable {κ β : Type} [Ord κ]

@[ext]
theorem ext {a b : SortedMap κ β} (h : a.entries = b.entries) : a = b := by
  cases a
  cases b
  congr

def empty : SortedMap κ β := ⟨[], .nil⟩

def get? [BEq κ] (map : SortedMap κ β) (key : κ) : Option β :=
  map.entries.lookup key

def contains [BEq κ] (map : SortedMap κ β) (key : κ) : Bool :=
  (map.get? key).isSome

def keys (map : SortedMap κ β) : List κ :=
  map.entries.map (·.1)

def size (map : SortedMap κ β) : Nat :=
  map.entries.length

def isEmpty (map : SortedMap κ β) : Bool :=
  map.entries.isEmpty

/-- Stores `value` under `key`, in place of the value already stored there. -/
def insert [Std.TransOrd κ] (map : SortedMap κ β) (key : κ) (value : β) : SortedMap κ β :=
  ⟨Entries.insert key value map.entries, Entries.sorted_insert key value map.sorted⟩

def insertAll [Std.TransOrd κ] (map : SortedMap κ β) (pairs : List (κ × β)) : SortedMap κ β :=
  ⟨Entries.insertAll map.entries pairs, Entries.sorted_insertAll map.sorted pairs⟩

def ofList [Std.TransOrd κ] (pairs : List (κ × β)) : SortedMap κ β :=
  empty.insertAll pairs

end SortedMap

end PackedStruct
