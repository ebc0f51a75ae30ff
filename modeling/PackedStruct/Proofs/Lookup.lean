import Mathlib.Data.List.Forall2
import Mathlib.Data.List.Nodup
import PackedStruct.Outcome
import PackedStruct.SortedMap

namespace PackedStruct

/-- A function succeeds on a whole list when it does on each item. -/
theorem mapM_eq_ok_iff {ε α β : Type} {action : α → Except ε β} {items : List α}
    {results : List β} :
    items.mapM action = .ok results ↔
      List.Forall₂ (fun item result => action item = .ok result) items results := by
  induction items generalizing results with
  | nil =>
    rw [List.mapM_nil, List.forall₂_nil_left_iff]
    exact ⟨fun same => (Except.ok.inj same).symm, fun same => same ▸ rfl⟩
  | cons item rest ih =>
    rw [List.mapM_cons, List.forall₂_cons_left_iff, bind_eq_ok_iff]
    constructor
    · rintro ⟨result, here, others⟩
      obtain ⟨later, tail, same⟩ := bind_eq_ok_iff.mp others
      exact ⟨result, later, here, ih.mp tail, (Except.ok.inj same).symm⟩
    · rintro ⟨result, later, here, tail, rfl⟩
      exact ⟨result, here, bind_eq_ok_iff.mpr ⟨later, ih.mpr tail, rfl⟩⟩

theorem mapM_eq_ok_map {ε α β : Type} {action : α → Except ε β} {result : α → β} {items : List α}
    (each : ∀ item ∈ items, action item = .ok (result item)) :
    items.mapM action = .ok (items.map result) := by
  rw [mapM_eq_ok_iff, List.forall₂_map_right_iff, List.forall₂_same]
  exact each

theorem mapM_congr {ε α β : Type} {action other : α → Except ε β} {items : List α}
    (same : ∀ item ∈ items, action item = other item) : items.mapM action = items.mapM other := by
  induction items with
  | nil => rfl
  | cons item rest ih =>
    obtain ⟨here, later⟩ := List.forall_mem_cons.mp same
    rw [List.mapM_cons, List.mapM_cons, here, ih later]

/-- What is related to the items of a list comes from one of them. -/
theorem exists_of_mem_right {α β : Type} {relation : α → β → Prop} {items : List α}
    {results : List β} (related : List.Forall₂ relation items results) {result : β}
    (member : result ∈ results) : ∃ item ∈ items, relation item result := by
  induction related with
  | nil => cases member
  | @cons item first _ _ here _ ih =>
    rcases List.mem_cons.mp member with rfl | member
    · exact ⟨item, List.mem_cons_self, here⟩
    · obtain ⟨other, inside, there⟩ := ih member
      exact ⟨other, List.mem_cons_of_mem _ inside, there⟩

/-- Names stay distinct from each other and from those that are taken when each one is taken in its
turn. -/
theorem fresh_cons_iff {α κ : Type} {name : α → κ} {first : α} {rest : List α} {taken : List κ} :
    (∀ item ∈ first :: rest, name item ∉ taken) ∧ ((first :: rest).map name).Nodup ↔
      name first ∉ taken ∧ (∀ item ∈ rest, name item ∉ name first :: taken) ∧
        (rest.map name).Nodup := by
  rw [List.forall_mem_cons, List.map_cons, List.nodup_cons, List.mem_map]
  simp only [List.mem_cons, not_or, not_exists, not_and]
  constructor
  · rintro ⟨⟨free, later⟩, apart, distinct⟩
    exact ⟨free, fun item inside => ⟨apart item inside, later item inside⟩, distinct⟩
  · rintro ⟨free, later, distinct⟩
    exact ⟨⟨free, fun item inside => (later item inside).2⟩,
      fun item inside => (later item inside).1, distinct⟩

namespace Entries

variable {κ β : Type}

section Find

variable [BEq κ]

private theorem lookup_cons (key : κ) (value : β) (rest : List (κ × β)) (k : κ) :
    ((key, value) :: rest).lookup k = if k == key then some value else rest.lookup k := by
  rw [List.lookup_cons]
  cases k == key <;> rfl

theorem lookup_eq_some_iff_mem [LawfulBEq κ] {entries : List (κ × β)}
    (distinct : (entries.map Prod.fst).Nodup) (key : κ) (value : β) :
    entries.lookup key = some value ↔ (key, value) ∈ entries := by
  induction entries with
  | nil => simp
  | cons head rest ih =>
    obtain ⟨other, stored⟩ := head
    obtain ⟨fresh, later⟩ := List.nodup_cons.mp distinct
    rw [lookup_cons, List.mem_cons, Prod.mk.injEq]
    by_cases found : key = other
    · subst found
      have absent : (key, value) ∉ rest := by
        intro member
        exact fresh (List.mem_map.mpr ⟨_, member, rfl⟩)
      simp [absent, eq_comm]
    · simp [found, ih later]

/-- Entries that are left out by their keys are not found, and the others are found as before. -/
theorem lookup_filter [LawfulBEq κ] (keep : κ → Bool) (entries : List (κ × β)) (k : κ) :
    (entries.filter fun entry => keep entry.1).lookup k =
      if keep k then entries.lookup k else none := by
  induction entries with
  | nil => simp
  | cons head rest ih =>
    obtain ⟨key, value⟩ := head
    rw [List.filter_cons, lookup_cons]
    by_cases same : k = key
    · subst same
      by_cases kept : keep k
      · rw [if_pos kept, if_pos kept, lookup_cons, BEq.rfl, if_pos rfl, if_pos rfl]
      · rw [if_neg kept, if_neg kept, ih, if_neg kept]
    · have apart : (k == key) = false := beq_eq_false_iff_ne.mpr same
      rw [apart, if_neg Bool.false_ne_true, ← ih]
      by_cases kept : keep key
      · rw [if_pos kept, lookup_cons, apart, if_neg Bool.false_ne_true]
      · rw [if_neg kept]

end Find

/-- The pair is there, and no pair behind it has its key. -/
def LastOf (pairs : List (κ × β)) (key : κ) (value : β) : Prop :=
  ∃ before after, pairs = before ++ (key, value) :: after ∧ ∀ pair ∈ after, pair.1 ≠ key

section Last

variable [BEq κ] [LawfulBEq κ]

theorem lookup_reverse_eq_none_iff {pairs : List (κ × β)} {key : κ} :
    pairs.reverse.lookup key = none ↔ ∀ pair ∈ pairs, pair.1 ≠ key := by
  simp only [List.lookup_eq_none_iff, List.mem_reverse, bne_iff_ne, ne_comm]

/-- Looking for a key from the end finds its last pair. -/
theorem lookup_reverse_eq_some_iff {pairs : List (κ × β)} {key : κ} {value : β} :
    pairs.reverse.lookup key = some value ↔ LastOf pairs key value := by
  constructor
  · intro found
    obtain ⟨behind, ahead, split, apart⟩ := List.lookup_eq_some_iff.mp found
    refine ⟨ahead.reverse, behind.reverse, ?_, fun pair member => ?_⟩
    · rw [← List.reverse_reverse pairs, split, List.reverse_append, List.reverse_cons,
        List.append_assoc, List.singleton_append]
    · exact fun same => by simpa [same] using apart pair (List.mem_reverse.mp member)
  · rintro ⟨before, after, rfl, apart⟩
    rw [List.reverse_append, List.reverse_cons, List.append_assoc, List.lookup_append,
      lookup_reverse_eq_none_iff.mpr apart, List.singleton_append, List.lookup_cons_self]
    rfl

end Last

section Insert

variable [Ord κ] [Std.LawfulEqOrd κ] [BEq κ] [LawfulBEq κ]

theorem lookup_insert (key : κ) (value : β) (entries : List (κ × β)) (k : κ) :
    (insert key value entries).lookup k =
      if k == key then some value else entries.lookup k := by
  induction entries with
  | nil => rw [insert, lookup_cons]
  | cons head rest ih =>
    obtain ⟨other, stored⟩ := head
    unfold insert
    split
    · rw [lookup_cons]
    · rename_i same
      obtain rfl := Std.LawfulEqOrd.eq_of_compare same
      rw [lookup_cons, lookup_cons]
      by_cases found : k == key <;> simp [found]
    · rename_i above
      have distinct : key ≠ other := by
        rintro rfl
        have same : compare key key = .eq := Std.ReflCmp.compare_self
        rw [same] at above
        cases above
      rw [lookup_cons, lookup_cons, ih]
      by_cases found : k = other
      · subst found
        simp [Ne.symm distinct]
      · simp [found]

/-- Of the pairs with one key the last counts. -/
theorem lookup_insertAll (entries pairs : List (κ × β)) (k : κ) :
    (insertAll entries pairs).lookup k = (pairs.reverse.lookup k).or (entries.lookup k) := by
  induction pairs generalizing entries with
  | nil => rfl
  | cons pair rest ih =>
    obtain ⟨key, value⟩ := pair
    have step : insertAll entries ((key, value) :: rest) =
        insertAll (insert key value entries) rest := rfl
    have last : [(key, value)].lookup k = if k == key then some value else none :=
      lookup_cons key value [] k
    rw [step, ih, lookup_insert, List.reverse_cons, List.lookup_append, last, Option.or_assoc]
    by_cases found : k == key <;> simp [found]

/-- Of pairs with distinct keys each one counts before the entries that were there. -/
theorem lookup_insertAll_of_distinct {pairs : List (κ × β)}
    (distinct : (pairs.map Prod.fst).Nodup) (entries : List (κ × β)) (k : κ) :
    (insertAll entries pairs).lookup k = (pairs.lookup k).or (entries.lookup k) := by
  have reversed : (pairs.reverse.map Prod.fst).Nodup := by
    rw [List.map_reverse]
    exact List.nodup_reverse.mpr distinct
  have same : pairs.reverse.lookup k = pairs.lookup k := by
    apply Option.ext
    intro value
    rw [lookup_eq_some_iff_mem reversed, lookup_eq_some_iff_mem distinct, List.mem_reverse]
  rw [lookup_insertAll, same]

theorem lookup_ofList (pairs : List (κ × β)) (k : κ) :
    (ofList pairs).lookup k = pairs.reverse.lookup k := by
  rw [ofList, lookup_insertAll, List.lookup_nil, Option.or_none]

/-- No key is lost, and none is added. -/
theorem mem_keys_ofList {pairs : List (κ × β)} {key : κ} :
    key ∈ (ofList pairs).map Prod.fst ↔ key ∈ pairs.map Prod.fst := by
  have found (entries : List (κ × β)) :
      key ∈ entries.map Prod.fst ↔ (entries.lookup key).isSome := by
    simp only [List.lookup_isSome_iff, List.mem_map, beq_iff_eq]
    exact exists_congr fun _ => and_congr_right' eq_comm
  rw [found, lookup_ofList, ← found, List.map_reverse, List.mem_reverse]

/-- Of pairs with distinct keys each one counts. -/
theorem lookup_ofList_eq_some_iff {pairs : List (κ × β)} (distinct : (pairs.map Prod.fst).Nodup)
    (key : κ) (value : β) : (ofList pairs).lookup key = some value ↔ (key, value) ∈ pairs := by
  rw [ofList, lookup_insertAll_of_distinct distinct, List.lookup_nil, Option.or_none,
    lookup_eq_some_iff_mem distinct]

end Insert

section Order

variable [Ord κ] [Std.TransOrd κ]

theorem sorted_ofList (pairs : List (κ × β)) : Sorted (ofList pairs) :=
  sorted_insertAll .nil pairs

theorem Sorted.nodup {entries : List (κ × β)} (sorted : Sorted entries) :
    (entries.map Prod.fst).Nodup := by
  refine List.pairwise_map.mpr (sorted.imp ?_)
  intro left right less same
  have equal : compare right.1 right.1 = .eq := Std.ReflCmp.compare_self
  rw [same, equal] at less
  cases less

/-- Maps under whose keys the same is found are the same. -/
theorem Sorted.ext [BEq κ] [LawfulBEq κ] {first second : List (κ × β)} (firstSorted : Sorted first)
    (secondSorted : Sorted second) (same : ∀ key, first.lookup key = second.lookup key) :
    first = second := by
  have members (entry : κ × β) : entry ∈ first ↔ entry ∈ second := by
    rw [← lookup_eq_some_iff_mem firstSorted.nodup, same,
      lookup_eq_some_iff_mem secondSorted.nodup]
  have permuted : first.Perm second :=
    (List.perm_ext_iff_of_nodup (.of_map _ firstSorted.nodup) (.of_map _ secondSorted.nodup)).mpr
      members
  refine permuted.eq_of_pairwise ?_ firstSorted secondSorted
  intro left right _ _ less greater
  have opposite := Std.OrientedCmp.gt_of_lt less
  rw [greater] at opposite
  cases opposite

/-- Pairs in key order are the map that they make. -/
theorem ofList_of_sorted [Std.LawfulEqOrd κ] [BEq κ] [LawfulBEq κ] {pairs : List (κ × β)}
    (sorted : Sorted pairs) : ofList pairs = pairs := by
  refine (sorted_ofList pairs).ext sorted fun key => Option.ext fun value => ?_
  rw [lookup_ofList_eq_some_iff sorted.nodup, lookup_eq_some_iff_mem sorted.nodup]

/-- Pairs with distinct keys all stay, in key order. -/
theorem perm_ofList [Std.LawfulEqOrd κ] [BEq κ] [LawfulBEq κ] {pairs : List (κ × β)}
    (distinct : (pairs.map Prod.fst).Nodup) : (ofList pairs).Perm pairs := by
  have sorted := sorted_ofList pairs
  refine (List.perm_ext_iff_of_nodup (.of_map _ sorted.nodup) (.of_map _ distinct)).mpr ?_
  intro entry
  rw [← lookup_eq_some_iff_mem sorted.nodup, lookup_ofList_eq_some_iff distinct]

end Order

end Entries

namespace SortedMap

variable {κ β : Type} [Ord κ] [Std.TransOrd κ] (map : SortedMap κ β)

theorem insertAll_append (first second : List (κ × β)) :
    map.insertAll (first ++ second) = (map.insertAll first).insertAll second :=
  SortedMap.ext List.foldl_append

variable [Std.LawfulEqOrd κ] [BEq κ] [LawfulBEq κ]

theorem get?_insert (key : κ) (value : β) (k : κ) [Decidable (k = key)] :
    (map.insert key value).get? k = if k = key then some value else map.get? k := by
  rw [get?, insert, Entries.lookup_insert, get?]
  simp only [beq_iff_eq]

theorem get?_insertAll (pairs : List (κ × β)) (k : κ) :
    (map.insertAll pairs).get? k = (pairs.reverse.lookup k).or (map.get? k) :=
  Entries.lookup_insertAll map.entries pairs k

end SortedMap

end PackedStruct
