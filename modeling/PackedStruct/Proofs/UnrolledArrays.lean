import PackedStruct.Proofs.PackedNumber
import PackedStruct.Proofs.UnboundedPlaces

/-! Arrays against fields that stand for their elements one by one. Both ways to write a struct give
the same places, are refused together, and pack the same values into the same bytes. -/

namespace PackedStruct

/-- The fields that an array becomes when each element is a field with a name of its own. -/
def Field.unrolled (field : Field) (names : List String) : List Field :=
  names.zipIdx.map fun entry => ⟨entry.1, field.type, none, (field.elementRange entry.2).offset⟩

def unrolledMembers (type : FieldType) (names : List String) : List Member :=
  names.map fun name => ⟨name, type, none⟩

theorem map_name_unrolledMembers (type : FieldType) (names : List String) :
    (unrolledMembers type names).map Member.name = names := by
  rw [unrolledMembers, List.map_map]
  exact List.map_id _

/-- The tree with the items of an array under names of their own, as many as there are items. The
names behind the last item and the array itself have no entry. -/
def Tree.unroll (tree : Tree) (array : String) (names : List String) : Tree :=
  let items := ((tree.lookup array).bind Value.items?).getD []
  Entries.insertAll (tree.filter fun entry => entry.1 ∉ array :: names) (names.zip items)

theorem FieldType.alignment_dvd_width (type : FieldType) : type.alignment ∣ type.width := by
  cases type with
  | bitfield base width => exact Nat.one_dvd _
  | plain base => exact Nat.dvd_refl _
  | nested inner => exact Nat.dvd_refl _

/-- What starts behind an aligned element of the same type is aligned already. -/
theorem FieldType.StartsAt.element {type : FieldType} {cursor offset : Nat}
    (start : type.StartsAt cursor offset) (i : Nat) :
    type.StartsAt (offset + i * type.width) (offset + i * type.width) := by
  rw [startsAt_iff] at start ⊢
  by_cases free : type.alignment = 0
  · rw [free, ceiling_zero]
  · have aligned : type.alignment ∣ offset := by
      rw [start]
      exact (isLeast_ceiling cursor (Nat.pos_of_ne_zero free)).1.2
    have whole : type.alignment ∣ i * type.width :=
      Nat.dvd_mul_left_of_dvd type.alignment_dvd_width i
    rw [ceiling_of_mod_eq_zero (Nat.mod_eq_zero_of_dvd (Nat.dvd_add aligned whole))]

/-- The walk past single elements from the element `first` of an array onwards. -/
theorem Walk.elements {type : FieldType} {offset : Nat}
    (aligned : ∀ i, type.StartsAt (offset + i * type.width) (offset + i * type.width))
    (names : List String) (first : Nat) :
    Walk (offset + first * type.width) (unrolledMembers type names)
      ((names.zipIdx first).map fun entry =>
        ⟨entry.1, type, none, offset + entry.2 * type.width⟩)
      (offset + (first + names.length) * type.width) := by
  induction names generalizing first with
  | nil => exact .nil
  | cons name rest ih =>
    have later := ih (first + 1)
    have next : offset + (first + 1) * type.width =
        offset + first * type.width + type.width * 1 := by
      rw [Nat.succ_mul]
      omega
    have stop : first + 1 + rest.length = first + (name :: rest).length := by
      rw [List.length_cons]
      omega
    rw [next, stop] at later
    exact .cons (aligned first) rfl later

/-- The walk past the elements of an array, one by one, ends where the array does. -/
theorem Walk.unrolled {field : Field} {cursor : Nat}
    (start : field.type.StartsAt cursor field.offset) {names : List String} (nonempty : names ≠ [])
    (length : field.length = some names.length) :
    Walk cursor (unrolledMembers field.type names) (field.unrolled names) field.range.stop := by
  cases names with
  | nil => exact absurd rfl nonempty
  | cons name rest =>
    have later := Walk.elements (fun i => start.element i) rest 1
    have next : field.offset + 1 * field.type.width =
        field.offset + 0 * field.type.width + field.type.width * 1 := by
      omega
    have stop : field.offset + (1 + rest.length) * field.type.width = field.range.stop := by
      rw [BitRange.stop, Field.range, Field.span, Field.count, length, Option.getD_some,
        List.length_cons, Nat.mul_comm, Nat.add_comm 1]
    rw [next, stop] at later
    have first : field.type.StartsAt cursor (field.offset + 0 * field.type.width) := by
      rwa [Nat.zero_mul, Nat.add_zero]
    exact .cons first rfl later

/-- The elements of an array end within a limit, one by one, if the array does. -/
theorem Field.forall_unrolled_stop_le_iff {field : Field} {names : List String}
    (nonempty : names ≠ []) (length : field.length = some names.length) (limit : Nat) :
    (∀ scalar ∈ field.unrolled names, scalar.range.stop ≤ limit) ↔ field.range.stop ≤ limit := by
  have positive : 0 < names.length := List.length_pos_of_ne_nil nonempty
  have whole : field.range.stop = field.offset + names.length * field.type.width := by
    rw [BitRange.stop, range, span, count, length, Option.getD_some, Nat.mul_comm]
  have stop (entry : String × Nat) :
      (Field.mk entry.1 field.type none (field.elementRange entry.2).offset).range.stop =
        field.offset + (entry.2 + 1) * field.type.width := by
    rw [BitRange.stop, range, span, count, Option.getD_none, Nat.mul_one, Nat.succ_mul,
      ← Nat.add_assoc]
    rfl
  rw [unrolled, List.forall_mem_map, whole]
  simp only [stop]
  constructor
  · intro within
    have last : (names[names.length - 1], names.length - 1) ∈ names.zipIdx :=
      List.mk_mem_zipIdx_iff_getElem?.mpr (List.getElem?_eq_getElem _)
    have bound := within _ last
    rwa [Nat.sub_add_cancel positive] at bound
  · intro within entry member
    have inside : entry.2 + 1 ≤ names.length := List.snd_lt_of_mem_zipIdx member
    have less := Nat.mul_le_mul_right field.type.width inside
    omega

theorem writesOfFields_append_eq_ok_iff {first second : List Field} {base : Nat} {path : Path}
    {tree : Tree} {writes : List Write} :
    writesOfFields (first ++ second) base path tree = .ok writes ↔
      ∃ before after, writesOfFields first base path tree = .ok before ∧
        writesOfFields second base path tree = .ok after ∧ writes = before ++ after := by
  induction first generalizing writes with
  | nil => simp [writesOfFields]
  | cons field rest ih =>
    rw [List.cons_append]
    simp only [writesOfFields_cons_eq_ok_iff, ih]
    constructor
    · rintro ⟨here, _, found, ⟨before, after, earlier, later, rfl⟩, rfl⟩
      exact ⟨here ++ before, after, ⟨here, before, found, earlier, rfl⟩, later,
        (List.append_assoc _ _ _).symm⟩
    · rintro ⟨_, after, ⟨here, before, found, earlier, rfl⟩, later, rfl⟩
      exact ⟨here, before ++ after, found, ⟨before, after, earlier, later, rfl⟩,
        List.append_assoc _ _ _⟩

/-- Of a tree the entries for the fields matter and no others. -/
theorem writesOfFields_congr {fields : List Field} {tree other : Tree}
    (same : ∀ field ∈ fields, tree.lookup field.name = other.lookup field.name) (base : Nat)
    (path : Path) :
    writesOfFields fields base path tree = writesOfFields fields base path other := by
  induction fields with
  | nil => rfl
  | cons field rest ih =>
    obtain ⟨here, later⟩ := List.forall_mem_cons.mp same
    rw [writesOfFields, writesOfFields, here, ih later]

mutual

/-- What is written where does not depend on the path to it, which only errors show. -/
theorem Layout.writesAt_elsewhere {base : Nat} {path : Path} {tree : Tree} {writes : List Write}
    (other : Path) :
    (layout : Layout) → layout.writesAt base path tree = .ok writes →
      layout.writesAt base other tree = .ok writes
  | ⟨_, _, fields, _⟩ => by
    rw [Layout.writesAt, Layout.writesAt]
    exact writesOfFields_elsewhere other fields

theorem writesOfFields_elsewhere {base : Nat} {path : Path} {tree : Tree} {writes : List Write}
    (other : Path) :
    (fields : List Field) → writesOfFields fields base path tree = .ok writes →
      writesOfFields fields base other tree = .ok writes
  | [] => id
  | field :: rest => by
    rw [writesOfFields_cons_eq_ok_iff, writesOfFields_cons_eq_ok_iff]
    rintro ⟨first, others, here, later, rfl⟩
    refine ⟨first, others, ?_, writesOfFields_elsewhere other rest later, rfl⟩
    rcases here with absent | ⟨value, found, written⟩
    · exact .inl absent
    · exact .inr ⟨value, found, Field.writesAt_elsewhere other field written⟩

theorem Field.writesAt_elsewhere {base : Nat} {path : Path} {value : Value} {writes : List Write}
    (other : Path) :
    (field : Field) → field.writesAt base path value = .ok writes →
      field.writesAt base other value = .ok writes
  | ⟨_, type, none, _⟩ => by
    rw [Field.writesAt, Field.writesAt]
    exact FieldType.writesAt_elsewhere _ type
  | ⟨_, type, some _, _⟩ => by
    rw [Field.writesAt_array_eq_ok_iff rfl, Field.writesAt_array_eq_ok_iff rfl]
    rintro ⟨items, parts, array, fits, each, flat⟩
    refine ⟨items, parts, array, fits, each.imp ?_, flat⟩
    exact fun _ _ written => FieldType.writesAt_elsewhere _ type written

theorem FieldType.writesAt_elsewhere {base : Nat} {path : Path} {value : Value}
    {writes : List Write} (other : Path) :
    (type : FieldType) → type.writesAt base path value = .ok writes →
      type.writesAt base other value = .ok writes
  | .nested inner => by
    rw [FieldType.writesAt_nested_eq_ok_iff, FieldType.writesAt_nested_eq_ok_iff]
    rintro ⟨tree, same, written⟩
    exact ⟨tree, same, Layout.writesAt_elsewhere other inner written⟩
  | .bitfield _ _ => by
    rw [FieldType.writesAt, FieldType.writesAt, Value.writeTo_eq_ok_iff, Value.writeTo_eq_ok_iff]
    exact id
  | .plain _ => by
    rw [FieldType.writesAt, FieldType.writesAt, Value.writeTo_eq_ok_iff, Value.writeTo_eq_ok_iff]
    exact id

end

section Elements

variable {type : FieldType} {base offset : Nat} {path : Path} {tree : Tree}

/-- Items under names of their own are written where the array has them, from the element `first`
onwards. Names without an item write nothing. -/
theorem writesOfFields_elements (array : String) {names : List String} (items : List Value)
    {parts : List (List Write)} {first : Nat} (fits : items.length ≤ names.length)
    (found : ∀ (i : Nat) (name : String), names[i]? = some name → tree.lookup name = items[i]?)
    (written : List.Forall₂ (fun entry part => type.writesAt
        (base + (offset + entry.2 * type.width)) (path ++ [.field array, .index entry.2]) entry.1 =
          .ok part) (items.zipIdx first) parts) :
    writesOfFields ((names.zipIdx first).map fun entry =>
        ⟨entry.1, type, none, offset + entry.2 * type.width⟩) base path tree =
      .ok parts.flatten := by
  induction names generalizing items parts first with
  | nil =>
    obtain rfl := List.length_eq_zero_iff.mp (Nat.le_zero.mp fits)
    cases written
    rfl
  | cons name rest ih =>
    have here : tree.lookup name = items[0]? := found 0 name rfl
    have later (i : Nat) (other : String) (member : rest[i]? = some other) :
        tree.lookup other = items[i + 1]? := found (i + 1) other member
    rw [List.zipIdx_cons, List.map_cons, writesOfFields_cons_eq_ok_iff]
    cases items with
    | nil =>
      cases written
      refine ⟨[], [], .inl ⟨here, rfl⟩, ?_, rfl⟩
      exact ih [] (Nat.zero_le _) later .nil
    | cons item items =>
      cases written with
      | @cons _ part _ parts head tail =>
        have below := Nat.le_of_succ_le_succ fits
        refine ⟨part, parts.flatten, .inr ⟨item, here, ?_⟩, ih items below later tail, rfl⟩
        rw [Field.writesAt_scalar rfl]
        exact FieldType.writesAt_elsewhere _ type head

end Elements

namespace Tree

variable {tree : Tree} {array name : String} {names : List String}

theorem lookup_zip {items : List Value} {i : Nat} (distinct : names.Nodup)
    (here : names[i]? = some name) : (names.zip items).lookup name = items[i]? := by
  induction names generalizing items i with
  | nil => simp at here
  | cons first rest ih =>
    obtain ⟨fresh, later⟩ := List.nodup_cons.mp distinct
    cases items with
    | nil => simp
    | cons item items =>
      rw [List.zip_cons_cons, List.lookup_cons]
      cases i with
      | zero =>
        obtain rfl := Option.some.inj here
        simp
      | succ i =>
        have member : name ∈ rest := List.mem_of_getElem? here
        have apart : (name == first) = false := beq_eq_false_iff_ne.mpr fun same =>
          fresh (same ▸ member)
        rw [apart]
        exact ih later here

theorem nodup_keys_zip (distinct : names.Nodup) (items : List Value) :
    ((names.zip items).map Prod.fst).Nodup := by
  rw [List.zip_eq_zip_take_min, List.map_fst_zip (by simp)]
  exact distinct.sublist (List.take_sublist _ _)

theorem lookup_unroll_of_notMem (distinct : names.Nodup) (other : name ∉ array :: names) :
    (tree.unroll array names).lookup name = tree.lookup name := by
  have absent (items : List Value) : (names.zip items).lookup name = none := by
    rw [List.lookup_eq_none_iff]
    intro entry member
    rw [bne_iff_ne]
    rintro rfl
    exact other (List.mem_cons_of_mem _ (List.of_mem_zip member).1)
  rw [unroll, Entries.lookup_insertAll_of_distinct (nodup_keys_zip distinct _), absent,
    Option.none_or, Entries.lookup_filter fun name => decide (name ∉ array :: names),
    if_pos (decide_eq_true other)]

/-- The names stand for the items one by one. -/
theorem lookup_unroll {i : Nat} (distinct : names.Nodup) (here : names[i]? = some name) :
    (tree.unroll array names).lookup name =
      (((tree.lookup array).bind Value.items?).getD [])[i]? := by
  have known : ¬ decide (name ∉ array :: names) = true := by
    have member : name ∈ names := List.mem_of_getElem? here
    simp [member]
  rw [unroll, Entries.lookup_insertAll_of_distinct (nodup_keys_zip distinct _),
    lookup_zip distinct here, Entries.lookup_filter fun name => decide (name ∉ array :: names),
    if_neg known, Option.or_none]

end Tree

/-- The items of an array write the same whether they are in the array or under names of their
own. -/
theorem Field.writesOfFields_unrolled {field : Field} {names : List String}
    (length : field.length = some names.length) (distinct : names.Nodup) {tree : Tree} {base : Nat}
    {path : Path} {writes : List Write}
    (written : writesOfFields [field] base path tree = .ok writes) :
    writesOfFields (field.unrolled names) base path (tree.unroll field.name names) =
      .ok writes := by
  obtain ⟨first, _, here, none, rfl⟩ := writesOfFields_cons_eq_ok_iff.mp written
  cases none
  rw [List.append_nil]
  have entries (i : Nat) (name : String) (member : names[i]? = some name) :
      (tree.unroll field.name names).lookup name =
        (((tree.lookup field.name).bind Value.items?).getD [])[i]? :=
    Tree.lookup_unroll distinct member
  rcases here with ⟨absent, rfl⟩ | ⟨value, found, array⟩
  · rw [absent] at entries
    exact writesOfFields_elements field.name [] (Nat.zero_le _) entries .nil
  · obtain ⟨items, parts, rfl, fits, each, rfl⟩ := (writesAt_array_eq_ok_iff length).mp array
    rw [found] at entries
    exact writesOfFields_elements field.name items fits entries each

namespace Layout

/-- A tree is packed into the same bytes after its array is unrolled. -/
theorem pack_unroll {name : String} {order : ByteOrder} {front back : List Field} {field : Field}
    {names : List String} {total : Nat} (length : field.length = some names.length)
    (distinct : names.Nodup) (others : ∀ other ∈ front ++ back, other.name ∉ field.name :: names)
    {tree : Tree} {bytes : List UInt8}
    (packed : Layout.pack ⟨name, order, front ++ field :: back, total⟩ tree = .ok bytes) :
    Layout.pack ⟨name, order, front ++ (field.unrolled names ++ back), total⟩
      (tree.unroll field.name names) = .ok bytes := by
  obtain ⟨writes, written, rfl⟩ := pack_eq_ok_iff.mp packed
  have split : front ++ field :: back = front ++ ([field] ++ back) := rfl
  rw [writesAt_eq, split] at written
  obtain ⟨before, _, first, rest, rfl⟩ := writesOfFields_append_eq_ok_iff.mp written
  obtain ⟨middle, after, elements, last, rfl⟩ := writesOfFields_append_eq_ok_iff.mp rest
  have same (part : List Field) (inside : part ⊆ front ++ back) :
      writesOfFields part 0 [] (tree.unroll field.name names) = writesOfFields part 0 [] tree := by
    apply writesOfFields_congr
    intro other member
    exact Tree.lookup_unroll_of_notMem distinct (others other (inside member))
  have unrolled := Field.writesOfFields_unrolled length distinct elements
  rw [← same front (List.subset_append_left _ _)] at first
  rw [← same back (List.subset_append_right _ _)] at last
  refine pack_eq_ok_iff.mpr ⟨before ++ (middle ++ after), ?_, rfl⟩
  rw [writesAt_eq]
  exact writesOfFields_append_eq_ok_iff.mpr ⟨before, _, first,
    writesOfFields_append_eq_ok_iff.mpr ⟨middle, after, unrolled, last, rfl⟩, rfl⟩

/-- Names that are distinct with the array and with its elements. -/
private theorem apart_of_nodup {front back names : List String} {array : String}
    (distinct : (front ++ array :: back).Nodup) (fresh : (front ++ (names ++ back)).Nodup) :
    names.Nodup ∧ ∀ other ∈ front ++ back, other ∉ array :: names := by
  have array_notMem := (List.nodup_cons.mp (List.nodup_middle.mp distinct)).1
  have moved : (names ++ (front ++ back)).Nodup :=
    (List.perm_append_comm_assoc front names back).nodup_iff.mp fresh
  obtain ⟨single, _, apart⟩ := List.nodup_append.mp moved
  refine ⟨single, fun other member also => ?_⟩
  rcases List.mem_cons.mp also with same | inNames
  · exact array_notMem (same ▸ member)
  · exact apart other inNames other member rfl

/-- A struct with an array can be had when the struct with a field for each of its elements can be
had. Both have the same size, and the other fields stand where they stood. Each element has its
place as a field, and a tree that is packed into the struct with the array is packed into the same
bytes when its items stand under the names of these fields, and no item that is missing does. -/
theorem ofMembers_unrolled {name : String} {order : ByteOrder} {before after : List Member}
    {array : String} {type : FieldType} {names : List String} (nonempty : names ≠ [])
    (distinct : ((before ++ ⟨array, type, some names.length⟩ :: after).map Member.name).Nodup)
    (fresh : ((before ++ (unrolledMembers type names ++ after)).map Member.name).Nodup) :
    ((∃ layout,
        ofMembers name order (before ++ ⟨array, type, some names.length⟩ :: after) = .ok layout) ↔
      ∃ flat, ofMembers name order (before ++ (unrolledMembers type names ++ after)) = .ok flat) ∧
    ∀ layout flat,
      ofMembers name order (before ++ ⟨array, type, some names.length⟩ :: after) = .ok layout →
      ofMembers name order (before ++ (unrolledMembers type names ++ after)) = .ok flat →
      flat.bits = layout.bits ∧
      (∃ front field back, front.map Field.member = before ∧ back.map Field.member = after ∧
        field.member = ⟨array, type, some names.length⟩ ∧
        layout.fields = front ++ field :: back ∧
        flat.fields = front ++ (field.unrolled names ++ back)) ∧
      ∀ tree bytes, layout.pack tree = .ok bytes →
        flat.pack (tree.unroll array names) = .ok bytes := by
  obtain ⟨front, cursor, walkBefore⟩ := exists_walk 0 before
  obtain ⟨field, length, rfl, rfl, start⟩ : ∃ field : Field, field.length = some names.length ∧
      field.name = array ∧ field.type = type ∧ field.type.StartsAt cursor field.offset :=
    ⟨⟨array, type, some names.length, ceiling cursor type.alignment⟩, rfl, rfl, rfl,
      FieldType.startsAt_iff.mpr rfl⟩
  obtain ⟨back, total, walkAfter⟩ := exists_walk field.range.stop after
  have member : field.member = ⟨field.name, field.type, some names.length⟩ := by
    rw [Field.member, length]
  rw [← member] at distinct ⊢
  have walk : Walk 0 (before ++ field.member :: after) (front ++ field :: back) total :=
    walkBefore.append (.cons start rfl walkAfter)
  have flatWalk := walkBefore.append ((Walk.unrolled start nonempty length).append walkAfter)
  have within := Field.forall_unrolled_stop_le_iff nonempty length (2 ^ 30)
  constructor
  · rw [exists_ofMembers_iff_of_walk walk, exists_ofMembers_iff_of_walk flatWalk]
    simp only [List.forall_mem_append, List.forall_mem_cons, within]
  · intro layout flat made flatMade
    obtain ⟨_, rfl⟩ := (ofMembers_eq_ok_iff_of_walk walk).mp made
    obtain ⟨_, rfl⟩ := (ofMembers_eq_ok_iff_of_walk flatWalk).mp flatMade
    refine ⟨rfl, ⟨front, field, back, walkBefore.map_member, walkAfter.map_member, rfl, rfl, rfl⟩,
      ?_⟩
    intro tree bytes packed
    obtain rfl := walkBefore.map_member
    obtain rfl := walkAfter.map_member
    simp only [List.map_append, List.map_cons, map_name_unrolledMembers] at distinct fresh
    obtain ⟨single, apart⟩ := apart_of_nodup distinct fresh
    apply pack_unroll length single _ packed
    intro other inside
    apply apart
    rw [← List.map_append, ← List.map_append]
    exact List.mem_map_of_mem (List.mem_map_of_mem inside)

end Layout

namespace Sample

/-- A bitfield and an array of integers. -/
def beforePath : List Member :=
  [⟨"kind", .bitfield .char 3, none⟩, ⟨"levels", .plain .short, some 2⟩]

def afterPath : List Member :=
  [⟨"flag", .bitfield .char 1, none⟩]

/-- These members with an array of structs between them. -/
def looped : Layout :=
  ⟨"trace", .big, [⟨"kind", .bitfield .char 3, none, 0⟩, ⟨"levels", .plain .short, some 2, 16⟩,
    ⟨"path", .nested point, some 2, 49⟩, ⟨"flag", .bitfield .char 1, none, 63⟩], 64⟩

/-- These members with the structs one by one. -/
def straight : Layout :=
  ⟨"trace", .big, [⟨"kind", .bitfield .char 3, none, 0⟩, ⟨"levels", .plain .short, some 2, 16⟩,
    ⟨"from", .nested point, none, 49⟩, ⟨"to", .nested point, none, 56⟩,
    ⟨"flag", .bitfield .char 1, none, 63⟩], 64⟩

theorem looped_made : Layout.ofMembers "trace" .big
    (beforePath ++ ⟨"path", .nested point, some ["from", "to"].length⟩ :: afterPath) =
      .ok looped := rfl

theorem straight_made : Layout.ofMembers "trace" .big
    (beforePath ++ (unrolledMembers (.nested point) ["from", "to"] ++ afterPath)) =
      .ok straight := rfl

end Sample

/-- Of the two structs in the array only the first one is there. -/
theorem Layout.ofMembers_unrolled_trace :
    Sample.straight.bits = Sample.looped.bits ∧
      Sample.sparse.unroll "path" ["from", "to"] =
        [("from", .tree [("x", .unsigned 7)]), ("kind", .signed (-1))] ∧
      Sample.looped.pack Sample.sparse = .ok [0, 6, 0, 0, 0, 0, 0, 7] ∧
      Sample.straight.pack (Sample.sparse.unroll "path" ["from", "to"]) =
        .ok [0, 6, 0, 0, 0, 0, 0, 7] := by
  have packed : Sample.looped.pack Sample.sparse = .ok [0, 6, 0, 0, 0, 0, 0, 7] := rfl
  obtain ⟨bits, _, packs⟩ := (ofMembers_unrolled (List.cons_ne_nil _ _) (by decide)
    (by decide)).2 _ _ Sample.looped_made Sample.straight_made
  exact ⟨bits, rfl, packed, packs _ _ packed⟩

end PackedStruct
