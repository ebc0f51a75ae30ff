import PackedStruct.Document.Json
import PackedStruct.Proofs.RestoredDocument

namespace PackedStruct

def membersOf (entries : List (String × Option Json)) : List (String × Json) :=
  entries.flatMap fun entry => (entry.2.map (entry.1, ·)).toList

section Members

variable {entries : List (String × Option Json)} {name : String} {value : Option Json}

theorem membersOf_cons (entry : String × Option Json) (rest : List (String × Option Json)) :
    membersOf (entry :: rest) = (entry.2.map (entry.1, ·)).toList ++ membersOf rest :=
  List.flatMap_cons

theorem mem_membersOf_iff {member : String × Json} :
    member ∈ membersOf entries ↔ (member.1, some member.2) ∈ entries := by
  rw [membersOf, List.mem_flatMap]
  constructor
  · rintro ⟨⟨key, entry⟩, inside, here⟩
    obtain ⟨json, rfl, rfl⟩ := Option.map_eq_some_iff.mp (Option.mem_toList.mp here)
    exact inside
  · intro inside
    exact ⟨_, inside, List.mem_singleton_self _⟩

private theorem filter_membersOf_of_notMem (absent : name ∉ entries.map Prod.fst) :
    (membersOf entries).filter (·.1 == name) = [] := by
  rw [List.filter_eq_nil_iff]
  intro member inside
  rw [beq_iff_eq]
  rintro rfl
  exact absent (List.mem_map.mpr ⟨_, mem_membersOf_iff.mp inside, rfl⟩)

/-- The members of one name are those of its entry. -/
private theorem filter_membersOf (distinct : (entries.map Prod.fst).Nodup)
    (member : (name, value) ∈ entries) :
    (membersOf entries).filter (·.1 == name) = (value.map (name, ·)).toList := by
  induction entries with
  | nil => cases member
  | cons entry rest ih =>
    obtain ⟨fresh, later⟩ := List.nodup_cons.mp distinct
    rw [membersOf_cons, List.filter_append]
    rcases List.mem_cons.mp member with rfl | member
    · rw [filter_membersOf_of_notMem fresh, List.append_nil, List.filter_eq_self]
      intro pair inside
      obtain ⟨json, _, rfl⟩ := Option.map_eq_some_iff.mp (Option.mem_toList.mp inside)
      exact beq_self_eq_true _
    · have other : entry.1 ≠ name := by
        rintro rfl
        exact fresh (List.mem_map.mpr ⟨_, member, rfl⟩)
      rw [ih later member, List.filter_eq_nil_iff.mpr, List.nil_append]
      intro pair inside
      obtain ⟨json, _, rfl⟩ := Option.map_eq_some_iff.mp (Option.mem_toList.mp inside)
      simpa using other

theorem memberOf?_membersOf (distinct : (entries.map Prod.fst).Nodup)
    (member : (name, value) ∈ entries) :
    Json.memberOf? name (membersOf entries) = some value := by
  rw [Json.memberOf?, filter_membersOf distinct member]
  cases value <;> rfl

variable {α : Type} {read : Json → Option α}

theorem required_membersOf (json : Json) (distinct : (entries.map Prod.fst).Nodup)
    (member : (name, some json) ∈ entries) :
    required name read (membersOf entries) = read json := by
  rw [required, memberOf?_membersOf distinct member]
  rfl

theorem optional_absent (distinct : (entries.map Prod.fst).Nodup)
    (member : (name, none) ∈ entries) : optional name read (membersOf entries) = some none := by
  rw [optional, memberOf?_membersOf distinct member]
  rfl

theorem optional_present {json : Json} (distinct : (entries.map Prod.fst).Nodup)
    (member : (name, some json) ∈ entries) (written : json ≠ .null) :
    optional name read (membersOf entries) = (read json).map some := by
  rw [optional, memberOf?_membersOf distinct member]
  cases json with
  | null => exact absurd rfl written
  | _ => rfl

/-- What is read back from the way it is written may be absent as well. -/
theorem optional_written (toJson : α → Json) {entry : Option α}
    (distinct : (entries.map Prod.fst).Nodup) (member : (name, entry.map toJson) ∈ entries)
    (written : ∀ value, toJson value ≠ .null)
    (back : ∀ value, entry = some value → read (toJson value) = some value) :
    optional name read (membersOf entries) = some entry := by
  cases entry with
  | none => exact optional_absent distinct member
  | some value =>
    rw [optional_present distinct member (written value), back value rfl, Option.map_some]

end Members

theorem Json.toNat?_nat {n : Nat} (small : n < UInt64.size) : (Json.nat n).toNat? = some n :=
  if_pos small

theorem Json.lt_of_toNat? {json : Json} {n : Nat} (read : json.toNat? = some n) :
    n < UInt64.size := by
  unfold toNat? at read
  split at read
  · split at read
    · obtain rfl := Option.some.inj read
      assumption
    · cases read
  · cases read

def DocumentField.numbers (field : DocumentField) : List Nat :=
  field.offset :: (field.bitWidth.toList ++ field.size.toList ++ field.elementSize.toList ++
    field.length.toList)

/-- Every number in the document has 64 bits, at every depth. -/
inductive Document.WordSized : Document → Prop where
  | intro {document : Document} (bits : document.bits < UInt64.size)
      (bytes : document.bytes < UInt64.size)
      (numbers : ∀ field ∈ document.fields, ∀ n ∈ field.numbers, n < UInt64.size)
      (inside : ∀ field ∈ document.fields, ∀ inner, field.nested = some inner → inner.WordSized) :
      document.WordSized

def Document.entries (document : Document) : List (String × Option Json) :=
  [("struct_name", some (.str document.name)), ("endianness", some (.str document.order.name)),
    ("total_bits", some (.nat document.bits)), ("total_bytes", some (.nat document.bytes)),
    ("fields", some (.arr (fieldsToJson document.fields)))]

theorem Document.entries_distinct (document : Document) :
    (document.entries.map Prod.fst).Nodup := by
  have names : document.entries.map Prod.fst = memberNames := rfl
  rw [names]
  decide

def DocumentField.entries (field : DocumentField) : List (String × Option Json) :=
  [("name", some (.str field.name)), ("type", some (.str field.type)),
    ("bit_offset", some (.nat field.offset)), ("bit_width", field.bitWidth.map .nat),
    ("mask", field.mask.map .str), ("size", field.size.map .nat),
    ("element_size", field.elementSize.map .nat), ("array_length", field.length.map .nat),
    ("nested", field.nested.map Document.toJson)]

theorem DocumentField.entries_distinct (field : DocumentField) :
    (field.entries.map Prod.fst).Nodup := by
  have names : field.entries.map Prod.fst = memberNames := rfl
  rw [names]
  decide

theorem DocumentField.toJson_eq (field : DocumentField) :
    field.toJson = .obj (membersOf field.entries) := by
  obtain ⟨name, type, offset, bitWidth, mask, size, elementSize, length, nested⟩ := field
  have optional {α : Type} (name : String) (toJson : α → Json) (value : Option α) :
      optionalMember name toJson value = ((value.map toJson).map (name, ·)).toList := by
    cases value <;> rfl
  have embedded : nestedMember nested =
      ((nested.map Document.toJson).map ("nested", ·)).toList := by
    cases nested <;> rw [nestedMember] <;> rfl
  rw [toJson, embedded]
  simp only [optional, entries, membersOf, List.flatMap_cons, List.flatMap_nil, Option.map_some,
    Option.toList_some, List.append_assoc, List.append_nil, List.cons_append,
    List.nil_append]

/-- What is written of a field: texts, its numbers and the document nested in it. -/
theorem DocumentField.eq_of_mem_entries {field : DocumentField} {name : String} {json : Json}
    (entry : (name, some json) ∈ field.entries) :
    (∃ text, json = .str text) ∨ (∃ n ∈ field.numbers, json = .nat n) ∨
      ∃ inner, field.nested = some inner ∧ json = inner.toJson := by
  simp only [entries, List.mem_cons, Prod.mk.injEq, Option.some.injEq, List.not_mem_nil,
    or_false, Option.some_eq_map_iff] at entry
  rcases entry with ⟨_, rfl⟩ | ⟨_, rfl⟩ | ⟨_, rfl⟩ | ⟨_, n, there, rfl⟩ | ⟨_, text, _, rfl⟩ |
    ⟨_, n, there, rfl⟩ | ⟨_, n, there, rfl⟩ | ⟨_, n, there, rfl⟩ | ⟨_, inner, embeds, rfl⟩
  · exact .inl ⟨_, rfl⟩
  · exact .inl ⟨_, rfl⟩
  · exact .inr (.inl ⟨_, by simp [numbers], rfl⟩)
  · exact .inr (.inl ⟨n, by simp [numbers, there], rfl⟩)
  · exact .inl ⟨text, rfl⟩
  · exact .inr (.inl ⟨n, by simp [numbers, there], rfl⟩)
  · exact .inr (.inl ⟨n, by simp [numbers, there], rfl⟩)
  · exact .inr (.inl ⟨n, by simp [numbers, there], rfl⟩)
  · exact .inr (.inr ⟨inner, embeds, rfl⟩)

theorem fieldsToJson_eq (fields : List DocumentField) :
    fieldsToJson fields = fields.map DocumentField.toJson := by
  induction fields with
  | nil => rfl
  | cons field rest ih => rw [fieldsToJson, ih, List.map_cons]

theorem Json.itemsDepth_le_iff {items : List Json} {limit : Nat} :
    itemsDepth items ≤ limit ↔ ∀ item ∈ items, item.depth ≤ limit := by
  induction items with
  | nil => simp [itemsDepth]
  | cons item rest ih => rw [itemsDepth, Nat.max_le, ih, List.forall_mem_cons]

theorem Json.membersDepth_le_iff {members : List (String × Json)} {limit : Nat} :
    membersDepth members ≤ limit ↔ ∀ member ∈ members, member.2.depth ≤ limit := by
  induction members with
  | nil => simp [membersDepth]
  | cons member rest ih => rw [membersDepth, Nat.max_le, ih, List.forall_mem_cons]

/-- Only a nested document makes the value of a field deeper. -/
theorem DocumentField.depth_toJson_le_iff {field : DocumentField} {limit : Nat} :
    field.toJson.depth ≤ limit + 1 ↔
      ∀ inner, field.nested = some inner → inner.toJson.depth ≤ limit := by
  rw [toJson_eq, Json.depth, Nat.add_le_add_iff_right, Json.membersDepth_le_iff]
  constructor
  · intro all inner nested
    refine all ("nested", inner.toJson) (mem_membersOf_iff.mpr ?_)
    simp [entries, nested]
  · rintro nested ⟨name, json⟩ inside
    obtain ⟨text, rfl⟩ | ⟨n, _, rfl⟩ | ⟨inner, embeds, rfl⟩ :=
      eq_of_mem_entries (mem_membersOf_iff.mp inside)
    · exact Nat.zero_le limit
    · exact Nat.zero_le limit
    · exact nested inner embeds

/-- The value of a document adds two containers, the object and the list of its fields. -/
theorem Document.depth_toJson_le_iff {document : Document} {limit : Nat} :
    document.toJson.depth ≤ limit + 2 ↔
      ∀ field ∈ document.fields, field.toJson.depth ≤ limit := by
  obtain ⟨name, order, bits, bytes, fields⟩ := document
  have depth : (Document.toJson ⟨name, order, bits, bytes, fields⟩).depth =
      Json.itemsDepth (fieldsToJson fields) + 2 := by
    rw [toJson]
    simp [Json.depth, Json.membersDepth, Json.nat]
  rw [depth, Nat.add_le_add_iff_right, Json.itemsDepth_le_iff, fieldsToJson_eq,
    List.forall_mem_map]

theorem ByteOrder.ofJson?_name (order : ByteOrder) :
    ByteOrder.ofJson? (.str order.name) = some order :=
  ofName?_name order

/-- The value of the document is read where there is room for it, and only there. -/
def Document.ReadsBack (document : Document) : Prop :=
  ∀ limit, Document.read limit document.toJson =
    if document.toJson.depth ≤ limit then some document else none

theorem DocumentField.eta (field : DocumentField) :
    ⟨field.name, field.type, field.offset, field.bitWidth, field.mask, field.size,
      field.elementSize, field.length, field.nested⟩ = field := by
  cases field
  rfl

/-- All entries of a field but the nested document are read back. -/
theorem DocumentField.read_toJson_eq_map {field : DocumentField} (limit : Nat)
    (small : ∀ n ∈ field.numbers, n < UInt64.size) :
    DocumentField.read (limit + 1) field.toJson =
      (optional "nested" (Document.read limit) (membersOf field.entries)).map
        fun nested => { field with nested := nested } := by
  have distinct := field.entries_distinct
  have number (name : String) (entry : Option Nat)
      (member : (name, entry.map Json.nat) ∈ field.entries)
      (among : ∀ n, entry = some n → n ∈ field.numbers) :
      optional name Json.toNat? (membersOf field.entries) = some entry :=
    optional_written .nat distinct member nofun fun n found =>
      Json.toNat?_nat (small n (among n found))
  have name : required "name" Json.toStr? (membersOf field.entries) = some field.name :=
    required_membersOf (.str field.name) distinct (by simp [entries])
  have type : required "type" Json.toStr? (membersOf field.entries) = some field.type :=
    required_membersOf (.str field.type) distinct (by simp [entries])
  have offset : required "bit_offset" Json.toNat? (membersOf field.entries) =
      some field.offset :=
    (required_membersOf (.nat field.offset) distinct (by simp [entries])).trans
      (Json.toNat?_nat (small _ (by simp [numbers])))
  have bitWidth := number "bit_width" field.bitWidth (by simp [entries])
    (by simp +contextual [numbers])
  have mask : optional "mask" Json.toStr? (membersOf field.entries) = some field.mask :=
    optional_written .str distinct (by simp [entries]) nofun fun _ _ => rfl
  have size := number "size" field.size (by simp [entries]) (by simp +contextual [numbers])
  have elementSize := number "element_size" field.elementSize (by simp [entries])
    (by simp +contextual [numbers])
  have length := number "array_length" field.length (by simp [entries])
    (by simp +contextual [numbers])
  rw [toJson_eq, read]
  simp only [Json.members?, name, type, offset, bitWidth, mask, size, elementSize, length,
    Option.bind_eq_bind, Option.bind_some, Option.pure_def]
  cases optional "nested" (Document.read limit) (membersOf field.entries) <;> rfl

theorem DocumentField.read_toJson {field : DocumentField}
    (small : ∀ n ∈ field.numbers, n < UInt64.size)
    (embedded : ∀ inner, field.nested = some inner → inner.ReadsBack) (limit : Nat) :
    DocumentField.read limit field.toJson =
      if field.toJson.depth ≤ limit then some field else none := by
  cases limit with
  | zero =>
    have deep : ¬ field.toJson.depth ≤ 0 := by
      rw [toJson_eq, Json.depth]
      omega
    rw [if_neg deep, read]
  | succ limit =>
    rw [read_toJson_eq_map limit small]
    have distinct := field.entries_distinct
    cases nested : field.nested with
    | none =>
      have flat : field.toJson.depth ≤ limit + 1 := by
        rw [depth_toJson_le_iff, nested]
        exact nofun
      rw [if_pos flat, optional_absent distinct (by simp [entries, nested]), Option.map_some,
        ← nested, field.eta]
    | some inner =>
      have depth : field.toJson.depth ≤ limit + 1 ↔ inner.toJson.depth ≤ limit := by
        rw [depth_toJson_le_iff, nested]
        simp
      have written : inner.toJson ≠ .null := by
        cases inner
        rw [Document.toJson]
        exact nofun
      simp only [depth]
      rw [optional_present distinct (by simp [entries, nested]) written,
        embedded inner nested limit]
      split
      · rw [Option.map_some, Option.map_some, ← nested, field.eta]
      · rfl

theorem readDocumentFields_fieldsToJson {fields : List DocumentField} {limit : Nat}
    (each : ∀ field ∈ fields, DocumentField.read limit field.toJson =
      if field.toJson.depth ≤ limit then some field else none) :
    (fieldsToJson fields).mapM (DocumentField.read limit) =
      if ∀ field ∈ fields, field.toJson.depth ≤ limit then some fields else none := by
  induction fields with
  | nil => rfl
  | cons field rest ih =>
    have later := ih fun other member => each other (List.mem_cons_of_mem _ member)
    rw [fieldsToJson, List.mapM_cons, each field List.mem_cons_self, later]
    have all : (∀ other ∈ field :: rest, other.toJson.depth ≤ limit) ↔
        field.toJson.depth ≤ limit ∧ ∀ other ∈ rest, other.toJson.depth ≤ limit :=
      List.forall_mem_cons
    by_cases here : field.toJson.depth ≤ limit
    · by_cases others : ∀ other ∈ rest, other.toJson.depth ≤ limit
      · rw [if_pos here, if_pos others, if_pos (all.mpr ⟨here, others⟩)]
        rfl
      · rw [if_pos here, if_neg others, if_neg (mt (fun every => (all.mp every).2) others)]
        rfl
    · rw [if_neg here, if_neg (mt (fun every => (all.mp every).1) here)]
      rfl

/-- All entries of a document but the fields are read back. -/
theorem Document.read_toJson_eq_map {document : Document} (limit : Nat)
    (bits : document.bits < UInt64.size) (bytes : document.bytes < UInt64.size) :
    Document.read (limit + 1) document.toJson =
      (readDocumentFields limit (.arr (fieldsToJson document.fields))).map
        fun fields => ⟨document.name, document.order, document.bits, document.bytes, fields⟩ := by
  have distinct := document.entries_distinct
  have name : required "struct_name" Json.toStr? (membersOf document.entries) =
      some document.name :=
    required_membersOf (.str document.name) distinct (by simp [entries])
  have order : required "endianness" ByteOrder.ofJson? (membersOf document.entries) =
      some document.order :=
    (required_membersOf (.str document.order.name) distinct (by simp [entries])).trans
      document.order.ofJson?_name
  have bits : required "total_bits" Json.toNat? (membersOf document.entries) =
      some document.bits :=
    (required_membersOf (.nat document.bits) distinct (by simp [entries])).trans
      (Json.toNat?_nat bits)
  have bytes : required "total_bytes" Json.toNat? (membersOf document.entries) =
      some document.bytes :=
    (required_membersOf (.nat document.bytes) distinct (by simp [entries])).trans
      (Json.toNat?_nat bytes)
  have fields : required "fields" (readDocumentFields limit) (membersOf document.entries) =
      readDocumentFields limit (.arr (fieldsToJson document.fields)) :=
    required_membersOf _ distinct (by simp [entries])
  have members : document.toJson = .obj (membersOf document.entries) := by
    cases document
    rw [toJson]
    rfl
  rw [members, read]
  simp only [Json.members?, name, order, bits, bytes, fields, Option.bind_eq_bind,
    Option.bind_some, Option.pure_def]
  cases readDocumentFields limit (.arr (fieldsToJson document.fields)) <;> rfl

/-- A document of 64-bit numbers is read back where there is room for it. -/
theorem Document.WordSized.readsBack {document : Document} (small : document.WordSized) :
    document.ReadsBack := by
  induction small with
  | @intro document bits bytes numbers _ ih =>
    intro limit
    have deep : 1 < document.toJson.depth := by
      cases document
      rw [toJson]
      simp [Json.depth, Json.membersDepth]
    match limit with
    | 0 => rw [if_neg (by omega), read]
    | 1 =>
      rw [if_neg (by omega), read_toJson_eq_map 0 bits bytes]
      rfl
    | limit + 2 =>
      have depth : document.toJson.depth ≤ limit + 2 ↔ _ := depth_toJson_le_iff
      have fields := @readDocumentFields_fieldsToJson document.fields limit
        fun field member =>
          DocumentField.read_toJson (numbers field member) (ih field member) limit
      rw [read_toJson_eq_map _ bits bytes, readDocumentFields, fields]
      simp only [depth]
      split
      · cases document
        rfl
      · rfl

section Inversion

variable {α : Type} {name : String} {read : Json → Option α} {members : List (String × Json)}

theorem exists_of_required {value : α} (found : required name read members = some value) :
    ∃ json, read json = some value := by
  obtain ⟨_, _, found⟩ := Option.bind_eq_some_iff.mp found
  obtain ⟨json, _, found⟩ := Option.bind_eq_some_iff.mp found
  exact ⟨json, found⟩

theorem exists_of_optional {entry : Option α} {value : α}
    (found : optional name read members = some entry) (there : entry = some value) :
    ∃ json, read json = some value := by
  subst there
  obtain ⟨member, _, found⟩ := Option.bind_eq_some_iff.mp found
  split at found
  · cases found
  · cases found
  · obtain ⟨other, present, same⟩ := Option.map_eq_some_iff.mp found
    obtain rfl := Option.some.inj same
    exact ⟨_, present⟩

private theorem exists_of_mem_mapM {items : List Json} {values : List α} {value : α}
    (found : items.mapM read = some values) (member : value ∈ values) :
    ∃ json, read json = some value := by
  induction items generalizing values with
  | nil =>
    rw [List.mapM_nil] at found
    obtain rfl := Option.some.inj found
    cases member
  | cons item rest ih =>
    rw [List.mapM_cons] at found
    obtain ⟨first, here, found⟩ := Option.bind_eq_some_iff.mp found
    obtain ⟨others, later, found⟩ := Option.bind_eq_some_iff.mp found
    obtain rfl := Option.some.inj found
    rcases List.mem_cons.mp member with rfl | member
    · exact ⟨item, here⟩
    · exact ih later member

end Inversion

theorem exists_of_readDocumentFields {limit : Nat} {json : Json} {fields : List DocumentField}
    {field : DocumentField} (read : readDocumentFields limit json = some fields)
    (member : field ∈ fields) :
    ∃ lower json, limit = lower + 1 ∧ DocumentField.read lower json = some field := by
  unfold readDocumentFields at read
  split at read
  · rename_i lower items
    obtain ⟨item, found⟩ := exists_of_mem_mapM read member
    exact ⟨lower, item, rfl, found⟩
  · cases read

theorem DocumentField.wordSized_of_read {limit : Nat} {json : Json} {field : DocumentField}
    (read : DocumentField.read limit json = some field) :
    (∀ n ∈ field.numbers, n < UInt64.size) ∧
      ∀ inner, field.nested = some inner →
        ∃ lower < limit, ∃ json, Document.read lower json = some inner := by
  cases limit with
  | zero => cases read
  | succ limit =>
    rw [DocumentField.read] at read
    obtain ⟨members, _, read⟩ := Option.bind_eq_some_iff.mp read
    obtain ⟨name, _, read⟩ := Option.bind_eq_some_iff.mp read
    obtain ⟨type, _, read⟩ := Option.bind_eq_some_iff.mp read
    obtain ⟨offset, offsetRead, read⟩ := Option.bind_eq_some_iff.mp read
    obtain ⟨bitWidth, bitWidthRead, read⟩ := Option.bind_eq_some_iff.mp read
    obtain ⟨mask, _, read⟩ := Option.bind_eq_some_iff.mp read
    obtain ⟨size, sizeRead, read⟩ := Option.bind_eq_some_iff.mp read
    obtain ⟨elementSize, elementSizeRead, read⟩ := Option.bind_eq_some_iff.mp read
    obtain ⟨length, lengthRead, read⟩ := Option.bind_eq_some_iff.mp read
    obtain ⟨nested, nestedRead, read⟩ := Option.bind_eq_some_iff.mp read
    obtain rfl := Option.some.inj read
    refine ⟨?_, fun inner there => ⟨limit, Nat.lt_succ_self limit,
      exists_of_optional nestedRead there⟩⟩
    have number {name : String} {entry : Option Nat}
        (found : optional name Json.toNat? members = some entry) (n : Nat)
        (there : entry = some n) : n < UInt64.size := by
      obtain ⟨json, found⟩ := exists_of_optional found there
      exact Json.lt_of_toNat? found
    intro n member
    simp only [numbers, List.mem_cons, List.mem_append, Option.mem_toList] at member
    rcases member with rfl | ((wide | sized) | sized) | long
    · obtain ⟨json, found⟩ := exists_of_required offsetRead
      exact Json.lt_of_toNat? found
    · exact number bitWidthRead n wide
    · exact number sizeRead n sized
    · exact number elementSizeRead n sized
    · exact number lengthRead n long

/-- A document that was read has 64-bit numbers only. -/
theorem Document.wordSized_of_read {limit : Nat} {json : Json} {document : Document}
    (read : Document.read limit json = some document) : document.WordSized := by
  induction limit using Nat.strongRecOn generalizing json document with
  | ind limit ih =>
    cases limit with
    | zero => cases read
    | succ limit =>
      rw [Document.read] at read
      obtain ⟨members, _, read⟩ := Option.bind_eq_some_iff.mp read
      obtain ⟨name, _, read⟩ := Option.bind_eq_some_iff.mp read
      obtain ⟨order, _, read⟩ := Option.bind_eq_some_iff.mp read
      obtain ⟨bits, bitsRead, read⟩ := Option.bind_eq_some_iff.mp read
      obtain ⟨bytes, bytesRead, read⟩ := Option.bind_eq_some_iff.mp read
      obtain ⟨fields, fieldsRead, read⟩ := Option.bind_eq_some_iff.mp read
      obtain rfl := Option.some.inj read
      obtain ⟨_, bits⟩ := exists_of_required bitsRead
      obtain ⟨_, bytes⟩ := exists_of_required bytesRead
      obtain ⟨_, fieldsRead⟩ := exists_of_required fieldsRead
      refine .intro (Json.lt_of_toNat? bits) (Json.lt_of_toNat? bytes) ?_ ?_
      · intro field member
        obtain ⟨lower, _, _, fieldRead⟩ := exists_of_readDocumentFields fieldsRead member
        exact (DocumentField.wordSized_of_read fieldRead).1
      · intro field member inner nested
        obtain ⟨lower, _, rfl, fieldRead⟩ := exists_of_readDocumentFields fieldsRead member
        obtain ⟨deeper, below, _, innerRead⟩ :=
          (DocumentField.wordSized_of_read fieldRead).2 inner nested
        exact ih deeper (by omega) innerRead

end PackedStruct
