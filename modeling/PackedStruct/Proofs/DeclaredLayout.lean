import PackedStruct.Definition.Resolve
import PackedStruct.Definition.Source
import PackedStruct.Proofs.Admissible
import PackedStruct.Proofs.Lookup

namespace PackedStruct

namespace Catalog

/-- Every layout is found under its own name and can be stored. -/
def Sound (catalog : Catalog) : Prop :=
  ∀ name layout, catalog.get? name = some layout → layout.name = name ∧ layout.Storable

variable {catalog : Catalog} {layout : Layout}

theorem get?_insert (name : String) :
    (catalog.insert layout).get? name =
      if name = layout.name then some layout else catalog.get? name :=
  catalog.layouts.get?_insert layout.name layout name

theorem sound_empty : empty.Sound :=
  nofun

theorem Sound.insert (sound : catalog.Sound) (storable : layout.Storable) :
    (catalog.insert layout).Sound := by
  intro name found known
  rw [get?_insert] at known
  split at known
  · rename_i own
    obtain rfl := Option.some.inj known
    exact ⟨own.symm, storable⟩
  · exact sound name found known

theorem Sound.insertIfNew (sound : catalog.Sound) (storable : layout.Storable) :
    (catalog.insertIfNew layout).Sound := by
  unfold Catalog.insertIfNew
  split
  · exact sound
  · exact sound.insert storable

end Catalog

namespace Definition

/-- A width is positive and belongs to no array, and a length is a positive number of 64 bits. -/
structure MemberDeclaration.Lawful (declared : MemberDeclaration) : Prop where
  width : ∀ width, declared.width = some width → 1 ≤ width ∧ declared.length = none
  length : ∀ length, declared.length = some length → 1 ≤ length ∧ length < UInt64.size

structure Declaration.Lawful (declared : Declaration) : Prop where
  members : ∀ member ∈ declared.members, member.Lawful
  distinct : (declared.members.map MemberDeclaration.name).Nodup

section Grammar

variable {last : Position} {tokens rest : List PlacedToken}

theorem bounds_of_takePositive {expected : Expected} {n : Nat}
    (taken : takePositive last expected tokens = .ok (n, rest)) : 1 ≤ n ∧ n < UInt64.size := by
  unfold takePositive at taken
  split at taken
  · rename_i value _ _
    split at taken
    · cases taken
    · rename_i positive
      cases taken
      refine ⟨Nat.one_le_iff_ne_zero.mpr fun zero => positive ?_, value.toNat_lt⟩
      exact UInt64.toNat_inj.mp zero
  · cases taken

theorem one_le_of_takeWidth {width : Nat} (taken : takeWidth last tokens = .ok (some width, rest)) :
    1 ≤ width := by
  unfold takeWidth at taken
  split at taken
  · obtain ⟨⟨n, after⟩, positive, same⟩ := bind_eq_ok_iff.mp taken
    cases same
    exact (bounds_of_takePositive positive).1
  · cases taken

theorem bounds_of_takeLength {name : String} {width : Option Nat} {length : Nat}
    (taken : takeLength last name width tokens = .ok (some length, rest)) :
    width = none ∧ 1 ≤ length ∧ length < UInt64.size := by
  unfold takeLength at taken
  split at taken
  · split at taken
    · cases taken
    · rename_i flat
      obtain ⟨⟨n, after⟩, positive, taken⟩ := bind_eq_ok_iff.mp taken
      obtain ⟨closed, bracket, same⟩ := bind_eq_ok_iff.mp taken
      cases same
      exact ⟨by simpa using flat, bounds_of_takePositive positive⟩
  · cases taken

theorem lawful_of_takeMember {member : MemberDeclaration}
    (taken : takeMember last tokens = .ok (member, rest)) : member.Lawful := by
  unfold takeMember at taken
  obtain ⟨⟨type, position, afterType⟩, _, taken⟩ := bind_eq_ok_iff.mp taken
  obtain ⟨⟨name, _, afterName⟩, _, taken⟩ := bind_eq_ok_iff.mp taken
  obtain ⟨⟨width, afterWidth⟩, takenWidth, taken⟩ := bind_eq_ok_iff.mp taken
  obtain ⟨⟨length, afterLength⟩, takenLength, taken⟩ := bind_eq_ok_iff.mp taken
  obtain ⟨afterMark, _, same⟩ := bind_eq_ok_iff.mp taken
  cases same
  constructor
  · rintro n rfl
    refine ⟨one_le_of_takeWidth takenWidth, ?_⟩
    cases length with
    | none => rfl
    | some length => cases (bounds_of_takeLength takenLength).1
  · rintro n rfl
    exact (bounds_of_takeLength takenLength).2

/-- Names that are taken before stay free of the fields. -/
theorem lawful_of_takeMembers {taken : List String} {members : List MemberDeclaration}
    (found : takeMembers last taken tokens = .ok (members, rest)) :
    (∀ member ∈ members, member.Lawful) ∧
      (∀ member ∈ members, member.name ∉ taken) ∧
        (members.map MemberDeclaration.name).Nodup := by
  fun_induction takeMembers last taken tokens generalizing members rest with
  | case1 => cases found
  | case2 =>
    cases found
    exact ⟨List.forall_mem_nil _, List.forall_mem_nil _, .nil⟩
  | case3 => cases found
  | case4 => cases found
  | case5 taken first rest' _ member after here free ih =>
    obtain ⟨⟨others, final⟩, later, same⟩ := bind_eq_ok_iff.mp found
    cases same
    obtain ⟨lawful, names⟩ := ih later
    exact ⟨List.forall_mem_cons.mpr ⟨lawful_of_takeMember here, lawful⟩,
      fresh_cons_iff.mpr ⟨by simpa using free, names⟩⟩

theorem lawful_of_takeDeclaration {declared : Declaration}
    (taken : takeDeclaration last tokens = .ok (declared, rest)) : declared.Lawful := by
  unfold takeDeclaration at taken
  obtain ⟨afterTypedef, _, taken⟩ := bind_eq_ok_iff.mp taken
  obtain ⟨afterStruct, _, taken⟩ := bind_eq_ok_iff.mp taken
  obtain ⟨afterOpen, _, taken⟩ := bind_eq_ok_iff.mp taken
  obtain ⟨⟨members, afterMembers⟩, takenMembers, taken⟩ := bind_eq_ok_iff.mp taken
  obtain ⟨⟨name, _, afterName⟩, _, taken⟩ := bind_eq_ok_iff.mp taken
  obtain ⟨afterMark, _, same⟩ := bind_eq_ok_iff.mp taken
  cases same
  obtain ⟨lawful, _, distinct⟩ := lawful_of_takeMembers takenMembers
  exact ⟨lawful, distinct⟩

theorem lawful_of_takeDeclarations {declarations : List Declaration}
    (taken : takeDeclarations last tokens = .ok declarations) :
    ∀ declared ∈ declarations, declared.Lawful := by
  fun_induction takeDeclarations last tokens generalizing declarations with
  | case1 => cases taken
  | case2 tokens declared rest here _ =>
    cases taken
    exact List.forall_mem_singleton.mpr (lawful_of_takeDeclaration here)
  | case3 tokens declared rest here _ ih =>
    obtain ⟨others, later, same⟩ := bind_eq_ok_iff.mp taken
    cases same
    exact List.forall_mem_cons.mpr ⟨lawful_of_takeDeclaration here, ih later⟩

end Grammar

theorem lawful_of_declarationOf {constants : Constants} {text : String} {declared : Declaration}
    (read : declarationOf constants text = .ok declared) : declared.Lawful := by
  obtain ⟨tokens, _, read⟩ := bind_eq_ok_iff.mp read
  obtain ⟨⟨first, rest⟩, taken, read⟩ := bind_eq_ok_iff.mp (mapError_eq_ok_iff.mp read)
  dsimp only at read
  split at read
  · cases read
    exact lawful_of_takeDeclaration taken
  · cases read

theorem lawful_of_declarationsOf {constants : Constants} {text : String}
    {declarations : List Declaration} (read : declarationsOf constants text = .ok declarations) :
    ∀ declared ∈ declarations, declared.Lawful := by
  obtain ⟨tokens, _, read⟩ := bind_eq_ok_iff.mp read
  exact lawful_of_takeDeclarations (mapError_eq_ok_iff.mp read)

variable {catalog : Catalog} {struct : String}

/-- A width that is not too large makes a bitfield, and a struct is looked up. -/
theorem MemberDeclaration.resolveType_eq_ok {declared : MemberDeclaration} {type : FieldType}
    (resolved : declared.resolveType struct catalog = .ok type) :
    (∃ base width, type = .bitfield base width ∧ declared.width = some width ∧
      width ≤ maxBitfieldWidth) ∨
    (∃ base, type = .plain base) ∨
    ∃ layout, type = .nested layout ∧ catalog.get? declared.type = some layout := by
  unfold resolveType at resolved
  split at resolved
  · cases resolved
  · rename_i width base narrowed _
    split at resolved
    · cases resolved
    · rename_i narrow
      cases resolved
      exact .inl ⟨base, width, rfl, narrowed, Nat.le_of_not_lt narrow⟩
  · cases resolved
    exact .inr (.inl ⟨_, rfl⟩)
  · split at resolved
    · cases resolved
    · split at resolved
      · rename_i layout known
        cases resolved
        exact .inr (.inr ⟨layout, rfl, known⟩)
      · cases resolved

theorem MemberDeclaration.Lawful.regular {declared : MemberDeclaration} (lawful : declared.Lawful)
    {type : FieldType} (resolved : declared.resolveType struct catalog = .ok type) :
    (Member.mk declared.name type declared.length).Regular := by
  refine ⟨fun base width bitfield => ?_, fun length array => (lawful.length length array).1⟩
  rcases declared.resolveType_eq_ok resolved with
    ⟨_, _, rfl, narrowed, narrow⟩ | ⟨_, rfl⟩ | ⟨_, rfl, _⟩
  · cases bitfield
    obtain ⟨positive, single⟩ := lawful.width width narrowed
    exact ⟨positive, narrow, single⟩
  · cases bitfield
  · cases bitfield

theorem MemberDeclaration.storable_of_resolveType {declared : MemberDeclaration} {inner : Layout}
    (sound : catalog.Sound)
    (resolved : declared.resolveType struct catalog = .ok (.nested inner)) : inner.Storable := by
  rcases declared.resolveType_eq_ok resolved with ⟨_, _, same, _⟩ | ⟨_, same⟩ | ⟨_, same, known⟩
  · cases same
  · cases same
  · cases same
    exact (sound _ _ known).2

/-- The layout of a lawful declaration can be stored. -/
theorem Declaration.Lawful.storable {declared : Declaration} (lawful : declared.Lawful)
    (sound : catalog.Sound) {order : ByteOrder} {layout : Layout}
    (made : declared.layout order catalog = .ok layout) : layout.Storable := by
  obtain ⟨members, resolved, made⟩ := bind_eq_ok_iff.mp made
  replace made := mapError_eq_ok_iff.mp made
  have each : List.Forall₂ (fun (member : MemberDeclaration) (result : Member) =>
      result = ⟨member.name, result.type, member.length⟩ ∧
        member.resolveType declared.name catalog = .ok result.type) declared.members members := by
    refine (mapM_eq_ok_iff.mp resolved).imp fun member result found => ?_
    obtain ⟨type, known, same⟩ := bind_eq_ok_iff.mp found
    cases same
    exact ⟨rfl, known⟩
  have declares (result : Member) (inside : result ∈ members) :
      ∃ member ∈ declared.members, result = ⟨member.name, result.type, member.length⟩ ∧
        member.resolveType declared.name catalog = .ok result.type :=
    exists_of_mem_right each inside
  have names : declared.members.map MemberDeclaration.name = members.map Member.name := by
    rw [← List.forall₂_eq_eq_eq, List.forall₂_map_left_iff, List.forall₂_map_right_iff]
    exact each.imp fun member result both => (congrArg Member.name both.1).symm
  have storable (result : Member) (inside : result ∈ members) (inner : Layout)
      (type : result.type = .nested inner) : inner.Storable := by
    obtain ⟨member, _, _, found⟩ := declares result inside
    rw [type] at found
    exact member.storable_of_resolveType sound found
  constructor
  · refine Layout.admissible_of_ofMembers made (names ▸ lawful.distinct) ?_ ?_
    · intro result inside
      obtain ⟨member, there, same, found⟩ := declares result inside
      rw [same]
      exact (lawful.members member there).regular found
    · exact fun result inside inner type => (storable result inside inner type).admissible
  · refine Layout.everywhere_of_ofMembers made ?_ ?_
    · obtain rfl := Layout.members_of_ofMembers made
      intro field inside length array
      obtain ⟨member, there, same, _⟩ := declares field.member (List.mem_map_of_mem inside)
      exact ((lawful.members member there).length length
        ((congrArg Member.length same).symm.trans array)).2
    · exact fun result inside inner type => (storable result inside inner type).lengths

/-- Entering the layouts of lawful declarations keeps the catalog sound. -/
theorem sound_of_layoutAll {order : ByteOrder} {declarations : List Declaration}
    {layouts : List Layout} {final : Catalog}
    (lawful : ∀ declared ∈ declarations, declared.Lawful) (sound : catalog.Sound)
    (made : layoutAll order catalog declarations = .ok (layouts, final)) : final.Sound := by
  induction declarations generalizing catalog layouts with
  | nil =>
    cases made
    exact sound
  | cons declared rest ih =>
    obtain ⟨here, later⟩ := List.forall_mem_cons.mp lawful
    obtain ⟨layout, first, made⟩ := bind_eq_ok_iff.mp made
    obtain ⟨⟨others, last⟩, made, same⟩ := bind_eq_ok_iff.mp made
    cases same
    exact ih later (sound.insert (here.storable sound first)) made

end Definition

end PackedStruct
