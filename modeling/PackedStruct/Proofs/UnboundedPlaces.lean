import Mathlib.Order.Bounds.Basic
import PackedStruct.Proofs.WellFormed

/-! Placement against the walk over unbounded numbers. A struct gets the places of that walk, or it
is refused at the first member that ends behind the limit there: no sum or product of 64 bits makes
a struct small that is too large. -/

namespace PackedStruct

/-- The first bit of a field behind the cursor. A bitfield starts at the cursor, any other type at
the least multiple of its width from there upwards. A struct without bits starts at the cursor. -/
def FieldType.StartsAt (cursor offset : Nat) : FieldType → Prop
  | .bitfield _ _ => offset = cursor
  | .plain base => IsLeast {place | cursor ≤ place ∧ base.bits ∣ place} offset
  | .nested layout =>
    if layout.bits = 0 then offset = cursor
    else IsLeast {place | cursor ≤ place ∧ layout.bits ∣ place} offset

/-- The walk past members over numbers without a bound: the fields, and the cursor behind them. Each
field moves the cursor from its first bit on by the width of an element for every element. -/
inductive Walk : Nat → List Member → List Field → Nat → Prop where
  | nil {cursor : Nat} : Walk cursor [] [] cursor
  | cons {cursor total : Nat} {member : Member} {rest : List Member} {field : Field}
      {fields : List Field} (start : field.type.StartsAt cursor field.offset)
      (same : field.member = member)
      (later : Walk (field.offset + field.type.width * field.count) rest fields total) :
      Walk cursor (member :: rest) (field :: fields) total

/-- The least multiple of the alignment from the cursor upwards, or the cursor if the alignment is
zero. -/
def ceiling (cursor alignment : Nat) : Nat :=
  cursor + (alignment - cursor % alignment) % alignment

theorem ceiling_zero (cursor : Nat) : ceiling cursor 0 = cursor := by
  simp [ceiling]

theorem ceiling_one (cursor : Nat) : ceiling cursor 1 = cursor := by
  simp [ceiling, Nat.mod_one]

theorem ceiling_of_mod_eq_zero {cursor alignment : Nat} (multiple : cursor % alignment = 0) :
    ceiling cursor alignment = cursor := by
  simp [ceiling, multiple]

theorem ceiling_of_mod_ne_zero {cursor alignment : Nat} (aligns : 0 < alignment)
    (between : cursor % alignment ≠ 0) :
    ceiling cursor alignment = cursor + (alignment - cursor % alignment) := by
  have short := Nat.mod_lt cursor aligns
  rw [ceiling, Nat.mod_eq_of_lt (by omega)]

theorem isLeast_ceiling (cursor : Nat) {alignment : Nat} (aligns : 0 < alignment) :
    IsLeast {place | cursor ≤ place ∧ alignment ∣ place} (ceiling cursor alignment) := by
  have whole := Nat.div_add_mod cursor alignment
  have short := Nat.mod_lt cursor aligns
  by_cases multiple : cursor % alignment = 0
  · rw [ceiling_of_mod_eq_zero multiple]
    exact ⟨⟨Nat.le_refl _, Nat.dvd_of_mod_eq_zero multiple⟩, fun place behind => behind.1⟩
  · have next : ceiling cursor alignment = alignment * (cursor / alignment + 1) := by
      rw [ceiling_of_mod_ne_zero aligns multiple, Nat.mul_succ]
      omega
    rw [next]
    refine ⟨⟨?_, Nat.dvd_mul_right _ _⟩, ?_⟩
    · rw [Nat.mul_succ]
      omega
    · intro place behind
      obtain ⟨factor, rfl⟩ := behind.2
      apply Nat.mul_le_mul_left
      -- The multiple before the next one lies before the cursor.
      have above : alignment * (cursor / alignment) < alignment * factor := by
        have start : cursor ≤ alignment * factor := behind.1
        omega
      exact Nat.lt_of_mul_lt_mul_left above

/-- The next multiple is found wherever it has 64 bits. -/
theorem nextMultiple?_eq_some_iff {cursor alignment offset : Nat} (small : offset < UInt64.size) :
    nextMultiple? cursor alignment = some offset ↔ offset = ceiling cursor alignment := by
  by_cases already : alignment = 0 ∨ cursor % alignment = 0
  · have stays : ceiling cursor alignment = cursor := by
      rcases already with none | multiple
      · rw [none, ceiling_zero]
      · exact ceiling_of_mod_eq_zero multiple
    rw [nextMultiple?, if_pos already, stays, Option.some_inj, eq_comm]
  · have aligns : 0 < alignment := by omega
    have between : cursor % alignment ≠ 0 := by omega
    rw [nextMultiple?, if_neg already, Word.add?_eq_some_iff,
      ceiling_of_mod_ne_zero aligns between]
    omega

theorem BaseType.bits_pos (base : BaseType) : 0 < base.bits := by
  cases base <;> decide

theorem FieldType.startsAt_iff {type : FieldType} {cursor offset : Nat} :
    type.StartsAt cursor offset ↔ offset = ceiling cursor type.alignment := by
  have least {width : Nat} (wide : 0 < width) :
      IsLeast {place | cursor ≤ place ∧ width ∣ place} offset ↔ offset = ceiling cursor width := by
    constructor
    · exact fun found => found.unique (isLeast_ceiling cursor wide)
    · intro same
      rw [same]
      exact isLeast_ceiling cursor wide
  cases type with
  | bitfield base width => rw [StartsAt, alignment, ceiling_one]
  | plain base => exact least base.bits_pos
  | nested layout =>
    show (if layout.bits = 0 then offset = cursor else _) ↔ offset = ceiling cursor layout.bits
    by_cases empty : layout.bits = 0
    · rw [if_pos empty, empty, ceiling_zero]
    · rw [if_neg empty]
      exact least (Nat.pos_of_ne_zero empty)

theorem Field.eq_of_member {field other : Field} (member : field.member = other.member)
    (offset : field.offset = other.offset) : field = other := by
  cases field
  cases other
  simp_all [Field.member]

/-- A member is placed where the walk has it, unless it ends behind the limit there. -/
theorem Member.place?_eq {cursor : Nat} {field : Field}
    (start : field.type.StartsAt cursor field.offset) :
    field.member.place? cursor =
      if field.range.stop ≤ maxLayoutBits then some (field, field.range.stop) else none := by
  have limit : maxLayoutBits < UInt64.size := by decide
  have small (other : Field) (within : other.range.stop ≤ maxLayoutBits) :
      other.offset < UInt64.size := by
    have before : other.offset ≤ other.range.stop := Nat.le_add_right _ _
    omega
  have place := FieldType.startsAt_iff.mp start
  by_cases within : field.range.stop ≤ maxLayoutBits
  · rw [if_pos within, place?_eq_some_iff]
    exact ⟨(nextMultiple?_eq_some_iff (small field within)).mpr place, rfl, rfl, within⟩
  · rw [if_neg within, Option.eq_none_iff_forall_ne_some]
    intro found placed
    obtain ⟨other, stop⟩ := found
    obtain ⟨next, same, ending, below⟩ := place?_eq_some_iff.mp placed
    rw [ending] at below
    rw [nextMultiple?_eq_some_iff (small other below)] at next
    rw [Field.eq_of_member same (next.trans place.symm)] at below
    exact within below

/-- There is always a walk: no number is too large for it. -/
theorem exists_walk (cursor : Nat) (members : List Member) :
    ∃ fields total, Walk cursor members fields total := by
  induction members generalizing cursor with
  | nil => exact ⟨[], cursor, .nil⟩
  | cons member rest ih =>
    let field : Field :=
      ⟨member.name, member.type, member.length, ceiling cursor member.type.alignment⟩
    obtain ⟨fields, total, later⟩ := ih (field.offset + field.type.width * field.count)
    exact ⟨field :: fields, total, .cons (FieldType.startsAt_iff.mpr rfl) rfl later⟩

theorem Walk.unique {cursor total stop : Nat} {members : List Member} {fields others : List Field}
    (walk : Walk cursor members fields total) (other : Walk cursor members others stop) :
    others = fields ∧ stop = total := by
  induction walk generalizing others with
  | nil =>
    cases other
    exact ⟨rfl, rfl⟩
  | @cons _ _ _ _ field _ start same later ih =>
    cases other with
    | @cons _ _ _ _ twin _ starts sameTwin rest =>
      have member := sameTwin.trans same.symm
      have type : twin.type = field.type := congrArg Member.type member
      rw [FieldType.startsAt_iff, type] at starts
      have offset := starts.trans (FieldType.startsAt_iff.mp start).symm
      obtain rfl := Field.eq_of_member member offset
      obtain ⟨rfl, rfl⟩ := ih rest
      exact ⟨rfl, rfl⟩

theorem Walk.append {cursor middle total : Nat} {members more : List Member}
    {fields others : List Field} (walk : Walk cursor members fields middle)
    (later : Walk middle more others total) :
    Walk cursor (members ++ more) (fields ++ others) total := by
  induction walk with
  | nil => exact later
  | cons start same _ ih => exact .cons start same (ih later)

/-- The walk goes upwards. -/
theorem Walk.cursor_le {cursor total : Nat} {members : List Member} {fields : List Field}
    (walk : Walk cursor members fields total) : cursor ≤ total := by
  induction walk with
  | nil => exact Nat.le_refl _
  | cons start _ _ ih =>
    have place := FieldType.startsAt_iff.mp start
    rw [ceiling] at place
    omega

theorem Walk.map_member {cursor total : Nat} {members : List Member} {fields : List Field}
    (walk : Walk cursor members fields total) : fields.map Field.member = members := by
  induction walk with
  | nil => rfl
  | cons _ same _ ih => rw [List.map_cons, same, ih]

def Field.tooFar (field : Field) : Bool :=
  maxLayoutBits < field.range.stop

theorem Field.tooFar_iff (field : Field) : field.tooFar = true ↔ 2 ^ 30 < field.range.stop := by
  have limit : maxLayoutBits = 2 ^ 30 := by decide
  rw [tooFar, decide_eq_true_iff, limit]

theorem Field.not_tooFar_iff (field : Field) :
    ¬ field.tooFar = true ↔ field.range.stop ≤ 2 ^ 30 := by
  rw [tooFar_iff, Nat.not_lt]

/-- The members get the places of the walk up to the first field that ends behind the limit. -/
theorem Walk.placeAll_eq {cursor total : Nat} {members : List Member} {fields : List Field}
    (walk : Walk cursor members fields total) :
    placeAll cursor members =
      match fields.find? Field.tooFar with
      | none => .ok (fields, total)
      | some field => .error field.name := by
  induction walk with
  | nil => rfl
  | @cons cursor total member rest field fields start same later ih =>
    have placed := Member.place?_eq start
    have ending : field.offset + field.type.width * field.count = field.range.stop := rfl
    rw [same] at placed
    rw [ending] at ih
    rw [placeAll, placed]
    by_cases within : field.range.stop ≤ maxLayoutBits
    · have near : ¬ field.tooFar = true := field.not_tooFar_iff.mpr within
      rw [if_pos within, List.find?_cons_of_neg near]
      dsimp only
      rw [ih]
      cases fields.find? Field.tooFar <;> rfl
    · have far : field.tooFar = true := field.tooFar_iff.mpr (Nat.lt_of_not_le within)
      have name : member.name = field.name := by
        rw [← same]
        rfl
      rw [if_neg within, List.find?_cons_of_pos far]
      exact congrArg Except.error name

namespace Layout

section OfMembers

variable {name : String} {order : ByteOrder} {members : List Member} {fields : List Field}
  {total : Nat}

theorem ofMembers_eq_ok_iff_of_walk (walk : Walk 0 members fields total) {layout : Layout} :
    ofMembers name order members = .ok layout ↔
      (∀ field ∈ fields, field.range.stop ≤ 2 ^ 30) ∧ layout = ⟨name, order, fields, total⟩ := by
  rw [ofMembers, walk.placeAll_eq]
  cases found : fields.find? Field.tooFar with
  | none =>
    have within := List.find?_eq_none.mp found
    simp only [Field.not_tooFar_iff] at within
    constructor
    · intro made
      exact ⟨within, (Except.ok.inj made).symm⟩
    · intro both
      rw [both.2]
  | some field =>
    have behind := field.tooFar_iff.mp (List.find?_some found)
    have member := List.mem_of_find?_eq_some found
    constructor
    · exact nofun
    · intro both
      have within := both.1 field member
      omega

theorem exists_ofMembers_iff_of_walk (walk : Walk 0 members fields total) :
    (∃ layout, ofMembers name order members = .ok layout) ↔
      ∀ field ∈ fields, field.range.stop ≤ 2 ^ 30 := by
  constructor
  · intro made
    obtain ⟨layout, made⟩ := made
    exact ((ofMembers_eq_ok_iff_of_walk walk).mp made).1
  · intro within
    exact ⟨_, (ofMembers_eq_ok_iff_of_walk walk).mpr ⟨within, rfl⟩⟩

theorem ofMembers_eq_error_iff_of_walk (walk : Walk 0 members fields total) {cause : TooLarge} :
    ofMembers name order members = .error cause ↔
      ∃ before field after, fields = before ++ field :: after ∧
        (∀ earlier ∈ before, earlier.range.stop ≤ 2 ^ 30) ∧ 2 ^ 30 < field.range.stop ∧
        cause = ⟨name, field.name⟩ := by
  rw [ofMembers, walk.placeAll_eq]
  constructor
  · intro failed
    cases found : fields.find? Field.tooFar with
    | none =>
      rw [found] at failed
      cases failed
    | some field =>
      rw [found] at failed
      obtain ⟨behind, before, after, split, near⟩ := List.find?_eq_some_iff_append.mp found
      refine ⟨before, field, after, split, ?_, field.tooFar_iff.mp behind,
        (Except.error.inj failed).symm⟩
      intro earlier member
      apply earlier.not_tooFar_iff.mp
      simpa using near earlier member
  · rintro ⟨before, field, after, split, within, behind, same⟩
    have found : fields.find? Field.tooFar = some field := by
      apply List.find?_eq_some_iff_append.mpr
      refine ⟨field.tooFar_iff.mpr behind, before, after, split, ?_⟩
      intro earlier member
      simpa using earlier.not_tooFar_iff.mpr (within earlier member)
    rw [found, same]

end OfMembers

/-- The layout of some members is that of the walk over unbounded numbers, of which there is exactly
one, if every field ends within the limit there. Otherwise the first field that does not is the one
that is reported. -/
theorem ofMembers_walk (name : String) (order : ByteOrder) (members : List Member) :
    ∃ fields total,
      (∀ others stop, Walk 0 members others stop ↔ others = fields ∧ stop = total) ∧
      (∀ layout, ofMembers name order members = .ok layout ↔
        (∀ field ∈ fields, field.range.stop ≤ 2 ^ 30) ∧ layout = ⟨name, order, fields, total⟩) ∧
      ∀ cause, ofMembers name order members = .error cause ↔
        ∃ before field after, fields = before ++ field :: after ∧
          (∀ earlier ∈ before, earlier.range.stop ≤ 2 ^ 30) ∧ 2 ^ 30 < field.range.stop ∧
          cause = ⟨name, field.name⟩ := by
  obtain ⟨fields, total, walk⟩ := exists_walk 0 members
  refine ⟨fields, total, ?_, ?_, ?_⟩
  · intro others stop
    constructor
    · exact fun other => walk.unique other
    · intro same
      rw [same.1, same.2]
      exact walk
  · intro layout
    exact ofMembers_eq_ok_iff_of_walk walk
  · intro cause
    exact ofMembers_eq_error_iff_of_walk walk

/-- An array of bytes whose bits are counted by zero in 64 bits is too large all the same. -/
example : ofMembers "wide" .little [⟨"flag", .bitfield .char 1, none⟩,
    ⟨"cells", .plain .char, some (2 ^ 61)⟩] = .error ⟨"wide", "cells"⟩ := rfl

end Layout

end PackedStruct
