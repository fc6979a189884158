import FrontEnd.Proofs.Checks
import FrontEnd.Proofs.Justified
/-!
# FrontEnd — the values of enum types

A value is looked for by its name among the values of one enum type, and
the first that reads as the name is taken (`FirstValue`). The type that a
value belongs to is found in another way, by adding up how many values
the types have. Where the values of the types follow each other the two
agree (`enumTypeOf_eq`), also if some types have none, and if values
read the same; so no value belongs to two types (`IsValueOf.unique`).
What is found so is the type whose values have it among them, and nothing
is found exactly behind the values of the last type
(`enumTypeOf_inverts`).
-/

namespace FrontEnd

namespace Program

/-- The value is one of those of the enum type. -/
def IsValueOf (p : Program) (v : EnumValueId) (t : EnumTypeId) : Prop :=
  ∃ r, p.enumTypes.get t = .ok r ∧ v ∈ r.values.ids

/-- The value is the first of the enum type that reads as `name` does. -/
structure FirstValue (p : Program) (source : String) (t : EnumTypeId) (name : Span)
    (v : EnumValueId) : Prop where
  isValue : p.IsValueOf v t
  reads : ∃ w, p.enumValues.get v = .ok w ∧ w.name.read source = name.read source
  first : ∀ i w, p.IsValueOf i t → i.raw < v.raw → p.enumValues.get i = .ok w →
    w.name.read source ≠ name.read source

variable {p p' : Program} {source : String} {t t' : EnumTypeId} {v v' : EnumValueId} {name : Span}
variable {types : List EnumType} {r : EnumType} {start index stop i : Nat}

/-! ## The first value of a name -/

theorem FirstValue.hasValue (h : p.FirstValue source t name v) : p.HasValue source t name := by
  obtain ⟨⟨r, hr, hv⟩, ⟨w, hw, hread⟩, -⟩ := h
  exact ⟨r, v, w, hr, hv, hw, hread⟩

/-- The ids of a slice count up from the start of the range. -/
theorem raw_of_slice {k : RecordKind} {α : Type} {tbl : Table k α} {range : IdRange k}
    {l : List (RecordId k × α)} {entry : RecordId k × α} {n : Nat} (h : tbl.slice range = .ok l)
    (hentry : l[n]? = some entry) : entry.1.raw = range.start + n := by
  have hids := congrArg (·[n]?) (map_fst_slice h)
  simp only [List.getElem?_map, hentry, Option.map_some, IdRange.ids] at hids
  obtain ⟨raw, hraw, hid⟩ := Option.map_eq_some_iff.1 hids.symm
  obtain ⟨hlt, heq⟩ := List.getElem?_eq_some_iff.1 hraw
  rw [List.getElem_range', Nat.one_mul] at heq
  rw [← hid, ← heq]

/-- **What is found is the first value of the name.** The values of a type
are gone through in the order of their ids. -/
theorem firstValue_of_findEnumValue (h : p.findEnumValue source t name = .ok (some v)) :
    p.FirstValue source t name v := by
  obtain ⟨r, hr, h⟩ := bind_eq_ok.1 h
  obtain ⟨values, hvalues, h⟩ := bind_eq_ok.1 h
  obtain ⟨⟨v', w⟩, hfound, rfl⟩ := Option.map_eq_some_iff.1 (pure_eq_ok.1 h)
  obtain ⟨hget, hmem⟩ := mem_slice hvalues (List.mem_of_find?_eq_some hfound)
  have hread := List.find?_some hfound
  refine ⟨⟨r, hr, hmem⟩, ⟨w, Table.get_eq_ok.2 hget, by simpa using hread⟩, ?_⟩
  rintro i w' ⟨r', hr', hi⟩ hlt hw'
  obtain rfl := Except.ok.inj (hr.symm.trans hr')
  obtain ⟨w'', hmem'⟩ := exists_mem_slice hvalues hi
  have hget' := (mem_slice hvalues hmem').1
  rw [Table.get_eq_ok.1 hw'] at hget'
  obtain rfl := Option.some.inj hget'
  -- the ids count up, so what has a lower id stands before the value that is found
  obtain ⟨-, n, hn, hentry, hbefore⟩ := List.find?_eq_some_iff_getElem.1 hfound
  obtain ⟨m, hm, hentry'⟩ := List.getElem_of_mem hmem'
  have hv := raw_of_slice hvalues (List.getElem?_eq_some_iff.2 ⟨hn, hentry⟩)
  have hi' := raw_of_slice hvalues (List.getElem?_eq_some_iff.2 ⟨hm, hentry'⟩)
  dsimp only at hv hi' hlt
  have hearlier := hbefore m (by omega)
  rw [hentry'] at hearlier
  simpa using hearlier

/-- There is but one first value. -/
theorem FirstValue.unique (h : p.FirstValue source t name v) (h' : p.FirstValue source t name v') :
    v = v' := by
  obtain ⟨w, hw, hread⟩ := h.reads
  obtain ⟨w', hw', hread'⟩ := h'.reads
  have hle : v.raw ≤ v'.raw := by
    by_contra hlt
    exact h.first v' w' h'.isValue (by omega) hw' hread'
  have hge : v'.raw ≤ v.raw := by
    by_contra hlt
    exact h'.first v w h.isValue (by omega) hw hread
  obtain ⟨n⟩ := v
  obtain ⟨n'⟩ := v'
  dsimp only at hle hge
  obtain rfl : n = n' := by omega
  rfl

/-! ## The type of a value -/

/-- Where values follow each other, none is before the first. -/
theorem start_le_of_checkEnumTypes (h : checkEnumTypes start index types = .ok stop) :
    ∀ r ∈ types, start ≤ r.values.start := by
  induction types generalizing start index with
  | nil => simp
  | cons r rest ih =>
    obtain ⟨hstart, hrest⟩ := checkEnumTypes_cons.1 h
    refine List.forall_mem_cons.2 ⟨by omega, fun r' hr' => ?_⟩
    have hle := ih hrest r' hr'
    unfold IdRange.stop at hle
    omega

/-- To add up the values of a type leads to where they stop, if they start
where those before them stop. -/
theorem enumTypeFrom_cons (hstart : r.values.start = start) :
    enumTypeFrom v start index (r :: types) =
      if v.raw < r.values.stop then some ⟨index⟩
      else enumTypeFrom v r.values.stop (index + 1) types := by
  rw [enumTypeFrom, IdRange.stop, hstart]

/-- **To add up the values before a value leads to the type that owns it.** -/
theorem enumTypeFrom_eq (h : checkEnumTypes start index types = .ok stop) (hr : types[i]? = some r)
    (hv : v ∈ r.values.ids) : enumTypeFrom v start index types = some ⟨index + i⟩ := by
  obtain ⟨hfrom, hto⟩ := IdRange.mem_ids.1 hv
  induction types generalizing start index i with
  | nil => simp at hr
  | cons e rest ih =>
    obtain ⟨hstart, hrest⟩ := checkEnumTypes_cons.1 h
    rw [enumTypeFrom_cons hstart]
    cases i with
    | zero =>
      obtain rfl : e = r := by simpa using hr
      rw [if_pos hto, Nat.add_zero]
    | succ i =>
      rw [List.getElem?_cons_succ] at hr
      have hpast := start_le_of_checkEnumTypes hrest r (List.mem_of_getElem? hr)
      rw [if_neg (by omega), ih hrest hr, Nat.add_assoc, Nat.add_comm 1 i]

/-- **A type that is led to owns the value.** -/
theorem mem_of_enumTypeFrom (h : checkEnumTypes start index types = .ok stop)
    (hle : start ≤ v.raw) (ht : enumTypeFrom v start index types = some t) :
    ∃ i r, types[i]? = some r ∧ v ∈ r.values.ids ∧ t = ⟨index + i⟩ := by
  induction types generalizing start index with
  | nil => cases ht
  | cons e rest ih =>
    obtain ⟨hstart, hrest⟩ := checkEnumTypes_cons.1 h
    rw [enumTypeFrom_cons hstart] at ht
    split at ht
    · next hlt =>
      cases ht
      exact ⟨0, e, rfl, IdRange.mem_ids.2 ⟨hstart ▸ hle, hlt⟩, rfl⟩
    · next hge =>
      obtain ⟨i, r, hr, hv, rfl⟩ := ih hrest (Nat.not_lt.1 hge) ht
      exact ⟨i + 1, r, hr, hv, by rw [Nat.add_assoc, Nat.add_comm 1 i]⟩

/-- **No type is led to exactly for what is behind all values.** -/
theorem enumTypeFrom_eq_none_iff (h : checkEnumTypes start index types = .ok stop)
    (hle : start ≤ v.raw) : enumTypeFrom v start index types = none ↔ stop ≤ v.raw := by
  induction types generalizing start index with
  | nil =>
    cases h
    exact iff_of_true rfl hle
  | cons e rest ih =>
    obtain ⟨hstart, hrest⟩ := checkEnumTypes_cons.1 h
    rw [enumTypeFrom_cons hstart]
    split
    · next hlt =>
      have hstop := (stop_le_of_checkEnumTypes hrest).1
      exact iff_of_false (by simp) (by omega)
    · next hge => exact ih hrest (Nat.not_lt.1 hge)

/-- All values stop where those of the last type do. -/
theorem stop_eq_of_checkEnumTypes (h : checkEnumTypes start index types = .ok stop) :
    stop = types.getLast?.elim start (·.values.stop) := by
  induction types generalizing start index with
  | nil =>
    cases h
    rfl
  | cons e rest ih =>
    rw [ih (checkEnumTypes_cons.1 h).2, List.getLast?_cons]
    cases rest.getLast? <;> rfl

/-- **The type of a value is the one that owns it.** -/
theorem enumTypeOf_eq (good : p.checkDeclarations = .ok ()) (h : p.IsValueOf v t) :
    p.enumTypeOf v = some t := by
  obtain ⟨-, -, stop, hcheck, -⟩ := checkDeclarations_eq_ok.1 good
  obtain ⟨r, hr, hv⟩ := h
  have heq := enumTypeFrom_eq hcheck (Table.get_eq_ok_iff _ |>.1 hr) hv
  rw [Nat.zero_add] at heq
  exact heq

/-- **A value belongs to one enum type.** -/
theorem IsValueOf.unique (good : p.checkDeclarations = .ok ()) (h : p.IsValueOf v t)
    (h' : p.IsValueOf v t') : t' = t := by
  have heq := enumTypeOf_eq good h
  rw [enumTypeOf_eq good h'] at heq
  exact Option.some.inj heq

/-- A type that is found for a value owns it. -/
theorem isValueOf_of_enumTypeOf (good : p.checkDeclarations = .ok ())
    (h : p.enumTypeOf v = some t) : p.IsValueOf v t := by
  obtain ⟨-, -, stop, hcheck, -⟩ := checkDeclarations_eq_ok.1 good
  obtain ⟨i, r, hr, hv, rfl⟩ := mem_of_enumTypeFrom hcheck (Nat.zero_le _) h
  rw [Nat.zero_add]
  exact ⟨r, (Table.get_eq_ok_iff _).2 hr, hv⟩

/-- No type is found exactly for what is behind the values of the last one. -/
theorem enumTypeOf_eq_none_iff (good : p.checkDeclarations = .ok ()) : p.enumTypeOf v = none ↔
    ∀ r, p.enumTypes.toList.getLast? = some r → r.values.stop ≤ v.raw := by
  obtain ⟨-, -, stop, hcheck, -⟩ := checkDeclarations_eq_ok.1 good
  rw [enumTypeOf, enumTypeFrom_eq_none_iff hcheck (Nat.zero_le _), stop_eq_of_checkEnumTypes hcheck]
  cases p.enumTypes.toList.getLast? <;> simp

theorem isValueOf_iff_contains :
    p.IsValueOf v t ↔ ∃ r, p.enumTypes.get t = .ok r ∧ r.values.contains v = true := by
  simp only [IsValueOf, IdRange.mem_ids, IdRange.contains, Bool.and_eq_true, decide_eq_true_eq]

/-- **To find the type of a value inverts the slices of values.** In a
program that passes validation, whatever enum types it has, the type found
for a value is the one whose values contain it, which no other type's do;
and none is found exactly for what lies past the values of the last type. -/
theorem enumTypeOf_inverts (valid : p.validate = .ok ()) (v : EnumValueId) :
    (∀ t, p.enumTypeOf v = some t ↔
      ∃ r, p.enumTypes.get t = .ok r ∧ r.values.contains v = true) ∧
    (∀ t t' r r', p.enumTypes.get t = .ok r → p.enumTypes.get t' = .ok r' →
      r.values.contains v = true → r'.values.contains v = true → t = t') ∧
    (p.enumTypeOf v = none ↔
      ∀ r, p.enumTypes.toList.getLast? = some r → r.values.stop ≤ v.raw) := by
  have good : p.checkDeclarations = .ok () := (validate_eq_ok.1 valid).2.1
  refine ⟨fun t => ?_, fun t t' r r' hr hr' hv hv' => ?_, enumTypeOf_eq_none_iff good⟩
  · rw [← isValueOf_iff_contains]
    exact ⟨isValueOf_of_enumTypeOf good, enumTypeOf_eq good⟩
  · exact IsValueOf.unique good (isValueOf_iff_contains.2 ⟨r', hr', hv'⟩)
      (isValueOf_iff_contains.2 ⟨r, hr, hv⟩)

/-- Three values between empty types, and one that no type owns: the last
of the three is found past an empty type that starts where it does. -/
theorem enumTypeOf_inverts_empty :
    let p : Program :=
      { enumTypes := ⟨#[⟨⟨0, 0⟩, ⟨0, 0⟩⟩, ⟨⟨0, 0⟩, ⟨0, 2⟩⟩, ⟨⟨0, 0⟩, ⟨2, 0⟩⟩, ⟨⟨0, 0⟩, ⟨2, 1⟩⟩,
          ⟨⟨0, 0⟩, ⟨3, 0⟩⟩]⟩
        enumValues := ⟨#[⟨⟨0, 0⟩⟩, ⟨⟨0, 0⟩⟩, ⟨⟨0, 0⟩⟩, ⟨⟨0, 0⟩⟩]⟩ }
    p.validate = .ok () ∧ p.enumTypeOf ⟨2⟩ = some ⟨3⟩ ∧ p.enumTypeOf ⟨3⟩ = none := by
  intro p
  have valid : p.validate = .ok () := by decide
  refine ⟨valid, ?_, ?_⟩
  · exact ((enumTypeOf_inverts valid ⟨2⟩).1 ⟨3⟩).2 ⟨⟨⟨0, 0⟩, ⟨2, 1⟩⟩, rfl, rfl⟩
  · refine (enumTypeOf_inverts valid ⟨3⟩).2.2.2 fun r hr => ?_
    cases hr
    exact Nat.le_refl 3

end Program

end FrontEnd
