import FrontEnd.Proofs.Rounds
/-!
# FrontEnd — variables that are taken back

A run of the type pass takes all top-level variables back to where they
have no order and no type but the one that is declared (`unsettle`), and
settles them anew. The program with some of the variables taken back is
what it looks like while these are left: in the middle of a later run,
and when the first one came upon a cycle.
-/

namespace FrontEnd

open Analysis

/-- The record of the variable that the statement declares, before it is
settled. -/
def Program.unsettledVar (p p₀ : Program) (s : StmtId) (r : Variable) : Variable :=
  { r with type := p.typeFrom (p₀.declaredFrom s), order := 0 }

/-- The program in which the variables of some statements are not settled
yet. -/
def Program.unsettle (p p₀ : Program) (ss : List StmtId) : Program :=
  { p with
    vars := ss.foldl (fun vars s => vars.modify (p₀.globalOf s).id (p.unsettledVar p₀ s)) p.vars }

def Analysis.unsettle (a : Analysis) (p₀ : Program) (ss : List StmtId) : Analysis :=
  { a with program := a.program.unsettle p₀ ss }

variable {source : String} {p₀ p : Program} {a a' : Analysis} {s : StmtId} {ss : List StmtId}
variable {v : VariableId} {region : ExprId → Prop} {targets : Target → Prop}

/-! ## What the variables are then -/

theorem get?_unsettle_of_not_mem (h : ∀ s ∈ ss, (p₀.globalOf s).id ≠ v) :
    (p.unsettle p₀ ss).vars.get? v = p.vars.get? v := by
  suffices key : ∀ vars : Table .variable Variable,
      (ss.foldl (fun vars s => vars.modify (p₀.globalOf s).id (p.unsettledVar p₀ s)) vars).get? v =
        vars.get? v from key p.vars
  induction ss with
  | nil => exact fun _ => rfl
  | cons s ss ih =>
    intro vars
    obtain ⟨hne, hrest⟩ := List.forall_mem_cons.1 h
    rw [List.foldl_cons, ih hrest, Table.get?_modify_of_ne (Ne.symm hne)]

variable (regular : p₀.Regular) (hss : ∀ s ∈ ss, p₀.declaresVariable s = true)

include regular hss

theorem get?_unsettle_of_mem (hs : s ∈ ss) :
    (p.unsettle p₀ ss).vars.get? (p₀.globalOf s).id =
      (p.vars.get? (p₀.globalOf s).id).map (p.unsettledVar p₀ s) := by
  suffices key : ∀ vars : Table .variable Variable,
      (ss.foldl (fun vars s => vars.modify (p₀.globalOf s).id (p.unsettledVar p₀ s)) vars).get?
        (p₀.globalOf s).id = (vars.get? (p₀.globalOf s).id).map (p.unsettledVar p₀ s) from key p.vars
  induction ss with
  | nil => simp at hs
  | cons s' ss ih =>
    intro vars
    obtain ⟨hs', hrest⟩ := List.forall_mem_cons.1 hss
    rw [List.foldl_cons]
    by_cases hmem : s ∈ ss
    · rw [ih hrest hmem, Table.get?_modify]
      split
      · next heq =>
        obtain rfl : s = s' := by
          by_contra hne
          exact globalOf_ne regular (hrest s hmem) hs' hne heq
        -- to take a variable back twice is to take it back
        rw [Option.map_map]
        rfl
      · rfl
    · obtain rfl : s = s' := (List.mem_cons.1 hs).resolve_right hmem
      have hapart : ∀ s' ∈ ss, (p₀.globalOf s').id ≠ (p₀.globalOf s).id := fun s' hs'' =>
        globalOf_ne regular (hrest s' hs'') hs' fun h => hmem (h ▸ hs'')
      have := @get?_unsettle_of_not_mem p₀
        { p with vars := vars.modify (p₀.globalOf s).id (p.unsettledVar p₀ s) } ss _ hapart
      refine Eq.trans this ?_
      rw [Table.get?_modify, if_pos rfl]

omit regular hss in
theorem untyped_unsettle (p p₀ : Program) (ss : List StmtId) :
    (p.unsettle p₀ ss).untyped = p.untyped := by
  have hvars : (p.unsettle p₀ ss).vars.map Variable.frame = p.vars.map Variable.frame := by
    suffices key : ∀ vars : Table .variable Variable,
        (ss.foldl (fun vars s => vars.modify (p₀.globalOf s).id (p.unsettledVar p₀ s)) vars).map
          Variable.frame = vars.map Variable.frame from key p.vars
    induction ss with
    | nil => exact fun _ => rfl
    | cons s ss ih =>
      intro vars
      rw [List.foldl_cons, ih]
      exact Table.map_modify fun _ => rfl
  simp only [Program.untyped, hvars]
  rfl

/-- Variables that wait are as if they had been taken back. -/
theorem unsettle_of_waiting (waiting : ∀ s ∈ ss, a.Waiting p₀ s) :
    a.program.unsettle p₀ ss = a.program := by
  have hvars : (a.program.unsettle p₀ ss).vars = a.program.vars := by
    refine Table.ext_get? fun v => ?_
    by_cases h : ∃ s ∈ ss, (p₀.globalOf s).id = v
    · obtain ⟨s, hs, rfl⟩ := h
      obtain ⟨r, hr, ho, htype⟩ := (waiting s hs).var
      rw [get?_unsettle_of_mem regular hss hs, hr, Option.map_some, Program.unsettledVar, ← ho, ← htype]
    · exact get?_unsettle_of_not_mem fun s hs heq => h ⟨s, hs, heq⟩
  rw [show a.program.unsettle p₀ ss =
    { a.program with vars := (a.program.unsettle p₀ ss).vars } from rfl, hvars]

/-! ## Changes with variables taken back -/

omit regular hss in
/-- To take variables back changes nothing but these. -/
theorem Changes.of_unsettle (a : Analysis) (p₀ : Program) (ss : List StmtId) :
    Changes (fun _ => False) (fun t => ∃ s ∈ ss, t = .variable (p₀.globalOf s).id) a
      (a.unsettle p₀ ss) where
  exprs _ _ := rfl
  matures _ x hx := ⟨x, hx, .refl x⟩
  values _ x _ hx hk := .inl ⟨x, hx, hk⟩
  size := rfl
  vars v hv := get?_unsettle_of_not_mem fun s hs heq => hv ⟨s, hs, by rw [heq]⟩
  functions _ _ := rfl
  parameters _ _ := rfl
  keeps _ _ h := h
  rest := untyped_unsettle _ _ _
  queue := .refl _

/-- What is taken back is the same before and after a change. -/
theorem Changes.unsettle (h : Changes region targets a a')
    (hr : ∀ s ∈ ss, ∀ e, .name e ∈ p₀.tasks s → ¬ region e) :
    Changes region (fun t => targets t ∧ ∀ s ∈ ss, t ≠ .variable (p₀.globalOf s).id)
      (a.unsettle p₀ ss) (a'.unsettle p₀ ss) where
  exprs := h.exprs
  matures := h.matures
  values := h.values
  size := h.size
  functions f hf := h.functions f fun ht => hf ⟨ht, by simp⟩
  parameters i hi := h.parameters i fun ht => hi ⟨ht, by simp⟩
  keeps := h.keeps
  rest := by
    rw [Analysis.unsettle, Analysis.unsettle, untyped_unsettle, untyped_unsettle, h.rest]
  queue := h.queue
  vars v hv := by
    simp only [Analysis.unsettle]
    by_cases hmem : ∃ s ∈ ss, (p₀.globalOf s).id = v
    · obtain ⟨s, hs, rfl⟩ := hmem
      rw [get?_unsettle_of_mem regular hss hs, get?_unsettle_of_mem regular hss hs]
      have htype : a'.program.typeFrom (p₀.declaredFrom s) = a.program.typeFrom (p₀.declaredFrom s) := by
        obtain ⟨w, typeExpr, init, span, hstmt⟩ := Program.exists_of_declaresVariable (hss s hs)
        exact h.typeFrom fun e he => hr s hs e (declaredFrom_name hstmt he)
      have hframe : (a'.program.vars.get? (p₀.globalOf s).id).map Variable.frame =
          (a.program.vars.get? (p₀.globalOf s).id).map Variable.frame := by
        have := congrArg (fun q : Program => q.vars.get? (p₀.globalOf s).id) h.rest
        simpa only [Program.untyped, Table.get?_map] using this
      have hmap : ∀ (q : Program), (q.vars.get? (p₀.globalOf s).id).map (q.unsettledVar p₀ s) =
          ((q.vars.get? (p₀.globalOf s).id).map Variable.frame).map
            ({ · with type := q.typeFrom (p₀.declaredFrom s) }) := by
        intro q
        rw [Option.map_map]
        rfl
      rw [hmap, hmap, hframe, htype]
    · have hnot : ∀ s ∈ ss, (p₀.globalOf s).id ≠ v := fun s hs heq => hmem ⟨s, hs, heq⟩
      rw [get?_unsettle_of_not_mem hnot, get?_unsettle_of_not_mem hnot]
      refine h.vars v fun ht => hv ⟨ht, fun s hs heq => hnot s hs ?_⟩
      exact (Target.variable.inj heq).symm

end FrontEnd
