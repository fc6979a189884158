import FrontEnd.Proofs.TasksAgain
import FrontEnd.Proofs.TopLevel
/-!
# FrontEnd — the variables of the top level, once more

When the variables of the top level are taken back and settled again,
the rounds may go another way than before, but each variable that is
settled gets the type and the order it had (`settle_again`), and those
that are left over are the ones that were (`settleRounds_again`). What
was recorded for these comes out the same, since they are reported in the
same order (`reportCycles_again`).
-/

namespace FrontEnd

open Analysis

variable {source : String} {p₀ p : Program} {a b : Analysis} {s : StmtId} {x : Task}
variable {v : VariableId} {typeExpr init : Option ExprId} {span : Span} {G L W U : List StmtId}
variable {e : ExprId} {n : Nat}

/-! ## Programs with variables taken back -/

theorem unsettle_append (p p₀ : Program) (ss ss' : List StmtId) :
    (p.unsettle p₀ ss).unsettle p₀ ss' = p.unsettle p₀ (ss ++ ss') := by
  simp only [Program.unsettle, List.foldl_append]
  rfl

theorem Analysis.Unmoved.unsettle (h : a.Unmoved b) (p₀ : Program) (ss : List StmtId) :
    (a.unsettle p₀ ss).Unmoved (b.unsettle p₀ ss) := by
  obtain ⟨n, rfl⟩ := h
  exact ⟨n, rfl⟩

theorem unmoved_of_program {q : Program} (h : a.Unmoved b) :
    (⟨q, a.queue⟩ : Analysis).Unmoved ⟨q, b.queue⟩ := by
  obtain ⟨n, rfl⟩ := h
  exact ⟨n, rfl⟩

/-- A variable has the order it had, or none. -/
theorem order_of_unsettle {r' : Variable} (regular : p₀.Regular)
    (hW : ∀ s ∈ W, p₀.declaresVariable s = true) (h : (p.unsettle p₀ W).vars.get? v = some r') :
    ∃ r, p.vars.get? v = some r ∧ (r'.order = 0 ∨ r' = r ∧ ∀ s ∈ W, (p₀.globalOf s).id ≠ v) := by
  by_cases hmem : ∃ s ∈ W, (p₀.globalOf s).id = v
  · obtain ⟨s, hs, rfl⟩ := hmem
    rw [get?_unsettle_of_mem regular hW hs] at h
    obtain ⟨r, hr, rfl⟩ := Option.map_eq_some_iff.1 h
    exact ⟨r, hr, .inl rfl⟩
  · have hnot : ∀ s ∈ W, (p₀.globalOf s).id ≠ v := fun s hs heq => hmem ⟨s, hs, heq⟩
    rw [get?_unsettle_of_not_mem hnot] at h
    exact ⟨r', h, .inr ⟨rfl, hnot⟩⟩

/-- What decides how a program with variables taken back looks. -/
theorem eq_unsettle {vars : Table .variable Variable} (regular : p₀.Regular)
    (hW : ∀ s ∈ W, p₀.declaresVariable s = true)
    (taken : ∀ s ∈ W, vars.get? (p₀.globalOf s).id =
      (p.vars.get? (p₀.globalOf s).id).map (p.unsettledVar p₀ s))
    (same : ∀ v, (∀ s ∈ W, (p₀.globalOf s).id ≠ v) → vars.get? v = p.vars.get? v) :
    { p with vars } = p.unsettle p₀ W := by
  have hvars : vars = (p.unsettle p₀ W).vars := by
    refine Table.ext_get? fun v => ?_
    by_cases hmem : ∃ s ∈ W, (p₀.globalOf s).id = v
    · obtain ⟨s, hs, rfl⟩ := hmem
      rw [taken s hs, get?_unsettle_of_mem regular hW hs]
    · have hnot : ∀ s ∈ W, (p₀.globalOf s).id ≠ v := fun s hs heq => hmem ⟨s, hs, heq⟩
      rw [same v hnot, get?_unsettle_of_not_mem hnot]
  rw [hvars]
  rfl

/-! ## Taking the variables back -/

theorem typeNamed?_again (done : ∀ e, typeExpr = some e → a.TypeDone e) :
    ∃ b, a.typeNamed? typeExpr = .ok (typeExpr.map a.program.recorded, b) ∧ a.Unmoved b := by
  cases typeExpr with
  | none => exact ⟨a, rfl, .refl a⟩
  | some e =>
    obtain ⟨b, hb, hmoved⟩ := typeNamed_again (done e rfl)
    exact ⟨b, by simp only [typeNamed?, hb, ok_bind]; rfl, hmoved⟩

variable (regular : p₀.Regular)

include regular in
theorem declareGlobal_again (hs : p₀.declaresVariable s = true) (hp : Program.Pruned p₀ a.program)
    (named : ∀ e, .name e ∈ p₀.tasks s → a.TypeDone e) :
    ∃ g b, a.declareGlobal s = .ok (g, b) ∧ (a.unsettle p₀ [s]).Unmoved b := by
  obtain ⟨v, typeExpr, init, span, hs⟩ := Program.exists_of_declaresVariable hs
  obtain ⟨span', hs'⟩ := Program.exists_variable_congr hp.frame hs
  obtain ⟨c, hc, hmoved⟩ := typeNamed?_again fun e he =>
    named e ((name_mem_tasks hs).2 he)
  have hlt : v.raw < a.program.vars.size := by
    rw [Program.size_vars_congr hp.frame]
    exact regular.declarations s _ hs
  have hupdate : ∀ f : Variable → Variable, c.program.vars.update v f =
      .ok (a.program.vars.modify v f) := by
    intro f
    rw [hmoved.program]
    exact (Table.update_eq_ok_iff _).2 ⟨hlt, rfl⟩
  have hrun : a.declareGlobal s = .ok (some ⟨v, typeExpr.isSome, init⟩,
      ⟨{ c.program with
          vars := a.program.vars.modify v ({ · with
            type := (typeExpr.map a.program.recorded).getD .unset, order := 0 }) }, c.queue⟩) := by
    simp only [declareGlobal, Table.get_eq_ok.2 hs', ok_bind, hc, hupdate]
    rfl
  refine ⟨_, _, hrun, ?_⟩
  -- the type is the one declared, or none for now
  have hsame : a.program.unsettle p₀ [s] =
      { c.program with
        vars := a.program.vars.modify v ({ · with
          type := (typeExpr.map a.program.recorded).getD .unset, order := 0 }) } := by
    have htype : a.program.typeFrom (p₀.declaredFrom s) =
        (typeExpr.map a.program.recorded).getD .unset := by
      rw [declaredFrom_eq hs]
      cases typeExpr <;> rfl
    have hvar : a.program.unsettledVar p₀ s = ({ · with
        type := (typeExpr.map a.program.recorded).getD .unset, order := 0 }) := by
      funext r
      rw [Program.unsettledVar, htype]
    rw [hmoved.program, Program.unsettle, List.foldl_cons, List.foldl_nil, globalOf_eq hs, hvar]
  rw [← hsame]
  exact unmoved_of_program hmoved

include regular in
/-- All variables are taken back. -/
theorem declareAll_again (hG : ∀ s ∈ G, p₀.declaresVariable s = true)
    (hp : Program.Pruned p₀ a.program) (named : ∀ s ∈ G, ∀ e, .name e ∈ p₀.tasks s → a.TypeDone e) :
    ∃ b, G.foldlM (fun a s => do return (← a.declareGlobal s).2) a = .ok b ∧
      (a.unsettle p₀ G).Unmoved b := by
  -- behind those that have been taken back already
  suffices key : ∀ G' W b, (∀ s ∈ G', s ∈ G) → (a.unsettle p₀ W).Unmoved b →
      ∃ b', G'.foldlM (fun a s => do return (← a.declareGlobal s).2) b = .ok b' ∧
        (a.unsettle p₀ (W ++ G')).Unmoved b' from
    key G [] a (fun _ hs => hs) (.refl a)
  intro G'
  induction G' with
  | nil =>
    intro W b _ hb
    exact ⟨b, rfl, by rwa [List.append_nil]⟩
  | cons s G' ih =>
    intro W b hG' hb
    obtain ⟨hs, hrest⟩ := List.forall_mem_cons.1 hG'
    have hpw : Program.Pruned p₀ (a.unsettle p₀ W).program := (Changes.of_unsettle a p₀ W).pruned hp
    have hnamed : ∀ e, .name e ∈ p₀.tasks s → b.TypeDone e := by
      intro e he
      have hunsettled : (a.unsettle p₀ W).TypeDone e :=
        (named s hs e he).changes (.of_unsettle a p₀ W) fun hf => hf
      exact hb.typeDone hpw.held hunsettled
    obtain ⟨g, c, hc, hmoved⟩ := declareGlobal_again regular (hG s hs) (hb.program ▸ hpw) hnamed
    have hall : (a.unsettle p₀ (W ++ [s])).Unmoved c := by
      have := (hb.unsettle p₀ [s]).trans hmoved
      rwa [show (a.unsettle p₀ W).unsettle p₀ [s] = a.unsettle p₀ (W ++ [s]) by
        simp only [Analysis.unsettle, unsettle_append]] at this
    obtain ⟨b', hb', hlast⟩ := ih (W ++ [s]) c hrest hall
    refine ⟨b', foldlM_cons_eq_ok.2 ⟨c, by rw [hc]; rfl, hb'⟩, ?_⟩
    rwa [List.append_assoc] at hlast

/-! ## Settling them again -/

section Settling

variable (hG : ∀ s ∈ G, p₀.declaresVariable s = true) (hp : Program.Pruned p₀ a.program)
variable (done : a.GlobalsDone source p₀ G L)

include hp in
theorem pruned_unsettle (W : List StmtId) : Program.Pruned p₀ (a.unsettle p₀ W).program :=
  (Changes.of_unsettle a p₀ W).pruned hp

include regular in
/-- Where all that is read has an order, nothing is read that is taken
back, and the order is the one that was read before. -/
theorem read_of_unsettle (hW : ∀ s ∈ W, p₀.declaresVariable s = true)
    (read : (a.program.unsettle p₀ W).OrderRead e (some n)) :
    a.program.OrderRead e (some n) ∧
      ∀ v, a.program.Mentions e (.variable v) → ∀ s ∈ W, (p₀.globalOf s).id ≠ v := by
  have hnot : ∀ v, a.program.Mentions e (.variable v) → ∀ s ∈ W, (p₀.globalOf s).id ≠ v := by
    intro v hv
    obtain ⟨r', hr', hpos, -⟩ := read.1 v hv
    obtain ⟨r, -, hzero | ⟨-, hnot⟩⟩ := order_of_unsettle regular hW hr'
    · omega
    · exact hnot
  refine ⟨Program.OrderRead.congr read (fun _ => Iff.rfl) fun v hv => ?_, hnot⟩
  rw [get?_unsettle_of_not_mem (hnot v hv)]

include regular in
/-- The same for all that a variable reads. -/
theorem reads_of_unsettle {g : Global} (hW : ∀ s ∈ W, p₀.declaresVariable s = true)
    (reads : g.Reads (a.program.unsettle p₀ W) (some n)) :
    g.Reads a.program (some n) ∧ ∀ e, g.init = some e →
      ∀ v, a.program.Mentions e (.variable v) → ∀ s ∈ W, (p₀.globalOf s).id ≠ v := by
  obtain ⟨id, declared, init⟩ := g
  cases init with
  | none => exact ⟨reads, fun _ he => nomatch he⟩
  | some e =>
    obtain ⟨hread, hapart⟩ := read_of_unsettle regular hW reads
    refine ⟨hread, fun e' he => ?_⟩
    cases he
    exact hapart

include regular hp in
/-- What is recorded in the initializer of a variable that is taken back
is recorded again. -/
theorem typeInit_again (hs : p₀.stmts.get? s = some ⟨.variable v typeExpr init, span⟩)
    (hW : ∀ s ∈ W, p₀.declaresVariable s = true) (hsW : s ∈ W) (hb : (a.unsettle p₀ W).Unmoved b)
    (hdone : ∀ e expected, .value e expected ∈ p₀.tasks s →
      (a.unsettle p₀ W).TaskDone source (.value e expected)) {r : Variable}
    (hr : a.program.vars.get? v = some r) :
    b.program.vars.get? v = some (a.program.unsettledVar p₀ s r) ∧
      ∃ expected c, (p₀.globalOf s).expected b.program = .ok expected ∧
        typeExpr? source expected b init = .ok (init.map a.program.recorded, c) ∧ b.Unmoved c := by
  have hpw := pruned_unsettle hp W
  have hrb : b.program.vars.get? v = some (a.program.unsettledVar p₀ s r) := by
    have := get?_unsettle_of_mem (p := a.program) regular hW hsW
    rw [globalOf_eq hs] at this
    rw [hb.program]
    refine this.trans ?_
    rw [hr]
    rfl
  have hexpected : (p₀.globalOf s).expected b.program =
      .ok ((typeExpr.map .recorded).map a.program.typeFrom) := by
    rw [globalOf_eq hs]
    cases typeExpr with
    | none => rfl
    | some c =>
      simp only [Global.expected, Option.isSome_some, if_true, Table.get_eq_ok.2 hrb, ok_bind,
        Program.unsettledVar, declaredFrom_eq hs]
      rfl
  refine ⟨hrb, (typeExpr.map .recorded).map a.program.typeFrom, ?_⟩
  cases init with
  | none => exact ⟨b, hexpected, rfl, .refl b⟩
  | some e =>
    have hx := hdone e _ ((value_mem_tasks hs).2 ⟨rfl, rfl⟩)
    obtain ⟨htyped, hhint⟩ := hb.taskDone hpw.held hx
    rw [hb.program] at hhint
    change b.HintDone source ((typeExpr.map .recorded).map a.program.typeFrom) e at hhint
    obtain ⟨c, hc, hmoved⟩ := typeExpr_again (hb.program ▸ hpw.held) htyped hhint
    rw [show b.program.recorded e = a.program.recorded e by rw [hb.program]; rfl] at hc
    exact ⟨c, hexpected, by simp only [typeExpr?, hc, ok_bind]; rfl, hmoved⟩

include regular in
/-- A variable that gets its record back is not taken back any more. -/
theorem unsettle_modify {W' : List StmtId} {f : Variable → Variable} {r : Variable}
    (hW : ∀ s ∈ W, p₀.declaresVariable s = true) (hs : s ∈ W)
    (hW' : ∀ s', s' ∈ W' ↔ s' ∈ W ∧ s' ≠ s) (hr : p.vars.get? (p₀.globalOf s).id = some r)
    (hf : f (p.unsettledVar p₀ s r) = r) :
    { p with vars := (p.unsettle p₀ W).vars.modify (p₀.globalOf s).id f } = p.unsettle p₀ W' := by
  refine eq_unsettle regular (fun s' hs' => hW s' ((hW' s').1 hs').1) (fun s' hs' => ?_) fun w hw => ?_
  · obtain ⟨hmem, hne⟩ := (hW' s').1 hs'
    rw [Table.get?_modify_of_ne (globalOf_ne regular (hW s' hmem) (hW s hs) hne)]
    exact get?_unsettle_of_mem regular hW hmem
  · by_cases hv : w = (p₀.globalOf s).id
    · rw [hv, Table.get?_modify, if_pos rfl, get?_unsettle_of_mem regular hW hs, hr, Option.map_some,
        Option.map_some, hf]
    · rw [Table.get?_modify_of_ne hv]
      refine get?_unsettle_of_not_mem fun s' hs' heq => ?_
      by_cases hss : s' = s
      · exact hv (hss ▸ heq.symm)
      · exact hw s' ((hW' s').2 ⟨hs', hss⟩) heq

/-- The record of a variable that is settled with an order and the type of
its initializer. -/
def Global.settledVar (g : Global) (order : Nat) (type : Option Ty) (r : Variable) :
    Variable :=
  { r with order, type := if g.declared then r.type else type.getD .error }

omit regular in
/-- A settled variable that is taken back and settled again has its record
back. -/
theorem Analysis.Settled.settledVar_eq (settled : a.Settled source p₀ s)
    (hs : p₀.stmts.get? s = some ⟨.variable v typeExpr init, span⟩) {r : Variable}
    (hr : a.program.vars.get? v = some r) :
    (p₀.globalOf s).settledVar r.order (init.map a.program.recorded) (a.program.unsettledVar p₀ s r) =
      r := by
  have htype := settled.type_eq hs hr
  obtain ⟨name, type, order⟩ := r
  simp only at htype
  simp only [Global.settledVar, Program.unsettledVar, globalOf_eq hs, declaredFrom_eq hs, htype]
  cases typeExpr with
  | some c => rfl
  | none => cases init <;> rfl

include regular hG hp done in
/-- **A variable is settled as it was before.** One that is part of a
cycle is not settled at all. -/
theorem settle_again (hs : s ∈ G) (hW : ∀ s ∈ W, s ∈ G) (hsW : s ∈ W)
    (hb : (a.unsettle p₀ W).Unmoved b) (reads : (p₀.globalOf s).Reads b.program (some n)) :
    s ∉ L ∧ ∀ W', (∀ s', s' ∈ W' ↔ s' ∈ W ∧ s' ≠ s) →
      ∃ b', settle source b (p₀.globalOf s) (n + 1) = .ok b' ∧ (a.unsettle p₀ W').Unmoved b' := by
  obtain ⟨v, typeExpr, init, span, hstmt⟩ := Program.exists_of_declaresVariable (hG s hs)
  have hg := globalOf_eq hstmt
  have hid : (p₀.globalOf s).id = v := by rw [hg]
  have hdeclares : ∀ s ∈ W, p₀.declaresVariable s = true := fun s hs => hG s (hW s hs)
  -- it reads what it has read before, and one in a cycle reads another without an order
  rw [hb.program] at reads
  obtain ⟨hread, hapart⟩ := reads_of_unsettle regular hdeclares reads
  have hnot : s ∉ L := fun hL => nomatch (done.cyclic s hL).reads.unique hread
  have settled := done.settled s hs hnot
  obtain ⟨r, m, hr, horder, hreads⟩ := settled.order
  obtain rfl : n = m := Option.some.inj (hreads.unique hread)
  have hunsettled : ∀ e expected, .value e expected ∈ p₀.tasks s →
      (a.unsettle p₀ W).TaskDone source (.value e expected) := by
    intro e expected hx
    refine (settled.tasks _ hx).changes (.of_unsettle a p₀ W) hp.held (fun _ _ hf => hf) ?_
    rintro t hc ⟨s', hs', rfl⟩
    exact hapart e (init_of_value (hG s hs) hx) _ hc s' hs' rfl
  obtain ⟨hrb, expected, c, hexpected, hc, hmoved⟩ :=
    typeInit_again regular hp hstmt hdeclares hsW hb hunsettled (hid ▸ hr)
  refine ⟨hnot, fun W' hW' => ?_⟩
  have hc' : typeExpr? source expected b (p₀.globalOf s).init =
      .ok (init.map a.program.recorded, c) := by rw [hg, hc]
  have hprogram : c.program = a.program.unsettle p₀ W := hmoved.program.trans hb.program
  have hlt : (p₀.globalOf s).id.raw < c.program.vars.size := by
    rw [hid, hmoved.program]
    exact Table.lt_size_of_get? hrb
  have hupdate : c.program.vars.update (p₀.globalOf s).id
      ((p₀.globalOf s).settledVar (n + 1) (init.map a.program.recorded)) = .ok _ :=
    (Table.update_eq_ok_iff _).2 ⟨hlt, rfl⟩
  -- the record of the variable is what it was before it was taken back
  have hrecord := settled.settledVar_eq hstmt (hid ▸ hr)
  rw [horder] at hrecord
  have hlast := unsettle_modify regular hdeclares hsW hW' hr hrecord
  refine ⟨⟨a.program.unsettle p₀ W', c.queue⟩, ?_,
    unmoved_of_program (a := a.unsettle p₀ W) (hb.trans hmoved)⟩
  refine bind_eq_ok.2 ⟨_, hexpected, bind_eq_ok.2 ⟨_, hc', bind_eq_ok.2 ⟨_, hupdate, ?_⟩⟩⟩
  rw [← hlast, hprogram]
  rfl

omit regular in
/-- The variables that an expression mentions are held if its types are
recorded. -/
theorem exists_var_of_done (done : a.ExprDone source e) (h : a.program.Mentions e (.variable v)) :
    ∃ r, a.program.vars.get? v = some r := by
  obtain ⟨c, x, hu, hx, hk⟩ := h
  obtain ⟨y, hy, htype, -⟩ := done c hu
  rw [hx] at hy
  obtain rfl := Option.some.inj hy
  have hkind : x.kind = .variable v := by
    cases hkind : x.kind <;> rw [hkind] at hk <;> cases hk
    rfl
  simp only [Program.typeOf, Program.exprDepth, Program.typeOfWithin, Table.get_eq_ok.2 hx, ok_bind,
    hkind] at htype
  obtain ⟨r, hr, -⟩ := bind_eq_ok.1 htype
  exact ⟨r, Table.get_eq_ok.1 hr⟩

omit regular in
include hG hp done in
/-- What a variable reads can be looked up, whatever is taken back. -/
theorem readOrder_again (hs : s ∈ G) (hb : (a.unsettle p₀ W).Unmoved b) :
    ∃ found, (p₀.globalOf s).readOrder b.program = .ok found ∧
      (p₀.globalOf s).Reads (a.program.unsettle p₀ W) found := by
  have hpw := pruned_unsettle hp W
  have hprogram : b.program = a.program.unsettle p₀ W := hb.program
  suffices h : ∃ found, (p₀.globalOf s).readOrder b.program = .ok found by
    obtain ⟨found, hfound⟩ := h
    have hread := Global.reads_of_readOrder (hb.program ▸ hpw.held) hfound
    exact ⟨found, hfound, by rwa [hprogram] at hread⟩
  obtain ⟨v, typeExpr, init, span, hstmt⟩ := Program.exists_of_declaresVariable (hG s hs)
  rw [globalOf_eq hstmt, hprogram]
  cases init with
  | none => exact ⟨some 0, rfl⟩
  | some e =>
    have hx : .value e (typeExpr.map .recorded) ∈ p₀.tasks s :=
      (value_mem_tasks hstmt).2 ⟨rfl, rfl⟩
    obtain ⟨ss, hss⟩ : ∃ ss, (a.unsettle p₀ ss).TaskDone source (.value e (typeExpr.map .recorded)) := by
      by_cases hL : s ∈ L
      · obtain ⟨-, rest, -, hrest⟩ := done.stages.exists_split hL
        exact ⟨_, hrest e _ hx⟩
      · exact ⟨[], (done.settled s hs hL).tasks _ hx⟩
    obtain ⟨y, hy, -⟩ := hss.1 e .refl
    refine Program.readOrder_total hpw.held (Table.lt_size_of_get? (t := a.program.exprs) hy) ?_
    intro w hw
    obtain ⟨r, hr⟩ := exists_var_of_done hss.1 hw
    have hlt : w.raw < (a.unsettle p₀ W).program.vars.size := by
      have hsize := Table.lt_size_of_get? hr
      rw [Program.size_vars_congr (pruned_unsettle hp ss).frame] at hsize
      rwa [Program.size_vars_congr hpw.frame]
    exact Table.exists_get?_of_lt hlt

include regular in
theorem unsettle_congr (hW : ∀ s ∈ W, p₀.declaresVariable s = true) (h : ∀ s, s ∈ W ↔ s ∈ U) :
    p.unsettle p₀ W = p.unsettle p₀ U := by
  refine eq_unsettle regular (fun s hs => hW s ((h s).2 hs)) (fun s hs => ?_) fun v hv => ?_
  · exact get?_unsettle_of_mem regular hW ((h s).2 hs)
  · exact get?_unsettle_of_not_mem fun s hs => hv s ((h s).1 hs)

include regular hG hp done in
/-- **A round takes no variable of a cycle**, and settles those it takes
as they were before. -/
theorem settleRound_again (nodup : W.Nodup) (hU : ∀ s ∈ U, s ∈ G) (hW : ∀ s ∈ W, s ∈ U)
    (hb : (a.unsettle p₀ U).Unmoved b) :
    ∃ (W' U' : List StmtId) (b' : Analysis),
      settleRound source b (W.map p₀.globalOf) = .ok (W'.map p₀.globalOf, b') ∧
      W'.Sublist W ∧ (∀ s, s ∈ U' ↔ s ∈ U ∧ (s ∈ W → s ∈ W')) ∧ (a.unsettle p₀ U').Unmoved b' ∧
      (∀ s ∈ W, s ∈ L → s ∈ W') ∧
      (W'.length = W.length → ∀ s ∈ W, (p₀.globalOf s).Reads (a.program.unsettle p₀ U) none) := by
  induction W generalizing b U with
  | nil => exact ⟨[], U, b, rfl, .refl _, by simp, hb, by simp, by simp⟩
  | cons s W ih =>
    obtain ⟨hnew, hnodup⟩ := List.nodup_cons.1 nodup
    obtain ⟨hs, hrest⟩ := List.forall_mem_cons.1 hW
    obtain ⟨found, hfound, reads⟩ := readOrder_again hG hp done (hU s hs) hb
    cases found with
    | some n =>
      have hreadsB : (p₀.globalOf s).Reads b.program (some n) := by rwa [hb.program]
      obtain ⟨hnotL, hsettle⟩ := settle_again regular hG hp done (hU s hs) hU hs hb hreadsB
      have hmem : ∀ s', s' ∈ U.filter (· ≠ s) ↔ s' ∈ U ∧ s' ≠ s := by simp
      obtain ⟨c, hc, hmoved⟩ := hsettle _ hmem
      obtain ⟨W', U', b', hrun, hsub, hiff, hlast, hkeep, -⟩ := ih hnodup
        (fun s' hs' => hU s' ((hmem s').1 hs').1)
        (fun s' hs' => (hmem s').2 ⟨hrest s' hs', fun h => hnew (h ▸ hs')⟩) hmoved
      refine ⟨W', U', b', ?_, hsub.cons s, fun s' => ?_, hlast, fun s' hs' hL => ?_, fun hlen => ?_⟩
      · simp only [List.map_cons, settleRound, hfound, ok_bind, hc, hrun]
      · rw [hiff, hmem]
        by_cases hss : s' = s
        · subst hss
          have hnotW' : s' ∉ W' := fun h => hnew (hsub.subset h)
          simp [hnotW']
        · simp [hss]
      · rcases List.mem_cons.1 hs' with rfl | hs'
        · exact absurd hL hnotL
        · exact hkeep s' hs' hL
      · have := hsub.length_le
        rw [List.length_cons] at hlen
        omega
    | none =>
      obtain ⟨W', U', b', hrun, hsub, hiff, hlast, hkeep, hreads⟩ := ih hnodup hU hrest hb
      refine ⟨s :: W', U', b', ?_, hsub.cons_cons s, fun s' => ?_, hlast, fun s' hs' hL => ?_,
        fun hlen => ?_⟩
      · simp only [List.map_cons, settleRound, hfound, ok_bind, hrun]
        rfl
      · rw [hiff]
        by_cases hss : s' = s
        · subst hss
          simp [hnew]
        · simp [hss]
      · rcases List.mem_cons.1 hs' with rfl | hs'
        · exact List.mem_cons_self
        · exact List.mem_cons_of_mem _ (hkeep s' hs' hL)
      · exact List.forall_mem_cons.2 ⟨reads, hreads (Nat.succ.inj hlen)⟩

include regular hG hp done in
theorem settleRounds_run {rounds : Nat} (nodup : W.Nodup) (hW : ∀ s ∈ W, s ∈ G)
    (hlen : W.length ≤ rounds) (hL : ∀ s ∈ L, s ∈ W) (hb : (a.unsettle p₀ W).Unmoved b) :
    ∃ (W' : List StmtId) (b' : Analysis),
      settleRounds source rounds b (W.map p₀.globalOf) = .ok (W'.map p₀.globalOf, b') ∧
      W'.Sublist W ∧ (∀ s ∈ L, s ∈ W') ∧ (a.unsettle p₀ W').Unmoved b' ∧
      ∀ s ∈ W', (p₀.globalOf s).Reads (a.program.unsettle p₀ W') none := by
  induction rounds generalizing b W with
  | zero =>
    obtain rfl : W = [] := List.length_eq_zero_iff.1 (Nat.le_zero.1 hlen)
    exact ⟨[], b, rfl, .refl _, hL, hb, by simp⟩
  | succ rounds ih =>
    obtain ⟨W', U', c, hround, hsub, hiff, hc, hkeep, hreads⟩ :=
      settleRound_again regular hG hp done nodup hW (fun _ hs => hs) hb
    have hlast : (a.unsettle p₀ W').Unmoved c := by
      have hsame : a.program.unsettle p₀ U' = a.program.unsettle p₀ W' := by
        refine unsettle_congr regular (fun s hs => hG s (hW s ((hiff s).1 hs).1)) fun s => ?_
        rw [hiff]
        exact ⟨fun h => h.2 h.1, fun h => ⟨hsub.subset h, fun _ => h⟩⟩
      rwa [Analysis.unsettle, hsame] at hc
    have hle := hsub.length_le
    simp only [settleRounds, hround, ok_bind, List.length_map]
    by_cases hlt : W'.length < W.length
    · obtain ⟨W'', b', hrun, hsub', hkeep', hmoved, hlastReads⟩ := ih (hsub.nodup nodup)
        (fun s hs => hW s (hsub.subset hs)) (by omega) (fun s hs => hkeep s (hL s hs) hs) hlast
      exact ⟨W'', b', by rw [if_pos hlt, hrun], hsub'.trans hsub, hkeep', hmoved, hlastReads⟩
    · obtain rfl := hsub.eq_of_length (by omega)
      exact ⟨W', c, by rw [if_neg hlt]; rfl, .refl _, fun s hs => hkeep s (hL s hs) hs, hlast,
        hreads rfl⟩

include regular hG hp done in
/-- **Those that are left over are the ones that were left over before.**
Otherwise one of them that is settled, with the least order, would read
one with an order that is less. -/
theorem settleRounds_again {rounds : Nat} (nodup : G.Nodup) (hlen : G.length ≤ rounds)
    (hb : (a.unsettle p₀ G).Unmoved b) :
    ∃ b', settleRounds source rounds b (G.map p₀.globalOf) = .ok (L.map p₀.globalOf, b') ∧
      (a.unsettle p₀ L).Unmoved b' := by
  obtain ⟨W, b', hrun, hsub, hkeep, hmoved, hreads⟩ := settleRounds_run regular hG hp done nodup
    (fun _ hs => hs) hlen (fun s hs => done.sub.subset hs) hb
  -- by induction on the order that it had
  have hleft : ∀ n s, s ∈ W → s ∉ L → ∀ r, a.program.vars.get? (p₀.globalOf s).id = some r →
      r.order = n → False := by
    intro n
    induction n using Nat.strong_induction_on with
    | _ n ih =>
      intro s hs hnot r hr hn
      obtain ⟨-, r', m, hr', horder, hread⟩ := done.settled s (hsub.subset hs) hnot
      rw [hr] at hr'
      obtain rfl := Option.some.inj hr'
      obtain ⟨e, he, v, q, hm, hq, hzero⟩ := (hreads s hs).exists_init
      simp only [Global.Reads, he] at hread
      obtain ⟨q', hq', hpos, hle⟩ := hread.1 v hm
      by_cases hmem : ∃ s' ∈ W, (p₀.globalOf s').id = v
      · obtain ⟨s', hs', rfl⟩ := hmem
        refine ih q'.order (by omega) s' hs' (fun hL => ?_) q' hq' rfl
        obtain ⟨q'', hq'', hcycle, -⟩ := (done.cyclic s' hL).var
        rw [hq'] at hq''
        rw [Option.some.inj hq''] at hpos
        omega
      · rw [get?_unsettle_of_not_mem fun s' hs' heq => hmem ⟨s', hs', heq⟩, hq'] at hq
        rw [Option.some.inj hq] at hpos
        omega
  have hsame : W = L := by
    refine (nodup.perm_iff_eq_of_sublist hsub done.sub).1 ?_
    refine (List.perm_ext_iff_of_nodup (hsub.nodup nodup) (done.sub.nodup nodup)).2 fun s => ?_
    refine ⟨fun hs => ?_, hkeep s⟩
    by_contra hnot
    obtain ⟨-, r, n, hr, -⟩ := done.settled s (hsub.subset hs) hnot
    exact hleft r.order s hs hnot r hr rfl
  rw [hsame] at hrun hmoved
  exact ⟨b', hrun, hmoved⟩

/-! ## Reporting the cycles again -/

include regular in
/-- A variable in a cycle gets the type again that it had, and is settled
with that. -/
theorem setCyclic_again {d : Analysis} {rest : List StmtId} {r : Variable}
    (hs : p₀.stmts.get? s = some ⟨.variable v typeExpr init, span⟩)
    (hdeclares : ∀ s' ∈ s :: rest, p₀.declaresVariable s' = true) (hnew : s ∉ rest)
    (hr : a.program.vars.get? v = some r) (hzero : r.order = 0)
    (htype : r.type = a.program.typeFrom (p₀.cycleFrom s))
    (hd : d.program = a.program.unsettle p₀ (s :: rest))
    (hrd : d.program.vars.get? v = some (a.program.unsettledVar p₀ s r)) :
    ∃ b', (if typeExpr.isSome then return d
        else return { d with program := ← d.program.setVariableType v .error } :
          Except Fault Analysis) = .ok b' ∧
      b'.program = a.program.unsettle p₀ rest ∧ b'.queue = d.queue := by
  have hid : (p₀.globalOf s).id = v := by rw [globalOf_eq hs]
  rw [← hid] at hr
  have hmem : ∀ s', s' ∈ rest ↔ s' ∈ s :: rest ∧ s' ≠ s := by
    intro s'
    refine ⟨fun hs' => ⟨List.mem_cons_of_mem _ hs', fun h => hnew (h ▸ hs')⟩, fun h => ?_⟩
    exact (List.mem_cons.1 h.1).resolve_left h.2
  rw [cycleFrom_eq hs] at htype
  cases typeExpr with
  | some e =>
    -- a declared type has not been taken back
    have hrecord : a.program.unsettledVar p₀ s r = r := by
      obtain ⟨name, type, order⟩ := r
      simp only at hzero htype
      simp only [Program.unsettledVar, declaredFrom_eq hs, hzero, htype]
      rfl
    refine ⟨d, rfl, ?_, rfl⟩
    have h := unsettle_modify (f := id) regular hdeclares List.mem_cons_self hmem hr hrecord
    rw [hid, Table.modify_same (hd ▸ hrd) rfl] at h
    rw [hd, ← h]
    rfl
  | none =>
    have hrecord : ({ a.program.unsettledVar p₀ s r with type := .error } : Variable) = r := by
      obtain ⟨name, type, order⟩ := r
      simp only at hzero htype
      simp only [Program.unsettledVar, hzero, htype]
      rfl
    have hupdate : d.program.vars.update v ({ · with type := .error }) = .ok _ :=
      (Table.update_eq_ok_iff _).2 ⟨Table.lt_size_of_get? hrd, rfl⟩
    refine ⟨_, bind_eq_ok.2 ⟨_, bind_eq_ok.2 ⟨_, hupdate, rfl⟩, rfl⟩, ?_, rfl⟩
    rw [hd, ← hid]
    exact unsettle_modify regular hdeclares List.mem_cons_self hmem hr hrecord

include regular hG hp done in
/-- **A cycle is reported as it was before.** -/
theorem reportCycle_again {rest : List StmtId} (hs : s ∈ L) (hrest : ∀ s ∈ rest, s ∈ L)
    (hnew : s ∉ rest) (hdone : ∀ e expected, .value e expected ∈ p₀.tasks s →
      (a.unsettle p₀ (s :: rest)).TaskDone source (.value e expected))
    (hb : (a.unsettle p₀ (s :: rest)).Unmoved b) :
    ∃ b', reportCycle source b (p₀.globalOf s) = .ok b' ∧ (a.unsettle p₀ rest).Unmoved b' := by
  have hdeclares : ∀ s' ∈ s :: rest, p₀.declaresVariable s' = true := by
    intro s' hs'
    rcases List.mem_cons.1 hs' with rfl | hs'
    · exact hG s' (done.sub.subset hs)
    · exact hG s' (done.sub.subset (hrest s' hs'))
  obtain ⟨v, typeExpr, init, span, hstmt⟩ :=
    Program.exists_of_declaresVariable (hdeclares s List.mem_cons_self)
  have hg := globalOf_eq hstmt
  have cyclic := done.cyclic s hs
  obtain ⟨r, hr, hzero, htype⟩ := cyclic.var
  rw [hg] at hr
  -- the initializer is typed as before, and its report refused
  obtain ⟨hrb, expected, c, hexpected, hc, hmoved⟩ :=
    typeInit_again regular hp hstmt hdeclares List.mem_cons_self hb hdone hr
  obtain ⟨root, hroot, -⟩ := cyclic.reads.exists_init
  obtain ⟨x, hx, hquiet⟩ := cyclic.quiet root hroot
  have hall := hb.trans hmoved
  have hxc : c.program.exprs.get? root = some x := by
    rw [hall.program]
    exact hx
  have hquietC : c.Quiet root (.ofCode .cyclicInitializer x.span) :=
    (Flags.unmoved hall).quiet ((Changes.of_unsettle a p₀ (s :: rest)).quiet hquiet)
  obtain ⟨d, hd, hlast⟩ := report_of_quiet hxc hquietC
  have hraise : c.raiseAt .cyclicInitializer root = .ok d := (raiseAt_eq hxc).trans hd
  have hprogram : d.program = a.program.unsettle p₀ (s :: rest) := by
    rw [hlast.program, hall.program]
    rfl
  have hrd : d.program.vars.get? v = some (a.program.unsettledVar p₀ s r) := by
    rw [hlast.program, hmoved.program, hrb]
  -- the variable gets its type last
  obtain ⟨b', hrun, hprogram', hqueue⟩ :=
    setCyclic_again regular hstmt hdeclares hnew hr hzero htype hprogram hrd
  obtain ⟨k, hk⟩ := hall.trans hlast
  refine ⟨b', ?_, k, ?_⟩
  · have hinit : init = some root := by rwa [hg] at hroot
    rw [hinit] at hc
    simp only [reportCycle, hexpected, ok_bind]
    rw [hg]
    simp only [hinit, hc, ok_bind, hraise]
    exact hrun
  · obtain ⟨program, queue⟩ := b'
    obtain rfl : program = _ := hprogram'
    obtain rfl : queue = _ := hqueue
    rw [hk]
    rfl

include regular hG hp done in
theorem reportCycles_again {rest : List StmtId} (hrest : ∀ s ∈ rest, s ∈ L) (nodup : rest.Nodup)
    (stages : a.CyclesDone source p₀ rest) (hb : (a.unsettle p₀ rest).Unmoved b) :
    ∃ b', (rest.map p₀.globalOf).foldlM (reportCycle source) b = .ok b' ∧ a.Unmoved b' := by
  induction rest generalizing b with
  | nil => exact ⟨b, rfl, hb⟩
  | cons s rest ih =>
    obtain ⟨hs, htail⟩ := List.forall_mem_cons.1 hrest
    obtain ⟨hnew, hnodup⟩ := List.nodup_cons.1 nodup
    obtain ⟨c, hc, hmoved⟩ := reportCycle_again regular hG hp done hs htail hnew stages.1 hb
    obtain ⟨b', hb', hlast⟩ := ih htail hnodup stages.2 hmoved
    exact ⟨b', foldlM_cons_eq_ok.2 ⟨c, hc, hb'⟩, hlast⟩

end Settling

/-- **To settle all variables again changes nothing in the end.** -/
theorem typeGlobals_again {ss : List StmtId} (regular : p₀.Regular) (once : p₀.UsedOnce)
    (hp : Program.Pruned p₀ a.program) (hheld : ∀ s ∈ ss, ∃ stmt, p₀.stmts.get? s = some stmt)
    (nodup : (ss.filter p₀.declaresVariable).Nodup)
    (done : a.GlobalsDone source p₀ (ss.filter p₀.declaresVariable) L) :
    ∃ b, typeGlobals source a ss = .ok b ∧ a.Unmoved b := by
  have hG : ∀ s ∈ ss.filter p₀.declaresVariable, p₀.declaresVariable s = true := fun s hs =>
    (List.mem_filter.1 hs).2
  have hnamed : ∀ s ∈ ss.filter p₀.declaresVariable, ∀ e, .name e ∈ p₀.tasks s → a.TypeDone e := by
    intro s hs e he
    by_cases hL : s ∈ L
    · exact (done.cyclic s hL).named e he
    · exact (done.settled s hs hL).tasks _ he
  obtain ⟨b, hb, hmoved⟩ := declareAll_again regular hG hp hnamed
  obtain ⟨c, hc, hmovedC⟩ := settleRounds_again regular hG hp done nodup
    (Nat.le_refl _) hmoved
  obtain ⟨d, hd, hmovedD⟩ := reportCycles_again regular hG hp done (fun _ hs => hs)
    (done.sub.nodup nodup) done.stages hmovedC
  refine ⟨d, ?_, hmovedD⟩
  have hdeclare : a.declareGlobals ss =
      .ok ((ss.filter p₀.declaresVariable).map p₀.globalOf, b) := by
    rw [declareGlobals_eq regular once hp hheld, hb]
    rfl
  simp only [typeGlobals, hdeclare, ok_bind, List.length_map, hc, hd]

end FrontEnd
