import FrontEnd.Proofs.Justified
import FrontEnd.Proofs.Renaming
import Mathlib.Data.List.Find
/-!
# FrontEnd — types over sources that tell names apart alike

Type resolution reads names in one place only: where the values of an
enum type are looked through for one of a name (`findEnumValue_alike`).
So over two sources that tell names apart alike it takes the same steps
and reports the same (`resolveTypes_alike`).
-/

namespace FrontEnd

open Program

variable {names : Span → Prop} {source source' : String} {p : Program} {a a' : Analysis}
variable {e : ExprId} {s : StmtId} {ss : List StmtId}

/-- **Names select the same values of an enum over both sources.** -/
theorem Program.findEnumValue_alike (alike : ReadsAlike names source source') (h : ReadsOnly names p)
    (t : EnumTypeId) {name : Span} (hname : names name) :
    p.findEnumValue source t name = p.findEnumValue source' t name := by
  refine bind_congr_ok fun r _ => bind_congr_ok fun values hvalues => ?_
  have hread : ∀ v ∈ values, (v.2.name.read source == name.read source) =
      (v.2.name.read source' == name.read source') := fun v hv =>
    alike.beq (h.values v.1 v.2 (mem_slice hvalues hv).1) hname
  rw [List.find?_congr hread]

namespace Analysis

/-! ## What the source has no part in -/

/-- The spans that the program of the analysis reads are names. -/
def ReadsOnly (names : Span → Prop) (a : Analysis) : Prop := Program.ReadsOnly names a.program

namespace ReadsOnly

variable (h : ReadsOnly names a)

include h

/-- **Whatever part of the pass has run, the spans that are read are
names.** -/
theorem of_changes {region : ExprId → Prop} {targets : Target → Prop}
    (hc : Changes region targets a a') : ReadsOnly names a' := by
  have htables := congrArg Program.symbolTables hc.rest
  refine Program.ReadsOnly.of_frame h hc.frame (fun e x' subject name hx' hk => ?_) htables
  obtain ⟨x, hx⟩ := Table.exists_get?_of_lt (hc.size ▸ Table.lt_size_of_get? hx')
  obtain ⟨y, hy, matures⟩ := hc.matures e x hx
  cases hy.symm.trans hx'
  rcases matures.kind with hkind | ⟨-, v, hv⟩
  · exact h.fields e x subject name hx (hkind ▸ hk)
  · cases hk.symm.trans hv

theorem raiseAt {code : Code} (hr : a.raiseAt code e = .ok a') : ReadsOnly names a' := by
  obtain ⟨x, -, hr⟩ := bind_eq_ok.1 hr
  exact h.of_changes (Changes.report hr)

theorem typeNamed? {typeExpr : Option ExprId} {type : Option Ty}
    (ht : a.typeNamed? typeExpr = .ok (type, a')) : ReadsOnly names a' :=
  h.of_changes (typeNamed?_done ht).1

theorem update_vars {v : VariableId} {f : Variable → Variable} {vars : Table .variable Variable}
    (hu : a.program.vars.update v f = .ok vars) (hf : ∀ r, (f r).frame = r.frame) :
    ReadsOnly names { a with program := { a.program with vars } } :=
  h.of_changes (Changes.update_var hu hf).1

theorem setVariableType {v : VariableId} {type : Ty}
    (hu : a.program.setVariableType v type = .ok p) : ReadsOnly names { a with program := p } := by
  obtain ⟨vars, hvars, hu⟩ := bind_eq_ok.1 hu
  cases pure_eq_ok.1 hu
  exact h.update_vars hvars fun _ => rfl

theorem typeParameter {i : ParameterId} (ht : a.typeParameter i = .ok a') : ReadsOnly names a' := by
  obtain ⟨r, -, ht⟩ := bind_eq_ok.1 ht
  obtain ⟨⟨type, b⟩, hb, ht⟩ := bind_eq_ok.1 ht
  obtain ⟨parameters, hu, ht⟩ := bind_eq_ok.1 ht
  cases pure_eq_ok.1 ht
  exact (h.typeNamed? hb).congr (frame_parameters (Table.map_update hu fun _ => rfl)) rfl rfl

theorem typeSignature {f : FunctionId} (ht : a.typeSignature f = .ok a') : ReadsOnly names a' := by
  obtain ⟨r, -, ht⟩ := bind_eq_ok.1 ht
  obtain ⟨⟨type, b⟩, hb, ht⟩ := bind_eq_ok.1 ht
  obtain ⟨functions, hu, ht⟩ := bind_eq_ok.1 ht
  obtain ⟨parameters, -, ht⟩ := bind_eq_ok.1 ht
  have hresult : ReadsOnly names { b with program := { b.program with functions } } :=
    (h.typeNamed? hb).congr (frame_functions (Table.map_update hu fun _ => rfl)) rfl rfl
  exact foldlM_invariant (ReadsOnly names) (fun _ _ _ _ h ht => h.typeParameter ht) hresult ht

theorem typeSignatures (ht : a.typeSignatures ss = .ok a') : ReadsOnly names a' := by
  refine foldlM_invariant (ReadsOnly names) (fun s _ b b' h hb => ?_) h ht
  obtain ⟨stmt, -, hb⟩ := bind_eq_ok.1 hb
  split at hb
  · exact h.typeSignature hb
  · exact pure_eq_ok.1 hb ▸ h

theorem declareGlobal {g : Option Global} (hd : a.declareGlobal s = .ok (g, a')) :
    ReadsOnly names a' := by
  obtain ⟨stmt, -, hd⟩ := bind_eq_ok.1 hd
  split at hd
  · obtain ⟨⟨type, b⟩, hb, hd⟩ := bind_eq_ok.1 hd
    obtain ⟨vars, hu, hd⟩ := bind_eq_ok.1 hd
    cases pure_eq_ok.1 hd
    exact (h.typeNamed? hb).update_vars hu fun _ => rfl
  · cases pure_eq_ok.1 hd
    exact h

theorem declareGlobals {G : List Global} (hd : a.declareGlobals ss = .ok (G, a')) :
    ReadsOnly names a' := by
  induction ss generalizing a G with
  | nil =>
    cases pure_eq_ok.1 hd
    exact h
  | cons s ss ih =>
    obtain ⟨⟨g, b⟩, hb, hd⟩ := bind_eq_ok.1 hd
    obtain ⟨⟨rest, c⟩, hc, hd⟩ := bind_eq_ok.1 hd
    cases pure_eq_ok.1 hd
    exact ih (h.declareGlobal hb) hc

theorem setKind (e : ExprId) (v : EnumValueId) :
    ReadsOnly names { a with program := a.program.setKind e (.enumValue v) } :=
  Program.ReadsOnly.setKind h e fun _ _ => nofun

end ReadsOnly

/-! ## Expressions -/

section

variable (alike : ReadsAlike names source source') (h : ReadsOnly names a)

include alike h

theorem nameEnumValue_alike (expected : Option Ty) (e : ExprId) :
    Same (ReadsOnly names) (a.nameEnumValue source expected e) (a.nameEnumValue source' expected e) := by
  simp only [nameEnumValue]
  refine .read fun x hx => ?_
  rw [Table.get_eq_ok] at hx
  split
  · next t _ =>
    simp only [findEnumValue_alike alike h t (h.exprs e x hx)]
    refine .read fun found _ => ?_
    cases found with
    | none => exact .pure h
    | some v => exact .pure (h.setKind e v)
  · next subject name hk =>
    refine .read fun y _ => ?_
    split
    · next t _ =>
      simp only [findEnumValue_alike alike h t (h.fields e x subject name hx hk)]
      refine .read fun found _ => ?_
      cases found with
      | none => exact .of_keeps fun b hb => h.raiseAt hb
      | some v => exact .pure (h.setKind e v)
    · exact .pure h
  · exact .pure h

theorem typeExprWithin_alike (fuel : Nat) (expected : Option Ty) (e : ExprId) :
    Same (fun r => ReadsOnly names r.2) (typeExprWithin source fuel expected a e)
      (typeExprWithin source' fuel expected a e) := by
  induction fuel generalizing expected a e with
  | zero => exact .error
  | succ fuel ih =>
    refine .read fun x _ => .read fun es _ => .bind (.foldlM (fun o _ b h => ?_) h) fun b h => ?_
    · exact (ih h none o).bind fun r h => .pure h
    · refine (nameEnumValue_alike alike h expected e).bind fun c h => .read fun type _ => ?_
      exact .pure (h.setExprType e type)

theorem typeExpr_alike (expected : Option Ty) (e : ExprId) :
    Same (fun r => ReadsOnly names r.2) (typeExpr source expected a e) (typeExpr source' expected a e) :=
  typeExprWithin_alike alike h _ expected e

theorem typeExpr?_alike (expected : Option Ty) (o : Option ExprId) :
    Same (fun r => ReadsOnly names r.2) (typeExpr? source expected a o) (typeExpr? source' expected a o) := by
  cases o with
  | none => exact .pure h
  | some e => exact (typeExpr_alike alike h expected e).bind fun r h => .pure h

/-! ## Top-level variables -/

theorem settle_alike (g : Global) (n : Nat) :
    Same (ReadsOnly names) (settle source a g n) (settle source' a g n) := by
  refine .read fun expected _ => (typeExpr?_alike alike h expected g.init).bind fun r h => ?_
  exact .read fun vars hu => .pure (h.update_vars hu fun _ => rfl)

theorem settleRound_alike (G : List Global) :
    Same (fun r => ReadsOnly names r.2) (settleRound source a G) (settleRound source' a G) := by
  induction G generalizing a with
  | nil => exact .pure h
  | cons g G ih =>
    simp only [settleRound]
    refine .read fun found _ => ?_
    cases found with
    | none => exact (ih h).bind fun r h => .pure h
    | some n => exact (settle_alike alike h g (n + 1)).bind fun b h => ih h

theorem settleRounds_alike (rounds : Nat) (G : List Global) :
    Same (fun r => ReadsOnly names r.2) (settleRounds source rounds a G)
      (settleRounds source' rounds a G) := by
  induction rounds generalizing a G with
  | zero => exact .pure h
  | succ rounds ih =>
    refine (settleRound_alike alike h G).bind fun r h => ?_
    dsimp only
    split
    · exact ih h r.1
    · exact .pure h

theorem reportCycle_alike (g : Global) :
    Same (ReadsOnly names) (reportCycle source a g) (reportCycle source' a g) := by
  refine .read fun expected _ => (typeExpr?_alike alike h expected g.init).bind fun r h => ?_
  have last : ∀ b, ReadsOnly names b → Same (ReadsOnly names)
      (if g.declared then pure b
        else do return { b with program := ← b.program.setVariableType g.id .error })
      (if g.declared then pure b
        else do return { b with program := ← b.program.setVariableType g.id .error }) := by
    intro b h
    split
    · exact .pure h
    · exact .read fun p hp => .pure (h.setVariableType hp)
  cases g.init with
  | none => exact last r.2 h
  | some e => exact .read fun b hb => last b (h.raiseAt hb)

theorem typeGlobals_alike (ss : List StmtId) :
    Same (ReadsOnly names) (typeGlobals source a ss) (typeGlobals source' a ss) := by
  refine .read fun r hr => ?_
  refine (settleRounds_alike alike (h.declareGlobals hr) r.1.length r.1).bind fun r h => ?_
  exact .foldlM (fun g _ b h => reportCycle_alike alike h g) h

/-! ## Statements -/

theorem typeLeaf_alike (s : StmtId) :
    Same (ReadsOnly names) (typeLeaf source a s) (typeLeaf source' a s) := by
  have value : ∀ e, Same (ReadsOnly names) (do return (← typeExpr source none a e).2)
      (do return (← typeExpr source' none a e).2) := fun e =>
    (typeExpr_alike alike h none e).bind fun r h => .pure h
  simp only [typeLeaf]
  refine .read fun stmt _ => ?_
  split
  · next v type init _ =>
    refine .read fun r hr => ?_
    refine (typeExpr?_alike alike (h.typeNamed? hr) r.1 init).bind fun r h => ?_
    exact .read fun p hp => .pure (h.setVariableType hp)
  · next lhs rhs _ =>
    refine (typeExpr_alike alike h none lhs).bind fun r h => ?_
    exact (typeExpr_alike alike h (some r.1) rhs).bind fun r h => .pure h
  · exact value _
  · exact value _
  · exact value _
  · exact .pure h

theorem typeHead_alike (s : StmtId) :
    Same (ReadsOnly names) (typeHead source a s) (typeHead source' a s) := by
  have condition : ∀ e, Same (ReadsOnly names) (do return (← typeExpr source (some .bool) a e).2)
      (do return (← typeExpr source' (some .bool) a e).2) := fun e =>
    (typeExpr_alike alike h (some .bool) e).bind fun r h => .pure h
  simp only [typeHead]
  refine .read fun stmt _ => ?_
  split
  · exact condition _
  · exact condition _
  · exact condition _
  · next iterator iterable _ _ =>
    refine (typeExpr_alike alike h none iterable).bind fun r h => .read fun x _ => ?_
    exact .read fun p hp => .pure (h.setVariableType hp)
  · exact .pure h

theorem enterBlock_alike (topLevel : Bool) (block : Block) (outline : Outline) :
    Same (ReadsOnly names) (enterBlock source topLevel block outline a)
      (enterBlock source' topLevel block outline a) := by
  simp only [enterBlock]
  split
  · exact .error
  · refine .read fun ss _ => .read fun b hb => ?_
    have h := h.typeSignatures (lift_eq_ok.1 hb)
    split
    · exact (typeGlobals_alike alike h ss).lift
    · exact .pure h

theorem typeOutline_alike (topLevel : Bool) (outline : Outline) :
    Same (ReadsOnly names) (typeOutline source topLevel outline a)
      (typeOutline source' topLevel outline a) := by
  induction outline generalizing topLevel a with
  | stuck fault => exact .error
  | done => exact .pure h
  | leaf s rest ih =>
    simp only [typeOutline]
    refine .read fun settled _ => ?_
    split
    · exact ih h topLevel
    · exact (typeLeaf_alike alike h s).lift.bind fun b h => ih h topLevel
  | nested s body rest ihbody ihrest =>
    refine (typeHead_alike alike h s).lift.bind fun b h => .read fun block _ => ?_
    refine (enterBlock_alike alike h false _ body).bind fun c h => ?_
    exact (ihbody h false).bind fun d h => ihrest h topLevel

/-- **Types are resolved alike over both sources.** -/
theorem resolveTypes_alike :
    Same (ReadsOnly names) (a.resolveTypes source) (a.resolveTypes source') :=
  (enterBlock_alike alike h true _ _).bind fun _ h => typeOutline_alike alike h true _

/-! ## Whole programs -/

theorem determineMain_alike :
    Same (ReadsOnly names) (.ok (a.determineMain source) : Except (Abort Halt) Analysis)
      (.ok (a.determineMain source')) := by
  have hmain : { a.program with mainSearched := true }.findMain source =
      { a.program with mainSearched := true }.findMain source' := by
    refine congrArg (Option.map Prod.fst) (List.find?_congr fun f hf => ?_)
    have hname : a.program.nameOf (.function f.1) = .ok f.2.name := by
      simp only [nameOf, Table.get_eq_ok.2 (mem_enumerate.1 hf), ok_bind]
      rfl
    rw [Bool.eq_iff_iff, beq_iff_eq, beq_iff_eq]
    exact alike.main f.2.name (h.targets _ _ hname)
  have hsame : a.determineMain source = a.determineMain source' := by
    simp only [determineMain, hmain]
  obtain ⟨main, searched, hprogram, -⟩ := determineMain_eq a source'
  rw [hsame]
  refine .ok ?_
  rw [ReadsOnly, hprogram]
  exact Program.ReadsOnly.congr h rfl rfl rfl

theorem resolveNames_alike : Same (ReadsOnly names) (a.resolveNames source) (a.resolveNames source') := by
  obtain ⟨hsame, keeps⟩ := bindNames_alike alike h
  simp only [resolveNames, hsame] at keeps ⊢
  cases hp : a.program.bindNames source' with
  | error abort => exact .error
  | ok p => exact .ok (keeps p hp)

/-- **A resolution comes to the same over both sources.** -/
theorem resolve_alike : a.resolve source = a.resolve source' := by
  have run := (determineMain_alike alike h).bind fun b h =>
    (resolveNames_alike alike h).bind fun c h => resolveTypes_alike alike h
  simp only [resolve]
  split
  · exact run.eq
  · rfl

end

end Analysis

/-- The name that an expression of the kind selects. -/
def ExprKind.selected? : ExprKind → Option Span
  | .field _ name => some name
  | _ => none

namespace Program

/-- The spans of a program that may be read as names: those of its
expressions, those that fields select, and those under which it declares
something. -/
def nameSpans (p : Program) : List Span :=
  p.exprs.toList.map (·.span) ++ p.exprs.toList.filterMap (·.kind.selected?) ++
    p.functions.toList.map (·.name) ++ p.parameters.toList.map (·.name) ++
    p.vars.toList.map (·.name) ++ p.enumTypes.toList.map (·.name) ++
    p.enumValues.toList.map (·.name) ++ p.structTypes.toList.map (·.name)

/-- A program reads no other names if it has no scopes yet. -/
theorem readsOnly_nameSpans
    (scopes : ∀ t r, p.symbolTables.get? t = some r → r.symbols = #[]) :
    ReadsOnly (· ∈ p.nameSpans) p where
  exprs e x hx := by
    have := List.mem_map_of_mem (f := (·.span)) (Table.mem_toList.2 ⟨e, hx⟩)
    simp [nameSpans, this]
  fields e x subject name hx hk := by
    have : name ∈ p.exprs.toList.filterMap (·.kind.selected?) :=
      List.mem_filterMap.2 ⟨x, Table.mem_toList.2 ⟨e, hx⟩, by rw [hk]; rfl⟩
    simp only [nameSpans, List.mem_append, this, true_or, or_true]
  targets t name ht := by
    have declared : ∀ {k : RecordKind} {α : Type} {table : Table k α} {i : RecordId k}
        {name : Span} (f : α → Span), (do return f (← table.get i)) = .ok name →
        name ∈ table.toList.map f := by
      intro k α table i name f h
      obtain ⟨r, hr, h⟩ := bind_eq_ok.1 h
      exact List.mem_map.2 ⟨r, Table.mem_toList.2 ⟨i, Table.get_eq_ok.1 hr⟩, pure_eq_ok.1 h⟩
    cases t <;>
      simp only [nameSpans, List.mem_append, declared _ ht, true_or, or_true]
  values v r hr := by
    have : r.name ∈ p.enumValues.toList.map (·.name) :=
      List.mem_map_of_mem (Table.mem_toList.2 ⟨v, hr⟩)
    simp only [nameSpans, List.mem_append, this, true_or, or_true]
  symbols t r hr s hs := by
    rw [scopes t r hr] at hs
    cases hs

/-- A program that is built has no scope but the empty one. -/
theorem build_scopes {steps : List Step} {written : String} (h : build steps = .ok (p, written)) :
    p.symbolTables = Table.empty.push {} := by
  obtain ⟨b, hb, h⟩ := bind_eq_ok.1 h
  cases pure_eq_ok.1 h
  obtain ⟨g, -⟩ := Builder.closeAll_keeps (P := fun b => Growing b.program b.opened)
    (fun _ => Growing.close) (Growing.empty.takeAll hb)
  exact g.tables

/-- **Compilation does not depend on how names are spelled.** Over two
sources that tell the names of a built program apart alike, compiling it
fails for the same reason, or it gives the same program and the same
diagnostics but for their positions. -/
theorem compile_renamed {steps : List Step} {written : String}
    (built : build steps = .ok (p, written)) (alike : ReadsAlike (· ∈ p.nameSpans) source source')
    (config : QueueConfig) :
    (∃ e, p.compile config source = .error e ∧ p.compile config source' = .error e) ∨
    ∃ c c', p.compile config source = .ok c ∧ p.compile config source' = .ok c' ∧
      c.program = c'.program ∧
      c.diagnostics.map Diagnostic.unplaced = c'.diagnostics.map Diagnostic.unplaced := by
  have h : ReadsOnly (· ∈ p.nameSpans) p := readsOnly_nameSpans fun t r hr => by
    rw [build_scopes built, Table.get?_push] at hr
    split at hr
    · cases hr
      rfl
    · cases hr
  have hresolve : (Analysis.start config p).resolve source = (Analysis.start config p).resolve source' :=
    Analysis.resolve_alike alike h
  simp only [compile, hresolve]
  cases (Analysis.start config p).resolve source' with
  | error abort => exact .inl ⟨_, rfl, rfl⟩
  | ok a =>
    cases hcheck : a.check with
    | error abort => exact .inl ⟨abort, by simp only [hcheck]; rfl, by simp only [hcheck]; rfl⟩
    | ok b =>
      refine .inr ⟨⟨b.program, b.queue.finish source⟩, ⟨b.program, b.queue.finish source'⟩,
        by simp only [hcheck]; rfl, by simp only [hcheck]; rfl, rfl, ?_⟩
      simp only [Queue.finish, Queue.annotate, Queue.flush, List.map_map]
      rfl

/-- A variable that is given the value of an enum, and a name that means
nothing, in one spelling and in another that also breaks lines elsewhere. -/
theorem compile_renamed_enum :
    Succeeds (build [.enumType "dir" ["up"], .identifier "dir", .field ⟨0⟩ "up",
        .variable "v" none (some ⟨1⟩), .newline, .identifier "x", .evaluate ⟨2⟩])
      fun (p, written) => written = "dir up dir up v\nx" ∧
        ReadsAlike (· ∈ p.nameSpans) written "age\nok age ok t u" ∧
        Succeeds (p.compile {} written) fun c =>
          Succeeds (p.compile {} "age\nok age ok t u") fun c' =>
            c.program = c'.program ∧
            c.diagnostics.map Diagnostic.unplaced = c'.diagnostics.map Diagnostic.unplaced ∧
            c.diagnostics.map (fun d => (d.line, d.column)) = [(1, 1), (2, 1)] ∧
            c'.diagnostics.map (fun d => (d.line, d.column)) = [(1, 1), (2, 13)] := by
  have facts : Succeeds (build [.enumType "dir" ["up"], .identifier "dir", .field ⟨0⟩ "up",
        .variable "v" none (some ⟨1⟩), .newline, .identifier "x", .evaluate ⟨2⟩])
      fun (p, written) => written = "dir up dir up v\nx" ∧
        ReadsAlike (· ∈ p.nameSpans) written "age\nok age ok t u" ∧
        Succeeds (p.compile {} written) fun c =>
          Succeeds (p.compile {} "age\nok age ok t u") fun c' =>
            c.diagnostics.map (fun d => (d.line, d.column)) = [(1, 1), (2, 1)] ∧
            c'.diagnostics.map (fun d => (d.line, d.column)) = [(1, 1), (2, 13)] := by decide +kernel
  obtain ⟨⟨p, written⟩, built, hwritten, alike, c, hc, c', hc', hplaces⟩ := facts
  refine ⟨(p, written), built, hwritten, alike, c, hc, c', hc', ?_⟩
  rcases compile_renamed built alike {} with ⟨e, hfails, -⟩ | ⟨b, b', hb, hb', hprogram, hsame⟩
  · cases hfails.symm.trans hc
  · cases hb.symm.trans hc
    cases hb'.symm.trans hc'
    exact ⟨hprogram, hsame, hplaces⟩

end Program

end FrontEnd
