import FrontEnd.Analysis.Compile
import FrontEnd.Proofs.Outcome
/-!
# FrontEnd — what the passes leave alone

The passes fill in placeholders: the kinds of names, types, flags, the
orders of variables, the scopes of blocks, and `main`. `Program.frame` is
a program with all of these blanked out. A function of the program that
does not look at them is the same of any two programs with one frame,
which is how a pass may read the statements it walks off the program it
is changing.
-/

namespace FrontEnd

namespace Table

variable {k : RecordKind} {α β : Type}

/-- Every record changed alike. -/
def map (t : Table k α) (f : α → β) : Table k β := ⟨t.records.map f⟩

@[simp] theorem get?_map (t : Table k α) (f : α → β) (i : RecordId k) :
    (t.map f).get? i = (t.get? i).map f := by
  simp [get?, map]

@[simp] theorem size_map (t : Table k α) (f : α → β) : (t.map f).size = t.size := by
  simp [size, map]

/-- Tables that look alike are of one size. -/
theorem size_eq_of_map_eq {t t' : Table k α} {f : α → β} (h : t'.map f = t.map f) :
    t'.size = t.size := by
  simpa only [size_map] using congrArg size h

/-- Tables that look alike hold records that look alike. -/
theorem exists_of_map_eq {t t' : Table k α} {f : α → β} {i : RecordId k} {x : α}
    (h : t'.map f = t.map f) (hx : t.get? i = some x) :
    ∃ x', t'.get? i = some x' ∧ f x' = f x := by
  have hmap := congrArg (·.get? i) h
  simp only [get?_map, hx] at hmap
  exact Option.map_eq_some_iff.1 hmap

theorem get_map (t : Table k α) (f : α → β) (i : RecordId k) :
    (t.map f).get i = (t.get i).map f := by
  simp only [get, get?_map]
  cases t.get? i <;> rfl

/-- A change that a view does not see leaves the view as it was. -/
theorem map_modify {t : Table k α} {i : RecordId k} {g : α → α} {f : α → β}
    (h : ∀ x, f (g x) = f x) : (t.modify i g).map f = t.map f := by
  refine ext_get? fun j => ?_
  rw [get?_map, get?_map, get?_modify]
  split
  · rw [Option.map_map]
    exact congrArg (Option.map · (t.get? j)) (funext h)
  · rfl

/-- A change of one record that a view does not see leaves the view as it
was. -/
theorem map_modify_of_get? {t : Table k α} {i : RecordId k} {g : α → α} {f : α → β} {x : α}
    (hx : t.get? i = some x) (h : f (g x) = f x) : (t.modify i g).map f = t.map f := by
  refine ext_get? fun j => ?_
  rw [get?_map, get?_map, get?_modify]
  split
  · next hj => rw [hj, hx, Option.map_some, Option.map_some, Option.map_some, h]
  · rfl

theorem map_update {t t' : Table k α} {i : RecordId k} {g : α → α} {f : α → β}
    (hu : t.update i g = .ok t') (h : ∀ x, f (g x) = f x) : t'.map f = t.map f := by
  rw [(update_eq_ok_iff t).1 hu |>.2, map_modify h]

theorem toList_map (t : Table k α) (f : α → β) : (t.map f).toList = t.toList.map f := by
  simp [toList, map]

/-- A slice of changed records is the changed slice. -/
theorem slice_map (t : Table k α) (f : α → β) (r : IdRange k) :
    (t.map f).slice r = (t.slice r).map (List.map fun (i, x) => (i, f x)) := by
  simp only [slice, size_map]
  split
  · rfl
  · split
    · simp only [Except.map, map, Array.toList_extract, Array.toList_map, List.extract_eq_take_drop,
        ← List.map_drop, ← List.map_take, List.zip_map_right]
      rfl
    · rfl

end Table

/-! ## Records without what the passes fill in -/

/-- A block without its scope. -/
def Block.frame (b : Block) : Block := { b with symbolTable := .sentinel }

def StmtKind.frame : StmtKind → StmtKind
  | .nest head body => .nest head body.frame
  | kind => kind

def Stmt.frame (s : Stmt) : Stmt := { s with kind := s.kind.frame }

theorem StmtKind.eq_of_frame {kind kind' : StmtKind} (h : kind'.frame = kind.frame)
    (hn : ∀ head body, kind ≠ .nest head body) : kind' = kind := by
  cases kind with
  | nest head body => exact absurd rfl (hn head body)
  | _ => cases kind' <;> simp_all [StmtKind.frame]

theorem StmtKind.nest_of_frame {kind' : StmtKind} {head : Head VariableId} {body : Block}
    (h : kind'.frame = (StmtKind.nest head body).frame) : ∃ body', kind' = .nest head body' := by
  cases kind' <;> simp_all [StmtKind.frame]

def Function.frame (f : Function) : Function :=
  { f with body := f.body.frame, returnType := .unset }

def Parameter.frame (a : Parameter) : Parameter := { a with type := .unset }

def Variable.frame (v : Variable) : Variable := { v with type := .unset, order := 0 }

/-- An expression without its kind and its type. -/
def Expr.frame (x : Expr) : Expr := { kind := .invalid, span := x.span }

namespace Program

/-- A program without anything that a pass writes. -/
def frame (p : Program) : Program where
  exprs := p.exprs.map Expr.frame
  arguments := p.arguments
  stmts := p.stmts.map Stmt.frame
  functions := p.functions.map Function.frame
  parameters := p.parameters.map Parameter.frame
  vars := p.vars.map Variable.frame
  enumTypes := p.enumTypes
  enumValues := p.enumValues
  structTypes := p.structTypes
  symbolTables := .empty
  block := p.block.frame

variable {p p' : Program}

/-! ## Changes that the frame does not see -/

theorem frame_exprs {exprs : Table .expr Expr}
    (h : exprs.map Expr.frame = p.exprs.map Expr.frame) :
    { p with exprs }.frame = p.frame := by
  simp only [frame, h]

theorem frame_stmts {stmts : Table .stmt Stmt}
    (h : stmts.map Stmt.frame = p.stmts.map Stmt.frame) :
    { p with stmts }.frame = p.frame := by
  simp only [frame, h]

theorem frame_functions {functions : Table .function Function}
    (h : functions.map Function.frame = p.functions.map Function.frame) :
    { p with functions }.frame = p.frame := by
  simp only [frame, h]

theorem frame_parameters {parameters : Table .parameter Parameter}
    (h : parameters.map Parameter.frame = p.parameters.map Parameter.frame) :
    { p with parameters }.frame = p.frame := by
  simp only [frame, h]

theorem frame_vars {vars : Table .variable Variable}
    (h : vars.map Variable.frame = p.vars.map Variable.frame) :
    { p with vars }.frame = p.frame := by
  simp only [frame, h]

@[simp] theorem frame_setKind (e : ExprId) (kind : ExprKind) :
    (p.setKind e kind).frame = p.frame :=
  frame_exprs (Table.map_modify fun _ => rfl)

@[simp] theorem frame_setExprType (e : ExprId) (type : Ty) :
    (p.setExprType e type).frame = p.frame :=
  frame_exprs (Table.map_modify fun _ => rfl)

/-- A change of a body that keeps its statements. -/
theorem frame_updateBody {s : StmtId} {change : Block → Block} (hc : ∀ b, (change b).frame = b.frame)
    (h : p.updateBody s change = .ok (some p')) : p'.frame = p.frame := by
  simp only [updateBody, bind_eq_ok] at h
  obtain ⟨stmt, hs, h⟩ := h
  split at h
  · simp only [bind_eq_ok, pure_eq_ok] at h
    obtain ⟨functions, hf, h⟩ := h
    cases h
    exact frame_functions (Table.map_update hf fun f => by simp [Function.frame, hc])
  · next head body hk =>
    cases h
    refine frame_stmts (Table.map_modify_of_get? (Table.get_eq_ok.1 hs) ?_)
    simp [Stmt.frame, hk, StmtKind.frame, hc]
  · cases h

/-! ## Reading off the frame -/

theorem stmts_get_frame (s : StmtId) : p.frame.stmts.get s = (p.stmts.get s).map Stmt.frame :=
  Table.get_map ..

theorem functions_get_frame (f : FunctionId) :
    p.frame.functions.get f = (p.functions.get f).map Function.frame :=
  Table.get_map ..

theorem nameOf_frame (t : Target) : p.frame.nameOf t = p.nameOf t := by
  cases t with
  | «variable» v => simp only [nameOf, frame, Table.get_map]; cases p.vars.get v <;> rfl
  | function f => simp only [nameOf, frame, Table.get_map]; cases p.functions.get f <;> rfl
  | parameter a => simp only [nameOf, frame, Table.get_map]; cases p.parameters.get a <;> rfl
  | enumType e => rfl
  | structType s => rfl

theorem signature_frame (f : FunctionId) : p.frame.signature f = p.signature f := by
  simp only [signature, frame, Table.get_map, Table.slice_map]
  cases p.functions.get f with
  | error fault => rfl
  | ok r =>
    simp only [Except.map, ok_bind, Function.frame]
    cases p.parameters.slice r.parameters with
    | error fault => rfl
    | ok parameters =>
      simp only [ok_bind, List.filterMap_map]
      rfl

theorem bodyOf_frame (s : StmtId) :
    p.frame.bodyOf s = (p.bodyOf s).map (Option.map Block.frame) := by
  simp only [bodyOf, stmts_get_frame, functions_get_frame]
  cases p.stmts.get s with
  | error fault => rfl
  | ok stmt =>
    obtain ⟨kind, span⟩ := stmt
    cases kind with
    | function f =>
      simp only [Except.map, Stmt.frame, StmtKind.frame, ok_bind]
      cases p.functions.get f <;> rfl
    | _ => rfl

@[simp] theorem Block.len_frame (b : Block) : b.frame.len = b.len := rfl

theorem slotCount_frame (s : StmtId) : p.frame.slotCount s = p.slotCount s := by
  simp only [slotCount, bodyOf_frame]
  cases p.bodyOf s with
  | error fault => rfl
  | ok body => cases body <;> rfl

theorem childrenFrom_frame (b : Block) (places offset : Nat) :
    p.frame.childrenFrom b.frame places offset = p.childrenFrom b places offset := by
  induction places generalizing offset with
  | zero => rfl
  | succ places ih =>
    simp only [childrenFrom, Block.len_frame, slotCount_frame, ih]
    rfl

theorem children_frame (b : Block) : p.frame.children b.frame = p.children b :=
  childrenFrom_frame ..

theorem outlineWithin_frame (fuel : Nat) (b : Block) :
    p.frame.outlineWithin fuel b.frame = p.outlineWithin fuel b := by
  induction fuel generalizing b with
  | zero => rfl
  | succ fuel ih =>
    simp only [outlineWithin, children_frame]
    cases p.children b with
    | error fault => rfl
    | ok children =>
      refine congrArg (fun step => List.foldr step Outline.done children.ids) ?_
      funext s rest
      rw [bodyOf_frame]
      cases p.bodyOf s with
      | error fault => rfl
      | ok body =>
        cases body with
        | none => rfl
        | some body => simp only [Except.map, Option.map_some, ih]

theorem outline_frame (b : Block) : p.frame.outline b.frame = p.outline b := by
  simp only [outline, outlineWithin_frame]
  simp only [frame, Table.size_map]

/-- **Programs with one frame unfold alike.** -/
theorem outline_congr (h : p'.frame = p.frame) :
    p'.outline p'.block = p.outline p.block := by
  rw [← outline_frame, ← outline_frame p.block, h]
  exact congrArg p.frame.outline (congrArg Program.block h)

end Program

end FrontEnd
