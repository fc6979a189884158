import FrontEnd.Proofs.Operand
/-!
# FrontEnd — lexical scoping

What a name stands for, said without symbol tables. A block knows its
declarations in a fixed order: what its owner gives it, then what the
whole block knows, then what the statements before the one at hand have
declared (`placesIn`). A name means the first of these that reads the
same, searched from the block at hand outward (`means`).

All of this is read off the frame of a program.
-/

namespace FrontEnd

namespace Program

/-! ## Declarations -/

/-- The name a target is declared under. -/
def nameAt (p : Program) (t : Target) : Span :=
  match p.nameOf t with
  | .ok name => name
  | .error _ => .zero

/-- The entry a declaration of the target makes. -/
def symbolAt (p : Program) (t : Target) : Symbol := ⟨p.nameAt t, t⟩

/-- What the whole block around a statement knows by it: a function, and
at the top level every declaration. -/
def declaredAhead (p : Program) (topLevel : Bool) (s : StmtId) : List Target :=
  elements do
    return match (← p.stmts.get s).kind.declares with
      | .function f => [.function f]
      | .value target => if topLevel then [target] else []
      | .nothing => []

/-- What only the statements behind a statement know by it. -/
def declaredBehind (p : Program) (topLevel : Bool) (s : StmtId) : List Target :=
  elements do
    return match (← p.stmts.get s).kind.declares with
      | .value target => if topLevel then [] else [target]
      | _ => []

/-- What the body of a statement knows by its owner: the parameters of a
function, or the iterator of a loop. -/
def declaredInside (p : Program) (s : StmtId) : List Target :=
  elements do
    match (← p.stmts.get s).kind with
    | .function f =>
      return (← p.parameters.slice (← p.functions.get f).parameters).map (.parameter ·.1)
    | .nest (.forEach iterator _) _ => return [.variable iterator]
    | _ => return []

/-- What a block knows ahead of its statements. -/
def blockAhead (p : Program) (topLevel : Bool) (outline : Outline) : List Target :=
  (elements outline.direct).flatMap (p.declaredAhead topLevel)

/-! ## Places -/

end Program

/-- A statement and the declarations that can be seen from it, in the
order in which they are searched. -/
structure Place where
  stmt : StmtId
  visible : List Target
deriving DecidableEq

namespace Program

/-- The statements of a block and of the bodies in it, with what can be
seen from each: `own` has been declared in the block so far, and `outer`
can be seen from the block itself. -/
def placesIn (p : Program) : (topLevel : Bool) → (own outer : List Target) → Outline → List Place
  | _, _, _, .stuck _ => []
  | _, _, _, .done => []
  | topLevel, own, outer, .leaf s rest =>
    ⟨s, own ++ outer⟩ :: p.placesIn topLevel (own ++ p.declaredBehind topLevel s) outer rest
  | topLevel, own, outer, .nested s body rest =>
    ⟨s, own ++ outer⟩ ::
      (p.placesIn false (p.declaredInside s ++ p.blockAhead false body) (own ++ outer) body ++
        p.placesIn topLevel own outer rest)

/-- Every statement of the program with what can be seen from it. -/
def places (p : Program) : List Place :=
  p.placesIn true (p.blockAhead true (p.outline p.block)) [] (p.outline p.block)

/-! ## Meaning -/

/-- What a name stands for where `visible` can be seen: a keyword is a
type, and any other name is the first declaration that reads the same. -/
def means (p : Program) (source : String) (visible : List Target) (name : Span) :
    Option ExprKind :=
  match Ty.ofKeyword? (name.read source) with
  | some type => some (.typeName type)
  | none =>
    (visible.find? fun t => (p.nameAt t).read source == name.read source).map Target.exprKind

/-- What an expression becomes where `visible` can be seen: a name that
means something becomes that, and all else stays as it is. -/
def boundKind (p : Program) (source : String) (visible : List Target) (x : Expr) : ExprKind :=
  match x.kind with
  | .identifier => (p.means source visible x.span).getD .identifier
  | kind => kind

variable {p p' : Program}

theorem declaredAhead_eq (topLevel : Bool) {s : StmtId} {stmt : Stmt}
    (hs : p.stmts.get s = .ok stmt) : p.declaredAhead topLevel s =
      match stmt.kind.declares with
      | .function f => [.function f]
      | .value target => if topLevel then [target] else []
      | .nothing => [] := by
  simp only [declaredAhead, hs, ok_bind]
  rfl

theorem declaredBehind_eq (topLevel : Bool) {s : StmtId} {stmt : Stmt}
    (hs : p.stmts.get s = .ok stmt) : p.declaredBehind topLevel s =
      match stmt.kind.declares with
      | .value target => if topLevel then [] else [target]
      | _ => [] := by
  simp only [declaredBehind, hs, ok_bind]
  rfl

/-- What a statement declares is known either to its whole block or to
what follows it. -/
theorem declaredAhead_append_behind (topLevel : Bool) (s : StmtId) :
    p.declaredAhead topLevel s ++ p.declaredBehind topLevel s = p.declaredAhead true s := by
  cases hs : p.stmts.get s with
  | error fault => simp [declaredAhead, declaredBehind, hs, bind, Except.bind]
  | ok stmt =>
    rw [declaredAhead_eq _ hs, declaredBehind_eq _ hs, declaredAhead_eq _ hs]
    cases stmt.kind.declares with
    | nothing => rfl
    | function f => rfl
    | value target => cases topLevel <;> rfl

/-! ## Reading them off the frame -/

theorem nameAt_frame (t : Target) : p.frame.nameAt t = p.nameAt t := by
  simp only [nameAt, nameOf_frame]

theorem declares_frame (kind : StmtKind) : kind.frame.declares = kind.declares := by
  cases kind <;> rfl

theorem declaredAhead_frame (topLevel : Bool) (s : StmtId) :
    p.frame.declaredAhead topLevel s = p.declaredAhead topLevel s := by
  simp only [declaredAhead, stmts_get_frame]
  cases p.stmts.get s with
  | error fault => rfl
  | ok stmt => simp only [Except.map, ok_bind, Stmt.frame, declares_frame]

theorem declaredBehind_frame (topLevel : Bool) (s : StmtId) :
    p.frame.declaredBehind topLevel s = p.declaredBehind topLevel s := by
  simp only [declaredBehind, stmts_get_frame]
  cases p.stmts.get s with
  | error fault => rfl
  | ok stmt => simp only [Except.map, ok_bind, Stmt.frame, declares_frame]

theorem declaredInside_frame (s : StmtId) : p.frame.declaredInside s = p.declaredInside s := by
  simp only [declaredInside, stmts_get_frame, functions_get_frame]
  cases p.stmts.get s with
  | error fault => rfl
  | ok stmt =>
    obtain ⟨kind, span⟩ := stmt
    cases kind with
    | function f =>
      simp only [Except.map, ok_bind, Stmt.frame, StmtKind.frame]
      cases p.functions.get f with
      | error fault => rfl
      | ok r =>
        simp only [ok_bind, Function.frame, frame, Table.slice_map]
        cases p.parameters.slice r.parameters with
        | error fault => rfl
        | ok parameters => simp [Except.map, ok_bind, pure, Except.pure, Function.comp_def]
    | nest head body => cases head <;> rfl
    | _ => rfl

theorem blockAhead_frame (topLevel : Bool) (outline : Outline) :
    p.frame.blockAhead topLevel outline = p.blockAhead topLevel outline := by
  simp only [blockAhead, funext (declaredAhead_frame topLevel)]

theorem placesIn_frame (topLevel : Bool) (own outer : List Target) (outline : Outline) :
    p.frame.placesIn topLevel own outer outline = p.placesIn topLevel own outer outline := by
  induction outline generalizing topLevel own outer with
  | stuck fault => rfl
  | done => rfl
  | leaf s rest ih => simp only [placesIn, declaredBehind_frame, ih]
  | nested s body rest ihBody ihRest =>
    simp only [placesIn, declaredInside_frame, blockAhead_frame, ihBody, ihRest]

/-- **Programs with one frame have the same places.** -/
theorem places_congr (h : p'.frame = p.frame) : p'.places = p.places := by
  simp only [places, outline_congr h]
  rw [← placesIn_frame, ← blockAhead_frame, h, placesIn_frame, blockAhead_frame]

theorem means_frame (source : String) (visible : List Target) (name : Span) :
    p.frame.means source visible name = p.means source visible name := by
  simp only [means, nameAt_frame]

theorem means_congr (h : p'.frame = p.frame) (source : String) (visible : List Target)
    (name : Span) : p'.means source visible name = p.means source visible name := by
  rw [← means_frame, h, means_frame]

/-! ## What names become -/

theorem operands_of_isReference {kind : ExprKind} (h : kind.isReference = true) :
    p.operands kind = .ok [] := by
  cases kind <;> first | rfl | cases h

theorem isReference_exprKind (t : Target) : t.exprKind.isReference = true := by
  cases t <;> rfl

theorem isReference_means {source : String} {visible : List Target} {name : Span}
    {kind : ExprKind} (h : p.means source visible name = some kind) : kind.isReference = true := by
  unfold means at h
  split at h
  · cases h
    rfl
  · obtain ⟨t, -, rfl⟩ := Option.map_eq_some_iff.1 h
    exact isReference_exprKind t

variable {source : String} {visible : List Target} {x : Expr}

theorem boundKind_of_ne (h : x.kind ≠ .identifier) : p.boundKind source visible x = x.kind := by
  unfold boundKind
  split
  · next hk => exact absurd hk h
  · rfl

theorem boundKind_cases (p : Program) (source : String) (visible : List Target)
    (h : x.kind = .identifier) :
    p.boundKind source visible x = .identifier ∨
      (p.boundKind source visible x).isReference = true := by
  simp only [boundKind, h]
  cases hm : p.means source visible x.span with
  | none => exact .inl rfl
  | some kind => exact .inr (isReference_means hm)

/-- Binding a name changes no operands. -/
theorem operands_boundKind : p'.operands (p.boundKind source visible x) = p'.operands x.kind := by
  by_cases h : x.kind = .identifier
  · rcases boundKind_cases p source visible h with hk | hk
    · rw [hk, h]
    · rw [operands_of_isReference hk, h]
      rfl
  · rw [boundKind_of_ne h]

/-- To bind again where the same can be seen changes nothing. -/
theorem boundKind_idem :
    p.boundKind source visible { x with kind := p.boundKind source visible x } =
      p.boundKind source visible x := by
  by_cases h : x.kind = .identifier
  · rcases boundKind_cases p source visible h with hk | hk
    · rw [hk]
      simpa only [boundKind, h] using hk
    · refine boundKind_of_ne fun hid => ?_
      rw [show ({ x with kind := p.boundKind source visible x } : Expr).kind =
        p.boundKind source visible x from rfl] at hid
      rw [hid] at hk
      cases hk
  · rw [boundKind_of_ne (x := x) h]
    exact boundKind_of_ne h

end Program

end FrontEnd
