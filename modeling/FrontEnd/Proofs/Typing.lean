import FrontEnd.Proofs.Operand
import FrontEnd.Program.TypeOf
/-!
# FrontEnd — rules for the types of expressions

`typeOf` follows an expression down to where types come from, and counts
how deep it goes. `Program.Typing` says the same without counting, with
one rule for each way a node comes by its type. Where operands are older
than what is made of them, the two agree (`typeOf_eq_ok_iff`), so what
holds of all types can be shown rule by rule.
-/

namespace FrontEnd

/-- The type that a node has whatever it is made of and whatever the
declarations say. -/
def ExprKind.ownType? : ExprKind → Option Ty
  | .integer _ => some .int
  | .float _ => some .num
  | .string => some .str
  | .boolean _ => some .bool
  | .unary op _ => if op = .not then some .bool else none
  | .binary op _ _ => if op.isBoolean then some .bool else none
  | .invalid | .identifier | .typeName _ | .field _ _ | .range _ _ => some .error
  | _ => none

namespace Program

/-- The rules by which an expression comes by its type. -/
inductive Typing (p : Program) : ExprId → Ty → Prop
  | own {e : ExprId} {x : Expr} {type : Ty} (hx : p.exprs.get? e = some x)
      (htype : x.kind.ownType? = some type) : p.Typing e type
  | enumValue {e : ExprId} {x : Expr} {v : EnumValueId} (hx : p.exprs.get? e = some x)
      (hk : x.kind = .enumValue v) : p.Typing e ((p.enumTypeOf v).elim .error .enum)
  | «variable» {e : ExprId} {x : Expr} {v : VariableId} {r : Variable}
      (hx : p.exprs.get? e = some x) (hk : x.kind = .variable v) (hr : p.vars.get? v = some r) :
      p.Typing e r.type
  | parameter {e : ExprId} {x : Expr} {i : ParameterId} {r : Parameter}
      (hx : p.exprs.get? e = some x) (hk : x.kind = .parameter i)
      (hr : p.parameters.get? i = some r) : p.Typing e r.type
  | function {e : ExprId} {x : Expr} {f : FunctionId} {r : Function}
      (hx : p.exprs.get? e = some x) (hk : x.kind = .function f)
      (hr : p.functions.get? f = some r) : p.Typing e r.returnType
  | call {e callee : ExprId} {x y : Expr} {arguments : IdRange .argument} {f : FunctionId}
      {r : Function} (hx : p.exprs.get? e = some x) (hk : x.kind = .call callee arguments)
      (hy : p.exprs.get? callee = some y) (hf : y.kind = .function f)
      (hr : p.functions.get? f = some r) : p.Typing e r.returnType
  | noCall {e callee : ExprId} {x y : Expr} {arguments : IdRange .argument}
      (hx : p.exprs.get? e = some x) (hk : x.kind = .call callee arguments)
      (hy : p.exprs.get? callee = some y) (hf : ∀ f, y.kind ≠ .function f) : p.Typing e .error
  | unary {e operand : ExprId} {x : Expr} {op : UnaryOp} {type : Ty}
      (hx : p.exprs.get? e = some x) (hk : x.kind = .unary op operand) (hop : op ≠ .not)
      (h : p.Typing operand type) : p.Typing e type
  | binary {e lhs rhs : ExprId} {x : Expr} {op : BinaryOp} {left right : Ty}
      (hx : p.exprs.get? e = some x) (hk : x.kind = .binary op lhs rhs)
      (hop : op.isBoolean = false) (hl : p.Typing lhs left) (hr : p.Typing rhs right) :
      p.Typing e (.arithmetic op left right)

variable {p : Program} {e : ExprId} {type : Ty} {fuel : Nat}

/-- A type that is found follows from the rules. -/
theorem typing_of_typeOfWithin (h : p.typeOfWithin fuel e = .ok type) : p.Typing e type := by
  induction fuel generalizing e type with
  | zero => cases h
  | succ fuel ih =>
    obtain ⟨x, hx, h⟩ := bind_eq_ok.1 h
    rw [Table.get_eq_ok] at hx
    cases hk : x.kind with
    | «variable» v =>
      rw [hk] at h
      obtain ⟨r, hr, h⟩ := bind_eq_ok.1 h
      cases pure_eq_ok.1 h
      exact .variable hx hk (Table.get_eq_ok.1 hr)
    | parameter i =>
      rw [hk] at h
      obtain ⟨r, hr, h⟩ := bind_eq_ok.1 h
      cases pure_eq_ok.1 h
      exact .parameter hx hk (Table.get_eq_ok.1 hr)
    | function f =>
      rw [hk] at h
      obtain ⟨r, hr, h⟩ := bind_eq_ok.1 h
      cases pure_eq_ok.1 h
      exact .function hx hk (Table.get_eq_ok.1 hr)
    | enumValue v =>
      rw [hk] at h
      cases pure_eq_ok.1 h
      exact .enumValue hx hk
    | call callee arguments =>
      rw [hk] at h
      obtain ⟨y, hy, h⟩ := bind_eq_ok.1 h
      rw [Table.get_eq_ok] at hy
      split at h
      · next f hf =>
        obtain ⟨r, hr, h⟩ := bind_eq_ok.1 h
        cases pure_eq_ok.1 h
        exact .call hx hk hy hf (Table.get_eq_ok.1 hr)
      · next hf =>
        cases pure_eq_ok.1 h
        exact .noCall hx hk hy hf
    | unary op operand =>
      rw [hk] at h
      by_cases hop : op = .not
      · subst hop
        cases pure_eq_ok.1 h
        exact .own hx (by rw [hk]; rfl)
      · refine .unary hx hk hop (ih ?_)
        cases op <;> first | exact h | exact absurd rfl hop
    | binary op lhs rhs =>
      rw [hk] at h
      cases hop : op.isBoolean with
      | true =>
        simp only [hop, if_true] at h
        cases pure_eq_ok.1 h
        exact .own hx (by simp only [hk, ExprKind.ownType?, hop, if_true])
      | false =>
        simp only [hop, Bool.false_eq_true, if_false] at h
        obtain ⟨left, hl, h⟩ := bind_eq_ok.1 h
        obtain ⟨right, hr, h⟩ := bind_eq_ok.1 h
        cases pure_eq_ok.1 h
        exact .binary hx hk hop (ih hl) (ih hr)
    | _ =>
      rw [hk] at h
      cases pure_eq_ok.1 h
      exact .own hx (by rw [hk]; rfl)

/-- A type that follows from the rules is found, if the search goes deeper
than there are older expressions. -/
theorem Typing.typeOfWithin (older : p.OperandsOlder) (h : p.Typing e type) (hf : e.raw ≤ fuel) :
    p.typeOfWithin (fuel + 1) e = .ok type := by
  induction h generalizing fuel with
  | @own e x type hx htype =>
    rw [Program.typeOfWithin, Table.get_eq_ok.2 hx, ok_bind]
    cases hk : x.kind with
    | unary op operand => cases op <;> simp_all [ExprKind.ownType?, pure, Except.pure]
    | _ => simp_all [ExprKind.ownType?, pure, Except.pure]
  | @enumValue e x v hx hk =>
    rw [Program.typeOfWithin, Table.get_eq_ok.2 hx, ok_bind, hk]
    rfl
  | «variable» hx hk hr | parameter hx hk hr | function hx hk hr =>
    rw [Program.typeOfWithin, Table.get_eq_ok.2 hx, ok_bind, hk]
    simp only [Table.get_eq_ok.2 hr, ok_bind]
    rfl
  | call hx hk hy hcallee hr =>
    rw [Program.typeOfWithin, Table.get_eq_ok.2 hx, ok_bind, hk]
    simp only [Table.get_eq_ok.2 hy, ok_bind, hcallee, Table.get_eq_ok.2 hr]
    rfl
  | noCall hx hk hy hcallee =>
    rw [Program.typeOfWithin, Table.get_eq_ok.2 hx, ok_bind, hk]
    simp only [Table.get_eq_ok.2 hy, ok_bind]
    rfl
  | @unary e operand x op type hx hk hop h ih =>
    have hops := operandsAt_unary hx hk
    have hlt : operand.raw < e.raw := older e operand (by simp [hops])
    obtain ⟨n, rfl⟩ := Nat.exists_eq_add_one.2 (Nat.lt_of_lt_of_le (Nat.zero_lt_of_lt hlt) hf)
    rw [Program.typeOfWithin, Table.get_eq_ok.2 hx, ok_bind, hk]
    cases op with
    | not => exact absurd rfl hop
    | _ => exact ih (by omega)
  | @binary e lhs rhs x op left right hx hk hop hl hr ihl ihr =>
    have hops := operandsAt_binary hx hk
    have hltl : lhs.raw < e.raw := older e lhs (by simp [hops])
    have hltr : rhs.raw < e.raw := older e rhs (by simp [hops])
    obtain ⟨n, rfl⟩ := Nat.exists_eq_add_one.2 (Nat.lt_of_lt_of_le (Nat.zero_lt_of_lt hltl) hf)
    rw [Program.typeOfWithin, Table.get_eq_ok.2 hx, ok_bind, hk]
    simp only [hop, Bool.false_eq_true, if_false, ihl (show lhs.raw ≤ n by omega),
      ihr (show rhs.raw ≤ n by omega), ok_bind]
    rfl

theorem Typing.lt_size (h : p.Typing e type) : e.raw < p.exprs.size := by
  cases h with
  | own hx | enumValue hx | «variable» hx | parameter hx | function hx | call hx | noCall hx
  | unary hx | binary hx => exact Table.lt_size_of_get? hx

/-- **The type of an expression is what the rules say.** -/
theorem typeOf_eq_ok_iff (older : p.OperandsOlder) : p.typeOf e = .ok type ↔ p.Typing e type :=
  ⟨typing_of_typeOfWithin, fun h => h.typeOfWithin older (Nat.le_of_lt h.lt_size)⟩

/-- The rules give an expression one type. -/
theorem Typing.unique {type' : Ty} (older : p.OperandsOlder) (h : p.Typing e type)
    (h' : p.Typing e type') : type = type' :=
  Except.ok.inj (((typeOf_eq_ok_iff older).2 h).symm.trans ((typeOf_eq_ok_iff older).2 h'))

end Program

end FrontEnd
