import FrontEnd.Program.TypeOf
import FrontEnd.Proofs.Outcome
import Mathlib.Data.Finset.Card
import Mathlib.Logic.Relation
/-!
# FrontEnd — arithmetic

The type of an operation of arithmetic is computed from those of its
operands, and so on down to what is no such operation. Where no
operation lies below itself an expression unfolds to a finite tree with
these at its leaves (`exists_unfolds`), and what the steps come to can be
said at once (`typeOf_arithmetic`): it depends on which types the leaves
have, on whether there is a division, and on whether there is any binary
operator, but not on the shape of the tree.
-/

namespace FrontEnd

open Relation

/-- The binary operators of arithmetic, division among them. -/
def BinaryOp.isNumeric : BinaryOp → Bool
  | .mul | .div | .rem | .add | .sub => true
  | _ => false

/-- The unary operators of arithmetic. -/
def UnaryOp.isNumeric : UnaryOp → Bool
  | .pos | .neg | .increment | .decrement => true
  | .not => false

/-- The operands of an operation of arithmetic; a node of any other kind
has none. -/
def ExprKind.terms : ExprKind → List ExprId
  | .unary op operand => if op.isNumeric then [operand] else []
  | .binary op lhs rhs => if op.isNumeric then [lhs, rhs] else []
  | _ => []

/-- An expression as arithmetic sees it. -/
inductive Arithmetic
  /-- What is no operation of arithmetic. -/
  | leaf (e : ExprId)
  | unary (op : UnaryOp) (operand : Arithmetic)
  | binary (op : BinaryOp) (lhs rhs : Arithmetic)

namespace Arithmetic

/-- The leaves from left to right. -/
def leaves : Arithmetic → List ExprId
  | leaf e => [e]
  | unary _ operand => operand.leaves
  | binary _ lhs rhs => lhs.leaves ++ rhs.leaves

/-- The binary operators. -/
def operators : Arithmetic → List BinaryOp
  | leaf _ => []
  | unary _ operand => operand.operators
  | binary op lhs rhs => op :: (lhs.operators ++ rhs.operators)

def height : Arithmetic → Nat
  | leaf _ => 0
  | unary _ operand => operand.height + 1
  | binary _ lhs rhs => max lhs.height rhs.height + 1

/-- The type step by step, from those of the leaves. -/
def type (typeOf : ExprId → Except Fault Ty) : Arithmetic → Except Fault Ty
  | leaf e => typeOf e
  | unary _ operand => operand.type typeOf
  | binary op lhs rhs => return .arithmetic op (← lhs.type typeOf) (← rhs.type typeOf)

end Arithmetic

theorem BinaryOp.isBoolean_of_isNumeric {op : BinaryOp} (h : op.isNumeric = true) :
    op.isBoolean = false := by
  cases op <;> first | rfl | cases h

theorem ExprKind.terms_cases (kind : ExprKind) : kind.terms = [] ∨
    (∃ op operand, op.isNumeric = true ∧ kind = .unary op operand) ∨
      ∃ op lhs rhs, op.isNumeric = true ∧ kind = .binary op lhs rhs := by
  cases kind with
  | unary op operand => cases hop : op.isNumeric <;> simp [terms, hop]
  | binary op lhs rhs => cases hop : op.isNumeric <;> simp [terms, hop]
  | _ => exact .inl rfl

/-! ## One operation -/

namespace Ty

variable {op : BinaryOp} {lhs rhs : Ty}

/-- An operation has a type if its operands have. -/
theorem arithmetic_isInvalid :
    (arithmetic op lhs rhs).isInvalid = true ↔ lhs.isInvalid = true ∨ rhs.isInvalid = true := by
  rw [← Bool.or_eq_true, arithmetic]
  by_cases h : (lhs.isInvalid || rhs.isInvalid) = true
  · rw [if_pos h]
    exact iff_of_true rfl h
  · rw [if_neg h]
    refine iff_of_false ?_ h
    split_ifs <;> exact Bool.false_ne_true

/-- An operation is integral on integers, unless it divides. -/
theorem arithmetic_eq_int : arithmetic op lhs rhs = .int ↔ op ≠ .div ∧ lhs = .int ∧ rhs = .int := by
  unfold arithmetic
  split_ifs with hinvalid hdiv hint
  · refine iff_of_false (by simp) ?_
    rintro ⟨-, rfl, rfl⟩
    cases hinvalid
  · simp [hdiv]
  · simp [hdiv, hint]
  · simp [hint]

/-- What an operation can give. -/
theorem arithmetic_cases (op : BinaryOp) (lhs rhs : Ty) : arithmetic op lhs rhs = .error ∨
    arithmetic op lhs rhs = .int ∨ arithmetic op lhs rhs = .num := by
  unfold arithmetic
  split_ifs <;> simp

/-- What operations can give is told apart by whether it is invalid, and
whether it is an integer. -/
theorem eq_of_arithmetic {s t : Ty} (hs : s = .error ∨ s = .int ∨ s = .num)
    (ht : t = .error ∨ t = .int ∨ t = .num) (hinvalid : s.isInvalid = true ↔ t.isInvalid = true)
    (hint : s = .int ↔ t = .int) : s = t := by
  rcases hs with rfl | rfl | rfl <;> rcases ht with rfl | rfl | rfl <;> simp_all [isInvalid]

end Ty

/-! ## The whole tree -/

namespace Arithmetic

variable {typeOf : ExprId → Except Fault Ty} {tree : Arithmetic} {type : Ty}

theorem binary_type_eq_ok {op : BinaryOp} {lhs rhs : Arithmetic} :
    (binary op lhs rhs).type typeOf = .ok type ↔
      ∃ l r, lhs.type typeOf = .ok l ∧ rhs.type typeOf = .ok r ∧ Ty.arithmetic op l r = type := by
  simp only [Arithmetic.type, bind_eq_ok, pure_eq_ok]
  constructor
  · rintro ⟨l, hl, r, hr, htype⟩
    exact ⟨l, r, hl, hr, htype⟩
  · rintro ⟨l, r, hl, hr, htype⟩
    exact ⟨l, hl, r, hr, htype⟩

/-- **A tree has an answer exactly if all of its leaves have.** -/
theorem exists_type_iff :
    (∃ type, tree.type typeOf = .ok type) ↔ ∀ c ∈ tree.leaves, ∃ type, typeOf c = .ok type := by
  induction tree with
  | leaf e => simp [Arithmetic.type, leaves]
  | unary op operand ih => exact ih
  | binary op lhs rhs ihl ihr =>
    simp only [leaves, List.forall_mem_append, ← ihl, ← ihr, binary_type_eq_ok]
    constructor
    · rintro ⟨-, l, r, hl, hr, -⟩
      exact ⟨⟨l, hl⟩, r, hr⟩
    · rintro ⟨⟨l, hl⟩, r, hr⟩
      exact ⟨_, l, r, hl, hr, rfl⟩

/-- **An invalid type is one of a leaf's.** -/
theorem isInvalid_iff (h : tree.type typeOf = .ok type) : type.isInvalid = true ↔
    ∃ c ∈ tree.leaves, ∃ t, typeOf c = .ok t ∧ t.isInvalid = true := by
  induction tree generalizing type with
  | leaf e =>
    have h : typeOf e = .ok type := h
    simp [leaves, h]
  | unary op operand ih => exact ih h
  | binary op lhs rhs ihl ihr =>
    obtain ⟨l, r, hl, hr, rfl⟩ := binary_type_eq_ok.1 h
    rw [Ty.arithmetic_isInvalid, ihl hl, ihr hr, leaves]
    simp only [List.mem_append, or_and_right, exists_or]

/-- **Integers come of integers without division**, and of nothing else. -/
theorem eq_int_iff (h : tree.type typeOf = .ok type) : type = .int ↔
    .div ∉ tree.operators ∧ ∀ c ∈ tree.leaves, typeOf c = .ok .int := by
  induction tree generalizing type with
  | leaf e =>
    have h : typeOf e = .ok type := h
    simp [leaves, operators, h]
  | unary op operand ih => exact ih h
  | binary op lhs rhs ihl ihr =>
    obtain ⟨l, r, hl, hr, rfl⟩ := binary_type_eq_ok.1 h
    rw [Ty.arithmetic_eq_int, ihl hl, ihr hr, operators, leaves, List.forall_mem_append,
      List.mem_cons, List.mem_append]
    tauto

/-- What an operator can give. -/
theorem type_cases (h : tree.type typeOf = .ok type) (hops : tree.operators ≠ []) :
    type = .error ∨ type = .int ∨ type = .num := by
  induction tree with
  | leaf e => exact absurd rfl hops
  | unary op operand ih => exact ih h hops
  | binary op lhs rhs =>
    obtain ⟨l, r, -, -, rfl⟩ := binary_type_eq_ok.1 h
    exact Ty.arithmetic_cases op l r

/-- **What an operator gives is a number, unless all are integers** and none
is divided. -/
theorem eq_int_or_num (h : tree.type typeOf = .ok type) (hops : tree.operators ≠ [])
    (hvalid : type.isInvalid = false) : type =
      if .div ∉ tree.operators ∧ ∀ c ∈ tree.leaves, typeOf c = .ok .int then .int else .num := by
  have hint := eq_int_iff h
  split_ifs with hall
  · exact hint.2 hall
  · rcases type_cases h hops with rfl | rfl | rfl
    · cases hvalid
    · exact absurd (hint.1 rfl) hall
    · rfl

/-- Without an operator there is one leaf, and its type is passed on. -/
theorem eq_leaf (typeOf : ExprId → Except Fault Ty) (hops : tree.operators = []) :
    ∃ c, tree.leaves = [c] ∧ tree.type typeOf = typeOf c := by
  induction tree with
  | leaf e => exact ⟨e, rfl, rfl⟩
  | unary op operand ih => exact ih hops
  | binary op lhs rhs => cases hops

section

variable {typeOf' : ExprId → Except Fault Ty} {tree' : Arithmetic}
variable (hleaves : (tree.leaves.map typeOf).Perm (tree'.leaves.map typeOf'))

include hleaves

theorem forall_leaves_congr (P : Except Fault Ty → Prop) :
    (∀ c ∈ tree.leaves, P (typeOf c)) ↔ ∀ c ∈ tree'.leaves, P (typeOf' c) := by
  have hmem : (∀ r ∈ tree.leaves.map typeOf, P r) ↔ ∀ r ∈ tree'.leaves.map typeOf', P r := by
    simp only [hleaves.mem_iff]
  rwa [List.forall_mem_map, List.forall_mem_map] at hmem

/-- **The shape does not matter.** Trees with the same operators, and with
leaves of the same types, have the same type. -/
theorem type_of_perm (hops : tree.operators.Perm tree'.operators)
    (h : tree.type typeOf = .ok type) : tree'.type typeOf' = .ok type := by
  by_cases hnone : tree.operators = []
  · obtain ⟨c, hc, htype⟩ := eq_leaf typeOf hnone
    obtain ⟨c', hc', htype'⟩ := eq_leaf typeOf' (hnone ▸ hops).symm.eq_nil
    rw [hc, hc', List.map_singleton, List.map_singleton, List.singleton_perm_singleton] at hleaves
    rw [htype', ← hleaves, ← htype, h]
  · have all := forall_leaves_congr hleaves
    obtain ⟨type', h'⟩ : ∃ type', tree'.type typeOf' = .ok type' :=
      exists_type_iff.2 ((all fun r => ∃ t, r = .ok t).1 (exists_type_iff.1 ⟨type, h⟩))
    have hint : type = .int ↔ type' = .int := by
      rw [eq_int_iff h, eq_int_iff h', hops.mem_iff, all fun r => r = .ok .int]
    have hinvalid : type.isInvalid = true ↔ type'.isInvalid = true := by
      rw [isInvalid_iff h, isInvalid_iff h', ← not_iff_not]
      simpa using all fun r => ∀ t, r = .ok t → t.isInvalid = false
    have hops' : tree'.operators ≠ [] := fun hnil => hnone (hnil ▸ hops).eq_nil
    rw [h', Ty.eq_of_arithmetic (type_cases h hnone) (type_cases h' hops') hinvalid hint]

end

end Arithmetic

/-! ## The tree of an expression -/

namespace Program

/-- The expression is an operation of arithmetic with the other one as an
operand. -/
def Term (p : Program) (e c : ExprId) : Prop := ∃ x, p.exprs.get? e = some x ∧ c ∈ x.kind.terms

/-- The expression is the tree, down to what is no operation of
arithmetic, be it held or not. -/
inductive Unfolds (p : Program) : ExprId → Arithmetic → Prop
  | leaf {e : ExprId} (h : ∀ c, ¬ p.Term e c) : Unfolds p e (.leaf e)
  | unary {e operand : ExprId} {x : Expr} {op : UnaryOp} {tree : Arithmetic}
      (hx : p.exprs.get? e = some x) (hk : x.kind = .unary op operand)
      (hop : op.isNumeric = true) (h : Unfolds p operand tree) : Unfolds p e (.unary op tree)
  | binary {e lhs rhs : ExprId} {x : Expr} {op : BinaryOp} {l r : Arithmetic}
      (hx : p.exprs.get? e = some x) (hk : x.kind = .binary op lhs rhs)
      (hop : op.isNumeric = true) (hl : Unfolds p lhs l) (hr : Unfolds p rhs r) :
      Unfolds p e (.binary op l r)

/-- No operation of arithmetic, from the expression on down, lies below
itself. What lies below a leaf does not matter. -/
def AcyclicAt (p : Program) (e : ExprId) : Prop :=
  ∀ c, ReflTransGen p.Term e c → ¬ TransGen p.Term c c

open Classical in
/-- The number of operations of arithmetic from the expression on down. -/
noncomputable def operationCount (p : Program) (e : ExprId) : Nat :=
  {i ∈ Finset.range p.exprs.size | ReflTransGen p.Term e ⟨i⟩ ∧ ∃ c, p.Term ⟨i⟩ c}.card

variable {p p' : Program} {e e' c : ExprId} {x : Expr} {tree tree' : Arithmetic}

theorem term_iff (hx : p.exprs.get? e = some x) : p.Term e c ↔ c ∈ x.kind.terms := by
  simp [Term, hx]

/-- What has only such operands is such itself. -/
theorem AcyclicAt.of_terms (h : ∀ c, p.Term e c → p.AcyclicAt c) : p.AcyclicAt e := by
  intro c hc hcycle
  rcases ReflTransGen.cases_head hc with rfl | ⟨d, hd, hdc⟩
  · obtain ⟨d, hd, hde⟩ := TransGen.head'_iff.1 hcycle
    exact h d hd d .refl (.tail' hde hd)
  · exact h d hd c hdc hcycle

theorem AcyclicAt.term (acyclic : p.AcyclicAt e) (h : p.Term e c) : p.AcyclicAt c :=
  fun d hd => acyclic d (.head h hd)

theorem not_term (hx : p.exprs.get? e = some x) (hk : x.kind.terms = []) (c : ExprId) :
    ¬ p.Term e c := by
  simp [term_iff hx, hk]

theorem term_unary_iff {op : UnaryOp} {operand : ExprId} (hx : p.exprs.get? e = some x)
    (hk : x.kind = .unary op operand) (hop : op.isNumeric = true) : p.Term e c ↔ c = operand := by
  simp [term_iff hx, hk, ExprKind.terms, hop]

theorem term_binary_iff {op : BinaryOp} {lhs rhs : ExprId} (hx : p.exprs.get? e = some x)
    (hk : x.kind = .binary op lhs rhs) (hop : op.isNumeric = true) :
    p.Term e c ↔ c = lhs ∨ c = rhs := by
  simp [term_iff hx, hk, ExprKind.terms, hop]

/-- What is no operation of arithmetic has its type at once. -/
theorem typeOfWithin_leaf (h : ∀ c, ¬ p.Term e c) (m n : Nat) :
    p.typeOfWithin (m + 1) e = p.typeOfWithin (n + 1) e := by
  refine bind_congr_ok fun x hx => ?_
  rw [Table.get_eq_ok] at hx
  cases hk : x.kind with
  | unary op operand =>
    cases op with
    | not => rfl
    | _ => exact absurd ((term_unary_iff hx hk rfl).2 rfl) (h _)
  | binary op lhs rhs =>
    cases op with
    | mul | div | rem | add | sub => exact absurd ((term_binary_iff hx hk rfl).2 (.inl rfl)) (h _)
    | _ => rfl
  | _ => rfl

/-! ## How much there is to unfold -/

open Classical in
theorem operationCount_le (e : ExprId) : p.operationCount e ≤ p.exprs.size := by
  have := Finset.card_filter_le (Finset.range p.exprs.size)
    fun i => ReflTransGen p.Term e ⟨i⟩ ∧ ∃ c, p.Term ⟨i⟩ c
  rwa [Finset.card_range] at this

open Classical in
/-- The operation itself is not among those from its operands on down. -/
theorem operationCount_lt (acyclic : p.AcyclicAt e) (h : p.Term e c) :
    p.operationCount c < p.operationCount e := by
  refine Finset.card_lt_card ⟨fun i hi => ?_, fun hsub => ?_⟩
  · rw [Finset.mem_filter] at hi ⊢
    exact ⟨hi.1, .head h hi.2.1, hi.2.2⟩
  · have hlt : e.raw < p.exprs.size := by
      obtain ⟨x, hx, -⟩ := h
      exact Table.lt_size_of_get? hx
    have hmem := hsub (Finset.mem_filter.2 ⟨Finset.mem_range.2 hlt, .refl, c, h⟩)
    exact acyclic e .refl (.head' h (Finset.mem_filter.1 hmem).2.1)

/-- **An expression unfolds if no operation lies below itself.** -/
theorem exists_unfolds (acyclic : p.AcyclicAt e) : ∃ tree, p.Unfolds e tree := by
  -- by induction on the number of operations, of which operands have fewer
  induction hn : p.operationCount e using Nat.strongRecOn generalizing e with
  | ind n ih =>
    subst hn
    have operand : ∀ c, p.Term e c → ∃ tree, p.Unfolds c tree := fun c h =>
      ih _ (operationCount_lt acyclic h) (acyclic.term h) rfl
    cases hx : p.exprs.get? e with
    | none => exact ⟨_, .leaf fun c ⟨x, hx', _⟩ => by rw [hx] at hx'; cases hx'⟩
    | some x =>
      rcases x.kind.terms_cases with hk | ⟨op, c, hop, hk⟩ | ⟨op, lhs, rhs, hop, hk⟩
      · exact ⟨_, .leaf (not_term hx hk)⟩
      · obtain ⟨tree, h⟩ := operand c ((term_unary_iff hx hk hop).2 rfl)
        exact ⟨_, .unary hx hk hop h⟩
      · obtain ⟨l, hl⟩ := operand lhs ((term_binary_iff hx hk hop).2 (.inl rfl))
        obtain ⟨r, hr⟩ := operand rhs ((term_binary_iff hx hk hop).2 (.inr rfl))
        exact ⟨_, .binary hx hk hop hl hr⟩

namespace Unfolds

/-- Only there does it unfold. -/
theorem acyclic (h : p.Unfolds e tree) : p.AcyclicAt e := by
  induction h with
  | leaf h => exact .of_terms fun c hc => absurd hc (h c)
  | unary hx hk hop _ ih =>
    refine .of_terms fun c hc => ?_
    obtain rfl := (term_unary_iff hx hk hop).1 hc
    exact ih
  | binary hx hk hop _ _ ihl ihr =>
    refine .of_terms fun c hc => ?_
    rcases (term_binary_iff hx hk hop).1 hc with rfl | rfl
    · exact ihl
    · exact ihr

/-- It does so in one way. -/
theorem unique (h : p.Unfolds e tree) (h' : p.Unfolds e tree') : tree = tree' := by
  induction h generalizing tree' with
  | leaf h =>
    cases h' with
    | leaf => rfl
    | unary hx hk hop => exact absurd ((term_unary_iff hx hk hop).2 rfl) (h _)
    | binary hx hk hop => exact absurd ((term_binary_iff hx hk hop).2 (.inl rfl)) (h _)
  | unary hx hk hop _ ih =>
    cases h' with
    | leaf h' => exact absurd ((term_unary_iff hx hk hop).2 rfl) (h' _)
    | unary hx' hk' _ h' =>
      obtain rfl := Option.some.inj (hx.symm.trans hx')
      obtain ⟨rfl, rfl⟩ := ExprKind.unary.inj (hk.symm.trans hk')
      rw [ih h']
    | binary hx' hk' =>
      obtain rfl := Option.some.inj (hx.symm.trans hx')
      cases hk.symm.trans hk'
  | binary hx hk hop _ _ ihl ihr =>
    cases h' with
    | leaf h' => exact absurd ((term_binary_iff hx hk hop).2 (.inl rfl)) (h' _)
    | unary hx' hk' =>
      obtain rfl := Option.some.inj (hx.symm.trans hx')
      cases hk.symm.trans hk'
    | binary hx' hk' _ hl' hr' =>
      obtain rfl := Option.some.inj (hx.symm.trans hx')
      obtain ⟨rfl, rfl, rfl⟩ := ExprKind.binary.inj (hk.symm.trans hk')
      rw [ihl hl', ihr hr']

/-- The tree is no higher than there are operations. -/
theorem height_le (h : p.Unfolds e tree) : tree.height ≤ p.operationCount e := by
  induction h with
  | leaf => exact Nat.zero_le _
  | unary hx hk hop h ih =>
    have hlt := operationCount_lt (unary hx hk hop h).acyclic ((term_unary_iff hx hk hop).2 rfl)
    simp only [Arithmetic.height]
    omega
  | binary hx hk hop hl hr ihl ihr =>
    have acyclic := (binary hx hk hop hl hr).acyclic
    have hltl := operationCount_lt acyclic ((term_binary_iff hx hk hop).2 (.inl rfl))
    have hltr := operationCount_lt acyclic ((term_binary_iff hx hk hop).2 (.inr rfl))
    simp only [Arithmetic.height]
    omega

theorem typeOfWithin_eq {fuel : Nat} (h : p.Unfolds e tree) (hf : tree.height ≤ fuel) :
    p.typeOfWithin (fuel + 1) e = tree.type p.typeOf := by
  induction h generalizing fuel with
  | leaf h => exact typeOfWithin_leaf h fuel _
  | @unary e operand x op tree hx hk hop h ih =>
    cases fuel with
    | zero => cases hf
    | succ fuel =>
      simp only [typeOfWithin, Table.get_eq_ok.2 hx, ok_bind, hk]
      cases op with
      | not => cases hop
      | _ => exact ih (Nat.le_of_succ_le_succ hf)
  | @binary e lhs rhs x op l r hx hk hop hl hr ihl ihr =>
    cases fuel with
    | zero => cases hf
    | succ fuel =>
      simp only [Arithmetic.height, Nat.add_le_add_iff_right, Nat.max_le] at hf
      rw [Program.typeOfWithin, Table.get_eq_ok.2 hx, ok_bind, hk]
      simp only [BinaryOp.isBoolean_of_isNumeric hop, ihl hf.1, ihr hf.2]
      rfl

/-- **The type of an expression is that of its tree.** The fuel is enough:
no tree is higher than there are expressions. -/
theorem typeOf_eq (h : p.Unfolds e tree) : p.typeOf e = tree.type p.typeOf :=
  h.typeOfWithin_eq (Nat.le_trans h.height_le (operationCount_le e))

end Unfolds

/-- What the type of an expression is by the leaves and the operators of
its tree. -/
structure ClosedForm (p : Program) (e : ExprId) (tree : Arithmetic) : Prop where
  unfolds : p.Unfolds e tree
  /-- There is an answer exactly if there is one for every leaf. -/
  answers : (∃ type, p.typeOf e = .ok type) ↔ ∀ c ∈ tree.leaves, ∃ type, p.typeOf c = .ok type
  /-- The type is invalid exactly if that of a leaf is. -/
  isInvalid : ∀ type, p.typeOf e = .ok type →
    (type.isInvalid = true ↔ ∃ c ∈ tree.leaves, ∃ t, p.typeOf c = .ok t ∧ t.isInvalid = true)
  /-- Otherwise a binary operator gives a number, or an integer if all
  leaves are integers and there is no division. -/
  combined : ∀ type, p.typeOf e = .ok type → type.isInvalid = false → tree.operators ≠ [] →
    type = if .div ∉ tree.operators ∧ ∀ c ∈ tree.leaves, p.typeOf c = .ok .int then .int else .num
  /-- Without a binary operator there is one leaf, whose type it is. -/
  passed : tree.operators = [] → ∃ c, tree.leaves = [c] ∧ p.typeOf e = p.typeOf c

theorem Unfolds.closedForm (h : p.Unfolds e tree) : p.ClosedForm e tree where
  unfolds := h
  answers := by
    rw [h.typeOf_eq]
    exact Arithmetic.exists_type_iff
  isInvalid type htype := Arithmetic.isInvalid_iff (h.typeOf_eq ▸ htype)
  combined type htype hvalid hops := Arithmetic.eq_int_or_num (h.typeOf_eq ▸ htype) hops hvalid
  passed hops := by
    rw [h.typeOf_eq]
    exact Arithmetic.eq_leaf p.typeOf hops

/-- **The type of arithmetic is known from its leaves.** Any expression of
which no operation lies below itself has a type in closed form. However
the operands are grouped and ordered, in this program or in another one,
the type is the same. -/
theorem typeOf_arithmetic (acyclic : p.AcyclicAt e) :
    ∃ tree, p.ClosedForm e tree ∧
      ∀ (p' : Program) e' tree', p'.Unfolds e' tree' →
        (tree.leaves.map p.typeOf).Perm (tree'.leaves.map p'.typeOf) →
        tree.operators.Perm tree'.operators →
        ∀ type, p.typeOf e = .ok type ↔ p'.typeOf e' = .ok type := by
  obtain ⟨tree, h⟩ := exists_unfolds acyclic
  refine ⟨tree, h.closedForm, fun p' e' tree' h' hleaves hops type => ?_⟩
  rw [h.typeOf_eq, h'.typeOf_eq]
  exact ⟨Arithmetic.type_of_perm hleaves hops, Arithmetic.type_of_perm hleaves.symm hops.symm⟩

/-- A sum `-a + a * b` with operands that it shares, and a leaf `b` that
leads back to it: as `a` is an integer and `b` is the boolean `!(-a + a * b)`,
it is a number, and so is `(a + b) * a`. -/
theorem typeOf_arithmetic_shared :
    let p : Program :=
      { exprs := ⟨#[⟨.binary .add ⟨1⟩ ⟨2⟩, ⟨0, 0⟩, .unset, false⟩,
          ⟨.unary .neg ⟨3⟩, ⟨0, 0⟩, .unset, false⟩, ⟨.binary .mul ⟨3⟩ ⟨4⟩, ⟨0, 0⟩, .unset, false⟩,
          ⟨.integer 7, ⟨0, 0⟩, .unset, false⟩, ⟨.unary .not ⟨0⟩, ⟨0, 0⟩, .unset, false⟩,
          ⟨.binary .mul ⟨6⟩ ⟨3⟩, ⟨0, 0⟩, .unset, false⟩,
          ⟨.binary .add ⟨3⟩ ⟨4⟩, ⟨0, 0⟩, .unset, false⟩]⟩ }
    p.AcyclicAt ⟨0⟩ ∧ ∃ tree, p.ClosedForm ⟨0⟩ tree ∧ tree.leaves = [⟨3⟩, ⟨3⟩, ⟨4⟩] ∧
      tree.operators = [.add, .mul] ∧ p.typeOf ⟨0⟩ = .ok .num ∧ p.typeOf ⟨5⟩ = .ok .num := by
  intro p
  have a : p.Unfolds ⟨3⟩ (.leaf ⟨3⟩) := .leaf (not_term rfl rfl)
  have b : p.Unfolds ⟨4⟩ (.leaf ⟨4⟩) := .leaf (not_term rfl rfl)
  have sum := Unfolds.binary (p := p) (e := ⟨0⟩) rfl rfl rfl (.unary rfl rfl rfl a)
    (.binary rfl rfl rfl a b)
  have product := Unfolds.binary (p := p) (e := ⟨5⟩) rfl rfl rfl (.binary rfl rfl rfl a b) a
  obtain ⟨tree, form, regrouped⟩ := typeOf_arithmetic sum.acyclic
  obtain rfl := form.unfolds.unique sum
  have htype : p.typeOf ⟨0⟩ = .ok .num := rfl
  refine ⟨sum.acyclic, _, form, rfl, rfl, htype, ?_⟩
  exact (regrouped p ⟨5⟩ _ product (.cons _ (.swap ..)) (.swap ..) _).1 htype

end Program

end FrontEnd
