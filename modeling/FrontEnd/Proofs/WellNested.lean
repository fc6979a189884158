import FrontEnd.Proofs.Answers
import Mathlib.Algebra.GroupWithZero.Nat
import Mathlib.Algebra.Order.BigOperators.Group.List
import Mathlib.Algebra.Order.Group.Nat
/-!
# FrontEnd — well-nested layouts

`Program.WellNested` says what a layout is without checking it: the
statements of a block follow each other, each alone or followed by the
whole of its body. Of a program whose ids are all held, validation accepts
exactly these (`validate_wellNested`).

The blocks are checked in rounds. In each the block that waits longest at
the top of a stack is looked into, and its bodies are put there instead
(`checkWaiting`). Bodies that are well placed do not overlap, so there are
no more rounds than statements (`checkBlocks_eq_checkWaiting`), however
long a body claims to be.
-/

namespace FrontEnd

/-! ## Everything that refers to a record -/

/-- A record that something stored in a program refers to. -/
structure Ref where
  kind : RecordKind
  index : Nat
deriving DecidableEq

def RecordId.ref {k : RecordKind} (i : RecordId k) : Ref := ⟨k, i.raw⟩

/-- A range refers to each of its records, and an empty one to none. -/
def IdRange.refs {k : RecordKind} (r : IdRange k) : List Ref := r.ids.map RecordId.ref

/-- What an expression refers to. The ids inside of types are not looked
at. -/
def ExprKind.refs : ExprKind → List Ref
  | .enumValue v => [v.ref]
  | .variable v => [v.ref]
  | .function f => [f.ref]
  | .parameter a => [a.ref]
  | .call callee arguments => callee.ref :: arguments.refs
  | .field subject _ => [subject.ref]
  | .range first last => [first.ref, last.ref]
  | .unary _ operand => [operand.ref]
  | .binary _ lhs rhs => [lhs.ref, rhs.ref]
  | .invalid | .identifier | .integer _ | .float _ | .boolean _ | .string | .typeName _ => []

def Head.refs : Head VariableId → List Ref
  | .forEach iterator iterable => [iterator.ref, iterable.ref]
  | .ifThen condition | .elseIf condition | .whileDo condition => [condition.ref]
  | .bare | .elseThen | .loop => []

/-- What a statement refers to, the scope of its body included. -/
def StmtKind.refs : StmtKind → List Ref
  | .function f => [f.ref]
  | .enumType e => [e.ref]
  | .structType s => [s.ref]
  | .variable v type init => v.ref :: (type.toList ++ init.toList).map RecordId.ref
  | .nest head body => body.symbolTable.ref :: head.refs
  | .assign lhs rhs => [lhs.ref, rhs.ref]
  | .output value | .evaluate value => [value.ref]
  | .returnValue value => value.toList.map RecordId.ref
  | .invalid | .breakLoop => []

def Function.refs (f : Function) : List Ref :=
  f.body.symbolTable.ref :: (f.returnTypeExpr.toList.map RecordId.ref ++ f.parameters.refs)

namespace Program

/-- How many records of the kind there are. -/
def count (p : Program) : RecordKind → Nat
  | .expr => p.exprs.size
  | .argument => p.arguments.size
  | .stmt => p.stmts.size
  | .function => p.functions.size
  | .parameter => p.parameters.size
  | .variable => p.vars.size
  | .enumType => p.enumTypes.size
  | .enumValue => p.enumValues.size
  | .structType => p.structTypes.size
  | .symbolTable => p.symbolTables.size

/-- The program has the record that is referred to. -/
def Holds (p : Program) (r : Ref) : Prop := r.index < p.count r.kind

instance (p : Program) (r : Ref) : Decidable (p.Holds r) :=
  inferInstanceAs (Decidable (r.index < p.count r.kind))

/-- Every id that is stored in the program is one of a record. -/
structure IdsHeld (p : Program) : Prop where
  exprs : ∀ x ∈ p.exprs.toList, ∀ r ∈ x.kind.refs, p.Holds r
  arguments : ∀ e ∈ p.arguments.toList, p.Holds e.ref
  stmts : ∀ s ∈ p.stmts.toList, ∀ r ∈ s.kind.refs, p.Holds r
  functions : ∀ f ∈ p.functions.toList, ∀ r ∈ f.refs, p.Holds r
  parameters : ∀ a ∈ p.parameters.toList, ∀ e ∈ a.typeExpr, p.Holds e.ref
  enumTypes : ∀ t ∈ p.enumTypes.toList, ∀ r ∈ t.values.refs, p.Holds r
  symbolTables : ∀ t ∈ p.symbolTables.toList, p.Holds t.next.ref
  block : p.Holds p.block.symbolTable.ref

/-- The values of each enum type follow those of the ones before it. -/
def EnumsContiguous (p : Program) : Prop :=
  ∀ i < p.enumTypes.size, ∀ e ∈ p.enumTypes.toList[i]?,
    e.values.start = ((p.enumTypes.toList.take i).map (·.values.len)).sum

/-- The statements from `i` up to, and without, `j` follow each other:
each of them stands alone, or has a body that starts right behind it, ends
among them, and is such a sequence itself. -/
inductive Items (p : Program) : Nat → Nat → Prop
  | done (i : Nat) : Items p i i
  | single {i j : Nat} (alone : p.bodyOf ⟨i⟩ = .ok none) (rest : Items p (i + 1) j) : Items p i j
  | nested {i j : Nat} {body : Block} (owns : p.bodyOf ⟨i⟩ = .ok (some body))
      (start : body.statements.start = i + 1) (stop : body.statements.stop ≤ j)
      (inner : Items p body.statements.start body.statements.stop)
      (rest : Items p body.statements.stop j) : Items p i j

/-- The top level ends within the list of statements, and its statements
follow each other. -/
def WellNested (p : Program) : Prop :=
  p.block.statements.stop ≤ p.stmts.size ∧
    p.Items p.block.statements.start p.block.statements.stop

variable {p : Program} {b body : Block} {i j : Nat}

/-! ## Items and outlines -/

theorem Items.of_lays {o : Outline} (lays : Lays p i j o) : p.Items i j := by
  induction lays with
  | done i => exact .done i
  | leaf single _ ih => exact .single single ih
  | @nested i k j block body rest owns place inner tail ihInner ihTail =>
    have hle := inner.le
    have hstart : block.statements.start = i + 1 := by rw [place]
    have hstop : block.statements.stop = k := by
      simp only [place, IdRange.stop]
      omega
    rw [← hstart, ← hstop] at ihInner
    rw [← hstop] at ihTail
    exact .nested owns hstart (hstop ▸ tail.le) ihInner ihTail

theorem Items.lays (items : p.Items i j) : ∃ o, Lays p i j o := by
  induction items with
  | done i => exact ⟨_, .done i⟩
  | single alone _ ih =>
    obtain ⟨o, lays⟩ := ih
    exact ⟨_, .leaf alone lays⟩
  | @nested i j body owns start _ _ _ ihInner ihRest =>
    obtain ⟨o, inner⟩ := ihInner
    obtain ⟨o', tail⟩ := ihRest
    rw [start] at inner
    refine ⟨_, .nested owns ?_ inner tail⟩
    rw [IdRange.stop, start, Nat.add_sub_cancel_left, ← start]

/-- **The blocks that are accepted are well nested**, and the other way
round where their scopes are there. -/
theorem checkBlocks_eq_ok (scopes : p.ScopesHeld) : p.checkBlocks = .ok () ↔ p.WellNested := by
  constructor
  · intro h
    obtain ⟨o, lays, -⟩ := exists_lays h
    refine ⟨?_, .of_lays lays⟩
    unfold checkBlocks at h
    split at h
    · cases h
    · next hfits => exact Nat.le_of_not_lt hfits
  · rintro ⟨fits, items⟩
    obtain ⟨o, lays⟩ := items.lays
    unfold checkBlocks
    rw [if_neg (Nat.not_lt_of_le fits)]
    refine checkBlockWithin_of_lays scopes lays ?_ scopes.block ?_
    · simp only [IdRange.stop, Nat.add_sub_cancel_left]
    · simp only [IdRange.stop, Nat.add_sub_cancel_left, Block.len, Nat.lt_succ_self]

/-! ## Where every id is held -/

/-- A range whose records are all held is empty, or ends where there are
records. -/
theorem range_held {k : RecordKind} {α : Type} {t : Table k α} {r : IdRange k}
    (h : ∀ i ∈ r.ids, i.raw < t.size) : r.isEmpty ∨ r.stop ≤ t.size := by
  cases hr : r.isEmpty with
  | true => exact .inl rfl
  | false =>
    simp only [IdRange.isEmpty, beq_eq_false_iff_ne] at hr
    have hlast : (⟨r.stop - 1⟩ : RecordId k) ∈ r.ids := by
      rw [IdRange.mem_ids]
      simp only [IdRange.stop]
      omega
    have hlt := h _ hlast
    simp only [IdRange.stop] at hlt ⊢
    exact .inr (by omega)

/-- Values that follow each other are found to do so. -/
theorem checkEnumTypes_of_contiguous {types : List EnumType} {start index : Nat}
    (h : ∀ i e, types[i]? = some e →
      e.values.start = start + ((types.take i).map (·.values.len)).sum) :
    checkEnumTypes start index types = .ok (start + (types.map (·.values.len)).sum) := by
  induction types generalizing start index with
  | nil => rfl
  | cons e rest ih =>
    have hstart : e.values.start = start := h 0 e rfl
    have hrest : ∀ i e', rest[i]? = some e' →
        e'.values.start = e.values.stop + ((rest.take i).map (·.values.len)).sum := by
      intro i e' he'
      have := h (i + 1) e' he'
      simp only [List.take_succ_cons, List.map_cons, List.sum_cons] at this
      rw [this, IdRange.stop, hstart]
      omega
    rw [checkEnumTypes, if_pos hstart, ih hrest]
    simp only [IdRange.stop, hstart, List.map_cons, List.sum_cons]
    rw [Nat.add_assoc]

/-- Where each type has values that are held, so are all of them. -/
theorem sum_le_of_checkEnumTypes {types : List EnumType} {start index stop n : Nat}
    (h : checkEnumTypes start index types = .ok stop) (hstart : start ≤ n)
    (held : ∀ e ∈ types, e.values.isEmpty ∨ e.values.stop ≤ n) : stop ≤ n := by
  induction types generalizing start index with
  | nil =>
    cases h
    exact hstart
  | cons e rest ih =>
    obtain ⟨he, hrest⟩ := List.forall_mem_cons.1 held
    obtain ⟨heq, h⟩ := checkEnumTypes_cons.1 h
    refine ih h ?_ hrest
    rcases he with he | he
    · simp only [IdRange.isEmpty, beq_iff_eq] at he
      simp only [IdRange.stop, heq, he]
      omega
    · exact he

namespace IdsHeld

variable (held : p.IdsHeld)

include held

theorem scopesHeld : p.ScopesHeld where
  links t r hr := held.symbolTables r (Table.mem_toList.2 ⟨t, hr⟩)
  bodies s body hbody := by
    rcases bodyOf_eq_some.1 hbody with ⟨f, span, r, hs, hr, rfl⟩ | ⟨head, span, hs⟩
    · exact held.functions r (Table.mem_toList.2 ⟨f, hr⟩) _ List.mem_cons_self
    · exact held.stmts _ (Table.mem_toList.2 ⟨s, hs⟩) _ List.mem_cons_self
  block := held.block

theorem kindsHeld : p.KindsHeld := by
  intro e x hx
  have hrefs := held.exprs x (Table.mem_toList.2 ⟨e, hx⟩)
  cases hkind : x.kind with
  | call callee arguments =>
    rw [hkind] at hrefs
    obtain ⟨hcallee, harguments⟩ := List.forall_mem_cons.1 hrefs
    have hrange := range_held (t := p.arguments) fun i hi =>
      harguments i.ref (List.mem_map_of_mem hi)
    obtain ⟨l, hl⟩ := slice_ok hrange
    simp only [checkExprKind, check_bind_eq_ok, Table.checkId_eq_ok, Table.checkRange_eq_ok]
    refine ⟨hcallee, hrange, ?_⟩
    rw [hl]
    exact forM_eq_ok.2 fun c hc => Table.checkId_eq_ok.2
      (held.arguments c.2 (Table.mem_toList.2 ⟨c.1, (mem_slice hl hc).1⟩))
  | _ =>
    simp [hkind, ExprKind.refs, Holds, RecordId.ref, count] at hrefs
    simp [checkExprKind, check_bind_eq_ok, Table.checkId_eq_ok, hrefs, pure, Except.pure]

theorem declarations (enums : p.EnumsContiguous) : p.checkDeclarations = .ok () := by
  refine checkDeclarations_eq_ok.2 ⟨fun f r hr => ?_, fun i r hr e he => ?_, ?_⟩
  · have hrefs := held.functions r (Table.mem_toList.2 ⟨f, hr⟩)
    obtain ⟨hreturn, hparameters⟩ := List.forall_mem_append.1 (List.forall_mem_cons.1 hrefs).2
    exact ⟨fun e he => hreturn e.ref (List.mem_map_of_mem (Option.mem_toList.2 he)),
      range_held fun i hi => hparameters i.ref (List.mem_map_of_mem hi)⟩
  · exact held.parameters r (Table.mem_toList.2 ⟨i, hr⟩) e he
  · have hcheck : checkEnumTypes 0 0 p.enumTypes.toList =
        .ok (0 + (p.enumTypes.toList.map (·.values.len)).sum) :=
      checkEnumTypes_of_contiguous fun i e he => by
        rw [Nat.zero_add]
        exact enums i (List.getElem?_eq_some_iff.1 he).1 e he
    refine ⟨_, hcheck, sum_le_of_checkEnumTypes hcheck (Nat.zero_le _) fun e he => ?_⟩
    exact range_held fun v hv => held.enumTypes e he v.ref (List.mem_map_of_mem hv)

theorem stmtKinds : (p.stmts.toList.forM fun s => p.checkStmtKind s.kind) = .ok () := by
  refine forM_eq_ok.2 fun stmt hstmt => ?_
  have hrefs := held.stmts stmt hstmt
  cases hkind : stmt.kind with
  | nest head body =>
    rw [hkind] at hrefs
    cases head <;> simp [StmtKind.refs, Head.refs, Holds, RecordId.ref, count] at hrefs <;>
      simp [checkStmtKind, check_bind_eq_ok, Table.checkId_eq_ok, hrefs, pure, Except.pure]
  | «variable» v type init =>
    cases type <;> cases init <;>
      simp [hkind, StmtKind.refs, Holds, RecordId.ref, count] at hrefs <;>
      simp [checkStmtKind, check_bind_eq_ok, Table.checkId_eq_ok, hrefs]
  | returnValue value =>
    cases value <;> simp [hkind, StmtKind.refs, Holds, RecordId.ref, count] at hrefs <;>
      simp [checkStmtKind, Table.checkId_eq_ok, hrefs, pure, Except.pure]
  | _ =>
    simp [hkind, StmtKind.refs, Holds, RecordId.ref, count] at hrefs
    simp [checkStmtKind, check_bind_eq_ok, Table.checkId_eq_ok, hrefs, pure, Except.pure]

end IdsHeld

/-! ## Rounds -/

/-- The bodies in a block, once they have been found well placed. -/
def placedBodies (p : Program) (block : Block) : Except (Abort LayoutError) (List (StmtId × Block)) := do
  p.symbolTables.checkId block.symbolTable
  let bodies ← p.bodies block
  bodies.forM fun (child, body) => checkPlace block.statements.stop child body
  return bodies

/-- One round of the check: the block is looked into, and its bodies wait
ahead of the other blocks, the last of them first. -/
def checkNext (p : Program) (block : Block) (waiting : List Block) :
    Except (Abort LayoutError) (List Block) := do
  return (← p.placedBodies block).reverse.map (·.2) ++ waiting

/-- Rounds until no block waits any more. -/
def checkWaiting (p : Program) : (rounds : Nat) → (waiting : List Block) → LayoutCheck
  | _, [] => .ok ()
  | 0, _ :: _ => .error (.fault .endless)
  | rounds + 1, block :: waiting => do p.checkWaiting rounds (← p.checkNext block waiting)

/-- Bodies that are well placed share no statement, so together with their
owners they are no longer than the block around them. -/
theorem sum_bodies_le {places offset : Nat} {children : Children} {bodies : List (StmtId × Block)}
    (hchildren : p.childrenFrom b places offset = .ok children)
    (hbodies : (children.ids.filterMapM fun child => do return (← p.bodyOf child).map (child, ·)) =
      .ok bodies)
    (placed : ∀ c ∈ bodies, checkPlace b.statements.stop c.1 c.2 = .ok ()) (hoffset : offset ≤ b.len) :
    offset + (bodies.map (·.2.len + 1)).sum ≤ b.len := by
  induction places generalizing offset children bodies with
  | zero =>
    cases hchildren
    cases hbodies
    exact hoffset
  | succ places ih =>
    unfold childrenFrom at hchildren
    split at hchildren
    · next hlt =>
      obtain ⟨slots, hslots, hchildren⟩ := bind_eq_ok.1 hchildren
      obtain ⟨rest, hrest, hchildren⟩ := bind_eq_ok.1 hchildren
      cases pure_eq_ok.1 hchildren
      obtain ⟨found, hfound, hslots⟩ := bind_eq_ok.1 hslots
      rw [List.filterMapM_cons, hfound] at hbodies
      obtain ⟨first, hfirst, hbodies⟩ := bind_eq_ok.1 hbodies
      cases found with
      | none =>
        obtain rfl : 1 = slots := pure_eq_ok.1 hslots
        obtain rfl : none = first := pure_eq_ok.1 hfirst
        have := ih hrest hbodies placed (by omega)
        omega
      | some body =>
        obtain rfl : 1 + body.len = slots := pure_eq_ok.1 hslots
        obtain rfl : some (b.stmtAt offset, body) = first := pure_eq_ok.1 hfirst
        obtain ⟨others, hothers, heq⟩ := bind_eq_ok.1 hbodies
        cases pure_eq_ok.1 heq
        obtain ⟨hplace, hplaced⟩ := List.forall_mem_cons.1 placed
        obtain ⟨hstart, hstop⟩ := checkPlace_eq_ok.1 hplace
        simp only [IdRange.stop, Block.stmtAt, Block.len] at hstart hstop ⊢
        have := ih hrest hothers hplaced (by simp only [Block.len]; omega)
        simp only [Block.len, List.map_cons, List.sum_cons] at this ⊢
        omega
    · cases hchildren
      cases hbodies
      exact hoffset

/-- A block is looked into before the bodies in it are. -/
theorem checkBlockWithin_succ (fuel : Nat) : p.checkBlockWithin (fuel + 1) b =
    p.placedBodies b >>= fun bodies => bodies.reverse.forM fun c => p.checkBlockWithin fuel c.2 := by
  simp only [checkBlockWithin, placedBodies, bind_assoc, pure_bind]

theorem sum_placedBodies_le {bodies : List (StmtId × Block)} (h : p.placedBodies b = .ok bodies) :
    (bodies.map (·.2.len + 1)).sum ≤ b.len := by
  obtain ⟨-, -, h⟩ := bind_eq_ok.1 h
  obtain ⟨found, hfound, h⟩ := bind_eq_ok.1 h
  obtain ⟨⟨⟩, hplaced, h⟩ := bind_eq_ok.1 h
  cases pure_eq_ok.1 h
  obtain ⟨children, hchildren, hbodies⟩ := bind_eq_ok.1 (lift_eq_ok.1 hfound)
  have := sum_bodies_le hchildren hbodies (forM_eq_ok.1 hplaced) (Nat.zero_le _)
  omega

/-- **A block is done with after as many rounds as it has statements**, and
one for itself. What waited behind it waits still. -/
theorem checkWaiting_cons {fuel : Nat} (hf : b.len < fuel) :
    ∃ n, n ≤ b.len + 1 ∧ ∀ m waiting, p.checkWaiting (n + m) (b :: waiting) =
      p.checkBlockWithin fuel b >>= fun _ => p.checkWaiting m waiting := by
  induction fuel generalizing b with
  | zero => omega
  | succ fuel ih =>
    -- the bodies are done with one after the other
    have all : ∀ bodies : List (StmtId × Block), (∀ c ∈ bodies, c.2.len < fuel) →
        ∃ n, n ≤ (bodies.map (·.2.len + 1)).sum ∧ ∀ m waiting,
          p.checkWaiting (n + m) (bodies.map (·.2) ++ waiting) =
            (bodies.forM fun c => p.checkBlockWithin fuel c.2) >>= fun _ =>
              p.checkWaiting m waiting := by
      intro bodies hbodies
      induction bodies with
      | nil => exact ⟨0, Nat.le_refl _, fun m waiting => by simp [pure, Except.pure, ok_bind]⟩
      | cons c bodies ihBodies =>
        obtain ⟨hc, hrest⟩ := List.forall_mem_cons.1 hbodies
        obtain ⟨n, hn, hfirst⟩ := ih hc
        obtain ⟨n', hn', hothers⟩ := ihBodies hrest
        refine ⟨n + n', by simp only [List.map_cons, List.sum_cons]; omega, fun m waiting => ?_⟩
        rw [Nat.add_assoc, List.map_cons, List.cons_append, hfirst]
        simp only [hothers, List.forM_eq_forM, List.forM_cons, bind_assoc]
    cases hbodies : p.placedBodies b with
    | error e =>
      refine ⟨1, by omega, fun m waiting => ?_⟩
      rw [Nat.add_comm, checkWaiting, checkNext, checkBlockWithin_succ, hbodies]
      rfl
    | ok bodies =>
      have hsum := sum_placedBodies_le hbodies
      obtain ⟨n, hn, hall⟩ := all bodies.reverse fun c hc => by
        have := List.le_sum_of_mem
          (List.mem_map_of_mem (f := fun c : StmtId × Block => c.2.len + 1) (List.mem_reverse.1 hc))
        omega
      refine ⟨n + 1, ?_, fun m waiting => ?_⟩
      · rw [List.map_reverse, List.sum_reverse] at hn
        omega
      · rw [Nat.add_right_comm, checkWaiting, checkNext, checkBlockWithin_succ, hbodies]
        exact hall m waiting

/-- **The check goes through the blocks in rounds**, no more of them than
the top level has statements, and one. -/
theorem checkBlocks_eq_checkWaiting (p : Program) :
    p.checkBlocks = if p.stmts.size < p.block.statements.stop then
      .error (.error (.outOfBounds p.block.statements p.stmts.size))
    else p.checkWaiting (p.block.len + 1) [p.block] := by
  obtain ⟨n, hn, hround⟩ := checkWaiting_cons (p := p) (Nat.lt_succ_self p.block.len)
  have hlast := hround (p.block.len + 1 - n) []
  rw [Nat.add_sub_cancel' hn, checkWaiting.eq_1] at hlast
  rw [checkBlocks, hlast]
  cases p.checkBlockWithin (p.block.len + 1) p.block <;> rfl

/-- Two statements cannot share the body of a function. -/
example :
    let p : Program :=
      { stmts := ⟨#[⟨.function ⟨0⟩, ⟨0, 1⟩⟩, ⟨.breakLoop, ⟨0, 1⟩⟩, ⟨.function ⟨0⟩, ⟨0, 1⟩⟩,
          ⟨.breakLoop, ⟨0, 1⟩⟩]⟩
        functions := ⟨#[{ name := ⟨0, 1⟩, span := ⟨0, 1⟩, body := ⟨⟨1, 1⟩, .sentinel⟩ }]⟩
        block := ⟨⟨0, 4⟩, .sentinel⟩ }
    p.validate = .error (.error (.misplaced ⟨2⟩ 1)) := by
  decide

end Program

end FrontEnd
