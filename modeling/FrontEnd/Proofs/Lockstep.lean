import FrontEnd.Proofs.KinSignatures
/-!
# FrontEnd — the type pass on two programs

The type pass goes through programs that are kin in lockstep: it visits
the same statements, settles the same variables in the same order, finds
the same cycles, and says the same about all of them
(`Kin.resolveTypes`).
-/

namespace FrontEnd

open Analysis Program

variable {t : Setting} {c c' d d' p : Program} {e : ExprId} {s : StmtId} {source : String}

/-! ## Top-level variables -/

/-- The variables that the statements declare have got their orders. -/
def Setting.declaring (t : Setting) (ss : List StmtId) : Setting :=
  { t with
    settled := fun v => t.settled v ∨ ∃ s ∈ ss, ∃ r type init,
      t.start.stmts.get? s = some r ∧ r.kind = .variable v type init }

/-- The same variables wait in both runs, and their initializers are
values. -/
def Setting.Waits (t : Setting) (G G' : List Global) : Prop :=
  G = G' ∧ ∀ g ∈ G, ∀ e, g.init = some e → ¬ t.types e

theorem Setting.Seated.declaring (seated : t.Seated) (ss : List StmtId) : (t.declaring ss).Seated :=
  ⟨seated.values, seated.declared, seated.results, seated.parameters⟩

namespace Kin

section

variable (seated : t.Seated)
include seated

theorem declareGlobal (k : Kin t c d) (s : StmtId) :
    Agree t.exact
      (KinnedWith (t.declaring [s]) fun g g' => t.Waits g.toList g'.toList ∧ g = g')
      (fun v => (c.sounding v).declareGlobal s) (fun v => (d.sounding v).declareGlobal s) := by
  simp only [Analysis.declareGlobal, sounding_stmts]
  refine .read (fun h => by rw [k.same h]) fun r r' hr hr' _ => ?_
  obtain ⟨hframe, r₀, hr₀, hframe₀⟩ := k.stmt hr hr'
  have hvalues : ∀ e ∈ r.kind.values, ¬ t.types e := fun e he => k.value seated hr hr' he
  obtain ⟨kind, span⟩ := r
  obtain ⟨kind', span'⟩ := r'
  -- a statement of another kind declares no variable
  have idle : (∀ v type init, kind ≠ .variable v type init) → Agree t.exact
      (KinnedWith (t.declaring [s]) fun g g' => t.Waits g.toList g'.toList ∧ g = g')
      (fun v => (.ok (none, c.sounding v) : Except Fault (Option Global × Analysis)))
      (fun v => .ok (none, d.sounding v)) := fun hn => by
    refine .pure ⟨⟨⟨rfl, by simp⟩, rfl⟩, k.mono ?_⟩
    rintro v (hv | ⟨s', hs', r, type, init, hq, hk⟩)
    · exact hv
    · obtain rfl := List.mem_singleton.1 hs'
      rw [hr₀] at hq
      cases hq
      rw [hk] at hframe₀
      exact absurd (StmtKind.eq_of_frame hframe₀ (by simp)) (hn v type init)
  cases kind with
  | «variable» w type init =>
    obtain rfl := StmtKind.eq_of_frame hframe (by simp)
    have hk₀ : r₀.kind = .variable w type init := StmtKind.eq_of_frame hframe₀.symm (by simp)
    refine (k.typeNamed? fun e he => seated.declared s r₀ w e init hr₀ (he ▸ hk₀)).bind ?_
    rintro _ _ @⟨c, d, found, found', hsame, k⟩
    simp only [sounding_vars]
    refine .read (fun h => by rw [k.same h, hsame h]) fun vars vars' h h' hsame => ?_
    have kin := @Kin.update_var t c d k (t.declaring [s]).settled w _ _ vars vars' h h' hsame
      (fun _ => rfl) (fun _ => rfl) (fun v hv hset => ?_) fun _ _ _ _ _ => rfl
    · refine .pure ⟨⟨⟨rfl, fun g hg e he => hvalues e ?_⟩, rfl⟩, kin⟩
      obtain rfl := List.mem_singleton.1 (by simpa using hg)
      simp [StmtKind.values, show init = some e from he]
    · -- no variable but this one is declared here, so any other was known already
      rcases hset with hset | ⟨s', hs', r, type', init', hq, hk⟩
      · exact hset
      · obtain rfl := List.mem_singleton.1 hs'
        rw [hr₀] at hq
        cases hq
        rw [hk₀] at hk
        cases hk
        exact absurd rfl hv
  | nest head body =>
    obtain ⟨body', rfl⟩ := StmtKind.nest_of_frame hframe
    exact idle (by simp)
  | _ =>
    obtain rfl := StmtKind.eq_of_frame hframe (by simp)
    exact idle (by simp)

theorem declareGlobals (k : Kin t c d) (ss : List StmtId) :
    Agree t.exact (KinnedWith (t.declaring ss) t.Waits)
      (fun v => (c.sounding v).declareGlobals ss) (fun v => (d.sounding v).declareGlobals ss) := by
  induction ss generalizing t c d with
  | nil => exact .pure ⟨⟨rfl, by simp⟩, k.mono fun v hv => hv.resolve_right (by simp)⟩
  | cons s ss ih =>
    refine (k.declareGlobal seated s).bind ?_
    rintro _ _ @⟨c, d, g, g', ⟨⟨-, hg⟩, rfl⟩, k⟩
    refine Agree.bind (ih (t := t.declaring [s]) (seated.declaring [s]) k) ?_
    rintro _ _ @⟨c, d, G, G', ⟨rfl, hG⟩, k⟩
    have kin : Kin (t.declaring (s :: ss)) c d := by
      refine k.mono ?_
      rintro v (hv | ⟨s', hs', hr⟩)
      · exact .inl (.inl hv)
      · rcases List.mem_cons.1 hs' with rfl | hs'
        · exact .inl (.inr ⟨_, List.mem_singleton_self _, hr⟩)
        · exact .inr ⟨s', hs', hr⟩
    refine .pure ⟨⟨rfl, fun h hh => ?_⟩, kin⟩
    exact (List.mem_append.1 hh).elim (hg h) (hG h)

end

end Kin

/-! ## What initializers read -/

theorem readOrderWithin_leaf {x : Expr} (hx : p.exprs.get? e = some x)
    (hv : ∀ v, x.kind ≠ .variable v) (fuel : Nat) :
    p.readOrderWithin (fuel + 1) e =
      p.operands x.kind >>= greatestOrder (p.readOrderWithin fuel) 0 := by
  simp only [readOrderWithin, Table.get_eq_ok.2 hx, ok_bind]

/-- What is silent reads no variable. -/
theorem readOrderWithin_silent {x : Expr} {fuel : Nat} {n : Option Nat}
    (hx : p.exprs.get? e = some x) (hs : p.Silent source x.kind)
    (h : p.readOrderWithin fuel e = .ok n) : n = some 0 := by
  cases fuel with
  | zero => cases h
  | succ fuel =>
    rcases hs with ⟨w, hk⟩ | hk | ⟨subject, name, y, u, w, hk, hy, hyk, -⟩
    · rw [readOrderWithin_leaf hx (by simp [hk]), hk] at h
      exact (Except.ok.inj h).symm
    · rw [readOrderWithin_leaf hx (by simp [hk]), hk] at h
      exact (Except.ok.inj h).symm
    · rw [readOrderWithin_leaf hx (by simp [hk]), hk] at h
      cases fuel with
      | zero => cases h
      | succ fuel =>
        have hsubject : p.readOrderWithin (fuel + 1) subject = .ok (some 0) := by
          rw [readOrderWithin_leaf hy (by simp [hyk]), hyk]
          rfl
        change greatestOrder (p.readOrderWithin (fuel + 1)) 0 [subject] = _ at h
        rw [greatestOrder, hsubject] at h
        exact (Except.ok.inj h).symm

@[simp] theorem Global.expected_sounding (g : Global) (p : Program) (v : Voice) :
    g.expected (p.sounding v).program = g.expected p := rfl

@[simp] theorem Global.readOrder_sounding (g : Global) (p : Program) (v : Voice) :
    g.readOrder (p.sounding v).program = g.readOrder p := by
  simp only [Global.readOrder]
  cases g.init with
  | none => rfl
  | some e => exact readOrder_voiced e

namespace Kin

theorem readOrderWithin {fuel : Nat} {n n' : Option Nat} (k : Kin t c d) (hall : ∀ v, t.settled v)
    (h : c.readOrderWithin fuel e = .ok n) (h' : d.readOrderWithin fuel e = .ok n') : n = n' := by
  induction fuel generalizing e n n' with
  | zero => cases h
  | succ fuel ih =>
    obtain ⟨x, hx, -⟩ := bind_eq_ok.1 h
    rw [Table.get_eq_ok] at hx
    obtain ⟨y, hy, -⟩ := k.exists_right hx
    by_cases hk : y.kind = x.kind
    · -- a variable gives its order, anything else what its operands read
      by_cases hv : ∃ v, x.kind = .variable v
      · obtain ⟨v, hv⟩ := hv
        simp only [Program.readOrderWithin, Table.get_eq_ok.2 hx, ok_bind, hv] at h
        simp only [Program.readOrderWithin, Table.get_eq_ok.2 hy, ok_bind, hk, hv] at h'
        obtain ⟨r, hr, h⟩ := bind_eq_ok.1 h
        obtain ⟨r', hr', h'⟩ := bind_eq_ok.1 h'
        rw [Table.get_eq_ok] at hr hr'
        rw [k.orders v r r' (hall v) hr hr'] at h'
        exact Except.ok.inj (h.symm.trans h')
      · rw [readOrderWithin_leaf hx fun v hxv => hv ⟨v, hxv⟩] at h
        rw [readOrderWithin_leaf hy fun v hyv => hv ⟨v, hk ▸ hyv⟩, hk,
          operands_congr k.arguments] at h'
        obtain ⟨es, hes, h⟩ := bind_eq_ok.1 h
        rw [hes, ok_bind] at h'
        -- operand by operand, whatever has been read before
        generalize 0 = least at h h'
        clear hes
        induction es generalizing least with
        | nil =>
          rw [greatestOrder, pure_eq_ok] at h h'
          exact h.symm.trans h'
        | cons o es ihes =>
          obtain ⟨m, hm, h⟩ := bind_eq_ok.1 h
          obtain ⟨m', hm', h'⟩ := bind_eq_ok.1 h'
          obtain rfl := ih hm hm'
          cases m with
          | none => exact Except.ok.inj (h.symm.trans h')
          | some m => exact ihes (max least m) h h'
    · -- where the nodes differ both are silent, and read nothing
      obtain ⟨-, hsc, hsd⟩ := (k.kinds e x y hx hy).resolve_left hk
      rw [readOrderWithin_silent hx hsc h, readOrderWithin_silent hy hsd h']

theorem readOrder {n n' : Option Nat} (k : Kin t c d) (hall : ∀ v, t.settled v) {g : Global}
    (h : g.readOrder c = .ok n) (h' : g.readOrder d = .ok n') : n = n' := by
  simp only [Global.readOrder] at h h'
  cases hinit : g.init with
  | none =>
    rw [hinit] at h h'
    exact Except.ok.inj (h.symm.trans h')
  | some e =>
    rw [hinit] at h h'
    simp only [Program.readOrder, k.exprDepth] at h h'
    exact k.readOrderWithin hall h h'

/-! ## Settling -/

theorem settle {g : Global} (k : Kin t c d) (hg : ∀ e, g.init = some e → ¬ t.types e) (n : Nat) :
    Agree t.exact (Kinned t) (fun v => settle t.source (c.sounding v) g n)
      (fun v => settle t.source (d.sounding v) g n) := by
  simp only [Analysis.settle, Global.expected_sounding]
  refine .read (fun h => by rw [k.same h]) fun expected expected' _ _ hexpected => ?_
  refine (k.typeExpr? hg hexpected).bind ?_
  rintro _ _ @⟨c, d, type, type', hsame, k⟩
  simp only [sounding_vars]
  refine .read (fun h => by rw [k.same h, hsame h]) fun vars vars' h h' hsame => ?_
  have kin := k.update_var h h' hsame (fun _ => rfl) (fun _ => rfl) (fun _ _ hw => hw)
    fun _ _ _ _ _ => rfl
  exact .pure (.intro kin)

theorem settleRound {G : List Global} (k : Kin t c d) (hall : ∀ v, t.settled v) (hG : t.Waits G G) :
    Agree t.exact (KinnedWith t t.Waits) (fun v => settleRound t.source (c.sounding v) G)
      (fun v => settleRound t.source (d.sounding v) G) := by
  induction G generalizing c d with
  | nil => exact .pure ⟨hG, k⟩
  | cons g G ih =>
    obtain ⟨hg, hrest⟩ := List.forall_mem_cons.1 hG.2
    simp only [Analysis.settleRound, Global.readOrder_sounding]
    refine .read (fun h => by rw [k.same h]) fun found found' h h' _ => ?_
    obtain rfl := k.readOrder hall h h'
    cases found with
    | some n =>
      refine (k.settle hg (n + 1)).bind ?_
      rintro _ _ ⟨k⟩
      exact ih k ⟨rfl, hrest⟩
    | none =>
      refine (ih k ⟨rfl, hrest⟩).bind ?_
      rintro _ _ @⟨c, d, left, left', ⟨rfl, hleft⟩, k⟩
      have waits : t.Waits (g :: left) (g :: left) := ⟨rfl, List.forall_mem_cons.2 ⟨hg, hleft⟩⟩
      exact .pure (.intro waits k)

theorem settleRounds {rounds : Nat} {G : List Global} (k : Kin t c d) (hall : ∀ v, t.settled v)
    (hG : t.Waits G G) :
    Agree t.exact (KinnedWith t t.Waits) (fun v => settleRounds t.source rounds (c.sounding v) G)
      (fun v => settleRounds t.source rounds (d.sounding v) G) := by
  induction rounds generalizing G c d with
  | zero => exact .pure ⟨hG, k⟩
  | succ rounds ih =>
    refine (k.settleRound hall hG).bind ?_
    rintro _ _ @⟨c, d, left, left', ⟨rfl, hleft⟩, k⟩
    by_cases hlt : left.length < G.length
    · simp only [hlt, if_true]
      exact ih k ⟨rfl, hleft⟩
    · simp only [hlt, if_false]
      exact .pure ⟨⟨rfl, hleft⟩, k⟩

theorem reportCycle {g : Global} (k : Kin t c d) (hg : ∀ e, g.init = some e → ¬ t.types e) :
    Agree t.exact (Kinned t) (fun v => reportCycle t.source (c.sounding v) g)
      (fun v => reportCycle t.source (d.sounding v) g) := by
  simp only [Analysis.reportCycle, Global.expected_sounding]
  refine .read (fun h => by rw [k.same h]) fun expected expected' _ _ hexpected => ?_
  refine (k.typeExpr? hg hexpected).bind ?_
  rintro _ _ ⟨-, k⟩
  -- the type is given last, whether there was an initializer to report or not
  have last : ∀ {c d : Program}, Kin t c d → Agree t.exact (Kinned t)
      (fun v => if g.declared then pure (c.sounding v)
        else do return { c.sounding v with program := ← (c.sounding v).program.setVariableType g.id .error })
      (fun v => if g.declared then pure (d.sounding v)
        else do return { d.sounding v with program := ← (d.sounding v).program.setVariableType g.id .error }) := by
    intro c d k
    cases g.declared with
    | true => exact .pure ⟨k⟩
    | false => exact k.setVariableType (fun _ => rfl) g.id
  cases hinit : g.init with
  | none => exact last k
  | some e =>
    refine (k.raiseAt .cyclicInitializer e).bind ?_
    rintro _ _ ⟨k⟩
    exact last k

theorem typeGlobals (k : Kin t c d) (seated : t.Seated) {ss : List StmtId}
    (hall : ∀ v, (t.declaring ss).settled v) :
    Agree t.exact (Kinned t) (fun v => typeGlobals t.source (c.sounding v) ss)
      (fun v => typeGlobals t.source (d.sounding v) ss) := by
  refine (k.declareGlobals seated ss).bind ?_
  rintro _ _ @⟨c, d, G, G', ⟨rfl, hG⟩, k⟩
  refine Agree.bind (k.settleRounds hall ⟨rfl, hG⟩) ?_
  rintro _ _ @⟨c, d, left, left', ⟨rfl, hleft⟩, k⟩
  refine Agree.mono (R := Kinned (t.declaring ss)) (Agree.foldlM ⟨k⟩ fun g hg r r' hr => ?_) ?_
  · obtain ⟨k⟩ := hr
    exact k.reportCycle (hleft g hg)
  · rintro _ _ ⟨k⟩
    exact ⟨k.mono fun v hv => .inl hv⟩

/-! ## Statements -/

section

variable (seated : t.Seated)
include seated

theorem typeLeaf (k : Kin t c d) (s : StmtId) :
    Agree t.exact (Kinned t) (fun v => typeLeaf t.source (c.sounding v) s)
      (fun v => typeLeaf t.source (d.sounding v) s) := by
  simp only [Analysis.typeLeaf, sounding_stmts]
  refine .read (fun h => by rw [k.same h]) fun r r' hr hr' _ => ?_
  obtain ⟨hframe, r₀, hr₀, hframe₀⟩ := k.stmt hr hr'
  have hvalues : ∀ e ∈ r.kind.values, ¬ t.types e := fun e he => k.value seated hr hr' he
  obtain ⟨kind, span⟩ := r
  obtain ⟨kind', span'⟩ := r'
  -- most statements are typed by their one value
  have value : ∀ e, e ∈ kind.values → Agree t.exact (Kinned t)
      (fun v => do return (← Analysis.typeExpr t.source none (c.sounding v) e).2)
      (fun v => do return (← Analysis.typeExpr t.source none (d.sounding v) e).2) := fun e he => by
    refine (k.typeExpr (hvalues e he) fun _ => rfl).bind ?_
    rintro _ _ ⟨-, k⟩
    exact .pure ⟨k⟩
  cases kind with
  | «variable» w type init =>
    obtain rfl := StmtKind.eq_of_frame hframe (by simp)
    have hk₀ : r₀.kind = .variable w type init := StmtKind.eq_of_frame hframe₀.symm (by simp)
    have hinit : ∀ e, init = some e → ¬ t.types e := fun e he =>
      hvalues e (by simp [StmtKind.values, he])
    refine (k.typeNamed? fun e he => seated.declared s r₀ w e init hr₀ (he ▸ hk₀)).bind ?_
    rintro _ _ @⟨c, d, declared, declared', hdeclared, k⟩
    dsimp only
    refine (k.typeExpr? hinit hdeclared).bind ?_
    rintro _ _ @⟨c, d, inferred, inferred', hinferred, k⟩
    have hsame : t.Same ((declared <|> inferred).getD .error)
        ((declared' <|> inferred').getD .error) := fun h => by rw [hdeclared h, hinferred h]
    exact k.setVariableType hsame w
  | assign lhs rhs =>
    obtain rfl := StmtKind.eq_of_frame hframe (by simp)
    refine (k.typeExpr (hvalues lhs (by simp [StmtKind.values])) fun _ => rfl).bind ?_
    rintro _ _ ⟨hsame, k⟩
    refine (k.typeExpr (hvalues rhs (by simp [StmtKind.values])) fun h =>
      congrArg some (hsame h)).bind ?_
    rintro _ _ ⟨-, k⟩
    exact .pure ⟨k⟩
  | output e | evaluate e =>
    obtain rfl := StmtKind.eq_of_frame hframe (by simp)
    exact value e (by simp [StmtKind.values])
  | returnValue e =>
    obtain rfl := StmtKind.eq_of_frame hframe (by simp)
    cases e with
    | none => exact .pure ⟨k⟩
    | some e => exact value e (by simp [StmtKind.values])
  | nest head body =>
    obtain ⟨body', rfl⟩ := StmtKind.nest_of_frame hframe
    exact .pure ⟨k⟩
  | _ =>
    obtain rfl := StmtKind.eq_of_frame hframe (by simp)
    exact .pure ⟨k⟩

theorem typeHead (k : Kin t c d) (s : StmtId) :
    Agree t.exact (Kinned t) (fun v => typeHead t.source (c.sounding v) s)
      (fun v => typeHead t.source (d.sounding v) s) := by
  simp only [Analysis.typeHead, sounding_stmts]
  refine .read (fun h => by rw [k.same h]) fun r r' hr hr' _ => ?_
  obtain ⟨hframe, -⟩ := k.stmt hr hr'
  have hvalues : ∀ e ∈ r.kind.values, ¬ t.types e := fun e he => k.value seated hr hr' he
  obtain ⟨kind, span⟩ := r
  obtain ⟨kind', span'⟩ := r'
  cases kind with
  | nest head body =>
    obtain ⟨body', rfl⟩ := StmtKind.nest_of_frame hframe
    cases head with
    | ifThen e | elseIf e | whileDo e =>
      refine (k.typeExpr (hvalues e (by simp [StmtKind.values, Head.expr?])) fun _ => rfl).bind ?_
      rintro _ _ ⟨-, k⟩
      exact .pure ⟨k⟩
    | forEach iterator e =>
      refine (k.typeExpr (hvalues e (by simp [StmtKind.values, Head.expr?])) fun _ => rfl).bind ?_
      rintro _ _ @⟨c, d, type, type', -, k⟩
      refine k.expr fun x y hx hy => ?_
      -- the iterator takes its type from the node, which is the same only if the programs are
      have hsame : t.exact → x = y := fun h => by
        rw [k.same h, hy] at hx
        exact (Option.some.inj hx).symm
      exact k.setVariableType (fun h => congrArg (fun x : Expr => iteratorType x.kind) (hsame h)) iterator
    | _ => exact .pure ⟨k⟩
  | _ =>
    obtain rfl := StmtKind.eq_of_frame hframe (by simp)
    exact .pure ⟨k⟩

end

end Kin

/-! ## Blocks -/

section

variable {α β : Type}

/-- A run of a pass, with nothing but the reason when it halts. -/
def abridge (x : Except (Abort Halt) α) : Except (Abort InternalError) α :=
  x.mapError (Abort.mapError Halt.error)

theorem abridge_bind (x : Except (Abort Halt) α) (f : α → Except (Abort Halt) β) :
    abridge (x >>= f) = abridge x >>= fun a => abridge (f a) := by
  cases x <;> rfl

theorem abridge_lift (x : Except Fault α) :
    abridge (liftM x : Except (Abort Halt) α) = (liftM x : Except (Abort InternalError) α) := by
  cases x <;> rfl

end

namespace Kin

variable (seated : t.Seated)
include seated

theorem enterBlock (k : Kin t c d) {topLevel : Bool} {block block' : Block} {outline : Outline}
    (hblock : t.exact → block = block')
    (hall : topLevel = true → ∀ ss, outline.direct = .ok ss → ∀ v, (t.declaring ss).settled v) :
    Agree t.exact (Kinned t)
      (fun v => abridge (enterBlock t.source topLevel block outline (c.sounding v)))
      (fun v => abridge (enterBlock t.source topLevel block' outline (d.sounding v))) := by
  -- the scopes may differ: where only one is missing the runs fall apart
  cases hscope : block.symbolTable.isSentinel with
  | true =>
    refine .error (e := .error (.invariant "type resolution"
      ("block at statement " ++ Nat.repr block.statements.start ++ " was never name-resolved"))) fun v => ?_
    simp only [Analysis.enterBlock, hscope, if_true]
    rfl
  | false =>
  cases hscope' : block'.symbolTable.isSentinel with
  | true =>
    refine .apart (fun h => ?_) fun v => ⟨.error (.invariant "type resolution"
      ("block at statement " ++ Nat.repr block'.statements.start ++ " was never name-resolved")), ?_⟩
    · rw [hblock h, hscope'] at hscope
      cases hscope
    · simp only [Analysis.enterBlock, hscope', if_true]
      rfl
  | false =>
    simp only [Analysis.enterBlock, hscope, hscope', Bool.false_eq_true, if_false, abridge_bind,
      abridge_lift]
    refine .read (fun _ => rfl) fun ss ss' hss hss' _ => ?_
    rw [lift_eq_ok] at hss hss'
    obtain rfl := Except.ok.inj (hss.symm.trans hss')
    refine (k.typeSignatures seated ss).lift.bind ?_
    rintro _ _ ⟨k⟩
    cases topLevel with
    | true =>
      simp only [if_true, abridge_lift]
      exact (k.typeGlobals seated (hall rfl ss hss)).lift
    | false => exact .pure ⟨k⟩

theorem typeOutline (k : Kin t c d) (topLevel : Bool) (outline : Outline) :
    Agree t.exact (Kinned t)
      (fun v => abridge (typeOutline t.source topLevel outline (c.sounding v)))
      (fun v => abridge (typeOutline t.source topLevel outline (d.sounding v))) := by
  induction outline generalizing topLevel c d with
  | stuck fault => exact .error fun v => rfl
  | done => exact .pure ⟨k⟩
  | leaf s rest ih =>
    simp only [Analysis.typeOutline, abridge_bind, abridge_lift, Analysis.isGlobal, sounding_stmts]
    refine .read (fun h => by rw [k.same h]) fun settled settled' h h' _ => ?_
    -- both skip the same statements, since what a statement declares is in its frame
    obtain rfl : settled = settled' := by
      rw [lift_eq_ok] at h h'
      obtain ⟨r, hr, h⟩ := bind_eq_ok.1 h
      obtain ⟨r', hr', h'⟩ := bind_eq_ok.1 h'
      obtain ⟨hframe, -⟩ := k.stmt hr hr'
      obtain ⟨kind, span⟩ := r
      obtain ⟨kind', span'⟩ := r'
      cases kind with
      | nest head body =>
        obtain ⟨body', rfl⟩ := StmtKind.nest_of_frame hframe
        exact Except.ok.inj (h.symm.trans h')
      | _ =>
        obtain rfl := StmtKind.eq_of_frame hframe (by simp)
        exact Except.ok.inj (h.symm.trans h')
    cases topLevel && settled with
    | true => exact ih k topLevel
    | false =>
      simp only [Bool.false_eq_true, if_false, abridge_bind, abridge_lift]
      refine (k.typeLeaf seated s).lift.bind ?_
      rintro _ _ ⟨k⟩
      exact ih k topLevel
  | nested s body rest ihBody ihRest =>
    simp only [Analysis.typeOutline, abridge_bind, abridge_lift]
    refine (k.typeHead seated s).lift.bind ?_
    rintro _ _ @⟨c, d, k⟩
    have hbody : ∀ (p : Program) (v : Voice), (p.sounding v).program.bodyOf s = p.bodyOf s :=
      fun p v => rfl
    simp only [hbody]
    refine .read (fun h => by rw [k.same h]) fun block block' _ _ hblock => ?_
    have hsame : t.exact → block.getD .empty = block'.getD .empty := fun h => by rw [hblock h]
    refine (k.enterBlock seated hsame fun h => absurd h Bool.false_ne_true).bind ?_
    rintro _ _ ⟨k⟩
    refine (ihBody k false).bind ?_
    rintro _ _ ⟨k⟩
    exact ihRest k topLevel

/-- **The type pass says the same about both programs**, if the orders that
are not known to be the same are those of the variables that the top level
declares. -/
theorem resolveTypes (k : Kin t c d)
    (hall : ∀ ss, (t.start.outline t.start.block).direct = .ok ss → ∀ v, (t.declaring ss).settled v) :
    Agree t.exact (Kinned t) (fun v => abridge ((c.sounding v).resolveTypes t.source))
      (fun v => abridge ((d.sounding v).resolveTypes t.source)) := by
  have houtline : ∀ {p : Program}, p.frame = t.start.frame → ∀ v : Voice,
      (p.sounding v).program.outline (p.sounding v).program.block =
        t.start.outline t.start.block := fun {p} h v =>
    outline_congr ((frame_voiced (p := p)).trans h)
  simp only [Analysis.resolveTypes, houtline k.left, houtline k.right, abridge_bind]
  refine (k.enterBlock seated (fun h => ?_) fun _ => hall).bind ?_
  · exact congrArg Program.block (k.same h)
  · rintro _ _ ⟨k⟩
    exact k.typeOutline seated true _

end Kin

end FrontEnd
