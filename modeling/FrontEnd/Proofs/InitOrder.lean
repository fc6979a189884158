import FrontEnd.Proofs.Told
import Mathlib.Data.Fintype.Card
import Mathlib.Data.Set.Finite.Basic
import Mathlib.Data.List.Chain
import Mathlib.Order.Interval.Finset.Nat
import Mathlib.Order.WellFounded
/-!
# FrontEnd — the order of initialization

The initializers of top-level variables read each other (`InitReads`).
The orders that the type pass gives them number this graph: a variable
comes right after the last one that it reads, and has no order exactly
if what it reads leads into a cycle (`InitOrder`). The pass finds them in
rounds, but they depend on the graph alone.
-/

namespace FrontEnd

open Relation Analysis

namespace Program

/-- The variable is declared at the top level, with the initializer if
there is one. -/
def IsGlobal (p : Program) (v : VariableId) (init : Option ExprId) : Prop :=
  ∃ s ∈ elements (p.outline p.block).direct, ∃ type span,
    p.stmts.get s = .ok ⟨.variable v type init, span⟩

/-- The initializer of the first variable names the second. -/
def InitReads (p : Program) (v w : VariableId) : Prop :=
  ∃ e, p.IsGlobal v (some e) ∧ p.Mentions e (.variable w)

/-- The order of a variable. -/
def orderOf (p : Program) (v : VariableId) : Nat := ((p.vars.get? v).map (·.order)).getD 0

/-- A cycle of initializers can be reached from the variable. -/
def ReachesCycle (p : Program) (v : VariableId) : Prop :=
  ∃ w, ReflTransGen p.InitReads v w ∧ TransGen p.InitReads w w

/-- How long the chains of variables are that begin at one and of which
each reads the next. -/
def chainLengths (p : Program) (v : VariableId) : Set Nat :=
  {n | ∃ chain : List VariableId,
    chain.head? = some v ∧ chain.IsChain p.InitReads ∧ chain.length = n}

/-- The orders of the top-level variables are what their initializers
make them. -/
structure InitOrder (p : Program) : Prop where
  held : ∀ v init, p.IsGlobal v init → ∃ r, p.vars.get v = .ok r
  cyclic : ∀ v init r, p.IsGlobal v init → p.vars.get v = .ok r →
    (r.order = 0 ↔ p.ReachesCycle v)
  first : ∀ v init r, p.IsGlobal v init → p.vars.get v = .ok r → (∀ w, ¬ p.InitReads v w) →
    r.order = 1
  next : ∀ v init r, p.IsGlobal v init → p.vars.get v = .ok r → r.order ≠ 0 →
    (∃ w, p.InitReads v w) →
      ∃ n, r.order = 1 + n ∧ IsGreatest {n | ∃ w q, p.InitReads v w ∧ p.vars.get w = .ok q ∧ q.order = n} n
  longest : ∀ v init r, p.IsGlobal v init → p.vars.get v = .ok r → r.order ≠ 0 →
    IsGreatest (p.chainLengths v) r.order

end Program

/-- The initializers that are reported as cyclic are those of the
variables without an order. -/
def Analysis.ReportsCycles (a : Analysis) : Prop :=
  ∀ span, a.queue.Has .cyclicInitializer span ↔
    ∃ v e x r, a.program.IsGlobal v (some e) ∧ a.program.exprs.get e = .ok x ∧
      a.program.vars.get v = .ok r ∧ r.order = 0 ∧ x.span = span

namespace Program

/-- Where everything leads on and there are finitely many places, every
place leads into a cycle. -/
theorem exists_cycle_of_finite {α : Type} {R : α → α → Prop} {P : α → Prop} {a : α}
    (finite : {b | P b}.Finite) (next : ∀ b, P b → ∃ c, P c ∧ R b c) (ha : P a) :
    ∃ b, ReflTransGen R a b ∧ TransGen R b b := by
  by_contra hno
  -- without a cycle, one of the places that are reached would be the last
  have : Finite {b // P b ∧ ReflTransGen R a b} := (finite.subset fun _ hb => hb.1).to_subtype
  have : IsTrans {b // P b ∧ ReflTransGen R a b} fun x y => TransGen R y.1 x.1 :=
    ⟨fun _ _ _ hxy hyz => hyz.trans hxy⟩
  have : Std.Irrefl fun x y : {b // P b ∧ ReflTransGen R a b} => TransGen R y.1 x.1 :=
    ⟨fun x hx => hno ⟨x.1, x.2.2, hx⟩⟩
  have wellFounded := Finite.wellFounded_of_trans_of_irrefl
    fun x y : {b // P b ∧ ReflTransGen R a b} => TransGen R y.1 x.1
  obtain ⟨⟨b, hb, hab⟩, -, hlast⟩ := wellFounded.has_min Set.univ ⟨⟨a, ha, .refl⟩, trivial⟩
  obtain ⟨c, hc, hbc⟩ := next b hb
  exact hlast ⟨c, hc, hab.tail hbc⟩ trivial (.single hbc)

/-! ## Numbering the graph -/

/-- What each variable has found about those that it reads. -/
structure Ranked (p : Program) : Prop where
  held : ∀ v init, p.IsGlobal v init → ∃ r, p.vars.get? v = some r
  closed : ∀ v w, p.InitReads v w → ∃ init, p.IsGlobal w init
  zero : ∀ v init, p.IsGlobal v init → p.orderOf v = 0 → ∃ w, p.InitReads v w ∧ p.orderOf w = 0
  succ : ∀ v w, p.InitReads v w → 0 < p.orderOf v → 0 < p.orderOf w ∧ p.orderOf w < p.orderOf v
  last : ∀ v init, p.IsGlobal v init → 1 < p.orderOf v →
    ∃ w, p.InitReads v w ∧ p.orderOf w + 1 = p.orderOf v

variable {p : Program} {v w : VariableId} {init : Option ExprId} {r : Variable}

theorem orderOf_eq (h : p.vars.get? v = some r) : p.orderOf v = r.order := by
  rw [orderOf, h]
  rfl

namespace Ranked

variable (ranked : p.Ranked)
include ranked

/-- **What has no order leads into a cycle**: each variable without one
reads another, and there are only so many. -/
theorem reachesCycle (hv : p.IsGlobal v init) (hzero : p.orderOf v = 0) : p.ReachesCycle v := by
  have finite : {v | (∃ init, p.IsGlobal v init) ∧ p.orderOf v = 0}.Finite := by
    refine ((Set.finite_lt_nat p.vars.size).preimage fun v _ w _ => congrArg RecordId.mk).subset ?_
    rintro v ⟨⟨init, hv⟩, -⟩
    obtain ⟨r, hr⟩ := ranked.held v init hv
    exact Table.lt_size_of_get? hr
  refine exists_cycle_of_finite finite (fun v hv => ?_) ⟨⟨init, hv⟩, hzero⟩
  obtain ⟨⟨init, hv⟩, hzero⟩ := hv
  obtain ⟨w, hw, hwzero⟩ := ranked.zero v init hv hzero
  exact ⟨w, ⟨ranked.closed v w hw, hwzero⟩, hw⟩

/-- Orders fall along what is read. -/
theorem lt_of_transGen (h : TransGen p.InitReads v w) (hpos : 0 < p.orderOf v) :
    0 < p.orderOf w ∧ p.orderOf w < p.orderOf v := by
  induction h with
  | single hw => exact ranked.succ _ _ hw hpos
  | tail _ hw ih =>
    obtain ⟨hpos', hlt⟩ := ranked.succ _ _ hw ih.1
    exact ⟨hpos', hlt.trans ih.2⟩

/-- **A variable has no order exactly if it leads into a cycle.** -/
theorem cyclic_iff (hv : p.IsGlobal v init) : p.orderOf v = 0 ↔ p.ReachesCycle v := by
  refine ⟨ranked.reachesCycle hv, fun ⟨w, hreach, hloop⟩ => ?_⟩
  by_contra hne
  have hpos : 0 < p.orderOf w := by
    rcases reflTransGen_iff_eq_or_transGen.1 hreach with rfl | htrans
    · exact Nat.pos_of_ne_zero hne
    · exact (ranked.lt_of_transGen htrans (Nat.pos_of_ne_zero hne)).1
  exact Nat.lt_irrefl _ (ranked.lt_of_transGen hloop hpos).2

/-- No chain is longer than the order that it begins with. -/
theorem length_le {chain : List VariableId} (hhead : chain.head? = some v)
    (hchain : chain.IsChain p.InitReads) (hpos : 0 < p.orderOf v) : chain.length ≤ p.orderOf v := by
  induction chain generalizing v with
  | nil => cases hhead
  | cons u rest ih =>
    obtain rfl : u = v := Option.some.inj hhead
    cases rest with
    | nil => exact hpos
    | cons w rest =>
      obtain ⟨hreads, hrest⟩ := List.isChain_cons_cons.1 hchain
      obtain ⟨hposw, hlt⟩ := ranked.succ u w hreads hpos
      exact (Nat.succ_le_succ (ih rfl hrest hposw)).trans hlt

/-- From every order on there is a chain through all that are smaller. -/
theorem exists_chain {n : Nat} (hv : p.IsGlobal v init) (hn : p.orderOf v = n + 1) :
    n + 1 ∈ p.chainLengths v := by
  induction n generalizing v init with
  | zero => exact ⟨[v], rfl, .singleton v, rfl⟩
  | succ n ih =>
    obtain ⟨w, hw, hlast⟩ := ranked.last v init hv (by omega)
    obtain ⟨init', hinit'⟩ := ranked.closed v w hw
    obtain ⟨chain, hhead, hchain, hlength⟩ := ih hinit' (by omega)
    refine ⟨v :: chain, rfl, hchain.cons fun u hu => ?_, by rw [List.length_cons, hlength]⟩
    rw [hhead] at hu
    cases hu
    exact hw

/-- **The graph determines all orders.** -/
theorem initOrder : p.InitOrder where
  held v init hv := (ranked.held v init hv).imp fun _ => Table.get_eq_ok.2
  cyclic v init r hv hr := by
    rw [← orderOf_eq (Table.get_eq_ok.1 hr)]
    exact ranked.cyclic_iff hv
  first v init r hv hr hnone := by
    rw [← orderOf_eq (Table.get_eq_ok.1 hr)]
    have hzero : p.orderOf v ≠ 0 := fun h =>
      have ⟨w, hw, _⟩ := ranked.zero v init hv h
      hnone w hw
    have hone : ¬ 1 < p.orderOf v := fun h =>
      have ⟨w, hw, _⟩ := ranked.last v init hv h
      hnone w hw
    omega
  next v init r hv hr hne := by
    rintro ⟨u, hu⟩
    have hord := orderOf_eq (Table.get_eq_ok.1 hr)
    obtain ⟨hposu, hltu⟩ := ranked.succ v u hu (by omega)
    obtain ⟨w, hw, hlast⟩ := ranked.last v init hv (by omega)
    obtain ⟨init', hinit'⟩ := ranked.closed v w hw
    obtain ⟨q, hq⟩ := ranked.held w init' hinit'
    refine ⟨p.orderOf w, by omega, ⟨w, q, hw, Table.get_eq_ok.2 hq, (orderOf_eq hq).symm⟩, ?_⟩
    rintro n ⟨w', q', hw', hq', rfl⟩
    rw [← orderOf_eq (Table.get_eq_ok.1 hq')]
    have hlt := (ranked.succ v w' hw' (by omega)).2
    omega
  longest v init r hv hr hne := by
    rw [← orderOf_eq (Table.get_eq_ok.1 hr)] at hne ⊢
    obtain ⟨n, hn⟩ := Nat.exists_eq_succ_of_ne_zero hne
    refine ⟨hn ▸ ranked.exists_chain hv hn, ?_⟩
    rintro m ⟨chain, hhead, hchain, rfl⟩
    exact ranked.length_le hhead hchain (Nat.pos_of_ne_zero hne)

end Ranked

/-! ## Resolved programs -/

theorem isGlobal_iff :
    p.IsGlobal v init ↔ ∃ s ∈ p.globals, (p.globalOf s).id = v ∧ (p.globalOf s).init = init := by
  constructor
  · rintro ⟨s, hs, type, span, hstmt⟩
    rw [Table.get_eq_ok] at hstmt
    refine ⟨s, mem_globals.2 ⟨hs, by rw [declaresVariable, hstmt]⟩, ?_, ?_⟩ <;> rw [globalOf_eq hstmt]
  · rintro ⟨s, hs, rfl, rfl⟩
    obtain ⟨hdirect, hdeclares⟩ := mem_globals.1 hs
    obtain ⟨v, type, init, span, hstmt⟩ := exists_of_declaresVariable hdeclares
    refine ⟨s, hdirect, type, span, ?_⟩
    rw [globalOf_eq hstmt, Table.get_eq_ok, hstmt]

/-- A top-level initializer names no other variables than top-level ones. -/
theorem global_of_mentions {p₀ : Program} {s : StmtId} {e : ExprId} (regular : p₀.Regular)
    (inScope : p₀.InScope) (hs : s ∈ p₀.globals) (he : (p₀.globalOf s).init = some e)
    (h : p₀.Mentions e (.variable w)) : ∃ s' ∈ p₀.globals, (p₀.globalOf s').id = w := by
  obtain ⟨o, lays⟩ := regular.layout
  have ho : p₀.outline p₀.block = o := outline_of_lays lays regular.whole
  obtain ⟨hdirect, hdeclares⟩ := mem_globals.1 hs
  rw [ho] at hdirect
  have hplace := @visible_of_direct p₀ s 0 _ o (p₀.blockAhead true o) [] lays hdirect
  rw [List.append_nil] at hplace
  obtain ⟨expected, hx⟩ := mem_value_tasks hdeclares he
  have hslot := slot_of_uses regular.declarations hx (r := e) (by simp [Task.uses])
  have hvisible := inScope ⟨s, p₀.blockAhead true o⟩ (by rw [places, ho]; exact hplace) e hslot _ h
  obtain ⟨s', hs', howned⟩ := mem_functionsIn_or_globalsIn hvisible rfl
  rcases hs' with hF | hG
  · obtain ⟨f, span, hstmt⟩ : ∃ f span, p₀.stmts.get? s' = some ⟨.function f, span⟩ := by
      have hf := declares_of_mem_functionsIn hF
      simp only [declaresFunction] at hf
      split at hf
      · next f span hstmt => exact ⟨f, span, hstmt⟩
      · cases hf
    obtain ⟨r, params, -, -, -, -, hown⟩ := function_eqs hstmt (regular.declarations s' _ hstmt)
    simp [hown] at howned
  · rw [← ho] at hG
    have hG : s' ∈ p₀.globals := hG
    refine ⟨s', hG, ?_⟩
    have heq := eq_of_owned (declares_of_mem_globals hG) howned
    exact (Target.variable.inj heq).symm

end Program

variable {source : String} {p p₁ : Program} {a : Analysis} {L : List StmtId} {queue : Queue}

section
variable (went : Resolution source p queue p₁ L a)
include went

theorem Resolution.isGlobal_iff {v : VariableId} {init : Option ExprId} :
    a.program.IsGlobal v init ↔ ∃ s ∈ p₁.globals, (p₁.globalOf s).id = v ∧ (p₁.globalOf s).init = init := by
  have hglobal : a.program.globalOf = p₁.globalOf := by
    have hstmts : a.program.stmts = p₁.stmts := went.changes.stmts
    funext s
    rw [Program.globalOf, hstmts, Program.globalOf]
  rw [Program.isGlobal_iff, Program.globals_congr went.done.pruned.frame, hglobal]

/-- A top-level variable is part of a cycle, or it is settled. -/
theorem Resolution.order_cases {s : StmtId} (hs : s ∈ p₁.globals) :
    ∃ r, a.program.vars.get? (p₁.globalOf s).id = some r ∧
      (s ∈ L ∧ r.order = 0 ∧ (p₁.globalOf s).Reads a.program none ∨
        ∃ n, r.order = n + 1 ∧ (p₁.globalOf s).Reads a.program (some n)) := by
  by_cases hL : s ∈ L
  · have cyclic := went.done.globals.cyclic s hL
    obtain ⟨r, hr, hzero, -⟩ := cyclic.var
    exact ⟨r, hr, .inl ⟨hL, hzero, cyclic.reads⟩⟩
  · obtain ⟨r, n, hr, horder, hreads⟩ := (went.done.globals.settled s hs hL).order
    exact ⟨r, hr, .inr ⟨n, horder, hreads⟩⟩

/-- **The type pass numbers the graph of initializers.** -/
theorem Resolution.ranked : a.program.Ranked where
  held v init hv := by
    obtain ⟨s, hs, rfl, -⟩ := went.isGlobal_iff.1 hv
    obtain ⟨r, hr, -⟩ := went.order_cases hs
    exact ⟨r, hr⟩
  closed v w hw := by
    obtain ⟨e, hv, hm⟩ := hw
    obtain ⟨s, hs, -, he⟩ := went.isGlobal_iff.1 hv
    obtain ⟨s', hs', rfl⟩ := Program.global_of_mentions went.named.regular went.named.inScope hs he
      (went.done.pruned.mentions hm)
    exact ⟨_, went.isGlobal_iff.2 ⟨s', hs', rfl, rfl⟩⟩
  zero v init hv hzero := by
    obtain ⟨s, hs, rfl, -⟩ := went.isGlobal_iff.1 hv
    obtain ⟨r, hr, ⟨-, -, hreads⟩ | ⟨n, hn, -⟩⟩ := went.order_cases hs
    · obtain ⟨e, he, w, q, hm, hq, hqzero⟩ := hreads.exists_init
      exact ⟨w, ⟨e, went.isGlobal_iff.2 ⟨s, hs, rfl, he⟩, hm⟩, (Program.orderOf_eq hq).trans hqzero⟩
    · rw [Program.orderOf_eq hr, hn] at hzero
      cases hzero
  succ v w hw hpos := by
    obtain ⟨e, hv, hm⟩ := hw
    obtain ⟨s, hs, rfl, he⟩ := went.isGlobal_iff.1 hv
    obtain ⟨r, hr, ⟨-, hzero, -⟩ | ⟨n, hn, hreads⟩⟩ := went.order_cases hs
    · rw [Program.orderOf_eq hr, hzero] at hpos
      cases hpos
    · simp only [Global.Reads, he] at hreads
      obtain ⟨q, hq, hqpos, hle⟩ := hreads.1 w hm
      rw [Program.orderOf_eq hr, Program.orderOf_eq hq]
      omega
  last v init hv hlt := by
    obtain ⟨s, hs, rfl, -⟩ := went.isGlobal_iff.1 hv
    obtain ⟨r, hr, ⟨-, hzero, -⟩ | ⟨n, hn, hreads⟩⟩ := went.order_cases hs
    · rw [Program.orderOf_eq hr, hzero] at hlt
      cases hlt
    · rw [Program.orderOf_eq hr, hn] at hlt ⊢
      cases he : (p₁.globalOf s).init with
      | none =>
        simp only [Global.Reads, he, Option.some.injEq] at hreads
        omega
      | some e =>
        simp only [Global.Reads, he] at hreads
        obtain ⟨w, q, hm, hq, hqn⟩ := hreads.2.resolve_left (by omega)
        exact ⟨w, ⟨e, went.isGlobal_iff.2 ⟨s, hs, rfl, he⟩, hm⟩, by rw [Program.orderOf_eq hq, hqn]⟩

/-- What the type pass has reported is wrong with the program. -/
theorem Resolution.told : a.Told source p₁ fun d =>
    d ∈ (Analysis.determineMain ⟨p, queue⟩ source).queue.diagnostics ∨ p₁.TypeError source d ∨
      p₁.CycleError a.program d :=
  resolveTypes_told went.named.regular went.named.usedOnce went.named.inScope
    went.named.regular.operands went.named.isScoped went.named.unflagged went.types

/-- A cycle that is reported is one of a variable without an order. -/
theorem Resolution.cycleError {d : Diagnostic} (h : p₁.CycleError a.program d) :
    ∃ v e x r, a.program.IsGlobal v (some e) ∧ a.program.exprs.get e = .ok x ∧
      a.program.vars.get v = .ok r ∧ r.order = 0 ∧ d = .ofCode .cyclicInitializer x.span := by
  obtain ⟨s, hs, e, x₁, r, he, hx₁, hr, hzero, rfl⟩ := h
  obtain ⟨x, hx, hmatures⟩ := went.changes.matures e x₁ hx₁
  exact ⟨_, e, x, r, went.isGlobal_iff.2 ⟨s, hs, rfl, he⟩, Table.get_eq_ok.2 hx,
    Table.get_eq_ok.2 hr, hzero, by rw [hmatures.span]⟩

/-- A variable without an order has its initializer reported, as long as
there is no limit. -/
theorem Resolution.cycle_has (hlimit : a.queue.config.errorLimit = 0) {v : VariableId} {e : ExprId}
    {x : Expr} {r : Variable} (hv : a.program.IsGlobal v (some e)) (hx : a.program.exprs.get e = .ok x)
    (hr : a.program.vars.get v = .ok r) (hzero : r.order = 0) :
    a.queue.Has .cyclicInitializer x.span := by
  rw [Table.get_eq_ok] at hx hr
  obtain ⟨s, hs, rfl, he⟩ := went.isGlobal_iff.1 hv
  obtain ⟨r', hr', ⟨hL, -, -⟩ | ⟨n, hn, -⟩⟩ := went.order_cases hs
  · obtain ⟨x', hx', hquiet⟩ := (went.done.globals.cyclic s hL).quiet e he
    rw [hx] at hx'
    obtain rfl := Option.some.inj hx'
    rcases hquiet with ⟨y, hy, hflag⟩ | hrefuses
    · exact (went.heard.globals.2 s hL).root e he x hx (by
        rw [hx] at hy
        rwa [Option.some.inj hy])
    · exact Queue.has_of_refuses hlimit hrefuses
  · rw [hr] at hr'
    rw [Option.some.inj hr', hn] at hzero
    cases hzero

end

theorem determineMain_told (config : QueueConfig) (p : Program) (source : String) :
    ∀ d ∈ ((Analysis.start config p).determineMain source).queue.diagnostics,
      d = .ofCode .noMain .zero ∧ p.findMain source = none := by
  intro d hd
  simp only [determineMain] at hd
  split at hd
  · cases hd
  · split at hd
    · cases hd
    · next hnone => exact ⟨(Queue.mem_push hd).resolve_left (by simp [Analysis.start, Queue.ofConfig]), hnone⟩

namespace Program

/-- **Top-level variables are initialized in the order in which they read
each other.** Whatever has been built with one place for each expression,
when its resolution succeeds a variable has no order exactly if a cycle
can be reached from it, and any other one the length of its longest chain
of reads; and as long as there is no limit, the initializers reported as
cyclic are those of the variables without an order. -/
theorem resolve_initOrder {steps : List Step} {written : String}
    (built : Program.build steps = .ok (p, written)) (once : p.UsedOnce) (config : QueueConfig)
    (source : String) (h : (Analysis.start config p).resolve source = .ok a) :
    a.program.InitOrder ∧ (config.errorLimit = 0 → a.ReportsCycles) := by
  obtain ⟨p₁, L, went⟩ := resolve_stages (build_fresh built) once h
  refine ⟨went.ranked.initOrder, fun hlimit span => ⟨?_, ?_⟩⟩
  · rintro ⟨d, hd, hcode, rfl⟩
    rcases went.told.said d hd with hbefore | htype | hcycle
    · rw [(determineMain_told config p source d hbefore).1] at hcode
      cases hcode
    · cases htype with
      | @misplaced e x code he hx hmisplaced =>
        obtain rfl : code = .cyclicInitializer := hcode
        cases hk : x.kind <;> simp [ExprKind.misplaced?, hk] at hmisplaced
      | noValue he hx lacks => cases hcode
    · obtain ⟨v, e, x, r, hv, hx, hr, hzero, rfl⟩ := went.cycleError hcycle
      exact ⟨v, e, x, r, hv, hx, hr, hzero, rfl⟩
  · rintro ⟨v, e, x, r, hv, hx, hr, hzero, rfl⟩
    obtain ⟨-, -, -, hqueue⟩ := determineMain_eq (Analysis.start config p) source
    refine went.cycle_has ?_ hv hx hr hzero
    rw [went.changes.queue.config]
    exact (congrArg QueueConfig.errorLimit hqueue.config).trans hlimit

/-- Two variables that read each other have no order, and neither has one
that reads them; one that is read ahead of its declaration comes first. -/
theorem resolve_initOrder_cycle :
    Succeeds (Program.build
        [.identifier "b", .variable "a" none (some ⟨0⟩), .identifier "a", .variable "b" none (some ⟨1⟩),
          .identifier "a", .variable "c" none (some ⟨2⟩), .identifier "y", .variable "x" none (some ⟨3⟩),
          .integer 1, .variable "y" none (some ⟨4⟩)])
      fun (p, source) => p.UsedOnce ∧ Succeeds ((Analysis.start {} p).resolve source) fun a =>
        (a.program.InitOrder ∧ a.ReportsCycles) ∧ a.queue.count .cyclicInitializer = 3 ∧
          a.program.vars.toList.map (·.order) = [0, 0, 0, 2, 1] := by
  have facts : Succeeds (Program.build
        [.identifier "b", .variable "a" none (some ⟨0⟩), .identifier "a", .variable "b" none (some ⟨1⟩),
          .identifier "a", .variable "c" none (some ⟨2⟩), .identifier "y", .variable "x" none (some ⟨3⟩),
          .integer 1, .variable "y" none (some ⟨4⟩)])
      fun (p, source) => p.UsedOnce ∧ Succeeds ((Analysis.start {} p).resolve source) fun a =>
        a.queue.count .cyclicInitializer = 3 ∧
          a.program.vars.toList.map (·.order) = [0, 0, 0, 2, 1] := by
    decide +kernel
  obtain ⟨⟨p, source⟩, built, once, a, h, hfacts⟩ := facts
  obtain ⟨horder, hreports⟩ := resolve_initOrder built once {} source h
  exact ⟨(p, source), built, once, a, h, ⟨horder, hreports rfl⟩, hfacts⟩

end Program

end FrontEnd
