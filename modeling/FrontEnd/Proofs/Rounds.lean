import FrontEnd.Proofs.Globals
/-!
# FrontEnd — rounds of settling

Top-level variables are settled in rounds, until a round settles none.
Whatever order that takes, a variable is then settled, or it reads one
that is not (`settleRounds_done`).
-/

namespace FrontEnd

open Analysis

/-- The variable of the statement waits, and no expression of it has been
looked at but its declared type. -/
structure Analysis.Begun (p₀ : Program) (a : Analysis) (s : StmtId) : Prop where
  waiting : a.Waiting p₀ s
  heard : ∀ e, .name e ∈ p₀.tasks s → a.TypeHeard e
  fresh : ∀ e expected, .value e expected ∈ p₀.tasks s → Task.Fresh p₀ a (.value e expected)

/-- The variable of the statement is settled, and nothing has been kept
about its expressions but what typing them finds. -/
def Analysis.SettledHeard (source : String) (p₀ : Program) (a : Analysis) (s : StmtId) : Prop :=
  a.Settled source p₀ s ∧ ∀ x ∈ p₀.tasks s, a.TaskHeard x

/-- The expressions of some statements. -/
def Program.RegionOf (p : Program) (ss : List StmtId) (e : ExprId) : Prop :=
  ∃ s ∈ ss, ∃ r ∈ p.slotsAt s, p.Under r e

/-- What some statements declare. -/
def Program.OwnedBy (p : Program) (ss : List StmtId) (t : Target) : Prop := ∃ s ∈ ss, t ∈ p.owned s

variable {source : String} {p₀ : Program} {a a' b : Analysis} {s s' : StmtId} {x y : Task}
variable {v : VariableId} {typeExpr init : Option ExprId} {span : Span} {found : Option Nat}
variable {region : ExprId → Prop} {targets : Target → Prop} {ss G W L L' : List StmtId} {e : ExprId}

variable (regular : p₀.Regular) (once : p₀.UsedOnce)

include regular once

/-- Statements do not look at each other's expressions. -/
theorem not_region_of_reads (hne : s ≠ s') (hx : x ∈ p₀.tasks s) (hy : y ∈ p₀.tasks s')
    (hr : x.Reads p₀ e) : ¬ y.Region p₀ e := by
  intro hreg
  obtain ⟨r, hr, hu⟩ := Program.exists_under_of_reads hr
  obtain ⟨r', hr', hu'⟩ := Program.under_slot_of_region hreg
  have hslot := Program.slot_of_uses regular.declarations hx hr
  have hslot' := Program.slot_of_uses regular.declarations hy (Program.mem_uses_of_slot hr')
  obtain rfl := once.eq_of_under_slots hslot hslot' hu hu'
  exact hne (once.eq_of_slot hslot hslot')

omit once in
/-- Different statements declare different variables. -/
theorem globalOf_ne (hs : p₀.declaresVariable s = true) (hs' : p₀.declaresVariable s' = true)
    (hne : s ≠ s') : (p₀.globalOf s).id ≠ (p₀.globalOf s').id := by
  obtain ⟨v, typeExpr, init, span, hs⟩ := Program.exists_of_declaresVariable hs
  obtain ⟨v', typeExpr', init', span', hs'⟩ := Program.exists_of_declaresVariable hs'
  rw [globalOf_eq hs, globalOf_eq hs']
  rintro rfl
  refine hne (regular.owners s s' (.variable v) ?_ ?_)
  · exact Program.owned_of_gives hs (by simp [StmtKind.gives])
  · exact Program.owned_of_gives hs' (by simp [StmtKind.gives])

/-! ## What waits goes on waiting -/

omit regular once in
theorem Analysis.Begun.changes (begun : a.Begun p₀ s) (hs : p₀.declaresVariable s = true)
    (h : Changes region targets a a') (hr : ∀ x ∈ p₀.tasks s, ∀ e, x.Reads p₀ e → ¬ region e)
    (ht : ¬ targets (.variable (p₀.globalOf s).id)) : a'.Begun p₀ s where
  waiting := begun.waiting.changes hs h (fun e he => hr _ he e rfl) ht
  heard e he := (begun.heard e he).changes h (hr _ he e rfl)
  fresh e expected hx c hc y hy := by
    rw [h.exprs c (hr _ hx c (Task.reads_of_region hc))] at hy
    exact begun.fresh e expected hx c hc y hy

/-! ## Declaring the variables -/

omit regular once in
theorem typeNamed?_done {type : Option Ty} (h : a.typeNamed? typeExpr = .ok (type, b)) :
    Changes (fun e => typeExpr = some e) (fun _ => False) a b ∧
      type = typeExpr.map b.program.recorded ∧
      ∀ e, typeExpr = some e → b.TypeDone e ∧ (a.Unflagged e → b.TypeHeard e) := by
  cases typeExpr with
  | none =>
    cases pure_eq_ok.1 h
    exact ⟨.refl _, rfl, by simp⟩
  | some e =>
    obtain ⟨⟨found, b'⟩, hnamed, h⟩ := bind_eq_ok.1 h
    obtain ⟨htype, hb⟩ := Prod.mk.inj (pure_eq_ok.1 h)
    obtain rfl : b' = b := hb
    obtain ⟨hchanges, hdone, hrecorded, hheard⟩ := typeNamed_done hnamed
    refine ⟨hchanges.mono (fun c hc => by rw [show c = e from hc]) fun _ ht => ht, ?_, ?_⟩
    · rw [← htype, Option.map_some, hrecorded]
    · rintro c hc
      cases hc
      exact ⟨hdone, hheard⟩

/-- A variable that is declared begins to wait. -/
theorem declareGlobal_done (hs : p₀.stmts.get? s = some ⟨.variable v typeExpr init, span⟩)
    (hp : Program.Pruned p₀ a.program) {g : Option Global}
    (h : a.declareGlobal s = .ok (g, a')) :
    g = some (p₀.globalOf s) ∧
      Changes (fun e => .name e ∈ p₀.tasks s) (· = .variable v) a a' ∧
      ((∀ x ∈ p₀.tasks s, x.Fresh p₀ a) → a'.Begun p₀ s) := by
  obtain ⟨span', hs'⟩ := Program.exists_variable_congr hp.frame hs
  simp only [declareGlobal, Table.get_eq_ok.2 hs', ok_bind] at h
  obtain ⟨⟨type, b⟩, hnamed, h⟩ := bind_eq_ok.1 h
  obtain ⟨vars, hvars, h⟩ := bind_eq_ok.1 h
  obtain ⟨hg, ha'⟩ := Prod.mk.inj (pure_eq_ok.1 h)
  obtain ⟨hchanges, htype, hdone⟩ := typeNamed?_done hnamed
  obtain ⟨hlast, r, -, hr⟩ := Changes.update_var hvars fun _ => rfl
  rw [show (⟨{ b.program with vars }, b.queue⟩ : Analysis) = a' from ha'] at hlast
  rw [show vars = a'.program.vars by rw [← ha']] at hr
  have hall : Changes (fun e => .name e ∈ p₀.tasks s) (· = .variable v) a a' :=
    (hchanges.mono (fun e he => (name_mem_tasks hs).2 he) fun _ ht => ht.elim).trans
      (hlast.mono (fun _ he => he.elim) fun _ ht => ht)
  refine ⟨by rw [← hg, globalOf_eq hs], hall, fun fresh => ⟨⟨fun e he => ?_, ?_⟩, fun e he => ?_, ?_⟩⟩
  · exact (hdone e ((name_mem_tasks hs).1 he)).1.changes hlast fun hf => hf
  · rw [globalOf_eq hs]
    refine ⟨_, hr, rfl, ?_⟩
    rw [hlast.typeFrom fun _ _ hf => hf, declaredFrom_eq hs, htype]
    cases typeExpr <;> rfl
  · exact ((hdone e ((name_mem_tasks hs).1 he)).2 (fresh _ he e rfl)).changes hlast fun hf => hf
  · intro e expected hx c hc y hy
    -- the type stands outside the initializer, so that is untouched
    have hapart : ¬ Task.name c ∈ p₀.tasks s := by
      intro hn
      exact not_under_init regular once hs hn ⟨e, ((value_mem_tasks hs).1 hx).1, hc⟩
    rw [hall.exprs c hapart] at hy
    exact fresh _ hx c hc y hy

theorem pruned_of_declareGlobal (hs : p₀.declaresVariable s = true)
    (hp : Program.Pruned p₀ a.program) {g : Option Global}
    (h : a.declareGlobal s = .ok (g, a')) :
    g = some (p₀.globalOf s) ∧ Program.Pruned p₀ a'.program := by
  obtain ⟨v, typeExpr, init, span, hs⟩ := Program.exists_of_declaresVariable hs
  obtain ⟨hg, hchanges, -⟩ := declareGlobal_done regular once hs hp h
  exact ⟨hg, hchanges.pruned hp⟩

/-- The statements of the top level are gone through for those that
declare a variable. -/
theorem declareGlobals_eq (hp : Program.Pruned p₀ a.program)
    (hheld : ∀ s ∈ ss, ∃ stmt, p₀.stmts.get? s = some stmt) :
    a.declareGlobals ss = (do
      let b ← (ss.filter p₀.declaresVariable).foldlM (fun a s => do return (← a.declareGlobal s).2) a
      return ((ss.filter p₀.declaresVariable).map p₀.globalOf, b)) := by
  induction ss generalizing a with
  | nil => rfl
  | cons s ss ih =>
    obtain ⟨⟨stmt, hs⟩, hrest⟩ := List.forall_mem_cons.1 hheld
    by_cases hvar : p₀.declaresVariable s = true
    · rw [List.filter_cons_of_pos hvar, List.foldlM_cons, bind_assoc, bind_assoc, declareGlobals]
      refine bind_congr_ok fun ⟨g, b⟩ hb => ?_
      obtain ⟨rfl, hpb⟩ := pruned_of_declareGlobal regular once hvar hp hb
      simp only [ih hpb hrest, pure_bind, bind_assoc]
      rfl
    · have hskip : a.declareGlobal s = .ok (none, a) := by
        obtain ⟨stmt', hs', hframe⟩ := exists_stmt hp hs
        obtain ⟨kind, span⟩ := stmt
        obtain ⟨kind', span'⟩ := stmt'
        simp only [declareGlobal, Table.get_eq_ok.2 hs', ok_bind]
        cases kind' with
        | «variable» v typeExpr init =>
          cases kind <;> cases hframe
          simp [Program.declaresVariable, hs] at hvar
        | _ => rfl
      rw [List.filter_cons_of_neg hvar, ← ih hp hrest, declareGlobals, hskip, ok_bind]
      exact bind_pure _

omit regular once in
theorem owned_globalOf (hs : p₀.declaresVariable s = true) :
    .variable (p₀.globalOf s).id ∈ p₀.owned s := by
  obtain ⟨v, typeExpr, init, span, hs⟩ := Program.exists_of_declaresVariable hs
  rw [globalOf_eq hs]
  exact Program.owned_of_gives hs (by simp [StmtKind.gives])

omit once in
theorem regionOf_of_region (hs : s ∈ ss) (hx : x ∈ p₀.tasks s) (h : x.Region p₀ e) :
    p₀.RegionOf ss e := by
  obtain ⟨r, hr, hu⟩ := Program.under_slot_of_region h
  have hslot := Program.slot_of_uses regular.declarations hx (Program.mem_uses_of_slot hr)
  exact ⟨s, hs, r, hslot, hu⟩

/-- **All variables of the top level begin to wait.** -/
theorem declareAll_done (hp : Program.Pruned p₀ a.program) (nodup : G.Nodup)
    (hG : ∀ s ∈ G, p₀.declaresVariable s = true)
    (fresh : ∀ s ∈ G, ∀ x ∈ p₀.tasks s, x.Fresh p₀ a)
    (run : G.foldlM (fun a s => do return (← a.declareGlobal s).2) a = .ok a') :
    Changes (p₀.RegionOf G) (p₀.OwnedBy G) a a' ∧ ∀ s ∈ G, a'.Begun p₀ s := by
  have hapart : ∀ {s s'}, s ≠ s' → ∀ x ∈ p₀.tasks s, ∀ e, x.Reads p₀ e → ¬ Task.name e ∈ p₀.tasks s' :=
    fun hne x hx e hr hn => not_region_of_reads regular once hne hx hn hr rfl
  refine (Changes.run (fun s e => Task.name e ∈ p₀.tasks s)
    (fun s t => t = .variable (p₀.globalOf s).id) (fun s b => ∀ x ∈ p₀.tasks s, x.Fresh p₀ b)
    (fun s b => b.Begun p₀ s) hp (fun s hs b b' hpb hfresh h => ?_)
    (nodup.imp_of_mem fun _ _ hne b b' _ hc hfresh x hx e he y hy => ?_)
    (nodup.imp_of_mem fun hs hs' hne b b' _ hc hbegun => ?_) fresh run).imp_left
    fun hchanges => hchanges.mono ?_ ?_
  · obtain ⟨⟨g, b''⟩, hdeclare, h⟩ := bind_eq_ok.1 h
    cases pure_eq_ok.1 h
    obtain ⟨v, typeExpr, init, span, hs⟩ := Program.exists_of_declaresVariable (hG s hs)
    obtain ⟨-, hc, hbegun⟩ := declareGlobal_done regular once hs hpb hdeclare
    refine ⟨hc.mono (fun _ he => he) fun t ht => ?_, hbegun hfresh⟩
    rw [globalOf_eq hs]
    exact ht
  · rw [hc.exprs e (hapart hne.symm x hx e (Task.reads_of_region he))] at hy
    exact hfresh x hx e he y hy
  · refine hbegun.changes (hG _ hs) hc (fun x hx e hr => hapart hne x hx e hr) fun ht => ?_
    exact globalOf_ne regular (hG _ hs) (hG _ hs') hne (by simpa using ht)
  · rintro e ⟨s, hs, he⟩
    exact regionOf_of_region regular hs he rfl
  · rintro t ⟨s, hs, rfl⟩
    exact ⟨s, hs, owned_globalOf (hG s hs)⟩

/-! ## Rounds -/

omit regular once in
theorem Global.reads_of_readOrder {p : Program} {g : Global} (held : p.OperandsHeld)
    (h : g.readOrder p = .ok found) : g.Reads p found := by
  obtain ⟨id, declared, init⟩ := g
  cases init with
  | none => exact (pure_eq_ok.1 h).symm
  | some e => exact Program.readOrder_read held h

/-- What settling some of the waiting variables comes to, with those that
go on waiting. -/
structure RoundDone (source : String) (p₀ : Program) (G W L : List StmtId) (a a' : Analysis) :
    Prop where
  sub : L.Sublist W
  changes : Changes (p₀.RegionOf G) (p₀.OwnedBy G) a a'
  begun : ∀ s ∈ L, a'.Begun p₀ s
  settled : ∀ s ∈ W, s ∉ L → a'.SettledHeard source p₀ s
  others : ∀ s ∈ G, s ∉ W → (a.Begun p₀ s → a'.Begun p₀ s) ∧
    (a.SettledHeard source p₀ s → a'.SettledHeard source p₀ s)

omit regular once in
theorem RoundDone.refl (begun : ∀ s ∈ W, a.Begun p₀ s) : RoundDone source p₀ G W W a a :=
  ⟨.refl W, .refl a, begun, fun _ hs hnot => absurd hs hnot, fun _ _ _ => ⟨fun h => h, fun h => h⟩⟩

omit regular once in
theorem RoundDone.trans (hW : ∀ s ∈ W, s ∈ G) (h : RoundDone source p₀ G W L a b)
    (h' : RoundDone source p₀ G L L' b a') : RoundDone source p₀ G W L' a a' where
  sub := h'.sub.trans h.sub
  changes := h.changes.trans h'.changes
  begun := h'.begun
  settled s hs hnot := by
    by_cases hL : s ∈ L
    · exact h'.settled s hL hnot
    · exact (h'.others s (hW s hs) hL).2 (h.settled s hs hL)
  others s hs hnot := by
    have hL : s ∉ L := fun hL => hnot (h.sub.subset hL)
    exact ⟨fun hb => (h'.others s hs hL).1 ((h.others s hs hnot).1 hb),
      fun hb => (h'.others s hs hL).2 ((h.others s hs hnot).2 hb)⟩

omit once in
/-- What is settled does not depend on what is not. -/
theorem not_concerns_of_waiting (hs : p₀.declaresVariable s = true)
    (hs' : p₀.declaresVariable s' = true) (hne : s ≠ s') (settled : a.Settled source p₀ s)
    (waiting : a.Waiting p₀ s') (hx : x ∈ p₀.tasks s) :
    ¬ x.Concerns a.program (.variable (p₀.globalOf s').id) := by
  intro hc
  obtain ⟨v, typeExpr, init, span, hstmt⟩ := Program.exists_of_declaresVariable hs
  rw [mem_global_tasks hstmt] at hx
  rcases hx with ⟨e, -, rfl⟩ | ⟨e, he, rfl⟩ | rfl
  · exact hc
  · -- the value reads only what has an order
    obtain ⟨-, n, -, -, hread⟩ := settled.order
    obtain ⟨r, hr, hzero, -⟩ := waiting.var
    simp only [globalOf_eq hstmt, Global.Reads, he] at hread
    obtain ⟨r', hr', hpos, -⟩ := hread.1 _ hc
    rw [hr] at hr'
    rw [← Option.some.inj hr'] at hpos
    omega
  · have hid := globalOf_ne regular hs hs' hne
    rw [globalOf_eq hstmt] at hid
    exact hid (Target.variable.inj hc).symm

/-- **To settle one variable leaves the others alone.** Those that are
settled do not read it, since it has no order yet. -/
theorem settle_keeps (hp : Program.Pruned p₀ a.program) (hs : p₀.declaresVariable s = true)
    (begun : a.Begun p₀ s) {n : Nat} (reads : (p₀.globalOf s).Reads a.program (some n))
    (h : settle source a (p₀.globalOf s) (n + 1) = .ok a') :
    Changes (p₀.RegionOf [s]) (p₀.OwnedBy [s]) a a' ∧ a'.SettledHeard source p₀ s ∧
      ∀ s', p₀.declaresVariable s' = true → s' ≠ s → (a.Begun p₀ s' → a'.Begun p₀ s') ∧
        (a.SettledHeard source p₀ s' → a'.SettledHeard source p₀ s') := by
  obtain ⟨v, typeExpr, init, span, hs₀⟩ := Program.exists_of_declaresVariable hs
  obtain ⟨hchanges, hsettled, hheard⟩ :=
    settle_done regular once hs₀ hp begun.waiting reads h
  have hvalue : ∀ c, init = some c → .value c (typeExpr.map .recorded) ∈ p₀.tasks s :=
    fun c hc => (value_mem_tasks hs₀).2 ⟨hc, rfl⟩
  have hreads : ∀ s', s' ≠ s → ∀ x ∈ p₀.tasks s', ∀ e, x.Reads p₀ e →
      ¬ ∃ c, init = some c ∧ p₀.Under c e := by
    rintro s' hne x hx e hr ⟨c, hc, hu⟩
    exact not_region_of_reads regular once hne hx (hvalue c hc) hr hu
  refine ⟨hchanges.mono ?_ ?_, ⟨hsettled, hheard begun.heard begun.fresh⟩, fun s' hs' hne => ⟨?_, ?_⟩⟩
  · rintro e ⟨c, hc, hu⟩
    exact regionOf_of_region regular List.mem_cons_self (hvalue c hc) hu
  · rintro t rfl
    have := owned_globalOf hs
    rw [globalOf_eq hs₀] at this
    exact ⟨s, List.mem_cons_self, this⟩
  · intro hb
    refine hb.changes hs' hchanges (hreads s' hne) fun ht => ?_
    rw [show v = (p₀.globalOf s).id by rw [globalOf_eq hs₀]] at ht
    exact globalOf_ne regular hs' hs hne (by simpa using ht)
  · rintro ⟨hsettled', hheard'⟩
    refine ⟨hsettled'.changes hs' hp hchanges (hreads s' hne) fun x hx t hc ht => ?_, fun x hx =>
      (hheard' x hx).changes hchanges hp.held fun c hr => hreads s' hne x hx c (hr.pruned hp)⟩
    rw [ht, show v = (p₀.globalOf s).id by rw [globalOf_eq hs₀]] at hc
    exact not_concerns_of_waiting regular hs' hs hne hsettled' begun.waiting hx hc

/-- **A round settles every variable that waits for nothing more when its
turn comes.** One that settles none has found something missing for each. -/
theorem settleRound_done (hp : Program.Pruned p₀ a.program) (nodup : W.Nodup)
    (hG : ∀ s ∈ G, p₀.declaresVariable s = true) (hW : ∀ s ∈ W, s ∈ G)
    (begun : ∀ s ∈ W, a.Begun p₀ s) {left : List Global}
    (run : settleRound source a (W.map p₀.globalOf) = .ok (left, a')) :
    ∃ L, left = L.map p₀.globalOf ∧ RoundDone source p₀ G W L a a' ∧
      (L.length = W.length → a' = a ∧ ∀ s ∈ W, (p₀.globalOf s).Reads a.program none) := by
  induction W generalizing a left with
  | nil =>
    cases pure_eq_ok.1 run
    exact ⟨[], rfl, .refl begun, fun _ => ⟨rfl, by simp⟩⟩
  | cons s W ih =>
    obtain ⟨hnew, hnodup⟩ := List.nodup_cons.1 nodup
    obtain ⟨hsG, hWG⟩ := List.forall_mem_cons.1 hW
    obtain ⟨hbegun, hbegunRest⟩ := List.forall_mem_cons.1 begun
    obtain ⟨found, hfound, run⟩ := bind_eq_ok.1 run
    have reads := Global.reads_of_readOrder hp.held hfound
    cases found with
    | some n =>
      obtain ⟨b, hsettle, run⟩ := bind_eq_ok.1 run
      obtain ⟨hchanges, hsettled, hothers⟩ :=
        settle_keeps regular once hp (hG s hsG) hbegun reads hsettle
      obtain ⟨L, hleft, done, -⟩ := ih (hchanges.pruned hp) hnodup hWG
        (fun s' hs' => (hothers s' (hG s' (hWG s' hs')) fun h => hnew (h ▸ hs')).1 (hbegunRest s' hs'))
        run
      have hlen := done.sub.length_le
      refine ⟨L, hleft, ⟨done.sub.cons s, ?_, done.begun, fun s' hs' hnot => ?_,
        fun s' hs' hnot => ?_⟩, fun h => ?_⟩
      · refine (hchanges.mono ?_ ?_).trans done.changes
        · rintro e ⟨s', hs', h⟩
          exact ⟨s, hsG, List.mem_singleton.1 hs' ▸ h⟩
        · rintro t ⟨s', hs', h⟩
          exact ⟨s, hsG, List.mem_singleton.1 hs' ▸ h⟩
      · rcases List.mem_cons.1 hs' with rfl | hs'
        · exact (done.others s' hsG hnew).2 hsettled
        · exact done.settled s' hs' hnot
      · obtain ⟨hne, hnotW⟩ := not_or.1 fun h => hnot (List.mem_cons.2 h)
        obtain ⟨hb, hset⟩ := hothers s' (hG s' hs') hne
        obtain ⟨hb', hset'⟩ := done.others s' hs' hnotW
        exact ⟨fun h => hb' (hb h), fun h => hset' (hset h)⟩
      · rw [List.length_cons] at h
        omega
    | none =>
      obtain ⟨⟨left', b⟩, hrest, run⟩ := bind_eq_ok.1 run
      obtain ⟨hl, rfl⟩ := Prod.mk.inj (pure_eq_ok.1 run)
      obtain ⟨L, hleft, done, hsame⟩ := ih hp hnodup hWG hbegunRest hrest
      refine ⟨s :: L, by rw [← hl, hleft, List.map_cons], ⟨done.sub.cons_cons s, done.changes,
        List.forall_mem_cons.2 ⟨(done.others s hsG hnew).1 hbegun, done.begun⟩, fun s' hs' hnot => ?_,
        fun s' hs' hnot => ?_⟩, fun h => ?_⟩
      · obtain ⟨hne, hnotL⟩ := not_or.1 fun h => hnot (List.mem_cons.2 h)
        exact done.settled s' ((List.mem_cons.1 hs').resolve_left hne) hnotL
      · exact done.others s' hs' fun h => hnot (List.mem_cons_of_mem _ h)
      · obtain ⟨hb, hreads⟩ := hsame (Nat.succ.inj h)
        exact ⟨hb, List.forall_mem_cons.2 ⟨reads, hreads⟩⟩

/-- **After the rounds every variable is settled, or it reads one that is
not.** -/
theorem settleRounds_done {rounds : Nat} (hp : Program.Pruned p₀ a.program) (nodup : W.Nodup)
    (hrounds : W.length ≤ rounds) (hG : ∀ s ∈ G, p₀.declaresVariable s = true)
    (hW : ∀ s ∈ W, s ∈ G) (begun : ∀ s ∈ W, a.Begun p₀ s) {left : List Global}
    (run : settleRounds source rounds a (W.map p₀.globalOf) = .ok (left, a')) :
    ∃ L, left = L.map p₀.globalOf ∧ RoundDone source p₀ G W L a a' ∧
      ∀ s ∈ L, (p₀.globalOf s).Reads a'.program none := by
  induction rounds generalizing a W left with
  | zero =>
    obtain rfl : W = [] := List.length_eq_zero_iff.1 (Nat.le_zero.1 hrounds)
    cases pure_eq_ok.1 run
    exact ⟨[], rfl, .refl begun, by simp⟩
  | succ rounds ih =>
    obtain ⟨⟨left', b⟩, hround, run⟩ := bind_eq_ok.1 run
    obtain ⟨L, rfl, done, hsame⟩ := settleRound_done regular once hp nodup hG hW begun hround
    have hlen := done.sub.length_le
    simp only [List.length_map] at run
    split at run
    · next hlt =>
      obtain ⟨L', hleft, done', hreads⟩ := ih (done.changes.pruned hp) (done.sub.nodup nodup)
        (by omega) (fun s hs => hW s (done.sub.subset hs)) done.begun run
      exact ⟨L', hleft, done.trans hW done', hreads⟩
    · next hlt =>
      cases pure_eq_ok.1 run
      obtain ⟨rfl, hreads⟩ := hsame (by omega)
      exact ⟨L, rfl, done, fun s hs => hreads s (done.sub.subset hs)⟩

end FrontEnd
