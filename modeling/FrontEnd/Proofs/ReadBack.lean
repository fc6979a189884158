import FrontEnd.Proofs.Script
/-!
# FrontEnd — flattening and reading back

A builder lays statements out flat, and writes how long a body is only
when it closes it. What is read back off the finished program is the
tree that was given (`readBack_emit`). `Emitted` says so of a run of
statements at any moment of the building: it holds of the statements
that a script makes once they are made, and no later step undoes it.
-/

namespace FrontEnd

open Program

variable {p p' : Program} {source : String} {b b' b₁ b₂ : Builder} {i j k : Nat}
variable {script : Script} {tree : StmtTree (Step × Option Made)}

/-- The statements from `i` up to, and without, `j` are the tree laid out
flat, each made by its step. -/
inductive Emitted (p : Program) (source : String) :
    Nat → Nat → StmtTree (Step × Option Made) → Prop
  | done (i : Nat) : Emitted p source i i .done
  | leaf {i j : Nat} {kind : StmtKind} {span : Span} {step : Step} {m : Made}
      {rest : StmtTree (Step × Option Made)} (hs : p.stmts.get? ⟨i⟩ = some ⟨kind, span⟩)
      (single : p.bodyPlace ⟨i⟩ = .ok none) (recalls : Recalls p source ⟨i⟩ kind step m)
      (tail : Emitted p source (i + 1) j rest) : Emitted p source i j (.leaf (step, some m) rest)
  | nested {i k j : Nat} {kind : StmtKind} {span : Span} {step : Step} {m : Made}
      {body rest : StmtTree (Step × Option Made)} (hs : p.stmts.get? ⟨i⟩ = some ⟨kind, span⟩)
      (place : p.bodyPlace ⟨i⟩ = .ok (some ⟨i + 1, k - (i + 1)⟩))
      (recalls : Recalls p source ⟨i⟩ kind step m) (inner : Emitted p source (i + 1) k body)
      (tail : Emitted p source k j rest) : Emitted p source i j (.nested (step, some m) body rest)

/-- A statement and the place of its body are what they were. -/
def SameAt (p p' : Program) (k : Nat) : Prop :=
  p'.stmts.get? ⟨k⟩ = p.stmts.get? ⟨k⟩ ∧ p'.bodyPlace ⟨k⟩ = p.bodyPlace ⟨k⟩

theorem SameAt.trans {p'' : Program} (h : SameAt p p' k) (h' : SameAt p' p'' k) : SameAt p p'' k :=
  ⟨h'.1.trans h.1, h'.2.trans h.2⟩

/-- What a statement without a body says of the place of one. -/
theorem bodyOf_of_place_none {s : StmtId} (h : p.bodyPlace s = .ok none) :
    p.bodyOf s = .ok none := by
  rw [bodyPlace] at h
  cases hb : p.bodyOf s with
  | error fault => rw [hb] at h; cases h
  | ok body =>
    cases body with
    | none => rfl
    | some body => rw [hb] at h; cases h

theorem bodyOf_of_place_some {s : StmtId} {range : IdRange .stmt}
    (h : p.bodyPlace s = .ok (some range)) :
    ∃ block, p.bodyOf s = .ok (some block) ∧ block.statements = range := by
  rw [bodyPlace] at h
  cases hb : p.bodyOf s with
  | error fault => rw [hb] at h; cases h
  | ok body =>
    cases body with
    | none => rw [hb] at h; cases h
    | some body =>
      rw [hb] at h
      exact ⟨body, rfl, Option.some.inj (Except.ok.inj h)⟩

namespace Emitted

theorem le (h : Emitted p source i j tree) : i ≤ j := by
  induction h with
  | done i => exact Nat.le_refl i
  | leaf _ _ _ _ ih => omega
  | nested _ _ _ _ _ ihInner ihTail => omega

/-- A tree has as many statements as its run. -/
theorem size_eq (h : Emitted p source i j tree) : j = i + tree.size := by
  induction h with
  | done i => rfl
  | leaf _ _ _ _ ih => rw [StmtTree.size]; omega
  | nested _ _ _ _ _ ihInner ihTail => rw [StmtTree.size]; omega

/-- **A run of statements is read back as the tree that it lays out.** -/
theorem read (h : Emitted p source i j tree) :
    ∃ o, Lays p i j o ∧ o.read (p.readCall source) = .ok tree := by
  induction h with
  | done i => exact ⟨.done, .done i, rfl⟩
  | leaf hs single recalls tail ih =>
    obtain ⟨o, lays, hread⟩ := ih
    refine ⟨_, .leaf (bodyOf_of_place_none single) lays, ?_⟩
    simp only [Outline.read, recalls.readCall hs, hread, ok_bind]
    rfl
  | nested hs place recalls inner tail ihInner ihTail =>
    obtain ⟨o, lays, hread⟩ := ihInner
    obtain ⟨o', lays', hread'⟩ := ihTail
    obtain ⟨block, hbody, hplace⟩ := bodyOf_of_place_some place
    refine ⟨_, .nested hbody hplace lays lays', ?_⟩
    simp only [Outline.read, recalls.readCall hs, hread, hread', ok_bind]
    rfl

/-- What has been laid out stays so while its statements stay. -/
theorem later (h : Emitted b.program b.source i j tree) (later : Later b b')
    (same : ∀ k, i ≤ k → k < j → SameAt b.program b'.program k) :
    Emitted b'.program b'.source i j tree := by
  induction h with
  | done i => exact .done i
  | @leaf i j kind span step m rest hs single recalls tail ih =>
    have hle := tail.le
    obtain ⟨hstmt, hplace⟩ := same i (Nat.le_refl i) (by omega)
    exact .leaf (hstmt.trans hs) (hplace.trans single) (recalls.later later)
      (ih fun k hik hkj => same k (by omega) hkj)
  | @nested i k j kind span step m body rest hs place recalls inner tail ihInner ihTail =>
    have hle := inner.le
    have hle' := tail.le
    obtain ⟨hstmt, hplace⟩ := same i (Nat.le_refl i) (by omega)
    exact .nested (hstmt.trans hs) (hplace.trans place) (recalls.later later)
      (ihInner fun l hil hlk => same l (by omega) (by omega))
      (ihTail fun l hkl hlj => same l (by omega) hlj)

end Emitted

/-! ## Steps -/

/-- Statements are what they were where records are only appended. -/
theorem Growing.sameAt {opened : List OpenBody} (g : Growing p opened) (ext : p.Extends p')
    (hk : k < p.stmts.size) : SameAt p p' k := by
  obtain ⟨stmt, hstmt, hd⟩ := g.toRecorded.stmts_held (s := ⟨k⟩) hk
  exact ⟨(ext.stmts _ _ hstmt).trans hstmt.symm, ext.bodyPlace hstmt hd⟩

/-- What closing a body leaves. -/
structure Closed (b b' : Builder) (k : Nat) (body : OpenBody) : Prop where
  opened : b.opened = body :: b'.opened
  later : Later b b'
  size_eq : b'.program.stmts.size = b.program.stmts.size
  same : ∀ l, l ≠ k → SameAt b.program b'.program l
  place : b'.program.bodyPlace ⟨k⟩ = .ok (some ⟨k + 1, b.program.stmts.size - (k + 1)⟩)
  exists_block : ∃ block span, b'.program.stmts.get? ⟨k⟩ = some ⟨body.closed block, span⟩

/-- The owner of the innermost body is what it is until the body is closed. -/
theorem Growing.owner {body : OpenBody} {opened : List OpenBody} (g : Growing p (body :: opened))
    (owned : body.OwnedAt k) : ∃ span, p.stmts.get? ⟨k⟩ = some ⟨body.pending, span⟩ := by
  have hlayout := g.layout
  cases hlayout with
  | @inside l _ _ span _ _ _ owner place _ =>
    have hkl : k = l := by
      cases body with
      | function f start => exact Nat.succ.inj (owned.symm.trans place)
      | nest s head start => exact Nat.succ.inj (owned.2.symm.trans place.2)
    exact ⟨span, hkl ▸ owner⟩

theorem bodyPlace_eq {s : StmtId} {block : Block} (h : p.bodyOf s = .ok (some block)) :
    p.bodyPlace s = .ok (some block.statements) := by
  rw [bodyPlace, h]
  rfl

/-- A function keeps its body in its own record, so its declaration stays. -/
theorem closeFunction_closed {opened : List OpenBody} {f : FunctionId} {span : Span} {q : Program}
    (g : Growing p (.function f (k + 1) :: opened)) (owner : p.stmts.get? ⟨k⟩ = some ⟨.function f, span⟩)
    (hq : q = { p with
      functions := p.functions.modify f ({ · with body := p.blockSince (k + 1) }) }) :
    Closed ⟨p, source, .function f (k + 1) :: opened⟩ ⟨q, source, opened⟩ k
      (.function f (k + 1)) where
  opened := rfl
  later := by
    have functions := Recorded.functions_get_close hq
    subst hq
    refine { Later.refl ⟨p, source, opened⟩ with functions := fun f' r hr => ?_ }
    have hget := functions f'
    rw [Table.get_eq_ok.2 hr, Except.map, Table.get_eq_ok] at hget
    by_cases hf : f' = f
    · rw [if_pos hf] at hget
      exact ⟨_, hget⟩
    · rw [if_neg hf] at hget
      exact ⟨r.body, hget⟩
  size_eq := by rw [hq]
  same l hl := ⟨by rw [hq], Growing.bodyPlace_closeFunction g.toRecorded owner hq hl⟩
  place := bodyPlace_eq (Growing.bodyOf_closeFunction g.toRecorded owner hq)
  exists_block := ⟨.empty, span, by rw [hq]; exact owner⟩

/-- Any other body is kept in the statement, which was invalid up to now. -/
theorem closeNest_closed {opened : List OpenBody} {head : Head VariableId} {span : Span}
    {q : Program} (owner : p.stmts.get? ⟨k⟩ = some ⟨.invalid, span⟩)
    (hq : q = { p with
      stmts := p.stmts.modify ⟨k⟩ ({ · with kind := .nest head (p.blockSince (k + 1)) }) }) :
    Closed ⟨p, source, .nest ⟨k⟩ head (k + 1) :: opened⟩ ⟨q, source, opened⟩ k
      (.nest ⟨k⟩ head (k + 1)) where
  opened := rfl
  later := by
    subst hq
    exact { Later.refl ⟨p, source, opened⟩ with }
  size_eq := by rw [hq, Table.size_modify]
  same l hl := ⟨Growing.get?_closeNest owner hq hl, Growing.bodyPlace_closeNest owner hq hl⟩
  place := bodyPlace_eq (Growing.bodyOf_closeNest owner hq)
  exists_block :=
    ⟨p.blockSince (k + 1), span, (Recorded.stmts_get?_close hq owner ⟨k⟩).trans (if_pos rfl)⟩

/-- **Closing a body tells its owner how long it is**, and changes no
other statement. -/
theorem close_closed {body : OpenBody} {opened : List OpenBody} {made : Option Made}
    (g : Growing b.program b.opened) (hopened : b.opened = body :: opened)
    (owned : body.OwnedAt k) (h : b.take .close = .ok (made, b')) :
    made = some body.made ∧ Closed b b' k body := by
  obtain ⟨p, source, _⟩ := b
  subst hopened
  obtain ⟨span, owner⟩ := g.owner owned
  obtain ⟨rfl, rfl⟩ := Prod.mk.inj (pure_eq_ok.1 h)
  cases body with
  | function f start =>
    obtain rfl : start = k + 1 := owned
    exact ⟨rfl, closeFunction_closed g owner rfl⟩
  | nest s head start =>
    obtain ⟨rfl, rfl⟩ := owned
    exact ⟨rfl, closeNest_closed owner rfl⟩

/-! ## Whole scripts -/

/-- What a script leaves: the open bodies, and its statements behind those
that were there. -/
structure Emits (b b' : Builder) (tree : StmtTree (Step × Option Made)) : Prop where
  growing : Growing b'.program b'.opened
  opened : b'.opened = b.opened
  later : Later b b'
  same : ∀ k, k < b.program.stmts.size → SameAt b.program b'.program k
  emitted : Emitted b'.program b'.source b.program.stmts.size b'.program.stmts.size tree

/-- **The statements of a script are laid out flat**, behind what was
there and in whatever body is open. -/
theorem emit_emits (g : Growing b.program b.opened) (h : b.emit script = .ok (b', tree)) :
    Emits b b' tree := by
  induction script generalizing b b' tree with
  | done =>
    cases h
    exact ⟨g, rfl, .refl b, fun _ _ => ⟨rfl, rfl⟩, .done _⟩
  | plain step role rest ih =>
    simp only [Builder.emit, bind_eq_ok] at h
    obtain ⟨⟨made, b₁⟩, h₁, h⟩ := h
    obtain ⟨adds, hstmts, hopened⟩ := take_plain role h₁
    have e := ih (g.take h₁) h
    have hsame : ∀ k, k < b.program.stmts.size → SameAt b.program b'.program k := fun k hk =>
      (g.sameAt adds.records hk).trans (e.same k (hstmts ▸ hk))
    exact ⟨e.growing, e.opened.trans hopened, adds.later.trans e.later, hsame, hstmts ▸ e.emitted⟩
  | leaf step role rest ih =>
    simp only [Builder.emit, bind_eq_ok, pure_eq_ok, Prod.mk.injEq] at h
    obtain ⟨⟨made, b₁⟩, h₁, ⟨b₂, rest⟩, h₂, rfl, rfl⟩ := h
    obtain ⟨adds, hopened, kind, span, m, rfl, hstmts, hbody, recalls⟩ := take_leaf role h₁
    have e := ih (g.take h₁) h₂
    have hsize : b₁.program.stmts.size = b.program.stmts.size + 1 := by simp [hstmts]
    have hsame : ∀ k, k < b.program.stmts.size → SameAt b.program b₂.program k := fun k hk =>
      (g.sameAt adds.records hk).trans (e.same k (by omega))
    -- what comes after leaves the new statement where it is
    obtain ⟨hstmt, hplace⟩ := e.same b.program.stmts.size (by omega)
    refine ⟨e.growing, e.opened.trans hopened, adds.later.trans e.later, hsame, ?_⟩
    have held : b₂.program.stmts.get? ⟨b.program.stmts.size⟩ = some ⟨kind, span⟩ := by
      rw [hstmt, hstmts]
      exact Table.get?_push.trans (if_pos rfl)
    refine .leaf held ?_ (recalls.later e.later) (hsize ▸ e.emitted)
    rw [hplace, bodyPlace]
    exact congrArg (Except.map _) hbody
  | nested step role body rest ihBody ihRest =>
    simp only [Builder.emit, bind_eq_ok, pure_eq_ok, Prod.mk.injEq] at h
    obtain ⟨⟨_, b₁⟩, h₁, ⟨b₂, inner⟩, h₂, ⟨made, b₃⟩, h₃, ⟨b₄, outer⟩, h₄, rfl, rfl⟩ := h
    obtain ⟨opens, adds, hopened, owned, ⟨span₁, hstmts⟩, recalls⟩ := take_opening role h₁
    have e₁ := ihBody (g.take h₁) h₂
    obtain ⟨rfl, c⟩ := close_closed e₁.growing (e₁.opened.trans hopened) owned h₃
    have e₂ := ihRest (e₁.growing.take h₃) h₄
    have hsize : b₁.program.stmts.size = b.program.stmts.size + 1 := by simp [hstmts]
    have hle := e₁.emitted.le
    have hclosed : b₃.opened = b.opened :=
      (List.cons.inj (c.opened.symm.trans (e₁.opened.trans hopened))).2
    have hlater : Later b b₃ := (adds.later.trans e₁.later).trans c.later
    have hsame : ∀ k, k < b.program.stmts.size → SameAt b.program b₄.program k := fun k hk =>
      (((g.sameAt adds.records hk).trans (e₁.same k (by omega))).trans (c.same k (by omega))).trans
        (e₂.same k (by have := c.size_eq; omega))
    refine ⟨e₂.growing, e₂.opened.trans hclosed, hlater.trans e₂.later, hsame, ?_⟩
    obtain ⟨block, span, hget⟩ := c.exists_block
    obtain ⟨hstmt, hplace⟩ := e₂.same b.program.stmts.size (by have := c.size_eq; omega)
    -- The body was laid out while it was open: closing it and what comes after leave it there.
    have hinner : Emitted b₃.program b₃.source b₁.program.stmts.size b₂.program.stmts.size inner :=
      e₁.emitted.later c.later fun l hl _ => c.same l (by omega)
    have hinner' : Emitted b₄.program b₄.source b₁.program.stmts.size b₂.program.stmts.size inner :=
      hinner.later e₂.later fun l _ hl => e₂.same l (by have := c.size_eq; omega)
    exact .nested (hstmt.trans hget) (hplace.trans c.place)
      ((recalls block).later ((e₁.later.trans c.later).trans e₂.later)) (hsize ▸ hinner')
      (c.size_eq ▸ e₂.emitted)

/-- A script takes the steps that it is made of. -/
theorem emit_takeAll (h : b.emit script = .ok (b', tree)) : b.takeAll script.steps = .ok b' := by
  have htake : ∀ {b b₁ : Builder} {step : Step} {made : Option Made},
      b.take step = .ok (made, b₁) → (do return (← b.take step).2 : Except Fault Builder) = .ok b₁ :=
    fun h => by rw [h]; rfl
  induction script generalizing b b' tree with
  | done =>
    cases h
    rfl
  | plain step role rest ih =>
    simp only [Builder.emit, bind_eq_ok] at h
    obtain ⟨⟨made, b₁⟩, h₁, h⟩ := h
    exact foldlM_cons_eq_ok.2 ⟨b₁, htake h₁, ih h⟩
  | leaf step role rest ih =>
    simp only [Builder.emit, bind_eq_ok, pure_eq_ok, Prod.mk.injEq] at h
    obtain ⟨⟨made, b₁⟩, h₁, ⟨b₂, rest⟩, h₂, rfl, rfl⟩ := h
    exact foldlM_cons_eq_ok.2 ⟨b₁, htake h₁, ih h₂⟩
  | nested step role body rest ihBody ihRest =>
    simp only [Builder.emit, bind_eq_ok, pure_eq_ok, Prod.mk.injEq] at h
    obtain ⟨⟨_, b₁⟩, h₁, ⟨b₂, inner⟩, h₂, ⟨made, b₃⟩, h₃, ⟨b₄, outer⟩, h₄, rfl, rfl⟩ := h
    refine foldlM_cons_eq_ok.2 ⟨b₁, htake h₁, foldlM_append_eq_ok.2 ⟨b₂, ihBody h₂, ?_⟩⟩
    exact foldlM_cons_eq_ok.2 ⟨b₃, htake h₃, ihRest h₄⟩

/-- What is handed back stands at the statements of the script. -/
theorem emit_calls (h : b.emit script = .ok (b', tree)) : tree.map (·.1) = script.calls := by
  induction script generalizing b b' tree with
  | done =>
    cases h
    rfl
  | plain step role rest ih =>
    simp only [Builder.emit, bind_eq_ok] at h
    obtain ⟨⟨made, b₁⟩, -, h⟩ := h
    exact ih h
  | leaf step role rest ih =>
    simp only [Builder.emit, bind_eq_ok, pure_eq_ok, Prod.mk.injEq] at h
    obtain ⟨⟨made, b₁⟩, -, ⟨b₂, rest⟩, h₂, rfl, rfl⟩ := h
    rw [StmtTree.map, ih h₂, Script.calls]
  | nested step role body rest ihBody ihRest =>
    simp only [Builder.emit, bind_eq_ok, pure_eq_ok, Prod.mk.injEq] at h
    obtain ⟨⟨_, b₁⟩, -, ⟨b₂, inner⟩, h₂, ⟨made, b₃⟩, -, ⟨b₄, outer⟩, h₄, rfl, rfl⟩ := h
    rw [StmtTree.map, ihBody h₂, ihRest h₄, Script.calls]

/-- **Flattening and reading back are inverse.** The program that a script
builds reads back as the tree of its statements: the same steps with the
names and operands they were given and what the builder handed back for
them, in the same order and nesting. The top level is as long as there
are statements. -/
theorem readBack_emit (h : Builder.empty.emit script = .ok (b, tree)) :
    Program.build script.steps = .ok (b.finish, b.source) ∧
      b.finish.readBack b.source = .ok tree ∧ tree.map (·.1) = script.calls ∧
      b.finish.block.len = script.calls.size := by
  have e := emit_emits Growing.empty h
  have hopened : b.opened = [] := e.opened
  have hcalls := emit_calls h
  have hsize : b.program.stmts.size = tree.size := by
    have := e.emitted.size_eq
    rwa [show Builder.empty.program.stmts.size = 0 from rfl, Nat.zero_add] at this
  have hmap : ∀ t : StmtTree (Step × Option Made), (t.map (·.1)).size = t.size := by
    intro t
    induction t with
    | done => rfl
    | leaf a rest ih => rw [StmtTree.map, StmtTree.size, ih, StmtTree.size]
    | nested a body rest ih ih' => rw [StmtTree.map, StmtTree.size, ih, ih', StmtTree.size]
  refine ⟨?_, ?_, hcalls, ?_⟩
  · have hclose : b.closeAll.2 = b := by simp [Builder.closeAll, hopened]
    simp only [Program.build, emit_takeAll h, ok_bind, hclose]
    rfl
  · let finished : Builder := { b with program := b.finish }
    have hlater : Later b finished := { Later.refl b with }
    have hfinish : Emitted finished.program finished.source 0 b.program.stmts.size tree :=
      e.emitted.later hlater fun _ _ _ => ⟨rfl, rfl⟩
    obtain ⟨o, lays, hread⟩ := hfinish.read
    have houtline : b.finish.outline b.finish.block = o :=
      outline_of_lays lays (by simp [Builder.finish, blockSince])
    rw [readBack, houtline]
    exact hread
  · rw [← hcalls, hmap, ← hsize]
    exact Nat.sub_zero _

/-- Statements of every kind, nested two deep, with an empty body and a
function that is declared inside of a loop. -/
def nestedScript : Script :=
  .plain (.boolean true) rfl <| .plain (.identifier "xs") rfl <|
  .leaf (.enumType "Color" ["Red", "Green"]) rfl <|
  .nested (.openFunction "main" [("n", some ⟨1⟩)] none) rfl
    (.nested (.openBody (.ifThen ⟨0⟩)) rfl .done <|
      .nested (.openBody (.forEach "x" ⟨1⟩)) rfl
        (.nested (.openFunction "inner" [] none) rfl (.leaf .breakLoop rfl .done) .done) <|
      .leaf (.returnValue none) rfl .done) <|
  .leaf (.variable "last" none (some ⟨0⟩)) rfl .done

theorem readBack_emit_nested :
    Succeeds (Builder.empty.emit nestedScript) fun r =>
      r.1.finish.readBack r.1.source = .ok r.2 ∧ r.1.finish.block.len = 8 ∧
        r.2.map (·.1) = nestedScript.calls := by
  have hrun : ∃ r, Builder.empty.emit nestedScript = .ok r := by
    cases h : Builder.empty.emit nestedScript with
    | ok r => exact ⟨r, rfl⟩
    | error fault =>
      have : (Builder.empty.emit nestedScript).isOk = true := by decide +kernel
      rw [h] at this
      cases this
  obtain ⟨⟨b, tree⟩, hrun⟩ := hrun
  obtain ⟨-, hread, hcalls, hlen⟩ := readBack_emit hrun
  exact ⟨(b, tree), hrun, hread, hlen, hcalls⟩

end FrontEnd
