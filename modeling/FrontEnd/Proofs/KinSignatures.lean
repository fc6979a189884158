import FrontEnd.Proofs.KinExpr
/-!
# FrontEnd — declarations in two programs

What is named as a type is the same in programs that are kin, as long as
it stands where types stand (`Setting.Seated`). So the type pass says the
same about the signatures of functions in both (`Kin.typeSignatures`).
-/

namespace FrontEnd

open Analysis Program

/-- What stands in the place of a type is told from what is a value by the
statement it stands in. -/
structure Setting.Seated (t : Setting) : Prop where
  values : ∀ s r, t.start.stmts.get? s = some r → ∀ e ∈ r.kind.values, ¬ t.types e
  declared : ∀ s r v e init, t.start.stmts.get? s = some r → r.kind = .variable v (some e) init →
    t.exact ∨ t.types e
  results : ∀ s r f g e, t.start.stmts.get? s = some r → r.kind = .function f →
    t.start.functions.get? f = some g → g.returnTypeExpr = some e → t.exact ∨ t.types e
  parameters : ∀ s r f g i q e, t.start.stmts.get? s = some r → r.kind = .function f →
    t.start.functions.get? f = some g → i ∈ g.parameters.ids →
    t.start.parameters.get? i = some q → q.typeExpr = some e → t.exact ∨ t.types e

variable {t : Setting} {c c' d d' p : Program} {e : ExprId} {s : StmtId} {source : String}

theorem StmtKind.values_of_frame {kind kind' : StmtKind} (h : kind'.frame = kind.frame) :
    kind'.values = kind.values := by
  by_cases hn : ∃ head body, kind = .nest head body
  · obtain ⟨head, body, rfl⟩ := hn
    obtain ⟨body', rfl⟩ := nest_of_frame h
    rfl
  · rw [eq_of_frame h fun head body hk => hn ⟨head, body, hk⟩]

namespace Kin

/-! ## Declarations -/

section

variable (k : Kin t c d)
include k

/-- Programs whose expressions have not been changed. -/
theorem restate {settled : VariableId → Prop} (hsame : t.exact → c' = d')
    (hexprs : c'.exprs = c.exprs) (hexprs' : d'.exprs = d.exprs)
    (hframe : c'.frame = c.frame) (hframe' : d'.frame = d.frame)
    (horders : ∀ v r r', settled v → c'.vars.get? v = some r → d'.vars.get? v = some r' →
      r'.order = r.order) : Kin { t with settled } c' d' where
  same := hsame
  left := hframe.trans k.left
  right := hframe'.trans k.right
  kinds e x y hx hy := by
    rw [hexprs] at hx
    rw [hexprs'] at hy
    refine (k.kinds e x y hx hy).imp_right fun h => ⟨h.1, h.2.1.congr hframe ?_, h.2.2.congr hframe' ?_⟩
    · intro b z z' _ hz hz' hk
      rw [hexprs, hz] at hz'
      cases hz'
      exact hk
    · intro b z z' _ hz hz' hk
      rw [hexprs', hz] at hz'
      cases hz'
      exact hk
  operands e o ho := by
    have harguments : c'.arguments = c.arguments := (congrArg Program.arguments hframe :)
    refine k.operands e o ?_
    simp only [operandsAt, hexprs, Program.operands_congr harguments] at ho
    exact ho
  orders := horders

/-- Fewer orders need be known. -/
theorem mono {settled : VariableId → Prop} (h : ∀ v, settled v → t.settled v) :
    Kin { t with settled } c d :=
  k.restate k.same rfl rfl rfl rfl fun v r r' hv => k.orders v r r' (h v hv)

theorem functions {f f' : Table .function Function} (hsame : t.exact → f = f')
    (hf : f.map Function.frame = c.functions.map Function.frame)
    (hf' : f'.map Function.frame = d.functions.map Function.frame) :
    Kin t { c with functions := f } { d with functions := f' } :=
  k.restate (fun h => by rw [k.same h, hsame h]) rfl rfl (frame_functions hf) (frame_functions hf')
    k.orders

theorem parameters {a a' : Table .parameter Parameter} (hsame : t.exact → a = a')
    (ha : a.map Parameter.frame = c.parameters.map Parameter.frame)
    (ha' : a'.map Parameter.frame = d.parameters.map Parameter.frame) :
    Kin t { c with parameters := a } { d with parameters := a' } :=
  k.restate (fun h => by rw [k.same h, hsame h]) rfl rfl (frame_parameters ha) (frame_parameters ha')
    k.orders

/-- A variable is changed in both programs. -/
theorem update_var {settled : VariableId → Prop} {v : VariableId} {f f' : Variable → Variable}
    {vars vars' : Table .variable Variable} (h : c.vars.update v f = .ok vars)
    (h' : d.vars.update v f' = .ok vars') (hsame : t.exact → vars = vars')
    (hf : ∀ r, (f r).frame = r.frame) (hf' : ∀ r, (f' r).frame = r.frame)
    (hothers : ∀ w, w ≠ v → settled w → t.settled w)
    (hv : settled v → ∀ r r', c.vars.get? v = some r → d.vars.get? v = some r' →
      (f' r').order = (f r).order) :
    Kin { t with settled } { c with vars } { d with vars := vars' } := by
  refine k.restate (fun h => by rw [k.same h, hsame h]) rfl rfl (frame_vars (Table.map_update h hf))
    (frame_vars (Table.map_update h' hf')) fun w r r' hw hr hr' => ?_
  simp only [((Table.update_eq_ok_iff _).1 h).2, Table.get?_modify] at hr
  simp only [((Table.update_eq_ok_iff _).1 h').2, Table.get?_modify] at hr'
  split at hr
  · next hwv =>
    subst hwv
    rw [if_pos rfl] at hr'
    obtain ⟨q, hq, rfl⟩ := Option.map_eq_some_iff.1 hr
    obtain ⟨q', hq', rfl⟩ := Option.map_eq_some_iff.1 hr'
    exact hv hw q q' hq hq'
  · next hwv =>
    rw [if_neg hwv] at hr'
    exact k.orders w r r' (hothers w hwv hw) hr hr'

theorem setVariableType {type type' : Ty} (htype : t.Same type type') (w : VariableId) :
    Agree t.exact (Kinned t)
      (fun v => do return { c.sounding v with program := ← (c.sounding v).program.setVariableType w type })
      (fun v => do return { d.sounding v with program := ← (d.sounding v).program.setVariableType w type' }) := by
  have update : t.exact → c.vars.update w ({ · with type }) = d.vars.update w ({ · with type := type' }) :=
    fun h => by rw [k.same h, htype h]
  have hread : ∀ (p : Program) (v : Voice) (type : Ty),
      (do return { p.sounding v with program := ← (p.sounding v).program.setVariableType w type }) =
        p.vars.update w ({ · with type }) >>= fun vars =>
          (.ok ({ p with vars }.sounding v) : Except Fault Analysis) := fun p v type => by
    change (p.vars.update w ({ · with type }) >>= _) >>= _ = _
    cases p.vars.update w ({ · with type }) <;> rfl
  simp only [hread]
  refine .read update fun vars vars' h h' hsame => .pure ⟨?_⟩
  exact k.update_var h h' hsame (fun _ => rfl) (fun _ => rfl) (fun _ _ hw => hw)
    fun hw r r' hr hr' => k.orders w r r' hw hr hr'

/-- A statement is the same in both programs but for the scope of its
body. -/
theorem stmt {r r' : Stmt} (hr : c.stmts.get s = .ok r) (hr' : d.stmts.get s = .ok r') :
    r'.kind.frame = r.kind.frame ∧
      ∃ r₀, t.start.stmts.get? s = some r₀ ∧ r.kind.frame = r₀.kind.frame := by
  obtain ⟨r₀, hr₀, heq⟩ := exists_stmt_congr k.left.symm (Table.get_eq_ok.1 hr)
  obtain ⟨r₁, hr₁, right⟩ := exists_stmt_congr k.frame (Table.get_eq_ok.1 hr)
  obtain rfl := Option.some.inj (hr₁.symm.trans (Table.get_eq_ok.1 hr'))
  exact ⟨(congrArg Stmt.kind right :), r₀, hr₀, (congrArg Stmt.kind heq.symm :)⟩

end

variable (seated : t.Seated)
include seated

/-- What a statement names as a value is no type. -/
theorem value (k : Kin t c d) {r r' : Stmt} (hr : c.stmts.get s = .ok r) (hr' : d.stmts.get s = .ok r')
    (he : e ∈ r.kind.values) : ¬ t.types e := by
  obtain ⟨-, r₀, hr₀, hframe⟩ := k.stmt hr hr'
  exact seated.values s r₀ hr₀ e (StmtKind.values_of_frame hframe ▸ he)

omit seated in
theorem typeParameter (k : Kin t c d) {i : ParameterId}
    (hi : ∀ q e, t.start.parameters.get? i = some q → q.typeExpr = some e → t.exact ∨ t.types e) :
    Agree t.exact (Kinned t) (fun v => (c.sounding v).typeParameter i)
      (fun v => (d.sounding v).typeParameter i) := by
  simp only [Analysis.typeParameter, sounding_parameters]
  refine .read (fun h => by rw [k.same h]) fun r r' hr hr' _ => ?_
  obtain ⟨r₀, hr₀, heq⟩ := exists_parameter_congr k.left.symm (Table.get_eq_ok.1 hr)
  obtain ⟨r₁, hr₁, right⟩ := exists_parameter_congr k.frame (Table.get_eq_ok.1 hr)
  obtain rfl := Option.some.inj (hr₁.symm.trans (Table.get_eq_ok.1 hr'))
  have htype : r₁.typeExpr = r.typeExpr := (congrArg Parameter.typeExpr right :)
  have htype₀ : r₀.typeExpr = r.typeExpr := (congrArg Parameter.typeExpr heq :)
  rw [htype]
  refine (k.typeNamed? fun e he => hi r₀ e hr₀ (htype₀.trans he)).bind ?_
  rintro _ _ ⟨hsame, k⟩
  simp only [sounding_parameters]
  refine .read (fun h => by rw [k.same h, hsame h]) fun a a' ha ha' hsame => ?_
  have kin := k.parameters hsame (Table.map_update ha fun _ => rfl) (Table.map_update ha' fun _ => rfl)
  exact .pure (.intro kin)

theorem typeSignature (k : Kin t c d) {f : FunctionId} {r₀ : Stmt}
    (hs : t.start.stmts.get? s = some r₀) (hk : r₀.kind = .function f) :
    Agree t.exact (Kinned t) (fun v => (c.sounding v).typeSignature f)
      (fun v => (d.sounding v).typeSignature f) := by
  simp only [Analysis.typeSignature, sounding_functions]
  refine .read (fun h => by rw [k.same h]) fun g g' hg hg' _ => ?_
  obtain ⟨g₀, hg₀, heq⟩ := exists_function_congr k.left.symm (Table.get_eq_ok.1 hg)
  obtain ⟨g₁, hg₁, right⟩ := exists_function_congr k.frame (Table.get_eq_ok.1 hg)
  obtain rfl := Option.some.inj (hg₁.symm.trans (Table.get_eq_ok.1 hg'))
  have hresult : g₀.returnTypeExpr = g.returnTypeExpr := (congrArg Function.returnTypeExpr heq :)
  have hparameters : g₀.parameters = g.parameters := (congrArg Function.parameters heq :)
  have hresult' : g₁.returnTypeExpr = g.returnTypeExpr :=
    (congrArg Function.returnTypeExpr right :)
  have hparameters' : g₁.parameters = g.parameters := (congrArg Function.parameters right :)
  rw [hresult', hparameters']
  refine (k.typeNamed? fun e he => seated.results s r₀ f g₀ e hs hk hg₀ (hresult.trans he)).bind ?_
  rintro _ _ @⟨c, d, type, type', hsame, k⟩
  simp only [sounding_functions]
  refine .read (fun h => by rw [k.same h, hsame h]) fun a a' ha ha' hsame => ?_
  have kin := k.functions hsame (Table.map_update ha fun _ => rfl) (Table.map_update ha' fun _ => rfl)
  change Agree t.exact (Kinned t)
    (fun v => c.parameters.slice g.parameters >>=
      (·.foldlM (fun a iq => a.typeParameter iq.1) ({ c with functions := a }.sounding v)))
    (fun v => d.parameters.slice g.parameters >>=
      (·.foldlM (fun a iq => a.typeParameter iq.1) ({ d with functions := a' }.sounding v)))
  refine .read (fun h => by rw [k.same h]) fun l l' hl hl' _ => ?_
  have hids : ∀ {l : List (ParameterId × Parameter)} (b : Analysis), l.map (·.1) = g.parameters.ids →
      l.foldlM (fun a iq => a.typeParameter iq.1) b = g.parameters.ids.foldlM Analysis.typeParameter b :=
    fun {l} b h => by rw [← h, List.foldlM_map]
  simp only [hids _ (map_fst_slice hl), hids _ (map_fst_slice hl')]
  refine Agree.foldlM (R := Kinned t) (.intro kin) fun i hi r r' hr => ?_
  obtain ⟨k⟩ := hr
  exact k.typeParameter fun q e =>
    seated.parameters s r₀ f g₀ i q e hs hk hg₀ (by rwa [hparameters])

theorem typeSignatures (k : Kin t c d) (statements : List StmtId) :
    Agree t.exact (Kinned t) (fun v => (c.sounding v).typeSignatures statements)
      (fun v => (d.sounding v).typeSignatures statements) := by
  refine Agree.foldlM (R := Kinned t) ⟨k⟩ fun s _ r r' hr => ?_
  obtain ⟨k⟩ := hr
  simp only [sounding_stmts]
  refine .read (fun h => by rw [k.same h]) fun r r' hr hr' _ => ?_
  obtain ⟨hframe, r₀, hr₀, hframe₀⟩ := k.stmt hr hr'
  obtain ⟨kind, span⟩ := r
  obtain ⟨kind', span'⟩ := r'
  cases kind with
  | function f =>
    obtain rfl := StmtKind.eq_of_frame hframe (by simp)
    exact k.typeSignature seated hr₀ (StmtKind.eq_of_frame hframe₀.symm (by simp))
  | nest head body =>
    obtain ⟨body', rfl⟩ := StmtKind.nest_of_frame hframe
    exact .pure ⟨k⟩
  | _ =>
    obtain rfl := StmtKind.eq_of_frame hframe (by simp)
    exact .pure ⟨k⟩

end Kin

end FrontEnd
