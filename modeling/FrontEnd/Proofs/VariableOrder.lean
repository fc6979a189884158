import FrontEnd.Proofs.InitOrder
/-!
# FrontEnd — which variables an initializer may read

In the body of a function a variable can be seen only behind the
statement that declares it, and the top-level variables are numbered by
what they read. So along what initializers read one gets nowhere without
end, cycles of top-level variables apart (`variable_induction`).
-/

namespace FrontEnd

open Analysis

namespace Program

variable {p p₀ : Program} {s : StmtId} {t : Target} {v w : VariableId} {e r : ExprId} {place : Place}
variable {topLevel : Bool} {own outer : List Target} {i j : Nat} {o : Outline}

/-- A variable belongs to the statement that declares it, or to the loop
that runs through it. -/
theorem variable_of_owned (h : .variable v ∈ p.owned s) :
    (∃ type init span, p.stmts.get? s = some ⟨.variable v type init, span⟩) ∨
      ∃ e body span, p.stmts.get? s = some ⟨.nest (.forEach v e) body, span⟩ := by
  obtain ⟨⟨kind, span⟩, hs, howns⟩ := mem_owned.1 h
  cases howns with
  | «variable» v type init => exact .inl ⟨type, init, span, hs⟩
  | iterator v e body => exact .inr ⟨e, body, span, hs⟩

/-- What can be seen from a statement of a block has been known to the
block, it is a function, or it belongs to a statement before. -/
theorem before_of_visible (lays : Lays p i j o) (hplace : place ∈ p.placesIn topLevel own outer o)
    (ht : t ∈ place.visible) : i ≤ place.stmt.raw ∧
      (t ∈ own ++ outer ∨ (∃ f, t = .function f) ∨ ∃ s, s.raw < place.stmt.raw ∧ t ∈ p.owned s) := by
  induction lays generalizing topLevel own outer with
  | done i => simp [placesIn] at hplace
  | @leaf i j rest single tail ih =>
    rcases List.mem_cons.1 hplace with rfl | hplace
    · exact ⟨Nat.le_refl _, .inl ht⟩
    · obtain ⟨hle, h⟩ := ih hplace
      refine ⟨Nat.le_of_succ_le hle, ?_⟩
      rcases h with h | h
      · rcases List.mem_append.1 h with h | h
        · rcases List.mem_append.1 h with h | h
          · exact .inl (List.mem_append_left _ h)
          · exact .inr (.inr ⟨⟨i⟩, hle, owned_of_behind h⟩)
        · exact .inl (List.mem_append_right _ h)
      · exact .inr h
  | @nested i k j block body rest owns starts inner tail ihInner ihTail =>
    rcases List.mem_cons.1 hplace with rfl | hplace
    · exact ⟨Nat.le_refl _, .inl ht⟩
    · rcases List.mem_append.1 hplace with hplace | hplace
      · obtain ⟨hle, h⟩ := ihInner hplace
        refine ⟨Nat.le_of_succ_le hle, ?_⟩
        rcases h with h | h
        · rcases List.mem_append.1 h with h | h
          · rcases List.mem_append.1 h with h | h
            · exact .inr (.inr ⟨⟨i⟩, hle, owned_of_inside h⟩)
            · -- a body knows nothing but functions ahead of its statements
              obtain ⟨s, -, h⟩ := List.mem_flatMap.1 h
              cases hs : p.stmts.get s with
              | error fault => simp [declaredAhead, hs, bind, Except.bind] at h
              | ok stmt =>
                rw [declaredAhead_eq _ hs] at h
                cases hk : stmt.kind.declares <;> simp [hk] at h
                exact .inr (.inl ⟨_, h⟩)
          · exact .inl h
        · exact .inr h
      · obtain ⟨hle, h⟩ := ihTail hplace
        have := inner.le
        exact ⟨by omega, h⟩

/-- A variable that is read in a statement is one of the top level, or
belongs to a statement before. -/
theorem global_or_before (regular : p.Regular) (inScope : p.InScope) (hr : r ∈ p.slotsAt s)
    (hm : p.Mentions r (.variable w)) :
    ∃ s', .variable w ∈ p.owned s' ∧ (s' ∈ p.globals ∨ s'.raw < s.raw) := by
  obtain ⟨place, hplace, rfl⟩ := regular.exists_place hr
  have hvisible := inScope place hplace r hr _ hm
  obtain ⟨o, lays⟩ := regular.layout
  have ho : p.outline p.block = o := outline_of_lays lays regular.whole
  rw [places, ho] at hplace
  obtain ⟨-, h | ⟨f, hf⟩ | ⟨s', hlt, howned⟩⟩ := before_of_visible lays hplace hvisible
  · rw [List.append_nil] at h
    obtain ⟨s', hs' | hs', howned⟩ := mem_functionsIn_or_globalsIn h rfl
    · have hfun := (List.mem_filter.1 hs').2
      simp only [declaresFunction] at hfun
      split at hfun
      · next f span hstmt =>
        obtain ⟨r, params, -, -, -, -, hall⟩ := function_eqs hstmt (regular.declarations s' _ hstmt)
        simp [hall] at howned
      · cases hfun
    · exact ⟨s', howned, .inl (by rw [globals, ho]; exact hs')⟩
  · cases hf
  · exact ⟨s', howned, .inr hlt⟩

/-- **Every variable can be reached from those that it reads.** What is
true of a variable if it is true of all that its initializer reads, is
true of all variables. Of one whose initializer reads its way into a
cycle, it has to be true without that. -/
theorem variable_induction {P : VariableId → Prop} (regular : p.Regular) (inScope : p.InScope)
    (ranked : p.Ranked) (step : ∀ s v, .variable v ∈ p.owned s → (¬ p.Unordered s → ∀ type e span w,
      p.stmts.get? s = some ⟨.variable v type (some e), span⟩ → p.Mentions e (.variable w) → P w) → P v)
    (hv : .variable v ∈ p.owned s) : P v := by
  -- the top-level variables by their orders
  have top : ∀ n s v, s ∈ p.globals → .variable v ∈ p.owned s → p.orderOf v = n → P v := by
    intro n
    induction n using Nat.strong_induction_on with
    | _ n ih =>
      rintro s v hs hv rfl
      refine step s v hv fun ordered type e span w hstmt hm => ?_
      have hdirect := (mem_globals.1 hs).1
      have hglobal : p.IsGlobal v (some e) := ⟨s, hdirect, type, span, Table.get_eq_ok.2 hstmt⟩
      obtain ⟨r, hr⟩ := ranked.held v _ hglobal
      have hpos : 0 < p.orderOf v := Nat.pos_of_ne_zero fun hzero => ordered
        ⟨hdirect, v, type, some e, span, r, Table.get_eq_ok.2 hstmt, Table.get_eq_ok.2 hr,
          (orderOf_eq hr).symm.trans hzero⟩
      have hreads : p.InitReads v w := ⟨e, hglobal, hm⟩
      obtain ⟨init, hw⟩ := ranked.closed v w hreads
      obtain ⟨s', hs', rfl, -⟩ := isGlobal_iff.1 hw
      exact ih _ (ranked.succ v _ hreads hpos).2 s' _ hs' (owned_globalOf (mem_globals.1 hs').2) rfl
  -- and all others by where they are declared
  suffices others : ∀ n s v, s.raw = n → .variable v ∈ p.owned s → P v from others _ s v rfl hv
  intro n
  induction n using Nat.strong_induction_on with
  | _ n ih =>
    rintro s v rfl hv
    refine step s v hv fun _ type e span w hstmt hm => ?_
    have hslot : e ∈ p.slotsAt s := by
      simp only [slotsAt, Table.get_eq_ok.2 hstmt, ok_bind]
      simp [StmtKind.exprs, pure, Except.pure]
    obtain ⟨s', howned, hglobal | hlt⟩ := global_or_before regular inScope hslot hm
    · exact top _ s' w hglobal howned rfl
    · exact ih _ hlt s' w rfl howned

theorem Pruned.inScope (h : Pruned p₀ p) (inScope : p₀.InScope) : p.InScope := by
  intro place hplace r hr t hm
  rw [places_congr h.frame] at hplace
  rw [slotsAt_congr h.frame] at hr
  exact inScope place hplace r hr t (h.mentions hm)

end Program

variable {source : String} {p p₁ : Program} {a : Analysis} {L : List StmtId} {queue : Queue}

/-- In a resolved program. -/
theorem Resolution.variable_induction {P : VariableId → Prop} (went : Resolution source p queue p₁ L a)
    (step : ∀ s v, .variable v ∈ a.program.owned s →
      (¬ a.program.Unordered s → ∀ type e span w,
        a.program.stmts.get? s = some ⟨.variable v type (some e), span⟩ →
          a.program.Mentions e (.variable w) → P w) → P v)
    {s : StmtId} {v : VariableId} (hv : .variable v ∈ a.program.owned s) : P v :=
  Program.variable_induction (went.named.regular.congr went.done.pruned.frame went.done.pruned.held)
    (went.done.pruned.inScope went.named.inScope) went.ranked step hv

end FrontEnd
