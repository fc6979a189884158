import FrontEnd.Proofs.Changes
/-!
# FrontEnd — the orders that an initializer reads

`readOrder` looks at the variables that are mentioned under an
expression and at nothing else. `OrderRead` says what it finds without
the recursion: the greatest of their orders, if all of them have one.
-/

namespace FrontEnd

theorem greatestOrder_eq_ok {order : ExprId → Except Fault (Option Nat)} {least : Nat}
    {es : List ExprId} {found : Option Nat} (h : greatestOrder order least es = .ok found) :
    match found with
    | some n => (least ≤ n ∧ ∀ c ∈ es, ∃ m ≤ n, order c = .ok (some m)) ∧
        (n = least ∨ ∃ c ∈ es, order c = .ok (some n))
    | none => ∃ c ∈ es, order c = .ok none := by
  induction es generalizing least with
  | nil =>
    cases pure_eq_ok.1 h
    simp
  | cons e es ih =>
    obtain ⟨first, hfirst, h⟩ := bind_eq_ok.1 h
    cases first with
    | none =>
      cases pure_eq_ok.1 h
      exact ⟨e, List.mem_cons_self, hfirst⟩
    | some m =>
      have := ih h
      cases found with
      | none =>
        obtain ⟨c, hc, hnone⟩ := this
        exact ⟨c, List.mem_cons_of_mem _ hc, hnone⟩
      | some n =>
        obtain ⟨⟨hle, hall⟩, hsome⟩ := this
        refine ⟨⟨by omega, List.forall_mem_cons.2 ⟨⟨m, by omega, hfirst⟩, hall⟩⟩, ?_⟩
        rcases hsome with hmax | ⟨c, hc, hn⟩
        · by_cases hm : least ≤ m
          · exact .inr ⟨e, List.mem_cons_self, by rw [hfirst, hmax, Nat.max_eq_right hm]⟩
          · exact .inl (by omega)
        · exact .inr ⟨c, List.mem_cons_of_mem _ hc, hn⟩

theorem greatestOrder_total {order : ExprId → Except Fault (Option Nat)} {least : Nat}
    {es : List ExprId} (h : ∀ c ∈ es, ∃ found, order c = .ok found) :
    ∃ found, greatestOrder order least es = .ok found := by
  induction es generalizing least with
  | nil => exact ⟨some least, rfl⟩
  | cons e es ih =>
    obtain ⟨⟨first, hfirst⟩, hrest⟩ := List.forall_mem_cons.1 h
    simp only [greatestOrder, hfirst, ok_bind]
    cases first with
    | none => exact ⟨none, rfl⟩
    | some m => exact ih hrest

namespace Program

variable {p p' : Program} {e c : ExprId} {x : Expr} {t : Target} {found found' : Option Nat}

/-- The variable is mentioned under the expression, and has the order. -/
def ReadsAt (p : Program) (e : ExprId) (n : Nat) : Prop :=
  ∃ v r, p.Mentions e (.variable v) ∧ p.vars.get? v = some r ∧ r.order = n

/-- The greatest order that is read under an expression, or that one is
read that is not settled. -/
def OrderRead (p : Program) (e : ExprId) : Option Nat → Prop
  | some n =>
    (∀ v, p.Mentions e (.variable v) → ∃ r, p.vars.get? v = some r ∧ 0 < r.order ∧ r.order ≤ n) ∧
      (n = 0 ∨ p.ReadsAt e n)
  | none => p.ReadsAt e 0

/-- A node mentions what it refers to and what its operands mention. -/
theorem mentions_iff (hx : p.exprs.get? e = some x) :
    p.Mentions e t ↔ x.kind.target? = some t ∨ ∃ c ∈ p.operandsAt e, p.Mentions c t := by
  constructor
  · rintro ⟨c, y, hu, hy, ht⟩
    rcases under_iff.1 hu with rfl | ⟨d, hd, hu⟩
    · rw [hx] at hy
      exact .inl (Option.some.inj hy ▸ ht)
    · exact .inr ⟨d, hd, c, y, hu, hy, ht⟩
  · rintro (ht | ⟨c, hc, hm⟩)
    · exact ⟨e, x, .refl, hx, ht⟩
    · exact hm.of_operand hc

theorem ReadsAt.of_operand {n : Nat} (hc : c ∈ p.operandsAt e) (h : p.ReadsAt c n) :
    p.ReadsAt e n := by
  obtain ⟨v, r, hm, hr, ho⟩ := h
  exact ⟨v, r, hm.of_operand hc, hr, ho⟩

theorem readOrderWithin_read {fuel : Nat} (held : p.OperandsHeld)
    (h : p.readOrderWithin fuel e = .ok found) : p.OrderRead e found := by
  induction fuel generalizing e found with
  | zero => cases h
  | succ fuel ih =>
    obtain ⟨x, hx, h⟩ := bind_eq_ok.1 h
    rw [Table.get_eq_ok] at hx
    have hmentions := fun v => mentions_iff (t := .variable v) hx
    split at h
    · next v hk =>
      obtain ⟨r, hr, h⟩ := bind_eq_ok.1 h
      cases pure_eq_ok.1 h
      rw [Table.get_eq_ok] at hr
      have hself : p.Mentions e (.variable v) := (hmentions v).2 (.inl (by rw [hk]; rfl))
      by_cases hpos : 0 < r.order
      · rw [if_pos hpos]
        refine ⟨fun w hw => ?_, .inr ⟨v, r, hself, hr, rfl⟩⟩
        have hops := operandsAt_leaf hx (by rw [hk]; rfl)
        rw [hmentions, hk, hops] at hw
        obtain rfl : v = w := by simpa [ExprKind.target?] using hw
        exact ⟨r, hr, hpos, Nat.le_refl _⟩
      · rw [if_neg hpos]
        exact ⟨v, r, hself, hr, by omega⟩
    · next hvar =>
      obtain ⟨es, hes, h⟩ := bind_eq_ok.1 h
      obtain rfl : es = p.operandsAt e := Except.ok.inj (hes.symm.trans (held.operands_eq hx))
      have hgreatest := greatestOrder_eq_ok h
      cases found with
      | none =>
        obtain ⟨c, hc, hnone⟩ := hgreatest
        exact ReadsAt.of_operand hc (ih hnone)
      | some n =>
        obtain ⟨⟨-, hall⟩, hsome⟩ := hgreatest
        refine ⟨fun v hv => ?_, ?_⟩
        · rcases (hmentions v).1 hv with ht | ⟨c, hc, hm⟩
          · exfalso
            cases hk : x.kind <;> rw [hk] at ht <;> cases ht
            exact hvar v hk
          · obtain ⟨m, hle, hm'⟩ := hall c hc
            obtain ⟨r, hr, hpos, hrm⟩ := (ih hm').1 v hm
            exact ⟨r, hr, hpos, by omega⟩
        · rcases hsome with rfl | ⟨c, hc, hn⟩
          · exact .inl rfl
          · exact (ih hn).2.imp_right (ReadsAt.of_operand hc)

/-- **What `readOrder` finds** is the greatest order read. -/
theorem readOrder_read (held : p.OperandsHeld) (h : p.readOrder e = .ok found) :
    p.OrderRead e found := readOrderWithin_read held h

theorem readOrderWithin_total {fuel : Nat} (held : p.OperandsHeld) (hfuel : e.raw < fuel)
    (hx : e.raw < p.exprs.size)
    (hvars : ∀ v, p.Mentions e (.variable v) → ∃ r, p.vars.get? v = some r) :
    ∃ found, p.readOrderWithin fuel e = .ok found := by
  induction fuel generalizing e with
  | zero => omega
  | succ fuel ih =>
    obtain ⟨x, hx⟩ := Table.exists_get?_of_lt hx
    simp only [readOrderWithin, Table.get_eq_ok.2 hx, ok_bind]
    split
    · next v hk =>
      obtain ⟨r, hr⟩ := hvars v ((mentions_iff hx).2 (.inl (by rw [hk]; rfl)))
      simp only [Table.get_eq_ok.2 hr, ok_bind]
      exact ⟨_, rfl⟩
    · rw [held.operands_eq hx, ok_bind]
      refine greatestOrder_total fun c hc => ?_
      have hlt := held.older e c hc
      exact ih (by omega) (by omega) fun v hv => hvars v (hv.of_operand hc)

/-- The order that is read can be found where all variables are held. -/
theorem readOrder_total (held : p.OperandsHeld) (hx : e.raw < p.exprs.size)
    (hvars : ∀ v, p.Mentions e (.variable v) → ∃ r, p.vars.get? v = some r) :
    ∃ found, p.readOrder e = .ok found :=
  readOrderWithin_total held (Nat.lt_succ_of_lt hx) hx hvars

/-- **One order is read.** -/
theorem OrderRead.unique (h : p.OrderRead e found) (h' : p.OrderRead e found') : found' = found := by
  -- where all that is read is settled, nothing is read that is not
  have hpos : ∀ {n m : Nat}, p.OrderRead e (some n) → p.ReadsAt e m → 0 < m ∧ m ≤ n := by
    rintro n m ⟨hall, -⟩ ⟨v, r, hmv, hr, rfl⟩
    obtain ⟨r', hr', hlt, hle⟩ := hall v hmv
    rw [hr] at hr'
    obtain rfl := Option.some.inj hr'
    exact ⟨hlt, hle⟩
  cases found with
  | none =>
    cases found' with
    | none => rfl
    | some n' => exact absurd (hpos h' h).1 (Nat.lt_irrefl 0)
  | some n =>
    cases found' with
    | none => exact absurd (hpos h h').1 (Nat.lt_irrefl 0)
    | some n' =>
      have hle : n' ≤ n := by
        rcases h'.2 with h0 | hr
        · omega
        · exact (hpos h hr).2
      have hge : n ≤ n' := by
        rcases h.2 with h0 | hr
        · omega
        · exact (hpos h' hr).2
      rw [Nat.le_antisymm hle hge]

/-- What order is read depends on what is mentioned and on the orders of
that. -/
theorem OrderRead.congr (h : p.OrderRead e found)
    (hm : ∀ v, p.Mentions e (.variable v) ↔ p'.Mentions e (.variable v))
    (hv : ∀ v, p.Mentions e (.variable v) →
      (p'.vars.get? v).map (·.order) = (p.vars.get? v).map (·.order)) : p'.OrderRead e found := by
  have hsame : ∀ v r, p.Mentions e (.variable v) → p.vars.get? v = some r →
      ∃ r', p'.vars.get? v = some r' ∧ r'.order = r.order := by
    intro v r hmv hr
    have := hv v hmv
    rw [hr] at this
    exact Option.map_eq_some_iff.1 this
  have hreads : ∀ n, p.ReadsAt e n → p'.ReadsAt e n := by
    rintro n ⟨v, r, hmv, hr, rfl⟩
    obtain ⟨r', hr', ho⟩ := hsame v r hmv hr
    exact ⟨v, r', (hm v).1 hmv, hr', ho⟩
  cases found with
  | none => exact hreads 0 h
  | some n =>
    refine ⟨fun v hmv => ?_, h.2.imp_right (hreads n)⟩
    obtain ⟨r, hr, hpos, hle⟩ := h.1 v ((hm v).2 hmv)
    obtain ⟨r', hr', ho⟩ := hsame v r ((hm v).2 hmv) hr
    exact ⟨r', hr', ho ▸ hpos, ho ▸ hle⟩

end Program

/-- **Typing does not change what is read**, as long as it leaves alone
the variables that are mentioned. -/
theorem Changes.orderRead {region : ExprId → Prop} {targets : Target → Prop} {a a' : Analysis}
    {e : ExprId} {found : Option Nat} (h : Changes region targets a a')
    (held : a.program.OperandsHeld) (read : a.program.OrderRead e found)
    (ht : ∀ v, a.program.Mentions e (.variable v) → ¬ targets (.variable v)) :
    a'.program.OrderRead e found :=
  read.congr (fun _ => ⟨h.keeps e _, h.mentions held⟩) fun v hv => by rw [h.vars v (ht v hv)]

end FrontEnd
