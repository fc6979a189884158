import FrontEnd.Fault
/-!
# FrontEnd — when a partial step succeeds

The passes are chains of steps that may fault. A chain succeeds exactly
when every step of it does (`bind_eq_ok`), and what each step of a run
over a list keeps, the whole run keeps (`foldlM_invariant`).
-/

namespace FrontEnd

section Steps

variable {ε α β γ : Type}

/-- **A chain succeeds when both steps do.** -/
theorem bind_eq_ok {x : Except ε α} {f : α → Except ε β} {b : β} :
    x >>= f = .ok b ↔ ∃ a, x = .ok a ∧ f a = .ok b := by
  cases x <;> simp [bind, Except.bind]

/-- A check and what follows it succeed when both do. -/
theorem check_bind_eq_ok {x : Except ε Unit} {f : Unit → Except ε β} {b : β} :
    x >>= f = .ok b ↔ x = .ok () ∧ f () = .ok b := by
  rw [bind_eq_ok]
  exact ⟨fun ⟨_, h⟩ => h, fun h => ⟨(), h⟩⟩

theorem pure_eq_ok {a b : α} : (pure a : Except ε α) = .ok b ↔ a = b := by
  simp [pure, Except.pure]

theorem throw_eq_ok {e : ε} {b : β} : (throw e : Except ε β) = .ok b ↔ False := by
  simp [throw, throwThe, MonadExceptOf.throw]

/-- Chains are equal that go on alike from what the first step gives. -/
theorem bind_congr_ok {x : Except ε α} {f g : α → Except ε β} (h : ∀ a, x = .ok a → f a = g a) :
    x >>= f = x >>= g := by
  cases x with
  | error e => rfl
  | ok a => exact h a rfl

theorem ok_bind {a : α} {f : α → Except ε β} : (Except.ok a >>= f) = f a := rfl

/-- Nothing but a fault keeps a step that can only fault from succeeding
where an error is possible too. -/
theorem lift_eq_ok {x : Except Fault α} {a : α} :
    (liftM x : Except (Abort ε) α) = .ok a ↔ x = .ok a := by
  cases x with
  | error _ => constructor <;> intro h <;> cases h
  | ok _ => constructor <;> intro h <;> cases h <;> rfl

theorem lift_bind {x : Except Fault α} {f : α → Except Fault β} :
    (liftM (x >>= f) : Except (Abort ε) β) = liftM x >>= fun a => liftM (f a) := by
  cases x <;> rfl

theorem lift_ok {a : α} : (liftM (Except.ok a : Except Fault α) : Except (Abort ε) α) = .ok a :=
  rfl

/-! ## Runs over a list -/

variable {f : β → α → Except ε β} {xs ys : List α} {b c : β}

theorem foldlM_nil_eq_ok : ([] : List α).foldlM f b = .ok c ↔ b = c := by
  rw [List.foldlM_nil, pure_eq_ok]

theorem foldlM_cons_eq_ok {x : α} :
    (x :: xs).foldlM f b = .ok c ↔ ∃ b', f b x = .ok b' ∧ xs.foldlM f b' = .ok c := by
  rw [List.foldlM_cons, bind_eq_ok]

theorem foldlM_append_eq_ok :
    (xs ++ ys).foldlM f b = .ok c ↔ ∃ b', xs.foldlM f b = .ok b' ∧ ys.foldlM f b' = .ok c := by
  rw [List.foldlM_append, bind_eq_ok]

/-- **What every step of a run keeps, the run keeps.** -/
theorem foldlM_invariant (P : β → Prop)
    (step : ∀ x ∈ xs, ∀ b b', P b → f b x = .ok b' → P b') (start : P b)
    (run : xs.foldlM f b = .ok c) : P c := by
  induction xs generalizing b with
  | nil => exact foldlM_nil_eq_ok.1 run ▸ start
  | cons x xs ih =>
    obtain ⟨b', hb', hrun⟩ := foldlM_cons_eq_ok.1 run
    exact ih (fun y hy => step y (List.mem_cons_of_mem _ hy))
      (step x List.mem_cons_self b b' start hb') hrun

/-- A run whose steps all succeed, and keep what makes them succeed. -/
theorem foldlM_total (P : β → Prop)
    (step : ∀ x ∈ xs, ∀ b, P b → ∃ b', f b x = .ok b' ∧ P b') (start : P b) :
    ∃ c, xs.foldlM f b = .ok c ∧ P c := by
  induction xs generalizing b with
  | nil => exact ⟨b, rfl, start⟩
  | cons x xs ih =>
    obtain ⟨b', hb', hP⟩ := step x List.mem_cons_self b start
    obtain ⟨c, hc, hPc⟩ := ih (fun y hy => step y (List.mem_cons_of_mem _ hy)) hP
    exact ⟨c, foldlM_cons_eq_ok.2 ⟨b', hb', hc⟩, hPc⟩

section

variable {f : α → Except ε (Option β)} {xs : List α} {ys : List β} {y : β}

/-- A filter that succeeds keeps what its step keeps. -/
theorem mem_filterMapM (h : xs.filterMapM f = .ok ys) :
    y ∈ ys ↔ ∃ x ∈ xs, f x = .ok (some y) := by
  induction xs generalizing ys with
  | nil =>
    cases pure_eq_ok.1 h
    simp
  | cons x xs ih =>
    rw [List.filterMapM_cons] at h
    obtain ⟨found, hfound, h⟩ := bind_eq_ok.1 h
    simp only [List.mem_cons, exists_eq_or_imp]
    cases found with
    | none =>
      rw [ih h, hfound]
      simp
    | some found =>
      obtain ⟨rest, hrest, h⟩ := bind_eq_ok.1 h
      cases pure_eq_ok.1 h
      rw [List.mem_cons, ih hrest, hfound]
      simp [eq_comm]

/-- A filter succeeds whose steps all do. -/
theorem exists_filterMapM (h : ∀ x ∈ xs, ∃ found, f x = .ok found) :
    ∃ ys, xs.filterMapM f = .ok ys := by
  induction xs with
  | nil => exact ⟨[], rfl⟩
  | cons x xs ih =>
    obtain ⟨⟨found, hfound⟩, hxs⟩ := List.forall_mem_cons.1 h
    obtain ⟨ys, hys⟩ := ih hxs
    rw [List.filterMapM_cons, hfound, hys]
    cases found with
    | none => exact ⟨ys, rfl⟩
    | some y => exact ⟨y :: ys, rfl⟩

end

end Steps

/-! ## Success -/

/-- The step succeeds, and what it gives is as stated. -/
def Succeeds {ε α : Type} (x : Except ε α) (P : α → Prop) : Prop := ∃ a, x = .ok a ∧ P a

instance {ε α : Type} {x : Except ε α} {P : α → Prop} [DecidablePred P] :
    Decidable (Succeeds x P) :=
  match x with
  | .ok a => decidable_of_iff (P a) ⟨fun h => ⟨a, rfl, h⟩, fun ⟨_, h, hP⟩ => Except.ok.inj h ▸ hP⟩
  | .error _ => .isFalse fun ⟨_, h, _⟩ => nomatch h

namespace Succeeds

variable {ε α β γ : Type} {x : Except ε α} {f : α → Except ε β} {P P' : α → Prop} {Q : β → Prop}

theorem pure {a : α} (h : P a) : Succeeds (Pure.pure a : Except ε α) P := ⟨a, rfl, h⟩

theorem of_eq {a : α} (hx : x = .ok a) (h : P a) : Succeeds x P := ⟨a, hx, h⟩

/-- **A chain succeeds if its second step succeeds on all that the first
may give.** -/
theorem bind (hx : Succeeds x P) (hf : ∀ a, P a → Succeeds (f a) Q) : Succeeds (x >>= f) Q := by
  obtain ⟨a, rfl, ha⟩ := hx
  exact hf a ha

theorem mono (hx : Succeeds x P) (h : ∀ a, P a → P' a) : Succeeds x P' := by
  obtain ⟨a, hx, ha⟩ := hx
  exact ⟨a, hx, h a ha⟩

/-- A step that can only fault succeeds also where an error is possible. -/
theorem lift {x : Except Fault α} (hx : Succeeds x P) :
    Succeeds (liftM x : Except (Abort ε) α) P := by
  obtain ⟨a, rfl, ha⟩ := hx
  exact ⟨a, rfl, ha⟩

/-- A run succeeds whose steps all do, and keep what makes them succeed. -/
theorem foldlM {f : β → α → Except ε β} {xs : List α} {b : β}
    (step : ∀ x ∈ xs, ∀ b, Q b → Succeeds (f b x) Q) (start : Q b) :
    Succeeds (xs.foldlM f b) Q :=
  foldlM_total Q step start

end Succeeds

/-! ## What a step keeps -/

/-- What the step gives, if it succeeds, is as stated. -/
def Keeps {ε α : Type} (P : α → Prop) (x : Except ε α) : Prop := ∀ a, x = .ok a → P a

namespace Keeps

variable {ε α β : Type} {x : Except ε α} {f : α → Except ε β} {P P' : α → Prop} {Q : β → Prop}

theorem ok {a : α} (h : P a) : Keeps P (.ok a : Except ε α) := fun _ heq => Except.ok.inj heq ▸ h

theorem pure {a : α} (h : P a) : Keeps P (Pure.pure a : Except ε α) := ok h

theorem error {e : ε} : Keeps P (.error e : Except ε α) := fun _ h => by cases h

theorem mono (hx : Keeps P x) (h : ∀ a, P a → P' a) : Keeps P' x := fun a ha => h a (hx a ha)

theorem and (hx : Keeps P x) (hx' : Keeps P' x) : Keeps (fun a => P a ∧ P' a) x :=
  fun a ha => ⟨hx a ha, hx' a ha⟩

theorem bind (hx : Keeps P x) (next : ∀ a, P a → Keeps Q (f a)) : Keeps Q (x >>= f) := by
  intro b hb
  obtain ⟨a, ha, hb⟩ := bind_eq_ok.1 hb
  exact next a (hx a ha) b hb

/-- A step of which nothing is stated. -/
theorem read (next : ∀ a, x = .ok a → Keeps Q (f a)) : Keeps Q (x >>= f) :=
  bind (fun _ h => h) next

/-- **What every step of a run keeps, the run keeps.** -/
theorem foldlM {f : β → α → Except ε β} {xs : List α} {b : β}
    (step : ∀ x ∈ xs, ∀ b, Q b → Keeps Q (f b x)) (start : Q b) : Keeps Q (xs.foldlM f b) :=
  fun _ run => foldlM_invariant Q (fun x hx b b' hb h => step x hx b hb b' h) start run

/-- Where an error is possible too, a step that can only fault keeps the
same. -/
theorem lift {x : Except Fault α} (hx : Keeps P x) :
    Keeps P (liftM x : Except (Abort ε) α) :=
  fun a ha => hx a (lift_eq_ok.1 ha)

end Keeps

/-! ## Runs that an error may end -/

/-- What a step gives is as stated, and so is the error that it ends
with. -/
structure Leaves {ε α : Type} (P : α → Prop) (Q : ε → Prop) (x : Except (Abort ε) α) : Prop where
  ends : Keeps P x
  halts : ∀ e, x = .error (.error e) → Q e

namespace Leaves

variable {ε α β : Type} {P P' : α → Prop} {R : β → Prop} {Q Q' : ε → Prop}
variable {x : Except (Abort ε) α} {f : α → Except (Abort ε) β}

theorem pure {a : α} (h : P a) : Leaves P Q (Pure.pure a) where
  ends := .pure h
  halts _ hx := by cases hx

theorem fault (fault : Fault) : Leaves P Q (.error (.fault fault)) where
  ends := .error
  halts _ hx := by cases hx

theorem halt {e : ε} (h : Q e) : Leaves P Q (.error (.error e)) where
  ends := .error
  halts _ hx := by
    cases hx
    exact h

theorem mono (h : Leaves P Q x) (imp : ∀ a, P a → P' a) (imp' : ∀ e, Q e → Q' e) : Leaves P' Q' x where
  ends := h.ends.mono imp
  halts e hx := imp' e (h.halts e hx)

theorem lift {x : Except Fault α} (h : Keeps P x) : Leaves P Q (liftM x) where
  ends := h.lift
  halts _ hx := by
    cases x with
    | error fault => cases hx
    | ok a => cases hx

theorem bind (h : Leaves P Q x) (next : ∀ a, P a → Leaves R Q (f a)) : Leaves R Q (x >>= f) where
  ends := h.ends.bind fun a ha => (next a ha).ends
  halts e hx := by
    cases hrun : x with
    | error abort =>
      rw [hrun] at hx
      cases hx
      exact h.halts e hrun
    | ok a =>
      rw [hrun] at hx
      exact (next a (h.ends a hrun)).halts e hx

/-- A step that can only fault, and of which nothing is stated. -/
theorem read {x : Except Fault α} {f : α → Except (Abort ε) β}
    (next : ∀ a, x = .ok a → Leaves R Q (f a)) : Leaves R Q (liftM x >>= f) :=
  (lift (P := fun a => x = .ok a) fun _ h => h).bind next

end Leaves

/-! ## Lists that may be missing -/

/-- The list a step gives, or no element at all when it faults. -/
def elements {α : Type} (step : Except Fault (List α)) : List α :=
  match step with
  | .ok xs => xs
  | .error _ => []

@[simp] theorem elements_ok {α : Type} (xs : List α) : elements (.ok xs) = xs := rfl

@[simp] theorem elements_error {α : Type} (fault : Fault) :
    elements (.error fault : Except Fault (List α)) = [] := rfl

end FrontEnd
