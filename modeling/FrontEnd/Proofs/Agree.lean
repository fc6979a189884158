import FrontEnd.Proofs.Voice
/-!
# FrontEnd — runs that say the same

Two runs of a part of a pass `Agree` if they complain about the same, one
thing after the other, whatever voices they have, and come to results
that are related. Runs agree whose parts do, so a whole pass is gone
through part by part.
-/

namespace FrontEnd

section

variable {ε α ρ ρ' σ σ' : Type} {exact : Prop}
variable {R : (Voice → ρ) → (Voice → ρ') → Prop} {S : (Voice → σ) → (Voice → σ') → Prop}

/-- Whatever their voices, both runs hear the same complaints and come to
results that are related, or the first fails for one reason. If the runs
are not exactly the same, then the second may fail alone. -/
inductive Agree (exact : Prop) (R : (Voice → ρ) → (Voice → ρ') → Prop)
    (f : Voice → Except ε ρ) (g : Voice → Except ε ρ') : Prop
  | ok (cs : List Complaint) {r : Voice → ρ} {r' : Voice → ρ'}
      (left : ∀ v, f v = .ok (r (v.hearAll cs))) (right : ∀ v, g v = .ok (r' (v.hearAll cs)))
      (related : R r r')
  | error {e : ε} (left : ∀ v, f v = .error e)
  | apart (inexact : ¬ exact) (right : ∀ v, ∃ e, g v = .error e)

namespace Agree

variable {f f' : Voice → Except ε ρ} {g g' : Voice → Except ε ρ'}

theorem pure {r : Voice → ρ} {r' : Voice → ρ'} (h : R r r') :
    Agree exact R (fun v => (.ok (r v) : Except ε ρ)) (fun v => .ok (r' v)) :=
  .ok [] (fun _ => rfl) (fun _ => rfl) h

theorem congr (h : Agree exact R f' g') (hf : ∀ v, f v = f' v) (hg : ∀ v, g v = g' v) :
    Agree exact R f g := by
  rwa [funext hf, funext hg]

theorem mono {R' : (Voice → ρ) → (Voice → ρ') → Prop} (h : Agree exact R f g)
    (hR : ∀ r r', R r r' → R' r r') : Agree exact R' f g := by
  cases h with
  | ok cs left right related => exact .ok cs left right (hR _ _ related)
  | error left => exact .error left
  | apart inexact right => exact .apart inexact right

/-- **Runs agree whose parts do.** -/
theorem bind {k : ρ → Except ε σ} {k' : ρ' → Except ε σ'} (h : Agree exact R f g)
    (next : ∀ r r', R r r' → Agree exact S (fun v => k (r v)) (fun v => k' (r' v))) :
    Agree exact S (fun v => f v >>= k) (fun v => g v >>= k') := by
  cases h with
  | ok cs left right related =>
    cases next _ _ related with
    | ok cs' left' right' related' =>
      refine .ok (cs ++ cs') (fun v => ?_) (fun v => ?_) related'
      · rw [left, ok_bind, left', Voice.hearAll_append]
      · rw [right, ok_bind, right', Voice.hearAll_append]
    | error left' => exact .error fun v => by rw [left, ok_bind, left']
    | apart inexact right' =>
      refine .apart inexact fun v => ?_
      obtain ⟨e, he⟩ := right' (v.hearAll cs)
      exact ⟨e, by rw [right, ok_bind, he]⟩
  | error left => exact .error fun v => by rw [left]; rfl
  | apart inexact right =>
    refine .apart inexact fun v => ?_
    obtain ⟨e, he⟩ := right v
    exact ⟨e, by rw [he]; rfl⟩

/-- A part that reads what does not depend on the voice. -/
theorem read {u u' : Except ε α} {k : Voice → α → Except ε σ} {k' : Voice → α → Except ε σ'}
    (hu : exact → u = u') (next : ∀ x x', u = .ok x → u' = .ok x' → (exact → x = x') →
      Agree exact S (fun v => k v x) (fun v => k' v x')) :
    Agree exact S (fun v => u >>= k v) (fun v => u' >>= k' v) := by
  cases u with
  | error e => exact .error fun v => rfl
  | ok x =>
    cases u' with
    | ok x' => exact next x x' rfl rfl fun h => Except.ok.inj (hu h)
    | error e => exact .apart (fun h => nomatch hu h) fun v => ⟨e, rfl⟩

/-- Runs over a list agree whose steps do. -/
theorem foldlM {step : ρ → α → Except ε ρ} {step' : ρ' → α → Except ε ρ'} {xs : List α}
    {r : Voice → ρ} {r' : Voice → ρ'} (h : R r r')
    (hstep : ∀ x ∈ xs, ∀ r r', R r r' →
      Agree exact R (fun v => step (r v) x) (fun v => step' (r' v) x)) :
    Agree exact R (fun v => xs.foldlM step (r v)) (fun v => xs.foldlM step' (r' v)) := by
  induction xs generalizing r r' with
  | nil => exact .pure h
  | cons x xs ih =>
    simp only [List.foldlM_cons]
    exact (hstep x List.mem_cons_self r r' h).bind fun r r' h =>
      ih h fun y hy => hstep y (List.mem_cons_of_mem _ hy)

/-- Runs that can only fault agree also where an error is possible. -/
theorem lift {f : Voice → Except Fault ρ} {g : Voice → Except Fault ρ'} (h : Agree exact R f g) :
    Agree exact R (fun v => (liftM (f v) : Except (Abort ε) ρ)) (fun v => liftM (g v)) := by
  cases h with
  | ok cs left right related =>
    exact .ok cs (fun v => by rw [left, lift_ok]) (fun v => by rw [right, lift_ok]) related
  | error left => exact .error fun v => by rw [left]; rfl
  | apart inexact right =>
    refine .apart inexact fun v => ?_
    obtain ⟨e, he⟩ := right v
    exact ⟨.fault e, by rw [he]; rfl⟩

end Agree

end

end FrontEnd
