import FrontEnd.Proofs.Truncation
/-!
# FrontEnd — a check has said all it has to say

Once a voice has heard a complaint, the expression is flagged or the
queue refuses the diagnostic, and it stays so whatever is heard after
that (`Voice.Quiet`). What a check complains about does not depend on the
voice. So a second check hears only what its voice is quiet about
(`check_twice`), whether the queue kept it, dropped it past its limit or
took it for a duplicate.
-/

namespace FrontEnd

namespace Voice

/-- The voice takes nothing in of the complaint: its expression is flagged
or its diagnostic refused. -/
def Quiet (v : Voice) (c : Complaint) : Prop :=
  v.flags c.expr = true ∨ v.queue.refuses c.diagnostic = true

variable {v : Voice} {c c' : Complaint} {cs : List Complaint}

/-- What a voice is quiet about changes only the count of what was dropped. -/
theorem Quiet.hear_eq (h : v.Quiet c) : ∃ n, v.hear c = ⟨v.flags, { v.queue with dropped := n }⟩ := by
  cases hf : v.flags c.expr with
  | true => exact ⟨v.queue.dropped, hear_flagged hf⟩
  | false => exact hear_refused hf (h.resolve_left (by simp [hf]))

theorem grows_hear (v : Voice) (c : Complaint) : v.queue.Grows (v.hear c).queue := by
  cases hf : v.flags c.expr with
  | true => rw [hear_flagged hf]; exact ⟨rfl, List.prefix_refl _⟩
  | false =>
    cases hr : v.queue.refuses c.diagnostic with
    | true =>
      obtain ⟨n, hn⟩ := hear_refused hf hr
      rw [hn]
      exact Queue.grows_dropped _ n
    | false =>
      rw [hear_kept hf hr]
      exact Queue.grows_append _ _

/-- A voice that is quiet about a complaint stays so. -/
theorem Quiet.hear (h : v.Quiet c) (c' : Complaint) : (v.hear c').Quiet c :=
  h.imp flags_hear (v.grows_hear c').refuses

/-- **A voice is quiet about what it has just heard**, for one of two
reasons: the flag if the complaint was kept, the queue if it was not. -/
theorem quiet_hear (v : Voice) (c : Complaint) : (v.hear c).Quiet c := by
  cases hf : v.flags c.expr with
  | true => exact .inl (flags_hear hf)
  | false =>
    cases hr : v.queue.refuses c.diagnostic with
    | true => exact .inr ((v.grows_hear c).refuses hr)
    | false => exact .inl (by rw [hear_kept hf hr]; simp)

theorem Quiet.hearAll (h : v.Quiet c) (cs : List Complaint) : (v.hearAll cs).Quiet c := by
  induction cs generalizing v with
  | nil => exact h
  | cons c' cs ih => exact ih (h.hear c')

/-- A voice is quiet about all that it has heard. -/
theorem quiet_hearAll (v : Voice) (hc : c ∈ cs) : (v.hearAll cs).Quiet c := by
  induction cs generalizing v with
  | nil => cases hc
  | cons c' cs ih =>
    rcases List.mem_cons.1 hc with rfl | hc
    · exact (v.quiet_hear c).hearAll cs
    · exact ih (v.hear c') hc

theorem hearAll_of_quiet (h : ∀ c ∈ cs, v.Quiet c) :
    ∃ n, v.hearAll cs = ⟨v.flags, { v.queue with dropped := n }⟩ := by
  induction cs generalizing v with
  | nil => exact ⟨v.queue.dropped, rfl⟩
  | cons c cs ih =>
    obtain ⟨hc, hcs⟩ := List.forall_mem_cons.1 h
    obtain ⟨n, hn⟩ := hc.hear_eq
    obtain ⟨m, hm⟩ := ih fun c' hc' => (hcs c' hc').hear c
    refine ⟨m, hm.trans ?_⟩
    rw [hn]

end Voice

namespace Analysis

variable {a b : Analysis}

/-- **A second check is silent whatever happened before.** A check that
succeeds sets flags of expressions and changes nothing else in the
program. After it, with the queue as it then is, a check succeeds again,
changes nothing in the program and adds no diagnostic. -/
theorem check_twice (checked : a.check = .ok b) :
    a.program.FlaggedWithin b.program ∧ ∃ c, b.check = .ok c ∧ b.Unmoved c := by
  rw [← a.sounding_voice] at checked
  cases a.program.check_hears with
  | fails h => cases (h a.voice).symm.trans checked
  | hears cs h =>
    obtain rfl : a.program.sounding (a.voice.hearAll cs) = b :=
      Except.ok.inj ((h a.voice).symm.trans checked)
    constructor
    · have kept : ∀ e, a.program.flags e = true → (a.voice.hearAll cs).flags e = true :=
        fun _ => Voice.flags_hearAll (v := a.voice)
      have within : (a.program.voiced a.program.flags).FlaggedWithin (a.program.sounding _).program :=
        Program.flaggedWithin_voiced kept
      rwa [Program.voiced_flags] at within
    · -- the complaints are those of the first run, and the voice has heard them all
      obtain ⟨n, hn⟩ := Voice.hearAll_of_quiet fun c (hc : c ∈ cs) => a.voice.quiet_hearAll hc
      exact ⟨_, h _, n, by rw [hn]; rfl⟩

/-- The queue holds what there is to say about `x`, which is used twice,
and has room for `y`, but not for `z`. -/
theorem check_twice_refused :
    Succeeds (Program.build
        [.identifier "x", .output ⟨0⟩, .output ⟨0⟩, .identifier "y", .output ⟨1⟩, .identifier "z", .output ⟨2⟩])
      fun (p, source) =>
        let queue : Queue := ⟨{ errorLimit := 2 }, [.ofCode .unknownName ⟨0, 1⟩], 0⟩
        Succeeds (Analysis.resolveNames ⟨p, queue⟩ source) fun a => Succeeds a.check fun b =>
          b.queue.size = 2 ∧ b.queue.dropped = 1 ∧
          b.program.exprs.toList.map (·.flagged) = [false, true, false] ∧
          a.program.FlaggedWithin b.program ∧
          Succeeds b.check fun c => c.queue.dropped = 4 ∧ b.Unmoved c := by
  have facts : Succeeds (Program.build
        [.identifier "x", .output ⟨0⟩, .output ⟨0⟩, .identifier "y", .output ⟨1⟩, .identifier "z", .output ⟨2⟩])
      fun (p, source) =>
        let queue : Queue := ⟨{ errorLimit := 2 }, [.ofCode .unknownName ⟨0, 1⟩], 0⟩
        Succeeds (Analysis.resolveNames ⟨p, queue⟩ source) fun a => Succeeds a.check fun b =>
          b.queue.size = 2 ∧ b.queue.dropped = 1 ∧
          b.program.exprs.toList.map (·.flagged) = [false, true, false] ∧
          Succeeds b.check fun c => c.queue.dropped = 4 := by decide +kernel
  obtain ⟨⟨p, source⟩, built, a, named, b, checked, hsize, hdropped, hflags, c, hc, hdropped'⟩ := facts
  obtain ⟨within, c', hc', unmoved⟩ := check_twice checked
  cases hc.symm.trans hc'
  exact ⟨(p, source), built, a, named, b, checked, hsize, hdropped, hflags, within, c, hc, hdropped', unmoved⟩

end Analysis

end FrontEnd
