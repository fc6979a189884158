import FrontEnd.Proofs.Script
/-!
# FrontEnd — what a span reads

A span lies in a source when it starts and stops between characters
(`lies_iff`). Spans that lie in it may be merged, and read the same
however the source goes on (`Span.read_append`).
-/

namespace FrontEnd

variable {source more word : String} {span s t u : Span} {offset : Nat}

/-- The one span is inside the other. -/
def Span.Covers (s t : Span) : Prop := s.start ≤ t.start ∧ t.stop ≤ s.stop

/-- Some word stands in the source, at the span. -/
def Lies (source : String) (span : Span) : Prop := ∃ word, Reads source span word

namespace Span

theorem stop_merge (s t : Span) : (s.merge t).stop = max s.stop t.stop := by
  simp only [merge, stop]
  omega

theorem merge_covers_left (s t : Span) : (s.merge t).Covers s :=
  ⟨Nat.min_le_left .., by rw [stop_merge]; exact Nat.le_max_left ..⟩

theorem merge_covers_right (s t : Span) : (s.merge t).Covers t :=
  ⟨Nat.min_le_right .., by rw [stop_merge]; exact Nat.le_max_right ..⟩

theorem Covers.refl (s : Span) : s.Covers s := ⟨Nat.le_refl _, Nat.le_refl _⟩

theorem Covers.trans (h : s.Covers t) (h' : t.Covers u) : s.Covers u :=
  ⟨Nat.le_trans h.1 h'.1, Nat.le_trans h'.2 h.2⟩

end Span

/-! ## Lying in a source -/

/-- **A span lies in a source when its ends are between characters.** -/
theorem lies_iff : Lies source span ↔ isBoundary source span.start ∧ isBoundary source span.stop := by
  constructor
  · rintro ⟨word, before, after, rfl, rfl⟩
    refine ⟨isBoundary_iff.2 ⟨before, word ++ after, String.append_assoc .., rfl⟩,
      isBoundary_iff.2 ⟨before ++ word, after, rfl, ?_⟩⟩
    rw [String.utf8ByteSize_append]
    rfl
  · rintro ⟨start, stop⟩
    obtain ⟨before, after, rfl, hstart⟩ := isBoundary_iff.1 start
    obtain ⟨upTo, rest, same, hstop⟩ := isBoundary_iff.1 stop
    obtain ⟨word, rfl⟩ := exists_eq_append same (by
      rw [← hstart, ← hstop]
      exact Nat.le_add_right ..)
    refine ⟨word, before, rest, same, ?_⟩
    rw [String.utf8ByteSize_append, Span.stop, hstart, Nat.add_left_cancel_iff] at hstop
    rw [← hstart, ← hstop]

theorem Lies.merge (h : Lies source s) (h' : Lies source t) : Lies source (s.merge t) := by
  obtain ⟨start, stop⟩ := lies_iff.1 h
  obtain ⟨start', stop'⟩ := lies_iff.1 h'
  rw [lies_iff, Span.stop_merge]
  constructor
  · rcases Nat.le_total s.start t.start with le | le
    · rwa [Span.merge, Nat.min_eq_left le]
    · rwa [Span.merge, Nat.min_eq_right le]
  · rcases Nat.le_total s.stop t.stop with le | le
    · rwa [Nat.max_eq_right le]
    · rwa [Nat.max_eq_left le]

theorem Lies.continues {source' : String} (h : Lies source span) (grows : Continues source source') :
    Lies source' span :=
  h.imp fun _ h => h.continues grows

/-- Up to the end of a text, its places between characters are those of
any text that starts with it. -/
theorem isBoundary_append (h : offset ≤ source.utf8ByteSize) :
    isBoundary (source ++ more) offset = isBoundary source offset := by
  rw [Bool.eq_iff_iff, isBoundary_iff, isBoundary_iff]
  constructor
  · rintro ⟨before, after, same, rfl⟩
    obtain ⟨rest, rfl⟩ := exists_eq_append same.symm h
    exact ⟨before, rest, rfl, rfl⟩
  · rintro ⟨before, after, rfl, rfl⟩
    exact ⟨before, after ++ more, String.append_assoc .., rfl⟩

/-- A span that does not lie in a source reads nothing there. -/
theorem read_of_not_lies (h : ¬ Lies source span) : span.read source = "" := by
  rw [lies_iff] at h
  rw [Span.read, sliceBytes?, dif_neg fun slice => h slice.2]
  rfl

/-- **What a span reads does not depend on what is written behind it.** -/
theorem Span.read_append (h : span.stop ≤ source.utf8ByteSize) :
    span.read (source ++ more) = span.read source := by
  by_cases lies : Lies source span
  · obtain ⟨word, reads⟩ := lies
    rw [reads.read, reads.append.read]
  · have not_there : ¬ Lies (source ++ more) span := by
      rwa [lies_iff, isBoundary_append h,
        isBoundary_append (Nat.le_trans (Nat.le_add_right ..) h), ← lies_iff]
    rw [read_of_not_lies lies, read_of_not_lies not_there]

end FrontEnd
