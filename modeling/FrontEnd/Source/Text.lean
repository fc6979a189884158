/-!
# FrontEnd — reading a source by bytes

Positions in a source count bytes of its UTF-8 encoding. `sliceBytes?`
reads the text between two of them, and refuses a pair that is out of
order, out of the text, or inside a character. What stands between two
texts is read between their ends (`sliceBytes?_append`).
-/

namespace FrontEnd

/-- Whether a byte offset stands before, between or after the characters
of the text, and not inside one. -/
def isBoundary (source : String) (offset : Nat) : Bool := String.Pos.Raw.isValid source ⟨offset⟩

theorem isBoundary_iff {source : String} {offset : Nat} :
    isBoundary source offset = true ↔
      ∃ before after : String, source = before ++ after ∧ offset = before.utf8ByteSize := by
  simp only [isBoundary, String.Pos.Raw.isValid_eq_true_iff,
    String.Pos.Raw.isValid_iff_exists_append, String.rawEndPos, String.Pos.Raw.mk.injEq]

/-- Of two texts that a text starts with, the longer goes on where the
other ends. -/
theorem exists_eq_append {before after before' after' : String}
    (h : before ++ after = before' ++ after')
    (le : before.utf8ByteSize ≤ before'.utf8ByteSize) : ∃ mid : String, before' = before ++ mid := by
  have chars : before.toList ++ after.toList = before'.toList ++ after'.toList := by
    rw [← String.toList_append, h, String.toList_append]
  rcases List.append_eq_append_iff.1 chars with ⟨mid, hmid, -⟩ | ⟨mid, hmid, -⟩
  · refine ⟨String.ofList mid, ?_⟩
    rw [← String.toList_inj, hmid, String.toList_append, String.toList_ofList]
  · have longer : before = before' ++ String.ofList mid := by
      rw [← String.toList_inj, hmid, String.toList_append, String.toList_ofList]
    rw [longer, String.utf8ByteSize_append] at le
    have empty : String.ofList mid = "" := String.utf8ByteSize_eq_zero_iff.1 (by omega)
    exact ⟨"", by rw [longer, empty, String.append_empty, String.append_empty]⟩

/-- The text from byte `start` up to, and without, byte `stop`. -/
def sliceBytes? (source : String) (start stop : Nat) : Option String :=
  if h : start ≤ stop ∧ isBoundary source start ∧ isBoundary source stop then
    some (source.extract
      (source.pos ⟨start⟩ (String.Pos.Raw.isValid_eq_true_iff.1 h.2.1))
      (source.pos ⟨stop⟩ (String.Pos.Raw.isValid_eq_true_iff.1 h.2.2)))
  else none

/-- **What stands between two texts is read between their ends.** -/
theorem sliceBytes?_append (before word after : String) :
    sliceBytes? (before ++ word ++ after) before.utf8ByteSize
      (before.utf8ByteSize + word.utf8ByteSize) = some word := by
  have h : before.utf8ByteSize ≤ before.utf8ByteSize + word.utf8ByteSize ∧
      isBoundary (before ++ word ++ after) before.utf8ByteSize ∧
      isBoundary (before ++ word ++ after) (before.utf8ByteSize + word.utf8ByteSize) :=
    ⟨Nat.le_add_right _ _,
      isBoundary_iff.2 ⟨before, word ++ after, String.append_assoc .., rfl⟩,
      isBoundary_iff.2 ⟨before ++ word, after, rfl, (String.utf8ByteSize_append).symm⟩⟩
  have hb : before.toByteArray.size = before.utf8ByteSize := rfl
  have hw : word.toByteArray.size = word.utf8ByteSize := rfl
  have hempty : before.toByteArray.extract before.utf8ByteSize
      (before.utf8ByteSize + word.utf8ByteSize) = ByteArray.empty := by
    rw [ByteArray.extract_eq_empty_iff, hb]
    exact Nat.min_le_right _ _
  have hword : word.toByteArray.extract 0 word.utf8ByteSize = word.toByteArray :=
    ByteArray.extract_zero_size
  rw [sliceBytes?, dif_pos h, Option.some.injEq, ← String.toByteArray_inj,
    String.toByteArray_extract, String.toByteArray_append, String.toByteArray_append,
    String.offset_pos, String.offset_pos, ByteArray.append_assoc, ByteArray.extract_append,
    ByteArray.extract_append]
  simp [hb, hw, hempty, hword]

/-- The byte that ends a line. -/
def newlineByte : UInt8 := 10

end FrontEnd
