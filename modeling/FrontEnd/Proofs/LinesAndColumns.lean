import Mathlib.Data.List.DropRight
import FrontEnd.Source.LineTable
/-!
# FrontEnd — lines and columns of a text

A line table is built once and searched. What it answers is what a scan
of the text from its start would count: the newline bytes before an
offset give the line, and the characters after the last newline give
the column (`position_ofText`).
-/

namespace FrontEnd

variable {values : List Nat} {bytes : List UInt8} {base n v value index : Nat}

/-! ## Searching a list in order -/

/-- Nothing up to a value stands in a list that starts beyond it. -/
theorem countP_le_of_forall_lt (h : ∀ v ∈ values, value < v) : values.countP (· ≤ value) = 0 :=
  List.countP_eq_zero.2 fun v hv => by
    have := h v hv
    simp only [decide_eq_true_eq]
    omega

theorem countP_le_cons (h : v ≤ value) :
    (v :: values).countP (· ≤ value) = values.countP (· ≤ value) + 1 :=
  List.countP_cons_of_pos (decide_eq_true h)

/-- Where the value is, one more than its index are up to it. -/
theorem countP_le_of_idxOf (ordered : values.Pairwise (· < ·))
    (h : values.idxOf? value = some index) : values.countP (· ≤ value) = index + 1 := by
  induction values generalizing index with
  | nil => cases h
  | cons v values ih =>
    obtain ⟨beyond, rest⟩ := List.pairwise_cons.1 ordered
    rw [List.idxOf?_cons] at h
    by_cases hv : v = value
    · subst hv
      rw [if_pos (beq_self_eq_true v)] at h
      cases h
      rw [countP_le_cons (Nat.le_refl v), countP_le_of_forall_lt beyond]
    · rw [if_neg (by simpa using hv)] at h
      obtain ⟨i, hi, rfl⟩ := Option.map_eq_some_iff.1 h
      have held : value ∈ values := by
        by_contra missing
        rw [List.idxOf?_eq_none_iff.2 missing] at hi
        cases hi
      rw [countP_le_cons (Nat.le_of_lt (beyond value held)), ih rest hi]

/-- Those up to a value are the ones before the first one beyond it. -/
theorem countP_le_eq_findIdx (ordered : values.Pairwise (· < ·)) :
    values.countP (· ≤ value) = values.findIdx (value < ·) := by
  induction values with
  | nil => rfl
  | cons v values ih =>
    obtain ⟨beyond, rest⟩ := List.pairwise_cons.1 ordered
    rw [List.findIdx_cons]
    by_cases hv : value < v
    · rw [decide_eq_true hv, cond_true]
      refine countP_le_of_forall_lt fun w hw => ?_
      rcases List.mem_cons.1 hw with rfl | hw
      · exact hv
      · exact hv.trans (beyond w hw)
    · rw [decide_eq_false hv, cond_false, ← ih rest, countP_le_cons (Nat.le_of_not_lt hv)]

/-- **The line found is the number of lines that start up to the
offset,** whether one starts there or not. -/
theorem LineTable.lineOf_eq_countP {t : LineTable} (ordered : t.starts.Pairwise (· < ·))
    (first : 0 ∈ t.starts) (offset : Nat) : t.lineOf offset = t.starts.countP (· ≤ offset) := by
  have some_line : 0 < t.starts.countP (· ≤ offset) :=
    List.countP_pos_iff.2 ⟨0, first, decide_eq_true (Nat.zero_le offset)⟩
  rw [lineOf, search]
  cases h : t.starts.idxOf? offset with
  | some index => exact (countP_le_of_idxOf ordered h).symm
  | none =>
    rw [countP_le_eq_findIdx ordered] at some_line ⊢
    exact Nat.sub_add_cancel some_line

/-! ## Where the lines of a text start -/

/-- The offsets just after the newlines of a run of bytes, the first of
which stands at `base`. -/
def afterNewlines (base : Nat) : List UInt8 → List Nat
  | [] => []
  | byte :: bytes =>
    if byte = newlineByte then (base + 1) :: afterNewlines (base + 1) bytes
    else afterNewlines (base + 1) bytes

theorem afterNewlines_eq (base : Nat) (bytes : List UInt8) :
    ((bytes.zipIdx base).filter (·.1 == newlineByte)).map (·.2 + 1) = afterNewlines base bytes := by
  induction bytes generalizing base with
  | nil => rfl
  | cons byte bytes ih =>
    rw [List.zipIdx_cons, List.filter_cons, afterNewlines]
    by_cases h : byte = newlineByte
    · rw [if_pos (by simpa using h), if_pos h, List.map_cons, ih]
    · rw [if_neg (by simpa using h), if_neg h, ih]

theorem lt_of_mem_afterNewlines (h : v ∈ afterNewlines base bytes) : base < v := by
  induction bytes generalizing base with
  | nil => cases h
  | cons byte bytes ih =>
    rw [afterNewlines] at h
    split at h
    · rcases List.mem_cons.1 h with rfl | h
      · exact Nat.lt_succ_self base
      · exact Nat.lt_of_succ_lt (ih h)
    · exact Nat.lt_of_succ_lt (ih h)

theorem afterNewlines_pairwise (base : Nat) (bytes : List UInt8) :
    (afterNewlines base bytes).Pairwise (· < ·) := by
  induction bytes generalizing base with
  | nil => exact List.Pairwise.nil
  | cons byte bytes ih =>
    rw [afterNewlines]
    split
    · exact List.pairwise_cons.2 ⟨fun v hv => lt_of_mem_afterNewlines hv, ih (base + 1)⟩
    · exact ih (base + 1)

/-- As many lines start up to an offset as newlines stand before it. -/
theorem countP_afterNewlines (base n : Nat) (bytes : List UInt8) :
    (afterNewlines base bytes).countP (· ≤ base + n) = (bytes.take n).count newlineByte := by
  induction bytes generalizing base n with
  | nil => rw [List.take_nil]; rfl
  | cons byte bytes ih =>
    cases n with
    | zero => exact countP_le_of_forall_lt fun v hv => lt_of_mem_afterNewlines hv
    | succ n =>
      have step : base + (n + 1) = base + 1 + n := by omega
      rw [afterNewlines, List.take_succ_cons, step]
      by_cases h : byte = newlineByte
      · rw [if_pos h, countP_le_cons (Nat.le_add_right ..), ih, h, List.count_cons_self]
      · rw [if_neg h, ih, List.count_cons_of_ne h]

/-- The newline after `before` starts the line that is as far down as
newlines stand before it. -/
theorem afterNewlines_getElem (base : Nat) (before after : List UInt8) :
    (afterNewlines base (before ++ newlineByte :: after))[before.count newlineByte]? =
      some (base + before.length + 1) := by
  induction before generalizing base with
  | nil => rw [List.nil_append, afterNewlines, if_pos rfl]; rfl
  | cons byte before ih =>
    have step : base + (byte :: before).length = base + 1 + before.length := by
      rw [List.length_cons]; omega
    rw [List.cons_append, afterNewlines, step]
    by_cases h : byte = newlineByte
    · rw [if_pos h, h, List.count_cons_self, List.getElem?_cons_succ, ih]
    · rw [if_neg h, List.count_cons_of_ne h, ih]

/-! ## The bytes of a text -/

/-- The bytes of a text. -/
def utf8 (text : String) : List UInt8 := text.toUTF8.data.toList

theorem utf8_append (s t : String) : utf8 (s ++ t) = utf8 s ++ utf8 t := by
  rw [utf8, String.toUTF8, String.toByteArray_append, ByteArray.data_append, Array.toList_append]
  rfl

theorem length_utf8 (s : String) : (utf8 s).length = s.utf8ByteSize := rfl

theorem utf8_ofList (chars : List Char) :
    utf8 (String.ofList chars) = chars.flatMap String.utf8EncodeChar := by
  rw [utf8, String.toUTF8, String.toByteArray_ofList, List.utf8Encode, List.toList_data_toByteArray]

theorem take_utf8_append (s t : String) : (utf8 (s ++ t)).take s.utf8ByteSize = utf8 s := by
  rw [utf8_append, ← length_utf8, List.take_left]

theorem eq_ten_of_newlineByte {n : Nat} (small : n < 256) (h : newlineByte = UInt8.ofNat n) :
    n = 10 := by
  have bytes := congrArg UInt8.toNat h
  rw [UInt8.toNat_ofNat', Nat.mod_eq_of_lt small] at bytes
  exact bytes.symm

/-- Only a newline is written with the byte of one: the bytes of a
character of several are all too large. -/
theorem eq_newline_of_mem_utf8 {c : Char} (h : newlineByte ∈ String.utf8EncodeChar c) :
    c = '\n' := by
  have code : c.val.toNat = 10 := by
    rw [String.utf8EncodeChar] at h
    split_ifs at h <;> simp only [List.mem_cons, List.not_mem_nil, or_false] at h
    · exact eq_ten_of_newlineByte (by omega) h
    -- the bytes of a longer form are all at least 128
    · rcases h with h | h
      all_goals have := eq_ten_of_newlineByte (by omega) h; omega
    · rcases h with h | h | h
      all_goals have := eq_ten_of_newlineByte (by omega) h; omega
    · rcases h with h | h | h | h
      all_goals have := eq_ten_of_newlineByte (by omega) h; omega
  exact Char.ext (UInt32.toNat_inj.1 code)

theorem newlineByte_not_mem_utf8 {chars : List Char} (h : '\n' ∉ chars) :
    newlineByte ∉ utf8 (String.ofList chars) := by
  rw [utf8_ofList, List.mem_flatMap]
  rintro ⟨c, hc, hb⟩
  exact h (eq_newline_of_mem_utf8 hb ▸ hc)

theorem newlineByte_mem_utf8 {text : String} (h : '\n' ∈ text.toList) :
    newlineByte ∈ utf8 text := by
  rw [← String.ofList_toList (s := text), utf8_ofList, List.mem_flatMap]
  exact ⟨'\n', h, List.mem_singleton_self _⟩

/-! ## The last line of a text -/

/-- The characters of a text after its last newline. -/
def lastLine (text : String) : List Char := text.toList.rtakeWhile (· ≠ '\n')

/-- **A text is its last line, after nothing or after a text that a
newline ends.** -/
theorem eq_append_lastLine (text : String) :
    ∃ earlier : String, text = earlier ++ String.ofList (lastLine text) ∧
      (earlier = "" ∨ ∃ t, earlier = t ++ "\n") := by
  have parts := List.rdropWhile_append_rtakeWhile (p := (· ≠ '\n')) (l := text.toList)
  refine ⟨String.ofList (text.toList.rdropWhile (· ≠ '\n')), ?_, ?_⟩
  · rw [← String.ofList_append, lastLine, parts, String.ofList_toList]
  · by_cases h : text.toList.rdropWhile (· ≠ '\n') = []
    · exact .inl (by rw [h])
    · have last : (text.toList.rdropWhile (· ≠ '\n')).getLast h = '\n' := by
        simpa using List.rdropWhile_last_not _ _ h
      refine .inr ⟨String.ofList (text.toList.rdropWhile (· ≠ '\n')).dropLast, ?_⟩
      conv_lhs => rw [← List.dropLast_append_getLast h]
      rw [String.ofList_append, last]

theorem newline_not_mem_lastLine (text : String) : '\n' ∉ lastLine text := fun h => by
  simpa using List.mem_rtakeWhile_imp h

/-- What is added to a text without a newline is added to its last line. -/
theorem lastLine_append {s t : String} (h : '\n' ∉ t.toList) :
    lastLine (s ++ t) = lastLine s ++ t.toList := by
  have keep : ∀ chars : List Char, '\n' ∉ chars →
      (s.toList ++ chars).rtakeWhile (· ≠ '\n') = lastLine s ++ chars := by
    intro chars
    induction chars using List.reverseRecOn with
    | nil => intro _; rw [List.append_nil, List.append_nil, lastLine]
    | append_singleton chars c ih =>
      intro h
      rw [← List.append_assoc, List.rtakeWhile_concat_pos, ih, List.append_assoc]
      · exact fun hm => h (List.mem_append_left _ hm)
      · simp only [ne_eq, decide_not, Bool.not_eq_true', decide_eq_false_iff_not]
        rintro rfl
        exact h (List.mem_append_right _ (List.mem_singleton_self _))
  rw [lastLine, String.toList_append, keep _ h]

/-- The newlines of a text are those before its last line. -/
theorem count_utf8_append_lastLine {earlier text : String}
    (h : text = earlier ++ String.ofList (lastLine text)) :
    (utf8 text).count newlineByte = (utf8 earlier).count newlineByte := by
  conv_lhs => rw [h]
  rw [utf8_append, List.count_append,
    List.count_eq_zero.2 (newlineByte_not_mem_utf8 (newline_not_mem_lastLine text)), Nat.add_zero]

/-! ## Positions -/

/-- Earlier in a text: on an earlier line, or earlier on the same one. -/
def Position.Before (p q : Position) : Prop :=
  p.line < q.line ∨ p.line = q.line ∧ p.column < q.column

theorem Position.Before.ne {p q : Position} (h : p.Before q) : p ≠ q := by
  rintro rfl
  rcases h with h | ⟨-, h⟩
  · exact Nat.lt_irrefl _ h
  · exact Nat.lt_irrefl _ h

namespace LineTable

variable {source before after earlier : String} {offset : Nat}

theorem starts_ofText (source : String) :
    (ofText source).starts = 0 :: afterNewlines 0 (utf8 source) :=
  congrArg (0 :: ·) (afterNewlines_eq 0 (utf8 source))

/-- **The line of an offset is one more than the newlines before it.** -/
theorem lineOf_ofText (source : String) (offset : Nat) :
    (ofText source).lineOf offset = 1 + ((utf8 source).take offset).count newlineByte := by
  have beyond : ∀ v ∈ afterNewlines 0 (utf8 source), 0 < v := fun v hv => lt_of_mem_afterNewlines hv
  have ordered : (ofText source).starts.Pairwise (· < ·) := by
    rw [starts_ofText]
    exact List.pairwise_cons.2 ⟨beyond, afterNewlines_pairwise 0 _⟩
  have first : 0 ∈ (ofText source).starts := by
    rw [starts_ofText]
    exact List.mem_cons_self
  have newlines := countP_afterNewlines 0 offset (utf8 source)
  rw [Nat.zero_add] at newlines
  rw [lineOf_eq_countP ordered first, starts_ofText, countP_le_cons (Nat.zero_le offset), newlines,
    Nat.add_comm]

/-- The line after a text that a newline ends, or after none, starts
where that text stops. -/
theorem start_ofText (h : earlier = "" ∨ ∃ t, earlier = t ++ "\n") (after : String) :
    (ofText (earlier ++ after)).starts.getD ((utf8 earlier).count newlineByte) 0 =
      earlier.utf8ByteSize := by
  rw [starts_ofText]
  rcases h with rfl | ⟨t, rfl⟩
  · rfl
  · have bytes : utf8 (t ++ "\n" ++ after) = utf8 t ++ newlineByte :: utf8 after := by
      rw [utf8_append, utf8_append, List.append_assoc]
      rfl
    have count : (utf8 (t ++ "\n")).count newlineByte = (utf8 t).count newlineByte + 1 := by
      rw [utf8_append, List.count_append]
      rfl
    rw [bytes, count, List.getD_cons_succ, List.getD_eq_getElem?_getD, afterNewlines_getElem,
      Option.getD_some, Nat.zero_add, length_utf8, String.utf8ByteSize_append]
    rfl

/-- **The column of a place between two characters is one more than the
characters of the line before it.** -/
theorem position_append (before after : String) :
    (ofText (before ++ after)).position (before ++ after) before.utf8ByteSize =
      ⟨1 + (utf8 before).count newlineByte, 1 + (lastLine before).length⟩ := by
  obtain ⟨earlier, split, ends⟩ := eq_append_lastLine before
  have line : (ofText (before ++ after)).lineOf before.utf8ByteSize =
      1 + (utf8 before).count newlineByte := by
    rw [lineOf_ofText, take_utf8_append]
  have start : (ofText (before ++ after)).starts.getD ((utf8 before).count newlineByte) 0 =
      earlier.utf8ByteSize := by
    rw [count_utf8_append_lastLine split]
    conv_lhs => rw [split, String.append_assoc]
    exact start_ofText ends _
  have stop : min before.utf8ByteSize (before ++ after).utf8ByteSize =
      earlier.utf8ByteSize + (String.ofList (lastLine before)).utf8ByteSize := by
    rw [Nat.min_eq_left (by rw [String.utf8ByteSize_append]; exact Nat.le_add_right ..),
      ← String.utf8ByteSize_append, ← split]
  have column : sliceBytes? (before ++ after) earlier.utf8ByteSize
      (min before.utf8ByteSize (before ++ after).utf8ByteSize) =
        some (String.ofList (lastLine before)) := by
    have between := sliceBytes?_append earlier (String.ofList (lastLine before)) after
    rw [← split] at between
    rw [stop, between]
  rw [position, line, Nat.add_sub_cancel_left, start, column]
  simp only [Option.elim_some, String.length_ofList, Nat.add_comm]

/-- An offset past the end stands at the end. -/
theorem position_of_size_lt (h : source.utf8ByteSize < offset) :
    (ofText source).position source offset =
      (ofText source).position source source.utf8ByteSize := by
  have line : (ofText source).lineOf offset = (ofText source).lineOf source.utf8ByteSize := by
    rw [lineOf_ofText, lineOf_ofText, ← length_utf8, List.take_length,
      List.take_of_length_le (by rw [length_utf8]; exact Nat.le_of_lt h)]
  rw [position, position, line, Nat.min_self, Nat.min_eq_right (Nat.le_of_lt h)]

/-- **Further on between the characters is further on by line and
column.** -/
theorem position_before {offset' : Nat} (h : isBoundary source offset)
    (h' : isBoundary source offset') (lt : offset < offset') :
    ((ofText source).position source offset).Before ((ofText source).position source offset') := by
  obtain ⟨before, after, rfl, rfl⟩ := isBoundary_iff.1 h
  obtain ⟨before', after', same, rfl⟩ := isBoundary_iff.1 h'
  obtain ⟨mid, rfl⟩ := exists_eq_append same (Nat.le_of_lt lt)
  have some_text : mid ≠ "" := fun empty => by
    rw [empty, String.append_empty] at lt
    exact Nat.lt_irrefl _ lt
  have far := position_append (before ++ mid) after'
  rw [← same] at far
  rw [position_append, far, utf8_append, List.count_append]
  by_cases newline : '\n' ∈ mid.toList
  · have : 0 < (utf8 mid).count newlineByte := List.count_pos_iff.2 (newlineByte_mem_utf8 newline)
    exact .inl (by dsimp only; omega)
  · have none : (utf8 mid).count newlineByte = 0 := by
      rw [← String.ofList_toList (s := mid)]
      exact List.count_eq_zero.2 (newlineByte_not_mem_utf8 newline)
    have some_chars : 0 < mid.toList.length :=
      List.length_pos_iff.2 fun h => some_text (by rw [← String.ofList_toList (s := mid), h])
    refine .inr ⟨by rw [none, Nat.add_zero], ?_⟩
    rw [lastLine_append newline, List.length_append]
    dsimp only
    omega

end LineTable

end FrontEnd
