import FrontEnd.Proofs.SpanReads
import FrontEnd.Proofs.Stock
/-!
# FrontEnd — the words of a program

Whatever has a name or is a literal got its word from a step, and reads
as that word in the source that is handed out in the end
(`Program.build_reads`). `Wrote` is what a step does to the words of a
program: it gives some, keeps those there are, and makes spans that lie
in the source.
-/

namespace FrontEnd

/-- What may have a word in the source. The word of a field is the name
that it selects. -/
inductive Worded
  | expr (e : ExprId)
  | declared (t : Target)
  | enumValue (v : EnumValueId)
deriving DecidableEq

/-- Where the word of an expression stands, if it has one of its own. -/
def Expr.word? (x : Expr) : Option Span :=
  match x.kind with
  | .identifier | .integer _ | .float _ | .boolean _ | .string => some x.span
  | .field _ name => some name
  | _ => none

/-- Where a word stands. -/
def Program.wordSpan (p : Program) : Worded → Option Span
  | .expr e => (p.exprs.get? e).bind Expr.word?
  | .declared (.variable v) => (p.vars.get? v).map Variable.name
  | .declared (.function f) => (p.functions.get? f).map Function.name
  | .declared (.parameter a) => (p.parameters.get? a).map Parameter.name
  | .declared (.enumType e) => (p.enumTypes.get? e).map EnumType.name
  | .declared (.structType s) => (p.structTypes.get? s).map StructType.name
  | .enumValue v => (p.enumValues.get? v).map EnumValue.name

/-- Words for records that are appended to `size` others. -/
def wordsFrom {k : RecordKind} (f : RecordId k → Worded) (size : Nat) (words : List String) :
    List (Worded × String) :=
  ((IdRange.mk size words.length).ids.map f).zip words

/-- The words that a step gives, each to a record that it makes. -/
def Step.words (p : Program) : Step → List (Worded × String)
  | .identifier name => [(.expr p.exprs.nextId, name)]
  | .integer value => [(.expr p.exprs.nextId, Int.repr value)]
  | .float value => [(.expr p.exprs.nextId, Builder.floatStyle.write value)]
  | .boolean value => [(.expr p.exprs.nextId, if value then "true" else "false")]
  | .string contents => [(.expr p.exprs.nextId, contents)]
  | .field _ name => [(.expr p.exprs.nextId, name)]
  | .variable name _ _ | .openBody (.forEach name _) =>
    [(.declared (.variable p.vars.nextId), name)]
  | .enumType name values =>
    wordsFrom .enumValue p.enumValues.size values ++
      [(.declared (.enumType p.enumTypes.nextId), name)]
  | .structType name => [(.declared (.structType p.structTypes.nextId), name)]
  | .openFunction name parameters _ =>
    wordsFrom (.declared ∘ .parameter) p.parameters.size (parameters.map (·.1)) ++
      [(.declared (.function p.functions.nextId), name)]
  | .call _ _ | .range _ _ | .unary _ _ | .binary _ _ _ | .assign _ _ | .output _ | .evaluate _
  | .returnValue _ | .breakLoop | .openBody _ | .close | .word _ | .newline => []

/-- The words that steps give, taken one after the other. -/
def Builder.words (b : Builder) : List Step → List (Worded × String)
  | [] => []
  | step :: steps => step.words b.program ++
    match b.take step with
    | .ok (_, b) => b.words steps
    | .error _ => []

/-- The span of an expression lies in the source, around those of its
operands and the name that it selects. -/
structure Spanned (p : Program) (source : String) (x : Expr) : Prop where
  lies : Lies source x.span
  operands : ∃ es, p.operands x.kind = .ok es ∧
    ∀ c ∈ es, ∃ y, p.exprs.get? c = some y ∧ x.span.Covers y.span
  selected : ∀ subject name, x.kind = .field subject name → x.span.Covers name

/-- All expressions are so. -/
def AllSpanned (b : Builder) : Prop :=
  ∀ e x, b.program.exprs.get? e = some x → Spanned b.program b.source x

/-- What is done to the words of a program by giving some. -/
structure Wrote (b b' : Builder) (given : List (Worded × String)) : Prop where
  source : Continues b.source b'.source
  exprs : b.program.exprs.Extends b'.program.exprs
  kept : ∀ w span, b.program.wordSpan w = some span → b'.program.wordSpan w = some span
  new : ∀ g ∈ given, ∃ span, b'.program.wordSpan g.1 = some span ∧ Reads b'.source span g.2
  only : ∀ w span, b'.program.wordSpan w = some span →
    b.program.wordSpan w = some span ∨ ∃ word, (w, word) ∈ given
  spanned : AllSpanned b → AllSpanned b'

variable {p p' : Program} {source word : String} {span : Span} {b b₁ b' : Builder}
variable {given given' : List (Worded × String)} {w : Worded} {x : Expr} {e : ExprId}

namespace Wrote

theorem refl (b : Builder) : Wrote b b [] where
  source := .refl _
  exprs := .refl _
  kept _ _ h := h
  new g hg := by cases hg
  only _ _ h := .inl h
  spanned h := h

theorem trans (h : Wrote b b₁ given) (h' : Wrote b₁ b' given') : Wrote b b' (given ++ given') where
  source := h.source.trans h'.source
  exprs := h.exprs.trans h'.exprs
  kept w span hw := h'.kept w span (h.kept w span hw)
  new g hg := by
    rcases List.mem_append.1 hg with hg | hg
    · obtain ⟨span, hspan, reads⟩ := h.new g hg
      exact ⟨span, h'.kept _ _ hspan, reads.continues h'.source⟩
    · exact h'.new g hg
  only w span hw := by
    rcases h'.only w span hw with hw | ⟨word, hw⟩
    · exact (h.only w span hw).imp_right fun ⟨word, hw⟩ => ⟨word, List.mem_append_left _ hw⟩
    · exact .inr ⟨word, List.mem_append_right _ hw⟩
  spanned hall := h'.spanned (h.spanned hall)

end Wrote

/-! ## Records without expressions -/

theorem Spanned.later (h : Spanned b.program b.source x) (source : Continues b.source b'.source)
    (exprs : b.program.exprs.Extends b'.program.exprs)
    (arguments : b.program.arguments.Extends b'.program.arguments) :
    Spanned b'.program b'.source x where
  lies := h.lies.continues source
  operands := by
    obtain ⟨es, hes, around⟩ := h.operands
    refine ⟨es, ?_, fun c hc => ?_⟩
    · exact ({ extends_refl b.program with arguments } : b.program.Extends
        { b.program with arguments := b'.program.arguments }).operands hes
    · obtain ⟨y, hy, covers⟩ := around c hc
      exact ⟨y, exprs c y hy, covers⟩
  selected := h.selected

/-- Where no expression is made, all are as they were. -/
theorem AllSpanned.later (h : AllSpanned b) (source : Continues b.source b'.source)
    (exprs : b'.program.exprs = b.program.exprs)
    (arguments : b.program.arguments.Extends b'.program.arguments) : AllSpanned b' := by
  intro e x hx
  rw [exprs] at hx
  exact (h e x hx).later source (exprs ▸ .refl _) arguments

namespace Wrote

/-- Nothing is made that has a word. -/
theorem of_same (source : Continues b.source b'.source)
    (exprs : b'.program.exprs = b.program.exprs)
    (arguments : b.program.arguments.Extends b'.program.arguments)
    (words : ∀ w, b'.program.wordSpan w = b.program.wordSpan w) : Wrote b b' [] where
  source := source
  exprs := exprs ▸ .refl _
  kept w span h := (words w).trans h
  new g hg := by cases hg
  only w span h := .inl ((words w).symm.trans h)
  spanned h := h.later source exprs arguments

theorem write (b : Builder) (word : String) : Wrote b (b.write word).2 [] :=
  of_same (write_reads b word).2 rfl (.refl _) fun _ => rfl

/-- One record is made that has a word. -/
theorem of_new (fresh : b.program.wordSpan w = none)
    (words : ∀ w', b'.program.wordSpan w' = if w' = w then some span else b.program.wordSpan w')
    (reads : Reads b'.source span word) (source : Continues b.source b'.source)
    (exprs : b.program.exprs.Extends b'.program.exprs) (spanned : AllSpanned b → AllSpanned b') :
    Wrote b b' [(w, word)] where
  source := source
  exprs := exprs
  kept w' span' h := by
    rw [words, if_neg, h]
    rintro rfl
    rw [fresh] at h
    cases h
  new g hg := by
    obtain rfl := List.mem_singleton.1 hg
    exact ⟨span, by rw [words, if_pos rfl], reads⟩
  only w' span' h := by
    rw [words] at h
    split at h
    · next same => exact .inr ⟨word, by rw [same]; exact List.mem_singleton_self _⟩
    · exact .inl h
  spanned := spanned

end Wrote

theorem get?_nextId {k : RecordKind} {α : Type} (t : Table k α) : t.get? t.nextId = none :=
  Table.get?_eq_none_iff.2 (Nat.le_refl _)

theorem map_get?_push {k : RecordKind} {α : Type} (t : Table k α) (r : α) (f : α → Span)
    (i : RecordId k) : ((t.push r).get? i).map f =
      if i = t.nextId then some (f r) else (t.get? i).map f := by
  rw [Table.get?_push]
  split <;> rfl

/-- The words of a program in which a declaration has been appended. -/
structure DeclaresAs (p p' : Program) (t : Target) (name : Span) : Prop where
  fresh : p.wordSpan (.declared t) = none
  words : ∀ w, p'.wordSpan w = if w = .declared t then some name else p.wordSpan w
  exprs : p'.exprs = p.exprs
  arguments : p'.arguments = p.arguments

theorem declares_variable (p : Program) (r : Variable) :
    DeclaresAs p (p.addVariable r).2 (.variable p.vars.nextId) r.name where
  fresh := by rw [Program.wordSpan, get?_nextId]; rfl
  words w := by
    rcases w with _ | (_ | _ | _ | _ | _) | _ <;>
      simp [Program.wordSpan, Program.addVariable, map_get?_push]
  exprs := rfl
  arguments := rfl

theorem declares_structType (p : Program) (r : StructType) :
    DeclaresAs p (p.addStructType r).2 (.structType p.structTypes.nextId) r.name where
  fresh := by rw [Program.wordSpan, get?_nextId]; rfl
  words w := by
    rcases w with _ | (_ | _ | _ | _ | _) | _ <;>
      simp [Program.wordSpan, Program.addStructType, map_get?_push]
  exprs := rfl
  arguments := rfl

theorem declares_function (p : Program) (r : Function) :
    DeclaresAs p (p.addFunction r).2 (.function p.functions.nextId) r.name where
  fresh := by rw [Program.wordSpan, get?_nextId]; rfl
  words w := by
    rcases w with _ | (_ | _ | _ | _ | _) | _ <;>
      simp [Program.wordSpan, Program.addFunction, map_get?_push]
  exprs := rfl
  arguments := rfl

/-- Apart from the values, that is. -/
theorem declares_enumType (p : Program) (r : EnumType) :
    DeclaresAs p { p with enumTypes := p.enumTypes.push r } (.enumType p.enumTypes.nextId) r.name where
  fresh := by rw [Program.wordSpan, get?_nextId]; rfl
  words w := by
    rcases w with _ | (_ | _ | _ | _ | _) | _ <;> simp [Program.wordSpan, map_get?_push]
  exprs := rfl
  arguments := rfl

/-- Something is declared under what was written. -/
theorem Wrote.declare {t : Target} (h : DeclaresAs b.program b'.program t span)
    (same : b'.source = b.source) (reads : Reads b.source span word) :
    Wrote b b' [(.declared t, word)] :=
  of_new h.fresh h.words (same ▸ reads) (same ▸ .refl _) (h.exprs ▸ .refl _) fun hall =>
    hall.later (same ▸ .refl _) h.exprs (h.arguments ▸ .refl _)

/-! ## Records in a row -/

section

variable {k : RecordKind} {α : Type} {t : Table k α} {records : List α} {words : List String}
variable {f : α → Span} {g : RecordId k → Worded} {i : RecordId k}

theorem get?_append (t : Table k α) (records : List α) (i : RecordId k) :
    (t.append records).get? i = if i.raw < t.size then t.get? i else records[i.raw - t.size]? := by
  rw [Table.get?_eq_toList, Table.toList_append, List.getElem?_append, Table.length_toList,
    Table.get?_eq_toList]

/-- Each record is given the word in its place. -/
theorem mem_wordsFrom {size : Nat} {w : Worded} {word : String} :
    (w, word) ∈ wordsFrom g size words ↔ ∃ i, w = g ⟨size + i⟩ ∧ words[i]? = some word := by
  rw [wordsFrom, List.mem_iff_getElem?]
  refine exists_congr fun i => ?_
  rw [List.getElem?_zip_eq_some, List.getElem?_map, IdRange.ids, List.getElem?_map]
  constructor
  · rintro ⟨h, hw⟩
    obtain ⟨hi, -⟩ := List.getElem?_eq_some_iff.1 hw
    rw [List.getElem?_range' hi, Nat.one_mul] at h
    exact ⟨(Option.some.inj h).symm, hw⟩
  · rintro ⟨h, hw⟩
    obtain ⟨hi, -⟩ := List.getElem?_eq_some_iff.1 hw
    rw [List.getElem?_range' hi, Nat.one_mul, h]
    exact ⟨rfl, hw⟩

/-- The names that are appended read as the words they were written from. -/
theorem appended_read (reads : List.Forall₂ (Reads source) (records.map f) words)
    (h : (w, word) ∈ wordsFrom g t.size words) :
    ∃ i span, w = g i ∧ ((t.append records).get? i).map f = some span ∧ Reads source span word := by
  obtain ⟨i, rfl, hword⟩ := mem_wordsFrom.1 h
  obtain ⟨hi, hget⟩ := List.getElem?_eq_some_iff.1 hword
  have length := reads.length_eq
  rw [List.length_map] at length
  have held : i < records.length := by omega
  refine ⟨_, f records[i], rfl, ?_, ?_⟩
  · rw [get?_append, if_neg (by simp), Nat.add_sub_cancel_left, List.getElem?_eq_getElem held]
    rfl
  · have there := reads.get (by rw [List.length_map]; exact held) hi
    rwa [List.get_eq_getElem, List.get_eq_getElem, List.getElem_map, hget] at there

theorem appended_only (reads : List.Forall₂ (Reads source) (records.map f) words)
    (h : ((t.append records).get? i).map f = some span) :
    (t.get? i).map f = some span ∨ ∃ word, (g i, word) ∈ wordsFrom g t.size words := by
  rw [get?_append] at h
  split at h
  · exact .inl h
  · next new =>
    obtain ⟨r, hr, -⟩ := Option.map_eq_some_iff.1 h
    obtain ⟨hi, -⟩ := List.getElem?_eq_some_iff.1 hr
    have length := reads.length_eq
    rw [List.length_map] at length
    have given : i.raw - t.size < words.length := by omega
    refine .inr ⟨words[i.raw - t.size], mem_wordsFrom.2 ⟨i.raw - t.size, ?_, ?_⟩⟩
    · rw [Nat.add_sub_cancel' (Nat.le_of_not_lt new)]
    · exact List.getElem?_eq_getElem _

end

/-- Records are appended to one table that have words. -/
theorem Wrote.of_appended {k : RecordKind} {α : Type} {t : Table k α} {records : List α}
    {words : List String} {f : α → Span} (g : RecordId k → Worded)
    (reads : List.Forall₂ (Reads b.source) (records.map f) words)
    (old : ∀ i, b.program.wordSpan (g i) = (t.get? i).map f)
    (now : ∀ i, b'.program.wordSpan (g i) = ((t.append records).get? i).map f)
    (others : ∀ w, (∀ i, w ≠ g i) → b'.program.wordSpan w = b.program.wordSpan w)
    (source : b'.source = b.source) (exprs : b'.program.exprs = b.program.exprs)
    (arguments : b'.program.arguments = b.program.arguments) :
    Wrote b b' (wordsFrom g t.size words) where
  source := source ▸ .refl _
  exprs := exprs ▸ .refl _
  kept w span h := by
    by_cases appended : ∃ i, w = g i
    · obtain ⟨i, rfl⟩ := appended
      rw [old] at h
      obtain ⟨r, hr, rfl⟩ := Option.map_eq_some_iff.1 h
      rw [now, Table.extends_append t records i r hr]
      rfl
    · exact (others w fun i hi => appended ⟨i, hi⟩).trans h
  new := by
    rintro ⟨w, word⟩ hg
    obtain ⟨i, span, rfl, hspan, hreads⟩ := appended_read reads hg
    exact ⟨span, (now i).trans hspan, source ▸ hreads⟩
  only w span h := by
    by_cases appended : ∃ i, w = g i
    · obtain ⟨i, rfl⟩ := appended
      rw [now] at h
      rw [old]
      exact appended_only reads h
    · exact .inl ((others w fun i hi => appended ⟨i, hi⟩).symm.trans h)
  spanned h := h.later (source ▸ .refl _) exprs (arguments ▸ .refl _)

theorem Wrote.addParameters {records : List Parameter} {words : List String}
    (reads : List.Forall₂ (Reads b.source) (records.map Parameter.name) words) :
    Wrote b { b with program := (b.program.addParameters records).2 }
      (wordsFrom (.declared ∘ .parameter) b.program.parameters.size words) := by
  refine of_appended (.declared ∘ .parameter) reads (fun _ => rfl) (fun _ => rfl) (fun w other => ?_)
    rfl rfl rfl
  rcases w with _ | (_ | _ | a | _ | _) | _
  case declared.parameter => exact absurd rfl (other a)
  all_goals rfl

theorem Wrote.addEnumValues {records : List EnumValue} {words : List String}
    (reads : List.Forall₂ (Reads b.source) (records.map EnumValue.name) words) :
    Wrote b { b with
        program := { b.program with enumValues := b.program.enumValues.append records } }
      (wordsFrom .enumValue b.program.enumValues.size words) := by
  refine of_appended .enumValue reads (fun _ => rfl) (fun _ => rfl) (fun w other => ?_) rfl rfl rfl
  rcases w with _ | (_ | _ | _ | _ | _) | v
  case enumValue => exact absurd rfl (other v)
  all_goals rfl

/-! ## Expressions -/

theorem wordSpan_addExpr (p : Program) (x : Expr) (w : Worded) :
    (p.addExpr x).2.wordSpan w = if w = .expr p.exprs.nextId then x.word? else p.wordSpan w := by
  rcases w with e | (_ | _ | _ | _ | _) | _
  case expr =>
    simp only [Program.wordSpan, Program.addExpr, Table.get?_push, Worded.expr.injEq]
    split <;> rfl
  all_goals rfl

/-- What is made in the end is spanned if what it is made of is there. -/
theorem AllSpanned.addExpr {kind : ExprKind} (h : AllSpanned b)
    (new : Spanned b.program b.source { kind, span }) : AllSpanned (b.addExpr kind span).2 := by
  intro e x hx
  have later : ∀ {y}, Spanned b.program b.source y →
      Spanned (b.addExpr kind span).2.program (b.addExpr kind span).2.source y := fun hy =>
    hy.later (.refl _) (Table.extends_push _ _) (.refl _)
  simp only [Builder.addExpr, Program.addExpr, Table.get?_push] at hx
  split at hx
  · obtain rfl := Option.some.inj hx
    exact later new
  · exact later (h e x hx)

/-- An expression is made that has a word. -/
theorem Wrote.addWord {kind : ExprKind} {name : Span}
    (has : Expr.word? { kind, span } = some name) (reads : Reads b.source name word)
    (new : AllSpanned b → Spanned b.program b.source { kind, span }) :
    Wrote b (b.addExpr kind span).2 [(.expr b.program.exprs.nextId, word)] := by
  refine of_new ?_ (fun w => ?_) reads (.refl _) (Table.extends_push _ _)
    fun h => h.addExpr (new h)
  · rw [Program.wordSpan, get?_nextId]
    rfl
  · rw [← has]
    exact wordSpan_addExpr b.program { kind, span } w

/-- An expression is made that has none. -/
theorem Wrote.addOperation {kind : ExprKind} (has : Expr.word? { kind, span } = none)
    (new : AllSpanned b → Spanned b.program b.source { kind, span }) :
    Wrote b (b.addExpr kind span).2 [] where
  source := .refl _
  exprs := Table.extends_push _ _
  kept w name h := by
    refine (wordSpan_addExpr b.program { kind, span } w).trans ?_
    rw [if_neg, h]
    rintro rfl
    rw [Program.wordSpan, get?_nextId] at h
    cases h
  new g hg := by cases hg
  only w name h := by
    have words := wordSpan_addExpr b.program { kind, span } w
    rw [has] at words
    split at words
    · cases words.symm.trans h
    · exact .inl (words.symm.trans h)
  spanned h := h.addExpr (new h)

theorem Wrote.addStmt (b : Builder) (kind : StmtKind) (span : Span) :
    Wrote b (b.addStmt kind span).2 [] :=
  of_same (.refl _) rfl (.refl _) fun w => by rcases w with _ | (_ | _ | _ | _ | _) | _ <;> rfl

theorem Wrote.addArguments (b : Builder) (arguments : List ExprId) :
    Wrote b { b with program := (b.program.addArguments arguments).2 } [] :=
  of_same (.refl _) rfl (Table.extends_append _ _) fun w => by
    rcases w with _ | (_ | _ | _ | _ | _) | _ <;> rfl

/-- **The span around some expressions** is around each of them, and lies
in the source as they do. -/
theorem spanAround_lies {around : Span} {es : List ExprId} (all : AllSpanned b)
    (h : b.spanAround around es = .ok span) (lies : Lies b.source around) :
    Lies b.source span ∧ span.Covers around ∧
      ∀ c ∈ es, ∃ y, b.program.exprs.get? c = some y ∧ span.Covers y.span := by
  induction es generalizing around with
  | nil =>
    cases pure_eq_ok.1 h
    exact ⟨lies, .refl _, fun c hc => by cases hc⟩
  | cons e es ih =>
    obtain ⟨next, hnext, hrest⟩ := foldlM_cons_eq_ok.1 h
    obtain ⟨s, hs, hnext⟩ := bind_eq_ok.1 hnext
    obtain ⟨x, hx, hs⟩ := bind_eq_ok.1 hs
    cases pure_eq_ok.1 hs
    cases pure_eq_ok.1 hnext
    rw [Table.get_eq_ok] at hx
    obtain ⟨there, covers, others⟩ := ih hrest (lies.merge (all e x hx).lies)
    refine ⟨there, covers.trans (Span.merge_covers_left _ _), List.forall_mem_cons.2 ⟨?_, others⟩⟩
    exact ⟨x, hx, covers.trans (Span.merge_covers_right _ _)⟩

theorem exists_of_spanOf (h : b.spanOf e = .ok span) :
    ∃ x, b.program.exprs.get? e = some x ∧ x.span = span := by
  obtain ⟨x, hx, h⟩ := bind_eq_ok.1 h
  exact ⟨x, Table.get_eq_ok.1 hx, pure_eq_ok.1 h⟩

/-- The span of an expression with those of others. -/
theorem spanFrom_lies {first : ExprId} {start : Span} {es : List ExprId} (all : AllSpanned b)
    (hfirst : b.spanOf first = .ok start) (h : b.spanAround start es = .ok span) :
    Lies b.source span ∧
      ∀ c ∈ first :: es, ∃ y, b.program.exprs.get? c = some y ∧ span.Covers y.span := by
  obtain ⟨x, hx, rfl⟩ := exists_of_spanOf hfirst
  obtain ⟨lies, covers, others⟩ := spanAround_lies all h (all first x hx).lies
  exact ⟨lies, List.forall_mem_cons.2 ⟨⟨x, hx, covers⟩, others⟩⟩

/-! ## Steps -/

/-- A leaf has no operands, and lies where its word does. -/
theorem Spanned.leaf {kind : ExprKind} (operands : p.operands kind = .ok [])
    (plain : ∀ subject name, kind ≠ .field subject name) (lies : Lies source span) :
    Spanned p source { kind, span } where
  lies := lies
  operands := ⟨[], operands, fun c hc => by cases hc⟩
  selected subject name h := absurd h (plain subject name)

theorem leaf_wrote {kind : ExprKind} (b : Builder) (word : String)
    (has : ∀ span, Expr.word? { kind, span } = some span)
    (operands : b.program.operands kind = .ok [])
    (plain : ∀ subject name, kind ≠ .field subject name) :
    Wrote b (b.leaf kind word).2 [(.expr b.program.exprs.nextId, word)] :=
  (Wrote.write b word).trans (.addWord (has _) (write_reads b word).1 fun _ =>
    .leaf operands plain ⟨word, (write_reads b word).1⟩)

/-- Between the quotes stand the contents. -/
theorem Reads.unquote {contents : String} (h : Reads source span ("\"" ++ contents ++ "\"")) :
    Reads source ⟨span.start + 1, span.len - 2⟩ contents := by
  obtain ⟨before, after, rfl, rfl⟩ := h
  refine ⟨before ++ "\"", "\"" ++ after, by simp only [String.append_assoc], ?_⟩
  simp only [String.utf8ByteSize_append, Span.mk.injEq]
  have quote : "\"".utf8ByteSize = 1 := rfl
  omega

theorem string_wrote (b : Builder) (contents : String) :
    Wrote b (b.string contents).2 [(.expr b.program.exprs.nextId, contents)] := by
  have reads := (write_reads b ("\"" ++ contents ++ "\"")).1.unquote
  exact (Wrote.write b _).trans (.addWord rfl reads fun _ =>
    .leaf rfl (fun _ _ h => by cases h) ⟨contents, reads⟩)

/-- A body is closed, and no word is touched. -/
theorem close_wrote (b : Builder) : Wrote b b.close.2 [] := by
  unfold Builder.close
  split
  · exact .refl b
  · next body opened _ =>
    cases body with
    | function f start =>
      refine .of_same (.refl _) rfl (.refl _) fun w => ?_
      rcases w with _ | (_ | g | _ | _ | _) | _
      case declared.function =>
        simp only [Program.wordSpan, Table.get?_modify]
        split
        · rw [Option.map_map]
          rfl
        · rfl
      all_goals rfl
    | nest s head start =>
      exact .of_same (.refl _) rfl (.refl _) fun w => by
        rcases w with _ | (_ | _ | _ | _ | _) | _ <;> rfl

/-- An operation is made of expressions that are there. -/
theorem operation_wrote {kind : ExprKind} {es : List ExprId}
    (has : Expr.word? { kind, span } = none) (plain : ∀ subject name, kind ≠ .field subject name)
    (operands : b.program.operands kind = .ok es)
    (around : AllSpanned b → Lies b.source span ∧
      ∀ c ∈ es, ∃ y, b.program.exprs.get? c = some y ∧ span.Covers y.span) :
    Wrote b (b.addExpr kind span).2 [] :=
  .addOperation has fun all => ⟨(around all).1, ⟨es, operands, (around all).2⟩,
    fun subject name h => absurd h (plain subject name)⟩

theorem field_wrote {subject : ExprId} {name : String} (hspan : b.spanOf subject = .ok span) :
    Wrote b ((b.write name).2.addExpr (.field subject (b.write name).1)
      (span.merge (b.write name).1)).2 [(.expr b.program.exprs.nextId, name)] := by
  obtain ⟨x, hx, rfl⟩ := exists_of_spanOf hspan
  have reads := (write_reads b name).1
  refine (Wrote.write b name).trans (.addWord rfl reads fun all => ?_)
  exact
    { lies := (all subject x hx).lies.merge ⟨name, reads⟩
      operands := ⟨[subject], rfl, List.forall_mem_singleton.2
        ⟨x, hx, Span.merge_covers_left _ _⟩⟩
      selected := by
        rintro _ _ ⟨⟩
        exact Span.merge_covers_right _ _ }

theorem call_wrote {callee : ExprId} {arguments : List ExprId} {start : Span}
    (hstart : b.spanOf callee = .ok start) (hspan : b.spanAround start arguments = .ok span) :
    Wrote b ({ b with program := (b.program.addArguments arguments).2 }.addExpr
      (.call callee (b.program.addArguments arguments).1) span).2 [] :=
  (Wrote.addArguments b arguments).trans (operation_wrote rfl (fun _ _ h => by cases h)
    (operands_addArguments b.program callee arguments) fun all =>
      spanFrom_lies (b := { b with program := (b.program.addArguments arguments).2 }) all hstart
        hspan)

theorem addVariable_wrote (reads : Reads b.source span word) :
    Wrote b (b.addVariable span).2 [(.declared (.variable b.program.vars.nextId), word)] :=
  .declare (declares_variable b.program { name := span }) rfl reads

/-- Words are written one after the other, and nothing else is done. -/
theorem exists_writeAll_wrote (b : Builder) (words : List String) :
    ∃ spans source, b.writeAll words = (spans, { b with source }) ∧
      Wrote b { b with source } [] ∧ List.Forall₂ (Reads source) spans words := by
  obtain ⟨spans, ⟨program, source, opened⟩, hw, hprogram, hopened, grows, reads⟩ :=
    writeAll_reads b words
  obtain rfl : program = b.program := hprogram
  obtain rfl : opened = b.opened := hopened
  exact ⟨spans, source, hw, .of_same grows rfl (.refl _) fun _ => rfl, reads⟩

/-- Which bodies are open makes no difference to words. -/
theorem Wrote.setOpened (b : Builder) (opened : List OpenBody) : Wrote b { b with opened } [] :=
  .of_same (.refl _) rfl (.refl _) fun _ => rfl

theorem addFunction_wrote {r : Function} (reads : Reads b.source r.name word) :
    Wrote b { b with program := (b.program.addFunction r).2 }
      [(.declared (.function b.program.functions.nextId), word)] :=
  .declare (declares_function b.program r) rfl reads

/-- An enum type is declared when its values have been. -/
theorem addEnumType_wrote {values : List EnumValue} (reads : Reads b.source span word) :
    Wrote { b with program := { b.program with enumValues := b.program.enumValues.append values } }
      { b with program := (b.program.addEnumType span values).2 }
      [(.declared (.enumType b.program.enumTypes.nextId), word)] :=
  .declare (declares_enumType _ ⟨span, _⟩) rfl reads

theorem enumType_wrote (b : Builder) (name : String) (values : List String) :
    Wrote b (b.enumType name values).2 ((Step.enumType name values).words b.program) := by
  obtain ⟨spans, source, hw, wrote, reads⟩ := exists_writeAll_wrote (b.write name).2 values
  have hname := (write_reads b name).1.continues wrote.source
  have hvalues : List.Forall₂ (Reads source) ((spans.map EnumValue.mk).map EnumValue.name) values := by
    rw [List.map_map]
    exact (List.map_id spans).symm ▸ reads
  simp only [Builder.enumType, hw]
  exact (Wrote.write b name).trans (wrote.trans ((Wrote.addEnumValues hvalues).trans
    ((addEnumType_wrote hname).trans (.addStmt _ _ _))))

theorem openFunction_wrote {name : String} {parameters : List (String × Option ExprId)}
    {returnType : Option ExprId} (h : b.openFunction name parameters returnType = .ok b') :
    Wrote b b' ((Step.openFunction name parameters returnType).words b.program) := by
  obtain ⟨spans, source, hw, wrote, reads⟩ :=
    exists_writeAll_wrote (b.write name).2 (parameters.map (·.1))
  have hname := (write_reads b name).1.continues wrote.source
  simp only [Builder.openFunction, hw] at h
  obtain ⟨span, -, h⟩ := bind_eq_ok.1 h
  obtain rfl := pure_eq_ok.1 h
  have hrecords : List.Forall₂ (Reads source)
      ((spans.zipWith (fun name x => ({ name, typeExpr := x.2 } : Parameter)) parameters).map
        Parameter.name) (parameters.map (·.1)) :=
    List.forall₂_map_left_iff.2 (List.forall₂_map_right_iff.2
      ((parameters_read reads).imp fun _ _ h => h.1))
  exact (Wrote.write b name).trans (wrote.trans ((Wrote.addParameters hrecords).trans
    ((addFunction_wrote hname).trans ((Wrote.addStmt _ _ _).trans (.setOpened _ _)))))

/-- A statement is made whose body is open. -/
theorem openNest_wrote (b : Builder) (head : Head VariableId) (span : Span) :
    Wrote b (b.openNest head span) [] :=
  (Wrote.addStmt b .invalid span).trans (.setOpened _ _)

theorem openBody_wrote {head : Head String} (h : b.openBody head = .ok b') :
    Wrote b b' ((Step.openBody head).words b.program) := by
  cases head with
  | bare | elseThen | loop =>
    obtain rfl := pure_eq_ok.1 h
    exact (Wrote.write b _).trans (openNest_wrote _ _ _)
  | ifThen condition | elseIf condition | whileDo condition =>
    obtain ⟨span, -, h⟩ := bind_eq_ok.1 h
    obtain rfl := pure_eq_ok.1 h
    exact openNest_wrote b _ span
  | forEach iterator iterable =>
    obtain ⟨span, -, h⟩ := bind_eq_ok.1 h
    obtain rfl := pure_eq_ok.1 h
    exact (Wrote.write b iterator).trans ((addVariable_wrote (write_reads b iterator).1).trans
      (openNest_wrote _ _ span))

/-- **Each step gives its words, and keeps those there are.** -/
theorem take_wrote {step : Step} {made : Option Made} (h : b.take step = .ok (made, b')) :
    Wrote b b' (step.words b.program) := by
  cases takes_of_take h with
  | identifier | integer | float | boolean =>
    exact leaf_wrote b _ (fun _ => rfl) rfl fun _ _ h => by cases h
  | string contents => exact string_wrote b contents
  | call hstart hspan => exact call_wrote hstart hspan
  | field hspan => exact field_wrote hspan
  | range hstart hspan | binary hstart hspan =>
    exact operation_wrote rfl (fun _ _ h => by cases h) rfl fun all =>
      spanFrom_lies all hstart hspan
  | @unary op operand span hspan =>
    refine (Wrote.write b op.symbol).trans (operation_wrote rfl (fun _ _ h => by cases h) rfl
      fun all => ?_)
    obtain ⟨lies, -, around⟩ := spanAround_lies all hspan ⟨_, (write_reads b op.symbol).1⟩
    exact ⟨lies, around⟩
  | @«variable» name type init span hspan =>
    exact (Wrote.write b name).trans ((addVariable_wrote (write_reads b name).1).trans
      (.addStmt _ _ span))
  | assign | output | evaluate => exact .addStmt b _ _
  | returnValue => exact (Wrote.write b "return").trans (.addStmt _ _ _)
  | breakLoop => exact (Wrote.write b "break").trans (.addStmt _ _ _)
  | enumType name values => exact enumType_wrote b name values
  | structType name =>
    have declared : Wrote (b.write name).2
        { (b.write name).2 with
          program := (b.program.addStructType { name := (b.write name).1 }).2 }
        [(.declared (.structType b.program.structTypes.nextId), name)] :=
      .declare (declares_structType _ _) rfl (write_reads b name).1
    exact (Wrote.write b name).trans (declared.trans (.addStmt _ _ _))
  | openFunction opens => exact openFunction_wrote opens
  | openBody opens => exact openBody_wrote opens
  | close => exact close_wrote b
  | word text => exact .write b text
  | newline => exact .of_same ⟨"\n", rfl⟩ rfl (.refl _) fun _ => rfl

/-! ## Whole runs -/

theorem takeAll_wrote {steps : List Step} (h : b.takeAll steps = .ok b') :
    Wrote b b' (b.words steps) := by
  induction steps generalizing b with
  | nil =>
    cases pure_eq_ok.1 h
    exact .refl _
  | cons step steps ih =>
    obtain ⟨b₁, h₁, hrest⟩ := foldlM_cons_eq_ok.1 h
    obtain ⟨⟨made, b₂⟩, htake, h₁⟩ := bind_eq_ok.1 h₁
    cases pure_eq_ok.1 h₁
    rw [Builder.words, htake]
    exact (take_wrote htake).trans (ih hrest)

theorem closeAll_wrote (b : Builder) : Wrote b b.closeAll.2 [] :=
  (Builder.closeAll_keeps (P := fun b' => Wrote b b' [])
    (fun b' h => h.trans (close_wrote b')) (.refl b)).1

/-- What is built is what the steps leave, once all is closed. -/
theorem Program.build_wrote {steps : List Step} (h : Program.build steps = .ok (p, source)) :
    ∃ b b', Builder.empty.takeAll steps = .ok b ∧ Wrote b b' [] ∧ b'.program = p ∧
      b'.source = source := by
  obtain ⟨b, hb, h⟩ := bind_eq_ok.1 h
  cases pure_eq_ok.1 h
  exact ⟨b, { b.closeAll.2 with program := b.closeAll.2.finish }, hb,
    (closeAll_wrote b).trans (.of_same (.refl _) rfl (.refl _) fun w => by
      rcases w with _ | (_ | _ | _ | _ | _) | _ <;> rfl), rfl, rfl⟩

/-- **Everything that is written reads back.** Steps that are given what
has been handed out build a program. In the source that comes with it
each name and each literal reads as the word that it was given, and
nothing has a word that was not given one; the span of an expression lies
in the source, around those of its operands. What has been made by some
of the steps keeps its span through all the others, and no span that was
in the source by then reads anything else in the end. -/
theorem Program.build_reads (steps : List Step) :
    (Builder.OwnIds [] .empty steps → ∃ p source, Program.build steps = .ok (p, source)) ∧
    ∀ p source, Program.build steps = .ok (p, source) →
      (∀ w word, (w, word) ∈ Builder.empty.words steps →
        ∃ span, p.wordSpan w = some span ∧ span.read source = word) ∧
      (∀ w span, p.wordSpan w = some span → ∃ word, (w, word) ∈ Builder.empty.words steps) ∧
      (∀ e x, p.exprs.get? e = some x → Spanned p source x) ∧
      ∀ earlier later, steps = earlier ++ later →
        ∃ b, Builder.empty.takeAll earlier = .ok b ∧
          (∀ e x, b.program.exprs.get? e = some x → p.exprs.get? e = some x) ∧
          (∀ w span, b.program.wordSpan w = some span → p.wordSpan w = some span) ∧
          (∀ span : Span, span.stop ≤ b.source.utf8ByteSize → span.read source = span.read b.source) ∧
          ∀ text rest, later = .word text :: rest → (b.write text).1.read source = text := by
  refine ⟨fun own => ?_, fun p source h => ?_⟩
  · obtain ⟨⟨p, source⟩, h, -⟩ := Builder.build_succeeds own
    exact ⟨p, source, h⟩
  obtain ⟨b, b', htake, closed, rfl, rfl⟩ := Program.build_wrote h
  have wrote := takeAll_wrote htake
  have all := wrote.trans closed
  rw [List.append_nil] at all
  refine ⟨fun w word hw => ?_, fun w span hw => ?_, all.spanned fun e x hx => ?_,
    fun earlier later hsteps => ?_⟩
  · obtain ⟨span, hspan, reads⟩ := all.new (w, word) hw
    exact ⟨span, hspan, reads.read⟩
  · refine (all.only w span hw).resolve_left fun empty => ?_
    rcases w with _ | (_ | _ | _ | _ | _) | _ <;> cases empty
  · cases hx
  · subst hsteps
    obtain ⟨b₁, hearlier, hlater⟩ := foldlM_append_eq_ok.1 htake
    have after := (takeAll_wrote hlater).trans closed
    refine ⟨b₁, hearlier, after.exprs, after.kept, fun span inside => ?_, ?_⟩
    · obtain ⟨more, hmore⟩ := after.source
      rw [hmore, Span.read_append inside]
    · rintro text rest rfl
      obtain ⟨b₂, h₂, hrest⟩ := foldlM_cons_eq_ok.1 hlater
      cases h₂
      exact ((write_reads b₁ text).1.continues
        ((takeAll_wrote hrest).trans closed).source).read

/-- Empty names, names of several bytes a character, and a field that is
written a line after its subject. -/
theorem Program.build_reads_empty :
    Succeeds (Program.build [.identifier "λ𝄞", .identifier "", .newline, .field ⟨0⟩ "é",
      .enumType "" ["ß", ""], .string "\"", .close]) fun (p, source) =>
      (∃ span, p.wordSpan (.enumValue ⟨0⟩) = some span ∧ span.read source = "ß") ∧
      p.exprs.get? ⟨2⟩ = some { kind := .field ⟨0⟩ ⟨8, 2⟩, span := ⟨0, 10⟩ } ∧
      Spanned p source { kind := .field ⟨0⟩ ⟨8, 2⟩, span := ⟨0, 10⟩ } := by
  have facts : Succeeds (Program.build [.identifier "λ𝄞", .identifier "", .newline,
      .field ⟨0⟩ "é", .enumType "" ["ß", ""], .string "\"", .close]) fun (p, _) =>
      p.exprs.get? ⟨2⟩ = some { kind := .field ⟨0⟩ ⟨8, 2⟩, span := ⟨0, 10⟩ } := by decide +kernel
  have given : (Worded.enumValue ⟨0⟩, "ß") ∈ Builder.empty.words [.identifier "λ𝄞",
    .identifier "", .newline, .field ⟨0⟩ "é", .enumType "" ["ß", ""], .string "\"", .close] := by
    decide +kernel
  obtain ⟨⟨p, source⟩, built, field⟩ := facts
  obtain ⟨reads, -, spanned, -⟩ := (Program.build_reads _).2 p source built
  exact ⟨(p, source), built, reads _ _ given, field, spanned _ _ field⟩

end FrontEnd
