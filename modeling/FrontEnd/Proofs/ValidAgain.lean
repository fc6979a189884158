import FrontEnd.Proofs.FilledIn
import FrontEnd.Proofs.Safety
/-!
# FrontEnd — the layout after any pass

A program with a good layout has a good layout after any passes that
succeed, in whatever order they are run (`runAll_validate`): what they
fill in is there. So it may be resolved again, and no resolution of a
program with a good layout ends with an internal error
(`resolve_unhalted`): a statement that opens a scope has a body, and a
body whose types are resolved has been given a scope.
-/

namespace FrontEnd

open Analysis

/-- One of the passes, or name and type resolution on their own. -/
inductive Stage
  | names (source : String)
  | types (source : String)
  | resolve (source : String)
  | check

namespace Analysis

/-- Run a pass. -/
def run (a : Analysis) : Stage → Except (Abort Halt) Analysis
  | .names source => a.resolveNames source
  | .types source => a.resolveTypes source
  | .resolve source => a.resolve source
  | .check => a.check.mapError (·.mapError (⟨·, a⟩))

/-- Run several passes, one after another. -/
def runAll (a : Analysis) (stages : List Stage) : Except (Abort Halt) Analysis := stages.foldlM run a

end Analysis

namespace Program

variable {source : String} {n : Nat} {p p' : Program} {scope : SymbolTableId} {s : StmtId}

/-! ## Programs that are filled in -/

theorem FilledWell.kindsHeld (h : p.FilledWell p') (held : p.KindsHeld) : p'.KindsHeld := by
  intro e x' hx'
  have hlt := Table.lt_size_of_get? hx'
  rw [size_exprs_congr h.frame] at hlt
  obtain ⟨x, hx⟩ := Table.exists_get?_of_lt hlt
  rcases h.references e x x' hx hx' with hk | hk
  · rw [hk, checkExprKind_congr h.frame]
    exact held e x hx
  · exact hk

/-- **A good layout that is filled in is good.** -/
theorem FilledWell.validate (h : p.FilledWell p') (valid : p.validate = .ok ()) :
    p'.validate = .ok () := by
  obtain ⟨kinds, -, -, -, links⟩ := validate_eq_ok.1 valid
  refine validate_stays valid h.frame (h.kindsHeld kinds) (fun s body body' hb hb' hlt => ?_) (fun hlt => ?_)
    fun t r hr => ?_
  · rcases h.bodies s body' hb' with hsame | hlt'
    · rw [hb] at hsame
      cases hsame
      exact Nat.lt_of_lt_of_le hlt h.size_le
    · exact hlt'
  · rcases h.block with hsame | hlt'
    · rw [hsame]
      exact Nat.lt_of_lt_of_le hlt h.size_le
    · exact hlt'
  · by_cases hlt : t.raw < p.symbolTables.size
    · obtain ⟨r', hr'⟩ := Table.exists_get?_of_lt hlt
      have hsame := Table.toList_prefix_iff.1 h.tables t r' hr'
      rw [hr] at hsame
      cases hsame
      exact Nat.lt_of_lt_of_le (links t r hr') h.size_le
    · exact h.links t r (Nat.le_of_not_lt hlt) hr

end Program

/-! ## What passes keep -/

section

variable {P : Analysis → Prop} (mains : ∀ a source, P a → P (a.determineMain source))
variable (names : ∀ a source p', P a → a.program.bindNames source = .ok p' → P ⟨p', a.queue⟩)
variable (types : ∀ source a b, P a → TypeEdits source a b → P b)
include mains names types

/-- A pass keeps what all its parts keep: the search for `main`, the name
pass, and edits to types and flags. -/
theorem run_keeps {a : Analysis} (h : P a) (stage : Stage) : Keeps P (a.run stage) := by
  have named : ∀ {a source}, P a → Keeps P (a.resolveNames source) := fun {a source} h => by
    unfold resolveNames
    split
    · next p' hp' => exact .ok (names a source p' h hp')
    · exact .error
  have typed : ∀ {a source}, P a → Keeps P (a.resolveTypes source) := fun {a source} h =>
    (TypeEdits.resolveTypes (.refl : TypeEdits source a a)).ends.mono fun b edits => types source a b h edits
  cases stage with
  | names source => exact named h
  | types source => exact typed h
  | resolve source =>
    intro b hb
    obtain ⟨-, p', hnames, htypes⟩ := resolve_eq_ok.1 hb
    exact typed (names _ source p' (mains a source h) hnames) b htypes
  | check =>
    intro b hb
    simp only [run] at hb
    cases hc : a.check with
    | ok c =>
      rw [hc] at hb
      cases hb
      -- the check reads no source
      exact types "" a b h (TypeEdits.check .refl b hc)
    | error abort =>
      rw [hc] at hb
      cases hb

/-- **Passes keep what their parts keep**, however many are run. -/
theorem runAll_keeps {a : Analysis} (h : P a) (stages : List Stage) : Keeps P (a.runAll stages) :=
  .foldlM (fun stage _ _ h => run_keeps mains names types h stage) h

end

/-- Every pass fills in. -/
theorem runAll_filledWell (a : Analysis) (stages : List Stage) :
    Keeps (fun b => a.program.FilledWell b.program) (a.runAll stages) :=
  runAll_keeps (fun b source h => h.trans (determineMain_filledWell b source))
    (fun b source p' h hp' => h.trans (Program.bindNames_filledWell source b.program p' hp'))
    (fun _ _ _ h edits => h.trans edits.filledWell) (.refl _) stages

/-! ## No internal error -/

/-- The statements of an outline that have bodies. -/
def Outline.owners : Outline → List StmtId
  | .stuck _ | .done => []
  | .leaf _ rest => rest.owners
  | .nested s body rest => s :: (body.owners ++ rest.owners)

namespace Program

variable {source : String} {n : Nat} {p p' : Program} {scope : SymbolTableId} {s : StmtId} {o : Outline}

def HasBody (p : Program) (s : StmtId) : Prop := ∃ body, p.bodyOf s = .ok (some body)

theorem HasBody.congr (h : p.HasBody s) (frame : p'.frame = p.frame) : p'.HasBody s := by
  obtain ⟨body, hbody⟩ := h
  have hsame := bodyOf_frame (p := p') s
  rw [frame, bodyOf_frame, hbody] at hsame
  cases hbody' : p'.bodyOf s with
  | error fault => rw [hbody'] at hsame; cases hsame
  | ok found =>
    cases found with
    | none => rw [hbody'] at hsame; cases hsame
    | some body' => exact ⟨body', hbody'⟩

/-- A block unfolds to bodies that there are. -/
theorem hasBody_of_mem_owners {block : Block} (h : s ∈ (p.outline block).owners) : p.HasBody s := by
  unfold outline at h
  generalize p.stmts.size + 1 = fuel at h
  induction fuel generalizing block with
  | zero => simp [outlineWithin, Outline.owners] at h
  | succ fuel ih =>
    simp only [outlineWithin] at h
    split at h
    · simp [Outline.owners] at h
    · next children _ =>
      generalize children.ids = ids at h
      induction ids with
      | nil => simp [Outline.owners] at h
      | cons c ids ihids =>
        rw [List.foldr_cons] at h
        split at h
        · simp [Outline.owners] at h
        · exact ihids h
        · next body hbody =>
          rcases List.mem_cons.1 h with rfl | h
          · exact ⟨body, hbody⟩
          · rcases List.mem_append.1 h with h | h
            · exact ih h
            · exact ihids h

/-- A body can be given a scope. -/
theorem Own.openScope_leaves (source : String) (own : p.Own n scope) (owns : p.HasBody s) :
    Leaves (fun r => NameEdits source n p r.2 ∧ r.2.Own n r.1 ∧ r.2.Scoped s) (fun _ => False)
      (p.openScope s scope) where
  ends r hr := by
    obtain ⟨edits, inner⟩ := own.openScope s r hr
    obtain ⟨body, hbody⟩ := owns
    exact ⟨edits, inner, (opens_of_openScope hr).2.scoped_self (Nat.lt_of_le_of_lt (Nat.zero_le _) own.held)
      hbody⟩
  halts e he := by
    obtain ⟨body, hbody⟩ := owns
    obtain ⟨p', hp', -⟩ := openScope_ok scope hbody
    rw [hp'] at he
    cases he

/-- The walk of an outline gives every body in it a scope, and does not
end with an error. -/
theorem Own.bindOutline_leaves (own : p.Own n scope) (topLevel : Bool)
    (owners : ∀ s ∈ o.owners, p.HasBody s) :
    Leaves (fun p' => NameEdits source n p p' ∧ ∀ s ∈ o.owners, p'.Scoped s) (fun _ => False)
      (p.bindOutline source topLevel scope o) := by
  induction o generalizing topLevel scope p with
  | stuck fault => exact .fault fault
  | done => exact .pure ⟨.refl, by simp [Outline.owners]⟩
  | leaf s rest ih =>
    refine (Leaves.lift (own.bindLeaf topLevel s)).bind fun p h => ?_
    refine (ih (own.mono h) topLevel fun s hs => (owners s hs).congr h.frame).mono ?_ fun _ => id
    exact fun _ ⟨h', given⟩ => ⟨h.trans h', given⟩
  | nested s body rest ihbody ihrest =>
    obtain ⟨owns, owners⟩ := List.forall_mem_cons.1 owners
    have pos : ∀ {p scope}, Own n p scope → 0 < p.symbolTables.size := fun own =>
      Nat.lt_of_le_of_lt (Nat.zero_le _) own.held
    refine (Leaves.lift (own.bindHead s)).bind fun p₁ (h₁ : NameEdits source n p p₁) => ?_
    refine (openScope_leaves source (own.mono h₁) (owns.congr h₁.frame)).bind fun ⟨inner, p₂⟩ ⟨h₂, own₂, opened⟩ => ?_
    refine (Leaves.lift (own₂.declareInside s)).bind fun p₃ (h₃ : NameEdits source n p₂ p₃) => ?_
    refine (Leaves.lift ((own₂.mono h₃).declareAllAhead false body)).bind fun p₄
      (h₄ : NameEdits source n p₃ p₄) => ?_
    have own₄ := (own₂.mono h₃).mono h₄
    have h₂₄ : NameEdits source n p₂ p₄ := h₃.trans h₄
    have h : NameEdits source n p p₄ := (h₁.trans h₂).trans h₂₄
    have owners₄ : ∀ s ∈ body.owners ++ rest.owners, p₄.HasBody s := fun s hs =>
      (owners s hs).congr h.frame
    refine (ihbody own₄ false fun s hs => owners₄ s (List.mem_append_left _ hs)).bind
      fun p₅ ⟨h₅, givenBody⟩ => ?_
    refine (ihrest ((own.mono h).mono h₅) topLevel fun s hs =>
      (owners₄ s (List.mem_append_right _ hs)).congr h₅.frame).mono ?_ fun _ => id
    rintro p₆ ⟨h₆, givenRest⟩
    have h₂₆ : NameEdits source n p₂ p₆ := (h₂₄.trans h₅).trans h₆
    refine ⟨(h.trans h₅).trans h₆, List.forall_mem_cons.2 ⟨h₂₆.isScoped (pos own₂) opened, fun s' hs' => ?_⟩⟩
    rcases List.mem_append.1 hs' with hs' | hs'
    · exact h₆.isScoped (pos (own₄.mono h₅)) (givenBody s' hs')
    · exact givenRest s' hs'

/-- Name resolution gives the top level and every body in it a scope, and
does not end with an error. -/
theorem bindNames_leaves (pos : 0 < p.symbolTables.size) (source : String) :
    Leaves (fun p' => p'.frame = p.frame ∧ p'.block.symbolTable.isSentinel = false ∧
      ∀ s ∈ (p.outline p.block).owners, p'.Scoped s) (fun _ => False) (p.bindNames source) := by
  refine (Leaves.lift (p.own_withTop.declareAllAhead true _)).bind fun p₁
    (h₁ : NameEdits source p.symbolTables.size p.withTop p₁) => ?_
  have own := p.own_withTop.mono h₁
  refine (own.bindOutline_leaves true fun s hs => ?_).mono (fun p₂ ⟨h₂, given⟩ => ?_) fun _ => id
  · exact (hasBody_of_mem_owners hs).congr (h₁.frame.trans rfl)
  · have h : NameEdits source p.symbolTables.size p.withTop p₂ := h₁.trans h₂
    refine ⟨h.frame.trans rfl, h.top (Nat.lt_of_lt_of_le pos (by simp [withTop, addSymbolTable])) ?_, given⟩
    simpa [withTop, RecordId.isSentinel, Table.nextId] using Nat.ne_of_gt pos

end Program

open Program

variable {source : String} {a b : Analysis} {stages : List Stage}

/-- A block that has been given a scope can be entered. -/
theorem enterBlock_leaves {block : Block} (topLevel : Bool) (o : Outline)
    (given : block.symbolTable.isSentinel = false) :
    Leaves (TypeEdits source a) (fun _ => False) (enterBlock source topLevel block o a) := by
  rw [enterBlock, given, if_neg Bool.false_ne_true]
  refine .read fun ss _ => (Leaves.lift (TypeEdits.typeSignatures .refl ss)).bind fun b
    (h : TypeEdits source a b) => ?_
  split
  · exact .lift ((TypeEdits.typeGlobals b ss).mono fun _ h' => h.trans h')
  · exact .pure h

theorem typeOutline_leaves (o : Outline) (topLevel : Bool)
    (owners : ∀ s ∈ o.owners, a.program.HasBody s ∧ a.program.Scoped s) :
    Leaves (TypeEdits source a) (fun _ => False) (typeOutline source topLevel o a) := by
  have stay : ∀ {a b : Analysis} {ss : List StmtId}, TypeEdits source a b →
      (∀ s ∈ ss, a.program.HasBody s ∧ a.program.Scoped s) →
      ∀ s ∈ ss, b.program.HasBody s ∧ b.program.Scoped s := by
    intro a b ss edits h s hs
    rw [HasBody, Scoped, edits.matured.bodyOf]
    exact h s hs
  induction o generalizing topLevel a with
  | stuck fault => exact .fault fault
  | done => exact .pure .refl
  | leaf s rest ih =>
    refine .read fun settled _ => ?_
    dsimp only
    split
    · exact ih topLevel owners
    · refine (Leaves.lift (TypeEdits.typeLeaf a s)).bind fun b (h : TypeEdits source a b) => ?_
      exact (ih topLevel (stay h owners)).mono (fun _ h' => h.trans h') fun _ => id
  | nested s body rest ihbody ihrest =>
    refine (Leaves.lift (TypeEdits.typeHead a s)).bind fun b (h : TypeEdits source a b) => ?_
    obtain ⟨⟨⟨block, hblock⟩, given⟩, owners⟩ := List.forall_mem_cons.1 (stay h owners)
    refine .read fun found hfound => ?_
    rw [hblock] at hfound
    cases hfound
    refine (enterBlock_leaves false body (given block hblock)).bind fun c (h₁ : TypeEdits source b c) => ?_
    have owners := List.forall_mem_append.1 (stay h₁ owners)
    refine (ihbody false owners.1).bind fun d h₂ => ?_
    refine (ihrest topLevel (stay h₂ owners.2)).mono (fun _ h₃ => ?_) fun _ => id
    exact ((h.trans h₁).trans h₂).trans h₃

/-- **No resolution of a program with a good layout ends with an internal
error.** -/
theorem resolve_unhalted (valid : a.program.validate = .ok ()) (source : String) (halt : Halt) :
    a.resolve source ≠ .error (.error halt) := by
  intro h
  obtain ⟨main, searched, hprogram, -⟩ := determineMain_eq a source
  have pos := tables_of_checkBlocks (validate_eq_ok.1 valid).2.2.2.1
  rw [show a.program.symbolTables = (a.determineMain source).program.symbolTables by rw [hprogram]] at pos
  have names := bindNames_leaves pos source
  simp only [resolve, valid, resolveNames] at h
  cases hp : (a.determineMain source).program.bindNames source with
  | error abort =>
    rw [hp] at h
    cases abort with
    | fault fault => cases h
    | error e => exact names.halts e hp
  | ok p' =>
    rw [hp] at h
    obtain ⟨hframe, hblock, given⟩ := names.ends p' hp
    rw [← outline_congr hframe] at given
    have types : Leaves (fun _ => True) (fun _ => False)
        (Analysis.resolveTypes ⟨p', (a.determineMain source).queue⟩ source) := by
      refine (enterBlock_leaves true _ hblock).bind fun b (edits : TypeEdits source ⟨p', _⟩ b) => ?_
      refine (typeOutline_leaves _ true fun s hs => ?_).mono (fun _ _ => trivial) fun _ => id
      rw [HasBody, Scoped, edits.matured.bodyOf]
      exact ⟨hasBody_of_mem_owners hs, given s hs⟩
    exact types.halts halt h

/-! ## Any passes -/

/-- **Passes keep the layout good.** Whatever passes are run, on names and
types alone or together, and checks: when they succeed, all ids and links
in the program are good if they were, and its blocks lie as they lay. So
it can be resolved again. -/
theorem runAll_validate (valid : a.program.validate = .ok ()) (ran : a.runAll stages = .ok b) :
    b.program.validate = .ok () ∧ b.program.frame = a.program.frame ∧
      ∀ source halt, b.resolve source ≠ .error (.error halt) := by
  have filled := runAll_filledWell a stages b ran
  have valid' := filled.validate valid
  exact ⟨valid', filled.frame, fun source => resolve_unhalted valid' source⟩

/-- To resolve names and types apart, and with another text each time. -/
theorem runAll_validate_apart :
    Succeeds (Program.build [.identifier "E", .enumType "E" ["v"], .field ⟨0⟩ "v",
        .variable "x" none (some ⟨1⟩), .openBody .bare, .identifier "x", .output ⟨2⟩, .close])
      fun (p, source) => p.validate = .ok () ∧
        Succeeds ((start .unlimited p).runAll [.names source, .types source, .check, .resolve "E x"])
          fun b => b.program.symbolTables.size = 5 ∧ b.program.validate = .ok () ∧
            b.program.frame = p.frame := by
  have facts : Succeeds (Program.build [.identifier "E", .enumType "E" ["v"], .field ⟨0⟩ "v",
        .variable "x" none (some ⟨1⟩), .openBody .bare, .identifier "x", .output ⟨2⟩, .close])
      fun (p, source) => p.validate = .ok () ∧
        Succeeds ((start .unlimited p).runAll [.names source, .types source, .check, .resolve "E x"])
          fun b => b.program.symbolTables.size = 5 := by
    decide +kernel
  obtain ⟨⟨p, source⟩, built, valid, b, ran, hsize⟩ := facts
  obtain ⟨valid', frame, -⟩ := runAll_validate (a := start .unlimited p) valid ran
  exact ⟨(p, source), built, valid, b, ran, hsize, valid', frame⟩

end FrontEnd
