import FrontEnd.Proofs.NameResolution
import FrontEnd.Proofs.StmtTasks
import Mathlib.Data.List.Perm.Basic
/-!
# FrontEnd — the order of typing

In which order the type pass visits the statements of an outline
(`Program.order`). The functions of a block come when the block is
entered, those of the top level and its variables before everything
else; every other statement comes in its turn, so that each is visited
once (`order_perm`). What can be seen from a statement belongs to none
that is visited at or after it (`order_clear`).
-/

namespace FrontEnd

/-- A type is looked up for declarations of the kind. -/
def Target.isTyped : Target → Bool
  | .variable _ | .function _ | .parameter _ => true
  | .enumType _ | .structType _ => false

namespace Program

/-- The statement declares a function. -/
def declaresFunction (p : Program) (s : StmtId) : Bool :=
  match p.stmts.get? s with
  | some ⟨.function _, _⟩ => true
  | _ => false

/-- The statement declares a variable. -/
def declaresVariable (p : Program) (s : StmtId) : Bool :=
  match p.stmts.get? s with
  | some ⟨.variable _ _ _, _⟩ => true
  | _ => false

/-- The statements of a block that declare functions. -/
def functionsIn (p : Program) (o : Outline) : List StmtId :=
  (elements o.direct).filter p.declaresFunction

/-- The statements of a block that declare variables, if the block is the
top level. -/
def globalsIn (p : Program) (topLevel : Bool) (o : Outline) : List StmtId :=
  if topLevel then (elements o.direct).filter p.declaresVariable else []

/-- The statements in the order in which the type pass visits them once
their block has been entered. -/
def order (p : Program) : (topLevel : Bool) → Outline → List StmtId
  | _, .stuck _ => []
  | _, .done => []
  | topLevel, .leaf s rest =>
    (if topLevel && p.declaresVariable s then [] else [s]) ++ p.order topLevel rest
  | topLevel, .nested s body rest =>
    (if p.declaresFunction s then [] else [s]) ++
      (p.functionsIn body ++ (p.order false body ++ p.order topLevel rest))

variable {p : Program} {s s' : StmtId} {t : Target} {topLevel : Bool} {i j : Nat} {o : Outline}
variable {own outer : List Target}

theorem not_declaresFunction (h : p.bodyOf s = .ok none) : p.declaresFunction s = false := by
  obtain ⟨⟨kind, span⟩, hs, hbody⟩ := bind_eq_ok.1 h
  rw [Table.get_eq_ok] at hs
  simp only [declaresFunction, hs]
  cases kind with
  | function f =>
    obtain ⟨r, -, h⟩ := bind_eq_ok.1 hbody
    cases pure_eq_ok.1 h
  | _ => rfl

theorem not_declaresVariable {b : Block} (h : p.bodyOf s = .ok (some b)) :
    p.declaresVariable s = false := by
  rcases bodyOf_eq_some.1 h with ⟨f, span, r, hs, -, -⟩ | ⟨head, span, hs⟩ <;>
    simp only [declaresVariable, hs]

/-- **Every statement is visited once.** -/
theorem order_perm (lays : Lays p i j o) :
    (p.functionsIn o ++ (p.globalsIn topLevel o ++ p.order topLevel o)).Perm
      (IdRange.mk i (j - i)).ids := by
  have hflatten := lays.flatten
  suffices h : ∀ all, o.flatten = .ok all →
      (p.functionsIn o ++ (p.globalsIn topLevel o ++ p.order topLevel o)).Perm all from
    h _ hflatten
  clear hflatten
  induction lays generalizing topLevel with
  | done i =>
    intro all hall
    cases hall
    cases topLevel <;> rfl
  | @leaf i j rest single tail ih =>
    intro all hall
    obtain ⟨others, hothers, h⟩ := bind_eq_ok.1 hall
    obtain rfl := pure_eq_ok.1 h
    obtain ⟨ids, hids, -⟩ := tail.direct_held
    have hcount := fun s => List.perm_iff_count.1 (@ih topLevel others hothers) s
    refine List.perm_iff_count.2 fun s => ?_
    have := hcount s
    have hfun := not_declaresFunction single
    simp only [functionsIn, globalsIn, order, Outline.direct, hids, ok_bind, pure, Except.pure,
      elements_ok, List.filter_cons, hfun, List.count_append, List.count_cons] at this ⊢
    cases topLevel <;> cases hv : p.declaresVariable ⟨i⟩ <;> simp [List.count_cons] at this ⊢ <;> omega
  | @nested i k j block body rest owns place inner tail ihInner ihTail =>
    intro all hall
    obtain ⟨within, hwithin, h⟩ := bind_eq_ok.1 hall
    obtain ⟨others, hothers, h⟩ := bind_eq_ok.1 h
    obtain rfl := pure_eq_ok.1 h
    obtain ⟨ids, hids, -⟩ := tail.direct_held
    refine List.perm_iff_count.2 fun s => ?_
    have hin := List.perm_iff_count.1 (@ihInner false within hwithin) s
    have hout := List.perm_iff_count.1 (@ihTail topLevel others hothers) s
    have hvar := not_declaresVariable owns
    simp only [functionsIn, globalsIn, order, Outline.direct, hids, ok_bind, pure, Except.pure,
      elements_ok, List.filter_cons, hvar, List.count_append, List.count_cons] at hin hout ⊢
    cases topLevel <;> cases hf : p.declaresFunction ⟨i⟩ <;>
      simp [List.count_cons] at hin hout ⊢ <;> omega

/-- The statements that are visited stand between the ends. -/
theorem bounds_of_order (lays : Lays p i j o) (h : s ∈ p.order topLevel o) : i ≤ s.raw ∧ s.raw < j := by
  have hmem := (@order_perm _ topLevel _ _ _ lays).subset
    (List.mem_append_right _ (List.mem_append_right _ h))
  have hle := lays.le
  simp only [IdRange.mem_ids, IdRange.stop] at hmem
  omega

/-! ## What can be seen is settled -/

/-- Nothing that can be seen from the first statement has a type that
belongs to the second. -/
def Clear (p : Program) (s s' : StmtId) : Prop :=
  ∀ visible, ⟨s, visible⟩ ∈ p.places → ∀ t ∈ visible, t.isTyped = true → t ∉ p.owned s'

/-- What a block knows ahead of its statements belongs to functions, and
at the top level to variables, of the block. -/
theorem mem_functionsIn_or_globalsIn (h : t ∈ p.blockAhead topLevel o) (ht : t.isTyped = true) :
    ∃ s, (s ∈ p.functionsIn o ∨ s ∈ p.globalsIn topLevel o) ∧ t ∈ p.owned s := by
  obtain ⟨s, hs, hmem⟩ := List.mem_flatMap.1 h
  refine ⟨s, ?_, owned_of_ahead hmem⟩
  cases hstmt : p.stmts.get s with
  | error fault => simp [declaredAhead, hstmt, bind, Except.bind] at hmem
  | ok stmt =>
    obtain ⟨kind, span⟩ := stmt
    rw [declaredAhead_eq _ hstmt] at hmem
    rw [Table.get_eq_ok] at hstmt
    cases kind with
    | function f =>
      exact .inl (List.mem_filter.2 ⟨hs, by simp only [declaresFunction, hstmt]⟩)
    | «variable» v type init =>
      cases topLevel with
      | false => simp [StmtKind.declares] at hmem
      | true =>
        exact .inr (List.mem_filter.2 ⟨hs, by simp only [declaresVariable, hstmt]⟩)
    | enumType e =>
      cases topLevel <;> simp [StmtKind.declares] at hmem
      rw [hmem] at ht
      cases ht
    | structType u =>
      cases topLevel <;> simp [StmtKind.declares] at hmem
      rw [hmem] at ht
      cases ht
    | _ => simp [StmtKind.declares] at hmem

/-- What a block knows ahead of its statements belongs to none that is
visited in its turn. -/
theorem Regular.not_owned_of_ahead (regular : p.Regular) (lays : Lays p i j o)
    (h : t ∈ p.blockAhead topLevel o) (ht : t.isTyped = true) (hs : s ∈ p.order topLevel o) :
    t ∉ p.owned s := by
  intro howned
  obtain ⟨s', hs', howned'⟩ := mem_functionsIn_or_globalsIn h ht
  obtain rfl := regular.owners s s' t howned howned'
  have hnodup : (p.functionsIn o ++ (p.globalsIn topLevel o ++ p.order topLevel o)).Nodup := by
    refine (order_perm lays).nodup_iff.2 ?_
    exact (List.nodup_range' ..).map fun a b hab => by cases hab; rfl
  obtain ⟨-, hrest, hapart⟩ := List.nodup_append.1 hnodup
  rcases hs' with hs' | hs'
  · exact hapart s hs' s (List.mem_append_right _ hs) rfl
  · exact (List.nodup_append.1 hrest).2.2 s hs' s hs rfl

theorem Regular.clear_of_seen (regular : p.Regular) {here : Place} (hhere : here ∈ p.places)
    (seen : ∀ t ∈ here.visible, t.isTyped = true → t ∉ p.owned s') : p.Clear here.stmt s' := by
  intro visible hvisible t ht htyped
  have hplace := regular.place_unique hvisible hhere rfl
  exact seen t (hplace ▸ ht) htyped

/-- The functions of a block stand between its ends. -/
theorem bounds_of_functionsIn (lays : Lays p i j o) (h : s ∈ p.functionsIn o) :
    i ≤ s.raw ∧ s.raw < j := by
  have hmem := (@order_perm _ false _ _ _ lays).subset (List.mem_append_left _ h)
  have hle := lays.le
  simp only [IdRange.mem_ids, IdRange.stop] at hmem
  omega

/-- Nothing that is known and has a type belongs to one of the statements. -/
def Foreign (p : Program) (known : List Target) (ss : List StmtId) : Prop :=
  ∀ t ∈ known, t.isTyped = true → ∀ s ∈ ss, t ∉ p.owned s

namespace Foreign

variable {known known' : List Target} {ss ss' : List StmtId}

theorem append (h : p.Foreign known ss) (h' : p.Foreign known' ss) :
    p.Foreign (known ++ known') ss :=
  List.forall_mem_append.2 ⟨h, h'⟩

theorem left (h : p.Foreign (known ++ known') ss) : p.Foreign known ss :=
  (List.forall_mem_append.1 h).1

theorem right (h : p.Foreign (known ++ known') ss) : p.Foreign known' ss :=
  (List.forall_mem_append.1 h).2

theorem subset (h : p.Foreign known ss) (hs : ss' ⊆ ss) : p.Foreign known ss' :=
  fun t ht htyped s hs' => h t ht htyped s (hs hs')

end Foreign

/-- What a statement declares belongs to no other. -/
theorem Regular.foreign_of_owned (regular : p.Regular) {known : List Target} {ss : List StmtId}
    (hknown : ∀ t ∈ known, t ∈ p.owned s) (hs : s ∉ ss) : p.Foreign known ss :=
  fun t ht _ s' hs' howned => hs (regular.owners s s' t (hknown t ht) howned ▸ hs')

/-- What a body knows ahead of its statements belongs to none that is
visited in its turn, nor to one that stands elsewhere. -/
theorem Regular.foreign_ahead (regular : p.Regular) {later : List StmtId} (lays : Lays p i j o)
    (hlater : ∀ s ∈ later, ¬ (i ≤ s.raw ∧ s.raw < j)) :
    p.Foreign (p.blockAhead false o) (p.order false o ++ later) := by
  intro t ht htyped s hs howned
  rcases List.mem_append.1 hs with hs | hs
  · exact regular.not_owned_of_ahead lays ht htyped hs howned
  · obtain ⟨s', hs', howned'⟩ := mem_functionsIn_or_globalsIn ht htyped
    obtain rfl := regular.owners s s' t howned howned'
    exact hlater s hs (bounds_of_functionsIn lays (hs'.resolve_right (by simp [globalsIn])))

/-- The statements may be visited in this order, with the `later` ones
behind them: functions apart, none sees what belongs to itself or to one
that comes after it. -/
structure InTurn (p : Program) (ss later : List StmtId) : Prop where
  pairs : ss.Pairwise fun s s' => p.declaresFunction s = true ∨ p.Clear s s'
  self : ∀ s ∈ ss, p.declaresFunction s = true ∨ p.Clear s s ∧ ∀ s' ∈ later, p.Clear s s'

namespace InTurn

variable {ss ss' later : List StmtId}

theorem functions (h : ∀ s ∈ ss, p.declaresFunction s = true) : p.InTurn ss later where
  pairs := List.pairwise_of_forall_mem_list fun s hs _ _ => .inl (h s hs)
  self s hs := .inl (h s hs)

theorem cons (h : ∀ s' ∈ s :: (ss ++ later), p.Clear s s') (rest : p.InTurn ss later) :
    p.InTurn (s :: ss) later := by
  obtain ⟨hsame, hafter⟩ := List.forall_mem_cons.1 h
  obtain ⟨hrest, hlater⟩ := List.forall_mem_append.1 hafter
  exact ⟨List.pairwise_cons.2 ⟨fun s' hs' => .inr (hrest s' hs'), rest.pairs⟩,
    List.forall_mem_cons.2 ⟨.inr ⟨hsame, hlater⟩, rest.self⟩⟩

/-- What is clear of the rest and of what comes later may go before. -/
theorem append (h : p.InTurn ss (ss' ++ later)) (rest : p.InTurn ss' later) :
    p.InTurn (ss ++ ss') later where
  pairs := List.pairwise_append.2 ⟨h.pairs, rest.pairs, fun s hs s' hs' =>
    (h.self s hs).imp_right fun hs => hs.2 s' (List.mem_append_left _ hs')⟩
  self := List.forall_mem_append.2 ⟨fun s hs => (h.self s hs).imp_right fun hs =>
    ⟨hs.1, fun s' hs' => hs.2 s' (List.mem_append_right _ hs')⟩, rest.self⟩

end InTurn

/-- **What can be seen from a statement is settled when it is visited.**
It belongs neither to the statement itself, nor to one that is visited
after it in the outline, nor to one of those that come `later`. -/
theorem Regular.order_clear (regular : p.Regular) {later : List StmtId} (lays : Lays p i j o)
    (sub : ∀ place ∈ p.placesIn topLevel own outer o, place ∈ p.places)
    (hlater : ∀ s ∈ later, ¬ (i ≤ s.raw ∧ s.raw < j))
    (seen : p.Foreign (own ++ outer) (p.order topLevel o ++ later)) :
    p.InTurn (p.order topLevel o) later := by
  induction lays generalizing topLevel own outer later with
  | done i => exact .functions (by simp [order])
  | @leaf i j rest single tail ih =>
    have hle := tail.le
    have hhere : ∀ s ∈ p.order topLevel (.leaf ⟨i⟩ rest) ++ later, p.Clear ⟨i⟩ s :=
      fun s hs => regular.clear_of_seen (sub _ List.mem_cons_self) fun t ht htyped =>
        seen t ht htyped s hs
    -- what the statement declares is known behind it
    have hnot : (⟨i⟩ : StmtId) ∉ p.order topLevel rest ++ later := by
      intro hs
      rcases List.mem_append.1 hs with hs | hs
      · exact absurd (bounds_of_order tail hs).1 (Nat.not_succ_le_self i)
      · exact hlater _ hs ⟨Nat.le_refl _, hle⟩
    have hrest : p.order topLevel rest ++ later ⊆ p.order topLevel (.leaf ⟨i⟩ rest) ++ later := by
      intro s hs
      simp only [order, List.mem_append] at hs ⊢
      tauto
    have hold := seen.subset hrest
    have hnew : p.Foreign (p.declaredBehind topLevel ⟨i⟩) (p.order topLevel rest ++ later) :=
      regular.foreign_of_owned (fun _ => owned_of_behind) hnot
    have others := ih (fun place hp => sub place (List.mem_cons_of_mem _ hp))
      (fun s hs hb => hlater s hs ⟨by omega, hb.2⟩) ((hold.left.append hnew).append hold.right)
    by_cases hg : (topLevel && p.declaresVariable ⟨i⟩) = true
    · simpa only [order, if_pos hg, List.nil_append] using others
    · simp only [order, if_neg hg, List.cons_append, List.nil_append] at hhere ⊢
      exact .cons hhere others
  | @nested i k j block body rest owns place inner tail ihInner ihTail =>
    have hle := inner.le
    have hle' := tail.le
    have hhere : ∀ s ∈ p.order topLevel (.nested ⟨i⟩ body rest) ++ later, p.Clear ⟨i⟩ s :=
      fun s hs => regular.clear_of_seen (sub _ List.mem_cons_self) fun t ht htyped =>
        seen t ht htyped s hs
    -- where the statements stand that are visited behind the body
    have hstands : ∀ s ∈ p.order topLevel rest ++ later, ¬ (i ≤ s.raw ∧ s.raw < k) := by
      intro s hs hb
      rcases List.mem_append.1 hs with hs | hs
      · have := (bounds_of_order tail hs).1
        omega
      · exact hlater s hs ⟨hb.1, by omega⟩
    have hnot : (⟨i⟩ : StmtId) ∉ p.order false body ++ (p.order topLevel rest ++ later) := by
      intro hs
      rcases List.mem_append.1 hs with hs | hs
      · exact absurd (bounds_of_order inner hs).1 (Nat.not_succ_le_self i)
      · exact hstands _ hs ⟨Nat.le_refl _, hle⟩
    have hbody : p.order false body ++ (p.order topLevel rest ++ later) ⊆
        p.order topLevel (.nested ⟨i⟩ body rest) ++ later := by
      intro s hs
      simp only [order, List.mem_append] at hs ⊢
      tauto
    have hinside : p.Foreign (p.declaredInside ⟨i⟩)
        (p.order false body ++ (p.order topLevel rest ++ later)) :=
      regular.foreign_of_owned (fun _ => owned_of_inside) hnot
    have hahead := regular.foreign_ahead inner fun s hs hb => hstands s hs ⟨by omega, hb.2⟩
    have within := ihInner
      (fun place hp => sub place (List.mem_cons_of_mem _ (List.mem_append_left _ hp)))
      (fun s hs hb => hstands s hs ⟨by omega, hb.2⟩)
      ((hinside.append hahead).append (seen.subset hbody))
    have others := ihTail
      (fun place hp => sub place (List.mem_cons_of_mem _ (List.mem_append_right _ hp)))
      (fun s hs hb => hlater s hs ⟨by omega, hb.2⟩)
      (seen.subset fun s hs => hbody (List.mem_append_right _ hs))
    have functions : p.InTurn (p.functionsIn body) (p.order false body ++ p.order topLevel rest ++ later) :=
      .functions fun s hs => (List.mem_filter.1 hs).2
    have behind := functions.append (within.append others)
    by_cases hf : p.declaresFunction ⟨i⟩ = true
    · simpa only [order, if_pos hf, List.nil_append] using behind
    · simp only [order, if_neg hf, List.cons_append, List.nil_append] at hhere ⊢
      exact .cons hhere behind

end Program

end FrontEnd
