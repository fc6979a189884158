import Mathlib.Data.Finset.Insert
import Mathlib.Data.List.DropRight
import FrontEnd.Proofs.Reports
/-!
# FrontEnd — what a queue is offered, and what it keeps

A queue answers requests one after another, and remembers no more than
what it holds. Of all that it has been offered since it was last flushed
it holds the first few that report different things (`wanted`), after
any requests (`Queue.serveAll_exact`). A queue that remembers what it has
kept in a set of its own (`SeenQueue`) answers all requests the same.
-/

namespace FrontEnd

/-- What is asked of a queue. -/
inductive Request
  | push (d : Diagnostic)
  | raise (code : Code) (span : Span)
  | annotate (source : String)
  | flush

/-- What a queue answers to a request. -/
inductive Reply
  | kept (answer : Bool)
  | annotated
  | taken (diagnostics : List Diagnostic)
deriving DecidableEq

namespace Request

/-- The diagnostic that the request offers, if it offers one. -/
def offer? : Request → Option Diagnostic
  | .push d => some d
  | .raise code span => some (.ofCode code span)
  | .annotate _ => none
  | .flush => none

def isFlush : Request → Bool
  | .flush => true
  | _ => false

end Request

/-- What has been offered since the last flush, in order. -/
def offered (requests : List Request) : List Diagnostic :=
  (requests.rtakeWhile (!·.isFlush)).filterMap Request.offer?

/-- Of the diagnostics that report the same, the first. -/
def firsts : List Diagnostic → List Diagnostic
  | [] => []
  | d :: ds => d :: (firsts ds).filter (·.key ≠ d.key)

/-- All of what is offered, or the first of each that reports the same. -/
def QueueConfig.distinct (config : QueueConfig) (ds : List Diagnostic) : List Diagnostic :=
  if config.deduplicate then firsts ds else ds

/-- What a queue is to hold of what it is offered. -/
def QueueConfig.wanted (config : QueueConfig) (ds : List Diagnostic) : List Diagnostic :=
  if config.errorLimit = 0 then config.distinct ds
  else (config.distinct ds).take config.errorLimit

namespace Queue

/-- Answer a request. -/
def serve (q : Queue) : Request → Reply × Queue
  | .push d => (.kept (q.push d).1, (q.push d).2)
  | .raise code span => (.kept (q.raise code span).1, (q.raise code span).2)
  | .annotate source => (.annotated, q.annotate source)
  | .flush => (.taken q.flush.1, q.flush.2)

/-- The queue after requests, from the first on. -/
def serveAll (q : Queue) (requests : List Request) : Queue :=
  requests.foldl (fun q request => (q.serve request).2) q

/-- How many offers found the limit reached. -/
def late (q : Queue) (requests : List Request) : Nat :=
  requests.zipIdx.countP fun (request, i) =>
    request.offer?.isSome && (q.serveAll (requests.take i)).limitReached

end Queue

/-! ## A queue that remembers in a set -/

/-- A queue that does not look for a diagnostic among those it holds, but
keeps a set of what they report. -/
structure SeenQueue where
  config : QueueConfig := {}
  diagnostics : List Diagnostic := []
  seen : Finset (Code × Span) := ∅
  dropped : Nat := 0

namespace SeenQueue

def limitReached (q : SeenQueue) : Bool :=
  decide (0 < q.config.errorLimit) && decide (q.config.errorLimit ≤ q.diagnostics.length)

/-- Report a diagnostic. What is refused for the limit is not entered in
the set, and without deduplication nothing is. -/
def push (q : SeenQueue) (d : Diagnostic) : Bool × SeenQueue :=
  if q.limitReached then (false, { q with dropped := q.dropped + 1 })
  else if q.config.deduplicate then
    if d.key ∈ q.seen then (false, q)
    else (true, { q with seen := insert d.key q.seen, diagnostics := q.diagnostics ++ [d] })
  else (true, { q with diagnostics := q.diagnostics ++ [d] })

def annotate (q : SeenQueue) (source : String) : SeenQueue :=
  let table := LineTable.ofText source
  { q with diagnostics := q.diagnostics.map (·.locate table source) }

/-- Take all diagnostics out, and forget them. -/
def flush (q : SeenQueue) : List Diagnostic × SeenQueue :=
  (q.diagnostics, { q with seen := ∅, diagnostics := [] })

def serve (q : SeenQueue) : Request → Reply × SeenQueue
  | .push d => (.kept (q.push d).1, (q.push d).2)
  | .raise code span => (.kept (q.push (.ofCode code span)).1, (q.push (.ofCode code span)).2)
  | .annotate source => (.annotated, q.annotate source)
  | .flush => (.taken q.flush.1, q.flush.2)

def serveAll (q : SeenQueue) (requests : List Request) : SeenQueue :=
  requests.foldl (fun q request => (q.serve request).2) q

end SeenQueue

/-- A queue with a set holds what the other holds, and its set has what
they report. -/
structure SeenQueue.Mirrors (s : SeenQueue) (q : Queue) : Prop where
  config : s.config = q.config
  diagnostics : s.diagnostics = q.diagnostics
  dropped : s.dropped = q.dropped
  seen : s.config.deduplicate = true → ∀ key, key ∈ s.seen ↔ ∃ d ∈ q.diagnostics, d.key = key

variable {q : Queue} {s : SeenQueue} {d : Diagnostic} {ds : List Diagnostic}
variable {config : QueueConfig} {request : Request} {requests : List Request}

namespace Queue

/-- **What comes of a report,** by whether it is refused. -/
theorem push_eq (q : Queue) (d : Diagnostic) :
    q.push d = (!q.refuses d,
      { q with
        diagnostics := if q.refuses d then q.diagnostics else q.diagnostics ++ [d]
        dropped := if q.limitReached then q.dropped + 1 else q.dropped }) := by
  unfold push refuses
  cases q.limitReached with
  | true => rfl
  | false =>
    cases q.config.deduplicate && q.holds d with
    | true => rfl
    | false => rfl

end Queue

/-! ## What has been offered -/

theorem offered_offer (requests : List Request) (h : request.offer? = some d) :
    offered (requests ++ [request]) = offered requests ++ [d] := by
  have offers : request.isFlush = false := by
    cases request with
    | flush => cases h
    | _ => rfl
  rw [offered, List.rtakeWhile_concat_pos _ _ _ (by rw [offers]; rfl), List.filterMap_append]
  simp only [List.filterMap_cons, h, List.filterMap_nil]
  rfl

theorem offered_annotate (requests : List Request) (source : String) :
    offered (requests ++ [.annotate source]) = offered requests := by
  rw [offered, List.rtakeWhile_concat_pos _ _ _ rfl, List.filterMap_append]
  exact List.append_nil _

theorem offered_flush (requests : List Request) : offered (requests ++ [.flush]) = [] := by
  rw [offered, List.rtakeWhile_concat_neg _ _ _ (by decide)]
  rfl

/-! ## What is wanted -/

theorem mem_keys_firsts {key : Code × Span} :
    key ∈ (firsts ds).map Diagnostic.key ↔ key ∈ ds.map Diagnostic.key := by
  induction ds with
  | nil => rfl
  | cons d ds ih =>
    rw [firsts, List.map_cons, List.map_cons, List.mem_cons, List.mem_cons, ← ih]
    simp only [List.mem_map, List.mem_filter, decide_eq_true_eq]
    by_cases same : key = d.key
    · exact ⟨fun _ => .inl same, fun _ => .inl same⟩
    · constructor
      · rintro (h | ⟨c, ⟨hc, -⟩, hk⟩)
        · exact .inl h
        · exact .inr ⟨c, hc, hk⟩
      · rintro (h | ⟨c, hc, hk⟩)
        · exact .inl h
        · exact .inr ⟨c, ⟨hc, hk ▸ same⟩, hk⟩

/-- One more is added to the firsts, unless it reports the same as one of
them. -/
theorem firsts_append (ds : List Diagnostic) (d : Diagnostic) :
    firsts (ds ++ [d]) =
      if d.key ∈ (firsts ds).map Diagnostic.key then firsts ds else firsts ds ++ [d] := by
  simp only [mem_keys_firsts]
  induction ds with
  | nil => rfl
  | cons c ds ih =>
    rw [List.cons_append, firsts, firsts, ih, List.map_cons]
    by_cases same : d.key = c.key
    · have drop : [d].filter (fun d => decide (d.key ≠ c.key)) = [] := by simp [same]
      rw [if_pos (List.mem_cons.2 (.inl same))]
      split
      · rfl
      · rw [List.filter_append, drop, List.append_nil]
    · have keep : [d].filter (fun d => decide (d.key ≠ c.key)) = [d] := by simp [same]
      by_cases held : d.key ∈ ds.map Diagnostic.key
      · rw [if_pos held, if_pos (List.mem_cons_of_mem _ held)]
      · rw [if_neg held, if_neg (fun h => (List.mem_cons.1 h).elim same held), List.filter_append,
          keep, List.cons_append]

namespace QueueConfig

/-- The list is as long as it may be. -/
def full (config : QueueConfig) (ds : List Diagnostic) : Prop :=
  0 < config.errorLimit ∧ config.errorLimit ≤ ds.length

/-- The list has one that reports the same. -/
def repeats (config : QueueConfig) (ds : List Diagnostic) (d : Diagnostic) : Prop :=
  config.deduplicate = true ∧ d.key ∈ ds.map Diagnostic.key

theorem distinct_append (config : QueueConfig) (ds : List Diagnostic) (d : Diagnostic) :
    config.distinct (ds ++ [d]) = config.distinct ds ∧ config.repeats (config.distinct ds) d ∨
      config.distinct (ds ++ [d]) = config.distinct ds ++ [d] ∧
        ¬ config.repeats (config.distinct ds) d := by
  unfold distinct repeats
  by_cases dedup : config.deduplicate = true
  · simp only [dedup, if_true, true_and, firsts_append]
    split
    · exact .inl ⟨rfl, ‹_›⟩
    · exact .inr ⟨rfl, ‹_›⟩
  · rw [if_neg dedup, if_neg dedup]
    exact .inr ⟨rfl, fun h => dedup h.1⟩

@[simp] theorem distinct_nil (config : QueueConfig) : config.distinct [] = [] := by
  unfold distinct
  split <;> rfl

@[simp] theorem wanted_nil (config : QueueConfig) : config.wanted [] = [] := by
  rw [wanted, distinct_nil, List.take_nil, ite_self]

/-- What is not cut off is all. -/
theorem wanted_eq_distinct (h : ¬ config.full (config.wanted ds)) :
    config.wanted ds = config.distinct ds ∧
      (config.errorLimit ≠ 0 → (config.distinct ds).length < config.errorLimit) := by
  unfold full wanted at *
  by_cases none : config.errorLimit = 0
  · exact ⟨if_pos none, fun h => absurd none h⟩
  · rw [if_neg none, List.length_take] at h
    have short : (config.distinct ds).length < config.errorLimit := by omega
    rw [if_neg none, List.take_of_length_le (Nat.le_of_lt short)]
    exact ⟨rfl, fun _ => short⟩

/-- **One more offer** is wanted too, unless the list is full or repeats
it. -/
theorem wanted_append_kept (room : ¬ config.full (config.wanted ds))
    (new : ¬ config.repeats (config.wanted ds) d) :
    config.wanted (ds ++ [d]) = config.wanted ds ++ [d] := by
  obtain ⟨all, short⟩ := wanted_eq_distinct room
  rw [all] at new ⊢
  rcases config.distinct_append ds d with ⟨-, old⟩ | ⟨eq, -⟩
  · exact absurd old new
  · rw [wanted, eq]
    by_cases none : config.errorLimit = 0
    · rw [if_pos none]
    · have := short none
      rw [if_neg none, List.take_of_length_le (by rw [List.length_append]; exact this)]

theorem wanted_append_refused (h : config.full (config.wanted ds) ∨
    config.repeats (config.wanted ds) d) : config.wanted (ds ++ [d]) = config.wanted ds := by
  by_cases full : config.full (config.wanted ds)
  · obtain ⟨some_limit, long⟩ := full
    have none : config.errorLimit ≠ 0 := Nat.pos_iff_ne_zero.1 some_limit
    rw [wanted, if_neg none, List.length_take] at long
    rcases config.distinct_append ds d with ⟨eq, -⟩ | ⟨eq, -⟩
    · rw [wanted, wanted, eq]
    · rw [wanted, wanted, eq, if_neg none, if_neg none, List.take_append_of_le_length (by omega)]
  · have old := h.resolve_left full
    obtain ⟨all, -⟩ := wanted_eq_distinct full
    rw [all] at old
    rcases config.distinct_append ds d with ⟨eq, -⟩ | ⟨-, new⟩
    · rw [wanted, wanted, eq]
    · exact absurd old new

theorem length_wanted_le (config : QueueConfig) (ds : List Diagnostic) (h : 0 < config.errorLimit) :
    (config.wanted ds).length ≤ config.errorLimit := by
  rw [wanted, if_neg (Nat.pos_iff_ne_zero.1 h), List.length_take]
  exact Nat.min_le_left ..

end QueueConfig

/-! ## A queue holds what is wanted -/

/-- The queue holds the list, up to lines and columns. -/
structure Queue.Contains (q : Queue) (config : QueueConfig) (ds : List Diagnostic) : Prop where
  config : q.config = config
  diagnostics : q.diagnostics.map Diagnostic.unplaced = ds.map Diagnostic.unplaced

namespace Queue

theorem Contains.size (h : q.Contains config ds) : q.size = ds.length := by
  have lengths := congrArg List.length h.diagnostics
  rwa [List.length_map, List.length_map] at lengths

theorem Contains.keys (h : q.Contains config ds) :
    q.diagnostics.map Diagnostic.key = ds.map Diagnostic.key := by
  have keys := congrArg (List.map Diagnostic.key) h.diagnostics
  rwa [List.map_map, List.map_map] at keys

theorem Contains.limitReached_iff (h : q.Contains config ds) : q.limitReached = true ↔ config.full ds := by
  rw [limitReached, Bool.and_eq_true, decide_eq_true_eq, decide_eq_true_eq, h.config, h.size,
    QueueConfig.full]

theorem Contains.refuses_iff (h : q.Contains config ds) :
    q.refuses d = true ↔ config.full ds ∨ config.repeats ds d := by
  have same : q.holds d = true ↔ d.key ∈ ds.map Diagnostic.key := by
    rw [← h.keys, holds, List.any_eq_true, List.mem_map]
    simp only [beq_iff_eq]
  rw [refuses, Bool.or_eq_true, Bool.and_eq_true, h.limitReached_iff, h.config, same,
    QueueConfig.repeats]

theorem annotate_contains (h : q.Contains config ds) (source : String) :
    (q.annotate source).Contains config ds := by
  refine ⟨h.config, ?_⟩
  rw [← h.diagnostics, annotate]
  dsimp only
  rw [List.map_map]
  rfl

/-- **An offer is answered, and kept, as it is wanted.** -/
theorem serve_offer (h : q.Contains config (config.wanted (offered requests)))
    (offer : request.offer? = some d) :
    ((q.serve request).1 = .kept true ∧ (q.serve request).2.diagnostics = q.diagnostics ++ [d] ∧
        config.wanted (offered (requests ++ [request])) =
          config.wanted (offered requests) ++ [d] ∨
      (q.serve request).1 = .kept false ∧ (q.serve request).2.diagnostics = q.diagnostics ∧
        config.wanted (offered (requests ++ [request])) = config.wanted (offered requests)) ∧
    (q.serve request).2.config = q.config := by
  have pushes : q.serve request = (.kept (q.push d).1, (q.push d).2) := by
    cases request with
    | push => cases offer; rfl
    | raise => cases offer; rfl
    | annotate => cases offer
    | flush => cases offer
  rw [pushes, push_eq, offered_offer requests offer]
  cases refused : q.refuses d with
  | true =>
    exact ⟨.inr ⟨rfl, rfl, QueueConfig.wanted_append_refused (h.refuses_iff.1 refused)⟩, rfl⟩
  | false =>
    have kept : ¬ (config.full _ ∨ config.repeats _ d) := fun hr =>
      Bool.eq_false_iff.1 refused (h.refuses_iff.2 hr)
    exact ⟨.inl ⟨rfl, rfl, QueueConfig.wanted_append_kept (fun hf => kept (.inl hf))
      fun hr => kept (.inr hr)⟩, rfl⟩

/-- Each request leaves the queue with what is wanted then. -/
theorem serve_contains (h : q.Contains config (config.wanted (offered requests))) (request : Request) :
    (q.serve request).2.Contains config (config.wanted (offered (requests ++ [request]))) := by
  cases offer : request.offer? with
  | some d =>
    obtain ⟨⟨-, held, now⟩ | ⟨-, held, now⟩, same⟩ := serve_offer h offer
    · exact ⟨same.trans h.config, by rw [held, now, List.map_append, List.map_append, h.diagnostics]⟩
    · exact ⟨same.trans h.config, by rw [held, now, h.diagnostics]⟩
  | none =>
    cases request with
    | push => cases offer
    | raise => cases offer
    | annotate source =>
      rw [offered_annotate]
      exact annotate_contains h source
    | flush =>
      rw [offered_flush, QueueConfig.wanted_nil]
      exact ⟨h.config, rfl⟩

theorem serveAll_append (q : Queue) (requests : List Request) (request : Request) :
    q.serveAll (requests ++ [request]) = ((q.serveAll requests).serve request).2 := by
  rw [serveAll, List.foldl_append]
  rfl

/-- **After any requests, a queue holds what is wanted.** -/
theorem serveAll_contains (config : QueueConfig) (requests : List Request) :
    ((ofConfig config).serveAll requests).Contains config (config.wanted (offered requests)) := by
  induction requests using List.reverseRecOn with
  | nil =>
    have nothing : offered [] = [] := rfl
    rw [nothing, QueueConfig.wanted_nil]
    exact ⟨rfl, rfl⟩
  | append_singleton requests request ih =>
    rw [serveAll_append]
    exact serve_contains ih request

/-- **A flush makes room for anything.** -/
theorem serveAll_flush (config : QueueConfig) (requests : List Request)
    (offer : request.offer? = some d) :
    (((ofConfig config).serveAll (requests ++ [.flush])).serve request).1 = .kept true ∧
      ((ofConfig config).serveAll (requests ++ [.flush, request])).diagnostics = [d] := by
  have held := serveAll_contains config (requests ++ [.flush])
  have empty : ((ofConfig config).serveAll (requests ++ [.flush])).diagnostics = [] := by
    rw [serveAll_append]
    rfl
  have wanted : config.wanted (offered (requests ++ [.flush] ++ [request])) = [d] := by
    rw [offered_offer _ offer, offered_flush]
    refine (QueueConfig.wanted_append_kept ?_ ?_).trans ?_
    · rw [QueueConfig.wanted_nil]
      exact fun full => absurd full.2 (Nat.not_le_of_lt full.1)
    · rw [QueueConfig.wanted_nil]
      exact fun again => List.not_mem_nil again.2
    · rw [QueueConfig.wanted_nil, List.nil_append]
  rw [List.append_cons requests .flush [request], serveAll_append _ (requests ++ [Request.flush])]
  obtain ⟨⟨answer, now, -⟩ | ⟨-, -, same⟩, -⟩ := serve_offer held offer
  · exact ⟨answer, by rw [now, empty, List.nil_append]⟩
  · rw [wanted, offered_flush, QueueConfig.wanted_nil] at same
    cases same

/-! ## What was dropped -/

/-- A request adds to what was dropped if it is an offer and the limit is
reached. -/
theorem dropped_serve (q : Queue) (request : Request) :
    (q.serve request).2.dropped =
      q.dropped + if request.offer?.isSome && q.limitReached then 1 else 0 := by
  have push : ∀ d, (q.push d).2.dropped = q.dropped + if q.limitReached then 1 else 0 := by
    intro d
    rw [push_eq]
    cases q.limitReached <;> rfl
  cases request with
  | push d => exact push d
  | raise code span => exact push _
  | annotate source => rfl
  | flush => rfl

theorem late_append (q : Queue) (requests : List Request) (request : Request) :
    q.late (requests ++ [request]) = q.late requests +
      if request.offer?.isSome && (q.serveAll requests).limitReached then 1 else 0 := by
  have earlier : requests.zipIdx.countP (fun (r, i) =>
      r.offer?.isSome && (q.serveAll ((requests ++ [request]).take i)).limitReached) =
      q.late requests := by
    refine List.countP_congr fun ⟨r, i⟩ hr => ?_
    have hi : i < requests.length := by
      have := List.mem_zipIdx hr
      omega
    dsimp only
    rw [List.take_append_of_le_length (Nat.le_of_lt hi)]
  rw [late, List.zipIdx_append, List.countP_append, earlier, List.zipIdx_cons, List.zipIdx_nil,
    List.countP_singleton]
  simp only [Nat.zero_add, List.take_left]

/-- **What was dropped came when the limit was reached.** -/
theorem dropped_serveAll (config : QueueConfig) (requests : List Request) :
    ((ofConfig config).serveAll requests).dropped = (ofConfig config).late requests := by
  induction requests using List.reverseRecOn with
  | nil => rfl
  | append_singleton requests request ih =>
    rw [serveAll_append, dropped_serve, late_append, ih]

end Queue

/-! ## The set mirrors the list -/

namespace SeenQueue

theorem Mirrors.limitReached (h : s.Mirrors q) : s.limitReached = q.limitReached := by
  rw [SeenQueue.limitReached, Queue.limitReached, h.config, h.diagnostics, Queue.size]

theorem Mirrors.mem_seen (h : s.Mirrors q) (dedup : s.config.deduplicate = true) :
    d.key ∈ s.seen ↔ q.holds d = true := by
  rw [h.seen dedup, Queue.holds, List.any_eq_true]
  simp only [beq_iff_eq]

theorem Mirrors.push (h : s.Mirrors q) (d : Diagnostic) :
    (s.push d).1 = (q.push d).1 ∧ (s.push d).2.Mirrors (q.push d).2 := by
  unfold SeenQueue.push Queue.push
  rw [h.limitReached, ← h.config]
  split
  · exact ⟨rfl, rfl, h.diagnostics, congrArg (· + 1) h.dropped, h.seen⟩
  · cases dedup : s.config.deduplicate with
    | true =>
      rw [if_pos rfl, Bool.true_and]
      simp only [h.mem_seen dedup]
      split
      · exact ⟨rfl, h⟩
      · refine ⟨rfl, rfl, congrArg (· ++ [d]) h.diagnostics, h.dropped, fun _ key => ?_⟩
        dsimp only
        rw [Finset.mem_insert, h.seen dedup]
        simp only [List.mem_append, List.mem_singleton, or_and_right, exists_or, exists_eq_left]
        rw [or_comm, eq_comm]
    | false =>
      rw [if_neg Bool.false_ne_true, Bool.false_and, if_neg Bool.false_ne_true]
      exact ⟨rfl, rfl, congrArg (· ++ [d]) h.diagnostics, h.dropped,
        fun again => absurd (dedup.symm.trans again) Bool.false_ne_true⟩

/-- A diagnostic reports the same wherever it stands. -/
theorem Mirrors.annotate (h : s.Mirrors q) (source : String) :
    (s.annotate source).Mirrors (q.annotate source) := by
  refine ⟨h.config, ?_, h.dropped, fun dedup key => ?_⟩
  · simp only [SeenQueue.annotate, Queue.annotate, h.diagnostics]
  · refine (h.seen dedup key).trans ⟨?_, ?_⟩
    · rintro ⟨d, hd, hk⟩
      exact ⟨d.locate _ source, List.mem_map_of_mem hd, hk⟩
    · rintro ⟨_, placed, hk⟩
      obtain ⟨d, hd, rfl⟩ := List.mem_map.1 placed
      exact ⟨d, hd, hk⟩

/-- **Each request is answered the same with a set.** -/
theorem Mirrors.serve (h : s.Mirrors q) (request : Request) :
    (s.serve request).1 = (q.serve request).1 ∧
      (s.serve request).2.Mirrors (q.serve request).2 := by
  cases request with
  | push d =>
    obtain ⟨answer, later⟩ := h.push d
    exact ⟨congrArg Reply.kept answer, later⟩
  | raise code span =>
    obtain ⟨answer, later⟩ := h.push (.ofCode code span)
    exact ⟨congrArg Reply.kept answer, later⟩
  | annotate source => exact ⟨rfl, h.annotate source⟩
  | flush =>
    refine ⟨congrArg Reply.taken h.diagnostics, h.config, rfl, h.dropped, fun _ key => ?_⟩
    exact ⟨fun h => absurd h (Finset.notMem_empty key), fun ⟨_, hd, _⟩ => by cases hd⟩

theorem serveAll_append (s : SeenQueue) (requests : List Request) (request : Request) :
    s.serveAll (requests ++ [request]) = ((s.serveAll requests).serve request).2 := by
  rw [serveAll, List.foldl_append]
  rfl

/-- **After any requests, the set is what the queue holds.** -/
theorem serveAll_mirrors (config : QueueConfig) (requests : List Request) :
    (SeenQueue.serveAll { config } requests).Mirrors
      ((Queue.ofConfig config).serveAll requests) := by
  induction requests using List.reverseRecOn with
  | nil =>
    exact ⟨rfl, rfl, rfl, fun _ key =>
      ⟨fun h => absurd h (Finset.notMem_empty key), fun ⟨_, hd, _⟩ => by cases hd⟩⟩
  | append_singleton requests request ih =>
    rw [serveAll_append, Queue.serveAll_append]
    exact (ih.serve request).2

end SeenQueue

/-! ## What a queue does -/

/-- **A queue does as it is meant to.** After any requests it holds, of
what has been offered since the last flush, what is wanted; the limit is
reached when there is one and the queue holds as many; and what was
dropped are the offers that found it reached. An offer is answered with
yes when it extends what is wanted, and the queue by it, and with no when
it does not. A flush returns what is held, and whatever is offered next is
accepted. A queue that remembers in a set answers the same, and its set
has what is held. -/
theorem Queue.serveAll_exact (config : QueueConfig) (requests : List Request) :
    ((ofConfig config).serveAll requests).diagnostics.map Diagnostic.unplaced =
        (config.wanted (offered requests)).map Diagnostic.unplaced ∧
      (((ofConfig config).serveAll requests).limitReached = true ↔
        0 < config.errorLimit ∧
          ((ofConfig config).serveAll requests).size = config.errorLimit) ∧
      ((ofConfig config).serveAll requests).dropped = (ofConfig config).late requests ∧
      (∀ request d, request.offer? = some d →
        (((ofConfig config).serveAll requests).serve request).1 = .kept true ∧
            ((ofConfig config).serveAll (requests ++ [request])).diagnostics =
              ((ofConfig config).serveAll requests).diagnostics ++ [d] ∧
            config.wanted (offered (requests ++ [request])) =
              config.wanted (offered requests) ++ [d] ∨
          (((ofConfig config).serveAll requests).serve request).1 = .kept false ∧
            ((ofConfig config).serveAll (requests ++ [request])).diagnostics =
              ((ofConfig config).serveAll requests).diagnostics ∧
            config.wanted (offered (requests ++ [request])) = config.wanted (offered requests)) ∧
      (((ofConfig config).serveAll requests).serve .flush).1 =
        .taken ((ofConfig config).serveAll requests).diagnostics ∧
      (∀ request d, request.offer? = some d →
        (((ofConfig config).serveAll (requests ++ [.flush])).serve request).1 = .kept true ∧
          ((ofConfig config).serveAll (requests ++ [.flush, request])).diagnostics = [d]) ∧
      (∀ request, ((SeenQueue.serveAll { config } requests).serve request).1 =
        (((ofConfig config).serveAll requests).serve request).1) ∧
      (SeenQueue.serveAll { config } requests).Mirrors ((ofConfig config).serveAll requests) := by
  have held := serveAll_contains config requests
  have mirrors := SeenQueue.serveAll_mirrors config requests
  refine ⟨held.diagnostics, ?_, dropped_serveAll config requests, ?_, rfl, ?_,
    fun request => (mirrors.serve request).1, mirrors⟩
  · rw [held.limitReached_iff, QueueConfig.full, held.size]
    have short := config.length_wanted_le (offered requests)
    constructor
    · exact fun h => ⟨h.1, Nat.le_antisymm (short h.1) h.2⟩
    · exact fun h => ⟨h.1, Nat.le_of_eq h.2.symm⟩
  · intro request d offer
    rw [serveAll_append]
    exact (serve_offer held offer).1
  · intro request d offer
    exact serveAll_flush config requests offer

/-- A report comes twice, and two others fill the queue. It is refused
then, and accepted after a flush. -/
theorem Queue.serveAll_exact_full :
    Request.offer? (.raise .unknownName ⟨0, 1⟩) = some (.ofCode .unknownName ⟨0, 1⟩) ∧
    ((ofConfig ⟨2, true⟩).serveAll [.raise .unknownName ⟨0, 1⟩, .raise .unknownName ⟨0, 1⟩,
      .raise .noMain ⟨0, 1⟩, .raise .noMain ⟨2, 1⟩]).dropped = 1 ∧
    (((ofConfig ⟨2, true⟩).serveAll [.raise .unknownName ⟨0, 1⟩, .raise .unknownName ⟨0, 1⟩,
      .raise .noMain ⟨0, 1⟩, .raise .noMain ⟨2, 1⟩]).serve
        (.raise .unknownName ⟨0, 1⟩)).1 = .kept false ∧
    (((ofConfig ⟨2, true⟩).serveAll ([.raise .unknownName ⟨0, 1⟩, .raise .unknownName ⟨0, 1⟩,
      .raise .noMain ⟨0, 1⟩, .raise .noMain ⟨2, 1⟩] ++ [.flush])).serve
        (.raise .unknownName ⟨0, 1⟩)).1 = .kept true := by
  obtain ⟨-, -, dropped, answers, -, again, -, -⟩ := serveAll_exact ⟨2, true⟩
    [.raise .unknownName ⟨0, 1⟩, .raise .unknownName ⟨0, 1⟩, .raise .noMain ⟨0, 1⟩,
      .raise .noMain ⟨2, 1⟩]
  have offer : Request.offer? (.raise .unknownName ⟨0, 1⟩) =
    some (.ofCode .unknownName ⟨0, 1⟩) := rfl
  refine ⟨offer, dropped.trans (by decide +kernel), ?_, (again _ _ offer).1⟩
  rcases answers _ _ offer with ⟨-, -, more⟩ | ⟨answer, -, -⟩
  · exact absurd more (by decide +kernel)
  · exact answer

end FrontEnd
