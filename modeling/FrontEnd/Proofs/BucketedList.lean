import FrontEnd.Arena
import FrontEnd.Proofs.Outcome
import Mathlib.Data.List.Forall2
/-!
# FrontEnd — an arena is a list

What an arena answers does not show its buckets: it answers as the list
of its records does (`Arena.ActsAs`), and however it has been filled, its
buckets are full but for the last (`Filled`). Several arenas of which one
may be copied from another act as that many lists, whatever is done to
them (`Arena.run_refines`).
-/

namespace FrontEnd

namespace Arena

variable {k : RecordKind} {α : Type} {a : Arena k α} {xs : List α} {capacity : Nat}
variable {buckets full : List (Array α)} {last : Array α} {i : RecordId k} {record : α}

/-! ## Buckets -/

/-- Every bucket is full but the last, and that holds something. -/
inductive Filled (capacity : Nat) : List (Array α) → Prop
  | empty : Filled capacity []
  | concat {full : List (Array α)} {last : Array α} (whole : ∀ b ∈ full, b.size = capacity)
      (some : 0 < last.size) (room : last.size ≤ capacity) : Filled capacity (full ++ [last])

/-- The records of full buckets number as many as fit them. -/
theorem length_flatMap_full (whole : ∀ b ∈ full, b.size = capacity) :
    (full.flatMap Array.toList).length = full.length * capacity := by
  induction full with
  | nil => simp
  | cons b full ih =>
    obtain ⟨hb, hfull⟩ := List.forall_mem_cons.1 whole
    rw [List.flatMap_cons, List.length_append, ih hfull, Array.length_toList, hb, List.length_cons,
      Nat.succ_mul, Nat.add_comm]

/-- A record behind full buckets is found by counting these off. -/
theorem getElem?_concat (pos : 0 < capacity) (whole : ∀ b ∈ full, b.size = capacity)
    (room : last.size ≤ capacity) (n : Nat) :
    ((full ++ [last])[n / capacity]? >>= fun bucket => bucket[n % capacity]?) =
      ((full ++ [last]).flatMap Array.toList)[n]? := by
  induction full generalizing n with
  | nil =>
    rcases Nat.lt_or_ge n capacity with h | h
    · simp [Nat.div_eq_of_lt h, Nat.mod_eq_of_lt h]
    · have hlast : last[n]? = none := Array.getElem?_eq_none (Nat.le_trans room h)
      have hone : 1 ≤ n / capacity := (Nat.le_div_iff_mul_le pos).2 (by simpa using h)
      simp [hlast, List.getElem?_eq_none (l := [last]) hone]
  | cons b full ih =>
    obtain ⟨hb, hfull⟩ := List.forall_mem_cons.1 whole
    rw [List.cons_append, List.flatMap_cons]
    rcases Nat.lt_or_ge n capacity with h | h
    · rw [Nat.div_eq_of_lt h, Nat.mod_eq_of_lt h, List.getElem?_append_left (by simpa [hb] using h)]
      simp
    · -- one bucket further, the rest is asked for what lies that much further back
      rw [Nat.div_eq_sub_div pos h, Nat.mod_eq_sub_mod h, List.getElem?_cons_succ, ih hfull,
        List.getElem?_append_right (by simpa [hb] using h), Array.length_toList, hb]

namespace Filled

variable (h : Filled capacity buckets)

include h

/-- **The quotient by the capacity names the bucket, the remainder the
place in it.** -/
theorem getElem? (pos : 0 < capacity) (n : Nat) :
    (buckets[n / capacity]? >>= fun bucket => bucket[n % capacity]?) =
      (buckets.flatMap Array.toList)[n]? := by
  cases h with
  | empty => rfl
  | concat whole some room => exact getElem?_concat pos whole room n

/-- There are as many buckets as the records divided by what fits one,
rounded up. -/
theorem length (pos : 0 < capacity) :
    buckets.length = ((buckets.flatMap Array.toList).length + capacity - 1) / capacity := by
  cases h with
  | empty => exact (Nat.div_eq_of_lt (by simp; omega)).symm
  | @concat full last whole some room =>
    have hrecords : ((full ++ [last]).flatMap Array.toList).length + capacity - 1 =
        (last.size - 1) + (full.length + 1) * capacity := by
      simp only [List.flatMap_append, List.length_append, length_flatMap_full whole,
        List.flatMap_cons, List.flatMap_nil, List.append_nil, Array.length_toList, Nat.succ_mul]
      omega
    rw [hrecords, Nat.add_mul_div_right _ _ pos, Nat.div_eq_of_lt (by omega), Nat.zero_add,
      List.length_append, List.length_singleton]

theorem size_eq {n : Nat} {bucket : Array α} (hn : n + 1 < buckets.length)
    (hb : buckets[n]? = some bucket) : bucket.size = capacity := by
  cases h with
  | empty => cases hb
  | concat whole some room =>
    rw [List.length_append, List.length_singleton, Nat.add_lt_add_iff_right] at hn
    rw [List.getElem?_append_left hn] at hb
    exact whole bucket (List.mem_of_getElem? hb)

/-- Whether buckets are filled shows in their sizes. -/
theorem congr {buckets' : List (Array α)}
    (sizes : buckets'.map Array.size = buckets.map Array.size) : Filled capacity buckets' := by
  cases h with
  | empty => exact List.map_eq_nil_iff.1 sizes ▸ .empty
  | @concat full last whole some room =>
    rw [List.map_append, List.map_singleton, List.map_eq_append_iff] at sizes
    obtain ⟨full', rest, rfl, hfull, hrest⟩ := sizes
    obtain ⟨last', rfl, hlast⟩ := List.map_eq_singleton_iff.1 hrest
    refine .concat (fun b hb => ?_) (hlast ▸ some) (hlast ▸ room)
    obtain ⟨b', hb', hsize⟩ := List.mem_map.1 (hfull ▸ List.mem_map_of_mem hb)
    exact hsize ▸ whole b' hb'

end Filled

/-! ## What an arena holds -/

/-- The arena holds the records of the list in buckets of a capacity. -/
structure Holds (capacity : Nat) (a : Arena k α) (xs : List α) : Prop where
  pos : 0 < capacity
  fits : a.capacity = capacity
  filled : Filled capacity a.buckets.toList
  toList : a.toList = xs
  size : a.size = xs.length

theorem get?_eq_toList (pos : 0 < a.capacity) (filled : Filled a.capacity a.buckets.toList)
    (i : RecordId k) : a.get? i = a.toList[i.raw]? := by
  rw [Arena.get?, Arena.toList, ← Array.getElem?_toList]
  exact filled.getElem? pos i.raw

/-- The arena in which the record under `i` has been overwritten. -/
def overwrite (a : Arena k α) (i : RecordId k) (record : α) : Arena k α :=
  { a with
    buckets := a.buckets.modify (i.raw / a.capacity)
      (Array.modify · (i.raw % a.capacity) fun _ => record) }

theorem set_eq (a : Arena k α) (i : RecordId k) (record : α) : a.set i record =
    match a.get? i with
    | some _ => .ok (a.overwrite i record)
    | none => .error .outOfRange :=
  rfl

/-- Two ids share bucket and place only if they are the same. -/
theorem get?_overwrite (a : Arena k α) (i j : RecordId k) (record : α) :
    (a.overwrite i record).get? j =
      if i.raw = j.raw then (a.get? i).map fun _ => record else a.get? j := by
  simp only [Arena.get?, overwrite, Array.getElem?_modify]
  by_cases hbucket : i.raw / a.capacity = j.raw / a.capacity
  · -- in one bucket, the ids are as equal as their places are
    have hplace : i.raw = j.raw ↔ i.raw % a.capacity = j.raw % a.capacity := by
      constructor
      · exact fun h => by rw [h]
      · intro h
        rw [← Nat.div_add_mod i.raw a.capacity, hbucket, h, Nat.div_add_mod]
    simp only [hbucket, hplace, if_true]
    cases a.buckets[j.raw / a.capacity]? with
    | none => simp
    | some bucket =>
      simp only [Option.map_some, Option.bind_eq_bind, Option.bind_some, Array.getElem?_modify]
      split
      · next h => rw [h]
      · rfl
  · have hne : i.raw ≠ j.raw := fun h => hbucket (by rw [h])
    rw [if_neg hbucket, if_neg hne]

theorem map_size_overwrite (a : Arena k α) (i : RecordId k) (record : α) :
    (a.overwrite i record).buckets.toList.map Array.size = a.buckets.toList.map Array.size := by
  refine List.ext_getElem? fun n => ?_
  simp only [overwrite, List.getElem?_map, Array.getElem?_toList, Array.getElem?_modify]
  split
  · cases a.buckets[n]? <;> simp
  · rfl

theorem Holds.empty {recordBytes : Nat} (h : recordBytes ≤ bucketBytes) :
    Holds (bucketCapacity recordBytes) (Arena.empty recordBytes : Arena k α) [] where
  pos := by
    unfold bucketCapacity
    split
    · decide
    · next hne => exact Nat.div_pos h (Nat.pos_of_ne_zero hne)
  fits := rfl
  filled := .empty
  toList := rfl
  size := rfl

namespace Holds

variable (h : Holds capacity a xs)

include h

/-- **An id reads the record of the list that it counts off.** -/
theorem get? (i : RecordId k) : a.get? i = xs[i.raw]? := by
  rw [get?_eq_toList (h.fits ▸ h.pos) (h.fits ▸ h.filled), h.toList]

theorem get (i : RecordId k) : a.get i = xs[i.raw]?.elim (.error .outOfRange) .ok := by
  rw [Arena.get, h.get? i]
  cases xs[i.raw]? <;> rfl

/-- **To push a record is to put it at the end of the list.** -/
theorem push (record : α) : Holds capacity (a.push record) (xs ++ [record]) := by
  obtain ⟨pos, rfl, filled, rfl, size⟩ := h
  suffices key : Filled a.capacity (a.push record).buckets.toList ∧
      (a.push record).toList = a.toList ++ [record] by
    refine ⟨pos, ?_, key.1, key.2, ?_⟩
    · unfold Arena.push
      split <;> rfl
    · unfold Arena.push
      split <;> simp [size]
  simp only [Arena.toList]
  generalize hb : a.buckets.toList = buckets at filled
  have hlast : a.buckets.back? = buckets.getLast? := by rw [← hb, Array.getLast?_toList]
  cases filled with
  | empty =>
    have hfull : a.isFull = true := by rw [isFull, hlast]; rfl
    have hpush : (a.push record).buckets.toList = [] ++ [#[record]] := by
      rw [Arena.push, if_pos hfull, Array.toList_push, hb]
    rw [hpush]
    exact ⟨.concat (by simp) Nat.one_pos pos, rfl⟩
  | @concat full last whole some room =>
    rw [List.getLast?_concat] at hlast
    have hfull : a.isFull = (last.size == a.capacity) := by rw [isFull, hlast]
    rcases Nat.lt_or_eq_of_le room with hlt | heq
    · -- there is room behind the last record
      have hpush : (a.push record).buckets.toList = full ++ [last.push record] := by
        have hback : a.buckets.size - 1 = full.length := by
          rw [← Array.length_toList, hb, List.length_append, List.length_singleton,
            Nat.add_sub_cancel]
        rw [Arena.push, if_neg (by simp [hfull, Nat.ne_of_lt hlt]), Array.toList_modify, hb, hback,
          List.modify_eq_take_drop, List.take_left, List.drop_left]
        rfl
      rw [hpush]
      exact ⟨.concat whole (by simp) (by simpa using Nat.succ_le_of_lt hlt), by simp⟩
    · have hpush : (a.push record).buckets.toList = (full ++ [last]) ++ [#[record]] := by
        rw [Arena.push, if_pos (by simp [hfull, heq]), Array.toList_push, hb]
      rw [hpush]
      refine ⟨.concat (fun b hb => ?_) Nat.one_pos pos, by simp⟩
      rcases List.mem_append.1 hb with hb | hb
      · exact whole b hb
      · exact List.mem_singleton.1 hb ▸ heq

/-- **To write through a reference is to set an element of the list.** -/
theorem overwrite (hi : i.raw < xs.length) (record : α) :
    Holds capacity (a.overwrite i record) (xs.set i.raw record) := by
  have hold := h.get? i
  obtain ⟨pos, rfl, filled, rfl, size⟩ := h
  have filled' := filled.congr (a.map_size_overwrite i record)
  refine ⟨pos, rfl, filled', List.ext_getElem? fun n => ?_, by rw [List.length_set]; exact size⟩
  have hread := get?_eq_toList (a := a.overwrite i record) pos filled' ⟨n⟩
  rw [← hread, get?_overwrite, List.getElem?_set, hold, get?_eq_toList pos filled]
  by_cases hn : i.raw = n
  · simp [hn, hn ▸ hi]
  · simp [hn]

theorem set (i : RecordId k) (record : α) : a.set i record =
    if i.raw < xs.length then .ok (a.overwrite i record) else .error .outOfRange := by
  rw [set_eq, h.get? i]
  rcases Nat.lt_or_ge i.raw xs.length with hi | hi
  · rw [List.getElem?_eq_getElem hi, if_pos hi]
  · rw [List.getElem?_eq_none hi, if_neg (Nat.not_lt.2 hi)]

theorem append [Inhabited α] : a.append = .ok ((⟨xs.length⟩, default), a.push default) := by
  have hread := (h.push default).get? a.nextId
  rw [nextId, h.size, List.getElem?_append_right (Nat.le_refl _), Nat.sub_self] at hread
  simp only [Arena.append, nextId, h.size, Arena.get, hread]
  rfl

theorem bucketCount : a.bucketCount = (xs.length + capacity - 1) / capacity := by
  rw [← h.toList]
  exact h.filled.length h.pos

/-- To read the ids of a range one by one. -/
theorem mapM_get (start len : Nat) :
    ((IdRange.mk start len : IdRange k).ids.mapM fun i => do return (i, ← a.get i)) =
      if len = 0 ∨ start + len ≤ xs.length then
        .ok ((IdRange.mk start len).ids.zip ((xs.drop start).take len))
      else .error .outOfRange := by
  induction len generalizing start with
  | zero => rfl
  | succ len ih =>
    have hids : (IdRange.mk start (len + 1) : IdRange k).ids =
        ⟨start⟩ :: (IdRange.mk (start + 1) len).ids := rfl
    rw [hids, List.mapM_cons, ih, h.get]
    rcases Nat.lt_or_ge start xs.length with hlt | hge
    · rw [List.getElem?_eq_getElem hlt, List.drop_eq_getElem_cons hlt]
      by_cases hfit : len = 0 ∨ start + 1 + len ≤ xs.length
      · rw [if_pos hfit, if_pos (by omega)]
        rfl
      · rw [if_neg hfit, if_neg (by omega)]
        rfl
    · have hpast : ¬(len + 1 = 0 ∨ start + (len + 1) ≤ xs.length) := by omega
      rw [List.getElem?_eq_none hge, if_neg hpast]
      rfl

/-- A slice reads its ids one by one: that its end has been checked ahead
does not show. -/
theorem slice_eq_mapM (r : IdRange k) :
    a.slice r = r.ids.mapM fun i => do return (i, ← a.get i) := by
  have hwalk := h.mapM_get r.start r.len
  simp only [Arena.slice, IdRange.isEmpty, beq_iff_eq, IdRange.stop, h.size]
  by_cases hempty : r.len = 0
  · rw [if_pos hempty, hwalk, if_pos (.inl hempty), hempty]
    rfl
  · rw [if_neg hempty]
    by_cases hstop : r.start + r.len ≤ xs.length
    · rw [if_pos hstop]
    · rw [if_neg hstop, hwalk, if_neg (by omega)]

end Holds

/-- A copy differs from the original in nothing that can be asked for. -/
theorem clone_eq (a : Arena k α) : a.clone = a := by
  simp [clone]

/-- **The arena answers as a list does**, and its buckets are full but for
the last. -/
structure ActsAs (capacity : Nat) (a : Arena k α) (xs : List α) : Prop where
  size : a.size = xs.length
  /-- The next record gets the number of those before it as its id. -/
  nextId : a.nextId = ⟨xs.length⟩
  isEmpty : a.isEmpty = xs.isEmpty
  contains : ∀ i, a.contains i = decide (i.raw < xs.length)
  get? : ∀ i, a.get? i = xs[i.raw]?
  get : ∀ i, a.get i = xs[i.raw]?.elim (.error .outOfRange) .ok
  set_faults : ∀ i record, a.set i record = .error .outOfRange ↔ xs.length ≤ i.raw
  toList : a.toList = xs
  enumerate : a.enumerate = ((IdRange.mk 0 xs.length).ids).zip xs
  view_toList : a.view.toList = xs
  view_get? : ∀ i, a.view.get? i = xs[i.raw]?
  slice : ∀ r, a.slice r =
    if r.len = 0 ∨ r.stop ≤ xs.length then .ok (r.ids.zip ((xs.drop r.start).take r.len))
    else .error .outOfRange
  bucketCount : a.bucketCount = (xs.length + capacity - 1) / capacity
  full : ∀ n bucket, n + 1 < a.bucketCount → a.buckets[n]? = some bucket → bucket.size = capacity

/-- **What an arena holds decides what it answers.** -/
theorem Holds.actsAs (h : Holds capacity a xs) : ActsAs capacity a xs where
  size := h.size
  nextId := congrArg RecordId.mk h.size
  isEmpty := by
    rw [Arena.isEmpty, h.size]
    cases xs <;> rfl
  contains i := by rw [Arena.contains, h.size]
  get? := h.get?
  get := h.get
  set_faults i record := by
    rw [h.set]
    split
    · next hi => simpa using hi
    · next hi => simpa using hi
  toList := h.toList
  enumerate := by rw [Arena.enumerate, h.size, h.toList]
  view_toList := by rw [View.toList, view, h.toList, h.size, List.take_length]
  view_get? i := by
    rw [View.get?, view, h.get?, h.size]
    split
    · rfl
    · next hi => exact (List.getElem?_eq_none (Nat.le_of_not_lt hi)).symm
  slice r := (h.slice_eq_mapM r).trans (h.mapM_get r.start r.len)
  bucketCount := h.bucketCount
  full n bucket hn hb := h.filled.size_eq hn (by rwa [Array.getElem?_toList])

/-! ## Arenas that are filled, written and copied -/

/-- What is done to one arena. -/
inductive Edit (k : RecordKind) (α : Type)
  | push (record : α)
  | append
  /-- Append a record, and write it through the reference that this gives. -/
  | fill (record : α)
  | write (i : RecordId k) (record : α)

/-- What is done to one of several arenas. -/
inductive Move (k : RecordKind) (α : Type)
  | edit (n : Nat) (e : Edit k α)
  /-- Copy an arena; the copy comes behind those there are. -/
  | clone (n : Nat)

section

variable [Inhabited α]

/-- Edit an arena; gives the id of a new record. -/
def edit (a : Arena k α) : Edit k α → Except Fault (Option (RecordId k) × Arena k α)
  | .push record => .ok (some a.nextId, a.push record)
  | .append => do
    let ((i, _), a) ← a.append
    return (some i, a)
  | .fill record => do
    let ((i, _), a) ← a.append
    return (some i, ← a.set i record)
  | .write i record => do return (none, ← a.set i record)

/-- Edit a list instead. -/
def editList (xs : List α) : Edit k α → Except Fault (Option (RecordId k) × List α)
  | .push record | .fill record => .ok (some ⟨xs.length⟩, xs ++ [record])
  | .append => .ok (some ⟨xs.length⟩, xs ++ [default])
  | .write i record =>
    if i.raw < xs.length then .ok (none, xs.set i.raw record) else .error .outOfRange

/-- **An edit does to an arena what it does to the list.** -/
theorem Holds.edit (h : Holds capacity a xs) (e : Edit k α) :
    (∃ fault, a.edit e = .error fault ∧ editList xs e = .error fault) ∨
      ∃ id a' xs', a.edit e = .ok (id, a') ∧ editList xs e = .ok (id, xs') ∧
        Holds capacity a' xs' := by
  cases e with
  | push record =>
    refine .inr ⟨_, _, _, rfl, ?_, h.push record⟩
    rw [editList, nextId, h.size]
  | append =>
    refine .inr ⟨some ⟨xs.length⟩, a.push default, _, ?_, rfl, h.push default⟩
    simp only [Arena.edit, h.append, ok_bind]
    rfl
  | fill record =>
    have hset := (h.push default).set ⟨xs.length⟩ record
    have hlt : xs.length < (xs ++ [default]).length := by simp
    have held := (h.push default).overwrite (i := ⟨xs.length⟩) hlt record
    rw [if_pos hlt] at hset
    rw [List.set_append_right _ _ (Nat.le_refl _), Nat.sub_self, List.set_cons_zero] at held
    refine .inr ⟨some ⟨xs.length⟩, _, _, ?_, rfl, held⟩
    simp only [Arena.edit, h.append, ok_bind, hset]
    rfl
  | write i record =>
    simp only [Arena.edit, editList, h.set]
    split
    · next hi => exact .inr ⟨_, _, _, rfl, rfl, h.overwrite hi record⟩
    · exact .inl ⟨_, rfl, rfl⟩

end

section

variable {σ : Type} (edit : σ → Edit k α → Except Fault (Option (RecordId k) × σ)) (copy : σ → σ)

/-- One move, with what it answers. An edit that faults changes nothing. -/
def step (states : List σ) : Move k α → Except Fault (Option (RecordId k)) × List σ
  | .edit n e =>
    match states[n]? with
    | none => (.ok none, states)
    | some s =>
      match edit s e with
      | .ok (id, s') => (.ok id, states.set n s')
      | .error fault => (.error fault, states)
  | .clone n => (.ok none, states ++ (states[n]?.map copy).toList)

/-- Moves in order, with what they answer. -/
def run (states : List σ) : List (Move k α) → List (Except Fault (Option (RecordId k))) × List σ
  | [] => ([], states)
  | move :: moves =>
    let (answer, states) := step edit copy states move
    let (answers, states) := run states moves
    (answer :: answers, states)

variable {edit copy} {states : List σ} {moves : List (Move k α)} {n : Nat}

theorem length_le_step (move : Move k α) : states.length ≤ (step edit copy states move).2.length := by
  unfold step
  split
  · split
    · exact Nat.le_refl _
    · split <;> simp
  · simp

/-- **A state that no move edits stays as it is.** -/
theorem run_unedited (hn : n < states.length) (h : ∀ e, .edit n e ∉ moves) :
    (run edit copy states moves).2[n]? = states[n]? := by
  induction moves generalizing states with
  | nil => rfl
  | cons move moves ih =>
    have hstep : (step edit copy states move).2[n]? = states[n]? := by
      cases move with
      | edit m e =>
        have hne : m ≠ n := fun hm => h e (by simp [hm])
        simp only [step]
        split
        · rfl
        · split
          · exact List.getElem?_set_ne hne
          · rfl
      | clone m => exact List.getElem?_append_left hn
    refine (ih (Nat.lt_of_lt_of_le hn (length_le_step move)) fun e he => ?_).trans hstep
    exact h e (List.mem_cons_of_mem _ he)

theorem run_append (moves later : List (Move k α)) : (run edit copy states (moves ++ later)).2 =
    (run edit copy (run edit copy states moves).2 later).2 := by
  induction moves generalizing states with
  | nil => rfl
  | cons move moves ih => exact ih

end

section

variable [Inhabited α] {arenas : List (Arena k α)} {lists : List (List α)}

/-- Related lists are related place by place. -/
theorem rel_getElem? {β γ : Type} {R : β → γ → Prop} {l : List β} {l' : List γ}
    (h : List.Forall₂ R l l') (n : Nat) : Option.Rel R l[n]? l'[n]? := by
  induction h generalizing n with
  | nil => exact .none
  | cons hR _ ih =>
    cases n with
    | zero => exact .some hR
    | succ n => exact ih n

theorem forall₂_set {β γ : Type} {R : β → γ → Prop} {l : List β} {l' : List γ} {x : β} {y : γ}
    (h : List.Forall₂ R l l') (n : Nat) (hxy : R x y) :
    List.Forall₂ R (l.set n x) (l'.set n y) := by
  induction h generalizing n with
  | nil => exact .nil
  | cons hR hrest ih =>
    cases n with
    | zero => exact .cons hxy hrest
    | succ n => exact .cons hR (ih n)

/-- **A move does to arenas what it does to the lists.** -/
theorem step_holds (h : List.Forall₂ (Holds capacity) arenas lists) (move : Move k α) :
    (step edit clone arenas move).1 = (step editList id lists move).1 ∧
      List.Forall₂ (Holds capacity) (step edit clone arenas move).2
        (step editList id lists move).2 := by
  cases move with
  | edit n e =>
    have here := rel_getElem? h n
    simp only [step]
    generalize arenas[n]? = arena at here
    generalize lists[n]? = list at here
    cases here with
    | none => exact ⟨rfl, h⟩
    | some held =>
      rcases held.edit e with ⟨fault, ha, hl⟩ | ⟨id, a', xs', ha, hl, held'⟩
      · simp only [ha, hl]
        exact ⟨trivial, h⟩
      · simp only [ha, hl]
        exact ⟨trivial, forall₂_set h n held'⟩
  | clone n =>
    have here := rel_getElem? h n
    refine ⟨rfl, List.rel_append h ?_⟩
    generalize arenas[n]? = arena at here
    generalize lists[n]? = list at here
    cases here with
    | none => exact .nil
    | @some a xs held =>
      refine .cons ?_ .nil
      rw [clone_eq]
      exact held

theorem run_holds (h : List.Forall₂ (Holds capacity) arenas lists) (moves : List (Move k α)) :
    (run edit clone arenas moves).1 = (run editList id lists moves).1 ∧
      List.Forall₂ (Holds capacity) (run edit clone arenas moves).2
        (run editList id lists moves).2 := by
  induction moves generalizing arenas lists with
  | nil => exact ⟨rfl, h⟩
  | cons move moves ih =>
    obtain ⟨hanswer, hstep⟩ := step_holds h move
    obtain ⟨hanswers, hrun⟩ := ih hstep
    exact ⟨congrArg₂ List.cons hanswer hanswers, hrun⟩

/-- **Arenas are lists.** Whatever is pushed, appended, written and copied,
starting from a new arena for records of any size that fits a bucket:
every move answers as it would on lists, faults included, and in the end
every arena acts as its list. An arena and its copy are not told apart,
and what is done to others leaves an arena as it is. -/
theorem run_refines {recordBytes : Nat} (fits : recordBytes ≤ bucketBytes)
    (moves : List (Move k α)) :
    (run edit clone [Arena.empty recordBytes] moves).1 = (run editList id [[]] moves).1 ∧
      List.Forall₂ (ActsAs (bucketCapacity recordBytes))
        (run edit clone [Arena.empty recordBytes] moves).2 (run editList id [[]] moves).2 ∧
      (∀ a ∈ (run edit clone [Arena.empty recordBytes] moves).2, a.clone = a) ∧
      ∀ before later n, moves = before ++ later → (∀ e, .edit n e ∉ later) →
        n < (run edit clone [Arena.empty recordBytes] before).2.length →
        (run edit clone [Arena.empty recordBytes] moves).2[n]? =
          (run edit clone [Arena.empty recordBytes] before).2[n]? := by
  have start : List.Forall₂ (Holds (bucketCapacity recordBytes))
      [(Arena.empty recordBytes : Arena k α)] [[]] := .cons (.empty fits) .nil
  obtain ⟨hanswers, held⟩ := run_holds start moves
  refine ⟨hanswers, held.imp @fun _ _ => Holds.actsAs, fun a _ => a.clone_eq, ?_⟩
  rintro before later n rfl hlater hn
  rw [run_append]
  exact run_unedited hn hlater

/-- Buckets of two records. Of three records the last opens a bucket; it is
overwritten in a copy only, and there is no fourth. -/
theorem run_refines_copied :
    8192 ≤ bucketBytes ∧
      (run edit clone [(Arena.empty 8192 : Arena .expr Nat)]
        [.edit 0 (.push 5), .edit 0 .append, .edit 0 (.fill 7), .clone 0,
          .edit 1 (.write ⟨2⟩ 9), .edit 0 (.write ⟨3⟩ 1)]).1 =
        [.ok (some ⟨0⟩), .ok (some ⟨1⟩), .ok (some ⟨2⟩), .ok none, .ok none, .error .outOfRange] ∧
      List.Forall₂ (ActsAs 2)
        (run edit clone [(Arena.empty 8192 : Arena .expr Nat)]
          [.edit 0 (.push 5), .edit 0 .append, .edit 0 (.fill 7), .clone 0,
            .edit 1 (.write ⟨2⟩ 9), .edit 0 (.write ⟨3⟩ 1)]).2 [[5, 0, 7], [5, 0, 9]] := by
  have fits : 8192 ≤ bucketBytes := by decide
  obtain ⟨hanswers, hacts, -, -⟩ := run_refines fits
    [.edit 0 (.push 5), .edit 0 .append, .edit 0 (.fill 7), .clone 0,
      .edit 1 (.write (⟨2⟩ : ExprId) 9), .edit 0 (.write ⟨3⟩ 1)]
  exact ⟨fits, hanswers, hacts⟩

end

end Arena

end FrontEnd
