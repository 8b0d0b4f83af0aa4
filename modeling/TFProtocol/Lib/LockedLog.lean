import Mathlib.Data.List.Basic
import TFProtocol.Lib.Runs

/-!
# A log written under a lock

Several writers append to one log, and each does so only while it holds a lock.  What a
writer appends from one lock to the next is a section.

## Main definitions

* `Op`, `State`, `next` — the operations of the writers on the lock and the log.
* `sections` — the sections of a list of operations, each with its writer.

## Main results

* `out_eq_sections` — the log is one section after the other.
* `sections_own` — the sections of a writer are those of its own operations, so no other
  writer comes in between.
-/

namespace LockedLog

variable {ι α : Type*}

/-- An operation of a writer. -/
inductive Op (ι α : Type*)
  | lock (i : ι)
  | put (i : ι) (x : α)
  | unlock (i : ι)
  deriving DecidableEq, Repr

/-- The writer of an operation. -/
def Op.writer : Op ι α → ι
  | lock i => i
  | put i _ => i
  | unlock i => i

/-- The lock and the log. -/
structure State (ι α : Type*) where
  holder : Option ι
  out : List α
  deriving DecidableEq, Repr

/-- What the holder appends before the next lock. -/
def body : List (Op ι α) → List α
  | .put _ x :: ops => x :: body ops
  | .unlock _ :: ops => body ops
  | _ => []

/-- The sections of a list of operations. -/
def sections : List (Op ι α) → List (ι × List α)
  | .lock i :: ops => (i, body ops) :: sections ops
  | .put _ _ :: ops => sections ops
  | .unlock _ :: ops => sections ops
  | [] => []

@[simp] theorem body_nil : body ([] : List (Op ι α)) = [] := rfl

@[simp] theorem body_lock (i : ι) (ops : List (Op ι α)) : body (.lock i :: ops) = [] := rfl

@[simp] theorem body_put (i : ι) (x : α) (ops : List (Op ι α)) :
    body (.put i x :: ops) = x :: body ops := rfl

@[simp] theorem body_unlock (i : ι) (ops : List (Op ι α)) :
    body (.unlock i :: ops) = body ops := rfl

@[simp] theorem sections_nil : sections ([] : List (Op ι α)) = [] := rfl

@[simp] theorem sections_lock (i : ι) (ops : List (Op ι α)) :
    sections (.lock i :: ops) = (i, body ops) :: sections ops := rfl

@[simp] theorem sections_put (i : ι) (x : α) (ops : List (Op ι α)) :
    sections (.put i x :: ops) = sections ops := rfl

@[simp] theorem sections_unlock (i : ι) (ops : List (Op ι α)) :
    sections (.unlock i :: ops) = sections ops := rfl

variable [DecidableEq ι]

/-- One operation, where it is possible. -/
def next (s : State ι α) : Op ι α → Option (State ι α)
  | .lock i => if s.holder = none then some { s with holder := some i } else none
  | .put i x => if s.holder = some i then some { s with out := s.out ++ [x] } else none
  | .unlock i => if s.holder = some i then some { s with holder := none } else none

/-- The operations of one writer. -/
def own (i : ι) (ops : List (Op ι α)) : List (Op ι α) := ops.filter fun op => op.writer = i

variable {s t : State ι α}

/-- What an operation can do. -/
theorem next_cases {op : Op ι α} (h : next s op = some t) :
    (∃ i, op = .lock i ∧ s.holder = none ∧ t = ⟨some i, s.out⟩) ∨
    (∃ i x, op = .put i x ∧ s.holder = some i ∧ t = ⟨some i, s.out ++ [x]⟩) ∨
    (∃ i, op = .unlock i ∧ s.holder = some i ∧ t = ⟨none, s.out⟩) := by
  cases op with
  | lock i =>
    rw [next] at h
    split at h
    · next hs => exact .inl ⟨i, rfl, hs, (Option.some.inj h).symm⟩
    · cases h
  | put i x =>
    rw [next] at h
    split at h
    · next hs =>
      refine .inr (.inl ⟨i, x, rfl, hs, ?_⟩)
      rw [← Option.some.inj h, hs]
    · cases h
  | unlock i =>
    rw [next] at h
    split at h
    · next hs => exact .inr (.inr ⟨i, rfl, hs, (Option.some.inj h).symm⟩)
    · cases h

/-- **The log is one section after the other**, behind what the holder at the start appends. -/
theorem out_eq_sections : ∀ {ops : List (Op ι α)} {s t : State ι α},
    Runs.run next s ops = some t →
      t.out = s.out ++ body ops ++ (sections ops).flatMap Prod.snd := by
  intro ops
  induction ops with
  | nil =>
    intro s t h
    obtain rfl : s = t := by simpa [Runs.run] using h
    simp
  | cons op ops ih =>
    intro s t h
    obtain ⟨u, hu, h⟩ := Option.bind_eq_some_iff.mp h
    rw [ih h]
    obtain ⟨i, rfl, -, rfl⟩ | ⟨i, x, rfl, -, rfl⟩ | ⟨i, rfl, -, rfl⟩ := next_cases hu
    · simp
    · simp
    · simp

/-- A writer without the lock takes it before it appends. -/
theorem body_own {i : ι} : ∀ {ops : List (Op ι α)} {s t : State ι α},
    Runs.run next s ops = some t → s.holder ≠ some i → body (own i ops) = [] := by
  intro ops
  induction ops with
  | nil => intro s t _ _; rfl
  | cons op ops ih =>
    intro s t h hs
    obtain ⟨u, hu, h⟩ := Option.bind_eq_some_iff.mp h
    obtain ⟨j, rfl, -, rfl⟩ | ⟨j, x, rfl, hj, rfl⟩ | ⟨j, rfl, hj, rfl⟩ := next_cases hu
    · by_cases hji : j = i
      · simp [own, Op.writer, hji]
      · simpa [own, Op.writer, hji] using ih h (by simpa using hji)
    · have hji : j ≠ i := by rintro rfl; exact hs hj
      simpa [own, Op.writer, hji] using ih h (by simpa using hji)
    · have hji : j ≠ i := by rintro rfl; exact hs hj
      simpa [own, Op.writer, hji] using ih h (by simp)

/-- Nobody appends to the section of the holder. -/
theorem body_eq_own {i : ι} : ∀ {ops : List (Op ι α)} {s t : State ι α},
    Runs.run next s ops = some t → s.holder = some i ∨ s.holder = none →
      body ops = body (own i ops) := by
  intro ops
  induction ops with
  | nil => intro s t _ _; rfl
  | cons op ops ih =>
    intro s t h hs
    have hown := body_own (i := i) h
    obtain ⟨u, hu, h⟩ := Option.bind_eq_some_iff.mp h
    obtain ⟨j, rfl, hj, rfl⟩ | ⟨j, x, rfl, hj, rfl⟩ | ⟨j, rfl, hj, rfl⟩ := next_cases hu
    · rw [hown (by simp [hj]), body_lock]
    · obtain rfl : j = i := by simpa [hj] using hs
      simpa [own, Op.writer] using ih h (.inl rfl)
    · obtain rfl : j = i := by simpa [hj] using hs
      simpa [own, Op.writer] using ih h (.inr rfl)

/-- With the lock free, nothing is appended before it is taken. -/
theorem body_of_free {ops : List (Op ι α)} {s t : State ι α} (h : Runs.run next s ops = some t)
    (hs : s.holder = none) : body ops = [] := by
  cases ops with
  | nil => rfl
  | cons op ops =>
    obtain ⟨u, hu, -⟩ := Option.bind_eq_some_iff.mp h
    obtain ⟨i, rfl, -, -⟩ | ⟨i, x, rfl, hi, -⟩ | ⟨i, rfl, hi, -⟩ := next_cases hu
    · rfl
    · simp [hs] at hi
    · simp [hs] at hi

/-- The last section is that of the holder. -/
theorem sections_of_holder {i : ι} : ∀ {ops : List (Op ι α)} {s t : State ι α},
    Runs.run next s ops = some t → t.holder = some i →
      s.holder = some i ∧ sections ops = [] ∨ ∃ secs xs, sections ops = secs ++ [(i, xs)] := by
  intro ops
  induction ops with
  | nil =>
    intro s t h ht
    obtain rfl : s = t := by simpa [Runs.run] using h
    exact .inl ⟨ht, rfl⟩
  | cons op ops ih =>
    intro s t h ht
    obtain ⟨u, hu, h⟩ := Option.bind_eq_some_iff.mp h
    have hrest := ih h ht
    obtain ⟨j, rfl, -, rfl⟩ | ⟨j, x, rfl, hj, rfl⟩ | ⟨j, rfl, -, rfl⟩ := next_cases hu
    · rcases hrest with ⟨hi, hsec⟩ | ⟨secs, xs, hsec⟩
      · exact .inr ⟨[], body ops, by rw [sections_lock, hsec, Option.some.inj hi, List.nil_append]⟩
      · exact .inr ⟨(j, body ops) :: secs, xs, by rw [sections_lock, hsec, List.cons_append]⟩
    · rcases hrest with ⟨hi, hsec⟩ | hsec
      · exact .inl ⟨hj.trans hi, hsec⟩
      · exact .inr hsec
    · rcases hrest with ⟨hi, -⟩ | hsec
      · cases hi
      · exact .inr hsec

/-- **The sections of a writer are those of its own operations.** -/
theorem sections_own (i : ι) : ∀ {ops : List (Op ι α)} {s t : State ι α},
    Runs.run next s ops = some t →
      (sections ops).filter (fun sec => sec.1 = i) = sections (own i ops) := by
  intro ops
  induction ops with
  | nil => intro s t _; rfl
  | cons op ops ih =>
    intro s t h
    obtain ⟨u, hu, h⟩ := Option.bind_eq_some_iff.mp h
    have hrest := ih h
    obtain ⟨j, rfl, -, rfl⟩ | ⟨j, x, rfl, -, rfl⟩ | ⟨j, rfl, -, rfl⟩ := next_cases hu
    · by_cases hji : j = i
      · subst hji
        have hbody := body_eq_own (i := j) h (.inl rfl)
        simpa [own, Op.writer, hrest] using hbody
      · simpa [own, Op.writer, hji] using hrest
    · by_cases hji : j = i <;> simpa [own, Op.writer, hji] using hrest
    · by_cases hji : j = i <;> simpa [own, Op.writer, hji] using hrest

/-- Writers with a section each at most. -/
theorem nodup_owners {secs : List (ι × List α)}
    (h : ∀ i, (secs.filter fun sec => sec.1 = i).length ≤ 1) : (secs.map Prod.fst).Nodup := by
  refine List.nodup_iff_count.mpr fun i => ?_
  rw [List.count_eq_countP, List.countP_map, List.countP_eq_length_filter]
  simpa [Function.comp_def, beq_eq_decide] using h i

end LockedLog
