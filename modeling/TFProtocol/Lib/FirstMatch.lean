import Mathlib.Data.List.Induction
import Mathlib.Logic.Function.Basic

/-!
# A log read by its first match

A file to which entries are appended, from which the entries of a key are filtered
out, and in which a reader takes the first entry of a key, looks like a map from keys
to values.  The map a writer has in mind is another one: there the latest write
counts.  The two agree exactly as long as no write finds a different value already
there.

## Main definitions

* `Op`, `log`, `latest` — writes and removals, the log they leave, and the map of the
  latest writes.
* `get` — the first entry of a key.
* `FreshOrSame` — a write that does not change the value of a key.

## Main results

* `get_log_eq_none_iff` — log and map have the same keys.
* `get_log_iff` — when a log is read as the map of the latest writes, all along.
-/

namespace FirstMatch

variable {κ ν : Type*} [DecidableEq κ]

/-- A write, or the removal of a key. -/
inductive Op (κ ν : Type*)
  | put (k : κ) (v : ν)
  | del (k : κ)

/-- The first entry of a key. -/
def get (es : List (κ × ν)) (k : κ) : Option ν := (es.find? fun e => e.1 = k).map Prod.snd

/-- The log after one operation. -/
def logStep (es : List (κ × ν)) : Op κ ν → List (κ × ν)
  | .put k v => es ++ [(k, v)]
  | .del k => es.filter fun e => e.1 ≠ k

/-- The map after one operation. -/
def mapStep (m : κ → Option ν) : Op κ ν → κ → Option ν
  | .put k v => Function.update m k (some v)
  | .del k => Function.update m k none

/-- The log a sequence of operations leaves. -/
def log (ops : List (Op κ ν)) : List (κ × ν) := ops.foldl logStep []

/-- The value of the latest write that was not removed since. -/
def latest (ops : List (Op κ ν)) : κ → Option ν := ops.foldl mapStep fun _ => none

/-- The key of a write has no value yet, or has this one. -/
def FreshOrSame (m : κ → Option ν) : Op κ ν → Prop
  | .put k v => m k = none ∨ m k = some v
  | .del _ => True

/-! ### One operation -/

@[simp] theorem get_nil (k : κ) : get ([] : List (κ × ν)) k = none := rfl

theorem get_cons (e : κ × ν) (es : List (κ × ν)) (k : κ) :
    get (e :: es) k = if e.1 = k then some e.2 else get es k := by
  unfold get
  rw [List.find?_cons]
  by_cases h : e.1 = k
  · simp [h]
  · simp [h]

/-- An entry at the end is only seen when there is none before it. -/
theorem get_concat (es : List (κ × ν)) (k : κ) (v : ν) (k' : κ) :
    get (es ++ [(k, v)]) k' = (get es k').or (if k = k' then some v else none) := by
  induction es with
  | nil => simp [get_cons]
  | cons e es ih =>
    rw [List.cons_append, get_cons, get_cons, ih]
    split
    · simp
    · rfl

theorem get_filter (es : List (κ × ν)) (k k' : κ) :
    get (es.filter fun e => e.1 ≠ k) k' = if k' = k then none else get es k' := by
  induction es with
  | nil => simp
  | cons e es ih =>
    by_cases he : e.1 = k
    · rw [List.filter_cons_of_neg (by simpa using he), ih, get_cons]
      by_cases hk : k' = k
      · simp [hk]
      · have hne : ¬ e.1 = k' := fun h => hk (h.symm.trans he)
        simp [hk, hne]
    · rw [List.filter_cons_of_pos (by simpa using he), get_cons, ih, get_cons]
      by_cases hk : k' = k
      · have hne : ¬ e.1 = k' := fun h => he (h.trans hk)
        rw [if_neg hne, if_pos hk, if_pos hk]
      · simp [hk]

/-- **One operation keeps log and map in agreement exactly when it is fresh or the
same.** -/
theorem get_logStep_iff {es : List (κ × ν)} {m : κ → Option ν} (h : ∀ k, get es k = m k)
    (op : Op κ ν) : (∀ k, get (logStep es op) k = mapStep m op k) ↔ FreshOrSame m op := by
  cases op with
  | put k v =>
    simp only [logStep, mapStep, FreshOrSame, get_concat, h]
    constructor
    · intro hall
      have hk := hall k
      rw [Function.update_self, if_pos rfl] at hk
      cases hm : m k with
      | none => exact .inl rfl
      | some v' =>
        rw [hm] at hk
        exact .inr hk
    · intro hfresh k'
      -- only the key written to can differ
      by_cases hk : k' = k
      · subst hk
        rcases hfresh with hm | hm <;> simp [hm]
      · rw [Function.update_of_ne hk, if_neg (Ne.symm hk), Option.or_none]
  | del k =>
    simp only [logStep, mapStep, FreshOrSame, iff_true, get_filter, h]
    intro k'
    by_cases hk : k' = k
    · simp [hk]
    · simp [hk]

/-! ### Sequences -/

@[simp] theorem log_concat (ops : List (Op κ ν)) (op : Op κ ν) :
    log (ops ++ [op]) = logStep (log ops) op := by
  simp [log]

@[simp] theorem latest_concat (ops : List (Op κ ν)) (op : Op κ ν) :
    latest (ops ++ [op]) = mapStep (latest ops) op := by
  simp [latest]

/-- Log and map always have the same keys. -/
theorem get_log_eq_none_iff (ops : List (Op κ ν)) (k : κ) :
    get (log ops) k = none ↔ latest ops k = none := by
  induction ops using List.reverseRecOn with
  | nil => simp [log, latest]
  | append_singleton ops op ih =>
    rw [log_concat, latest_concat]
    cases op with
    | put k' v =>
      by_cases hk : k = k'
      · simp [logStep, mapStep, get_concat, hk]
      · simp [logStep, mapStep, get_concat, hk, Ne.symm hk, ih]
    | del k' =>
      by_cases hk : k = k'
      · subst hk
        simp only [logStep, mapStep, get_filter, if_true, Function.update_self]
      · simp only [logStep, mapStep, get_filter, hk, if_false, Function.update_of_ne hk, ih]

/-- **When a log is read as the map of the latest writes, all along**: exactly when
every write finds no value or the same one. -/
theorem get_log_iff (ops : List (Op κ ν)) :
    (∀ pre, pre <+: ops → ∀ k, get (log pre) k = latest pre k) ↔
      ∀ pre op post, ops = pre ++ op :: post → FreshOrSame (latest pre) op := by
  constructor
  · intro hall pre op post hsplit
    have hpre : pre <+: ops := ⟨op :: post, hsplit.symm⟩
    have hnext : pre ++ [op] <+: ops := ⟨post, by simp [hsplit]⟩
    rw [← get_logStep_iff (hall pre hpre) op]
    simpa using hall _ hnext
  · intro hfresh pre
    induction pre using List.reverseRecOn with
    | nil => intro _ k; rfl
    | append_singleton pre op ih =>
      intro hprefix
      obtain ⟨post, rfl⟩ := hprefix
      -- agreement before the last operation is the induction hypothesis
      have hagree := ih ⟨op :: post, by simp⟩
      rw [log_concat, latest_concat]
      exact (get_logStep_iff hagree op).mpr (hfresh pre op post (by simp))

end FirstMatch
