import Mathlib.Data.List.Basic

/-!
# Memory that is written in part

A buffer that is used again holds what was stored now and, elsewhere, what was left
there before.  Such memory is a list of optional cells: a cell without a value stands
for one that was left alone.  A scan of the memory depends on the cells stored now, and
on no others, exactly when it ends before it meets the first gap.

## Main definitions

* `fill` — the memory over a given residue.
* `front` — what was stored at the start, up to the first gap.

## Main results

* `takeWhile_drop_fill` — a scan that ends in the front does not see the residue.
* `takeWhile_drop_gap` — a scan that reaches the gap depends on what was left there.
-/

namespace Residue

variable {α : Type*}

/-- The memory, with the cells that were left alone taken from the residue. -/
def fill : List (Option α) → List α → List α
  | [], _ => []
  | c :: m, [] => c.toList ++ fill m []
  | c :: m, x :: b => c.getD x :: fill m b

/-- What was stored from the start on, up to the first gap. -/
def front : List (Option α) → List α
  | some x :: m => x :: front m
  | _ => []

/-! ### Stores -/

theorem fill_replicate_none : ∀ b : List α, fill (List.replicate b.length none) b = b := by
  intro b
  induction b with
  | nil => rfl
  | cons x b ih => simpa [fill, List.replicate_succ] using ih

theorem fill_set : ∀ (m : List (Option α)) (b : List α) (i : ℕ) (x : α), i < b.length →
    fill (m.set i (some x)) b = (fill m b).set i x := by
  intro m
  induction m with
  | nil => intro b i x _; simp [fill]
  | cons c m ih =>
    intro b i x hi
    cases b with
    | nil => simp at hi
    | cons y b =>
      cases i with
      | zero => simp [fill]
      | succ i => simpa [fill] using ih b i x (by simpa using hi)

theorem fill_drop : ∀ (m : List (Option α)) (b : List α) (k : ℕ), m.length = b.length →
    fill (m.drop k) (b.drop k) = (fill m b).drop k := by
  intro m
  induction m with
  | nil => intro b k _; simp [fill]
  | cons c m ih =>
    intro b k hlen
    cases b with
    | nil => simp at hlen
    | cons y b =>
      cases k with
      | zero => rfl
      | succ k => simpa [fill] using ih b k (by simpa using hlen)

theorem fill_some_append : ∀ (f : List α) (m : List (Option α)) (b : List α),
    fill (f.map some ++ m) b = f ++ fill m (b.drop f.length) := by
  intro f
  induction f with
  | nil => intro m b; rfl
  | cons x f ih =>
    intro m b
    cases b with
    | nil => simpa [fill] using ih m []
    | cons y b => simpa [fill] using ih m b

/-! ### The front -/

/-- The memory is its front, and then a gap or nothing. -/
theorem eq_front_append : ∀ m : List (Option α),
    m = (front m).map some ++ m.drop (front m).length ∧
      (m.drop (front m).length = [] ∨ ∃ m', m.drop (front m).length = none :: m') := by
  intro m
  induction m with
  | nil => simp [front]
  | cons c m ih =>
    cases c with
    | none => simp [front]
    | some x => simpa [front] using ih

theorem fill_eq_front_append (m : List (Option α)) (b : List α) :
    fill m b = front m ++ fill (m.drop (front m).length) (b.drop (front m).length) := by
  conv_lhs => rw [(eq_front_append m).1]
  exact fill_some_append _ _ _

/-- What lies in the front is what the cells say. -/
theorem mem_front_drop {m : List (Option α)} {i j : ℕ} {x : α}
    (hi : i < (front m).length) (hj : j ≤ i) (hx : m[i]? = some (some x)) :
    x ∈ (front m).drop j := by
  rw [(eq_front_append m).1, List.getElem?_append_left (by simpa using hi)] at hx
  have hx' : (front m)[i]? = some x := by simpa using hx
  refine List.mem_of_getElem? (i := i - j) ?_
  rw [List.getElem?_drop, Nat.add_sub_cancel' hj, hx']

/-- The front ends at the first gap. -/
theorem front_eq : ∀ {f : List α} {m : List (Option α)},
    (∀ (i : ℕ) (x : α), f[i]? = some x → m[i]? = some (some x)) → m[f.length]? = some none →
    front m = f := by
  intro f
  induction f with
  | nil =>
    intro m _ hgap
    cases m with
    | nil => rfl
    | cons c m =>
      have hc : c = none := by simpa using hgap
      rw [hc]
      rfl
  | cons y f ih =>
    intro m hf hgap
    cases m with
    | nil => simp at hgap
    | cons c m =>
      have hc : c = some y := by simpa using hf 0 y rfl
      rw [hc, front, ih (fun i x hx => by simpa using hf (i + 1) x (by simpa using hx))
        (by simpa using hgap)]

/-! ### Scans -/

theorem takeWhile_append_stop {p : α → Bool} : ∀ {a : List α} (t : List α),
    (∃ x ∈ a, p x = false) → (a ++ t).takeWhile p = a.takeWhile p := by
  intro a
  induction a with
  | nil => rintro t ⟨x, hx, -⟩; cases hx
  | cons y a ih =>
    rintro t ⟨x, hx, hp⟩
    by_cases hy : p y = true
    · have hxa : x ∈ a := by
        rcases List.mem_cons.mp hx with rfl | hxa
        · rw [hp] at hy; cases hy
        · exact hxa
      simpa [hy] using ih t ⟨x, hxa, hp⟩
    · simp [hy]

/-- **A scan that ends in the front does not see the residue.** -/
theorem takeWhile_drop_fill {p : α → Bool} {m : List (Option α)} {j : ℕ}
    (h : ∃ x ∈ (front m).drop j, p x = false) (b : List α) :
    ((fill m b).drop j).takeWhile p = ((front m).drop j).takeWhile p := by
  obtain ⟨x, hx, hp⟩ := h
  have hj : j ≤ (front m).length := by
    by_contra hlt
    rw [List.drop_eq_nil_of_le (by omega)] at hx
    cases hx
  rw [fill_eq_front_append, List.drop_append_of_le_length hj]
  exact takeWhile_append_stop _ ⟨x, hx, hp⟩

/-- **A scan that reaches the gap depends on what was left there**: it ends there, or
goes on. -/
theorem takeWhile_drop_gap {p : α → Bool} {m m' : List (Option α)} {j : ℕ}
    (hj : j ≤ (front m).length) (h : ∀ x ∈ (front m).drop j, p x = true)
    (hgap : m.drop (front m).length = none :: m') {b : List α} {y : α} {b' : List α}
    (hb : b.drop (front m).length = y :: b') :
    ((fill m b).drop j).takeWhile p
      = (front m).drop j ++ if p y then y :: (fill m' b').takeWhile p else [] := by
  rw [fill_eq_front_append, List.drop_append_of_le_length hj, hgap, hb,
    List.takeWhile_append_of_pos h]
  by_cases hy : p y = true <;> simp [fill, hy]

end Residue
