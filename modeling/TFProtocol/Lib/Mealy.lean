import Mathlib.Data.List.Basic
import Mathlib.Data.List.Iterate

/-!
# Transducers over lists

A stream cipher, and every other loop that rewrites a buffer one element at a
time while it updates a state, is a Mealy machine: a step takes the state and one
input to the next state and one output.  The facts a user of such a loop needs
are collected here once: a run writes one output for each input, it keeps what
every step keeps, and two machines whose states stay related undo each other.

## Main definitions

* `Mealy.run step s xs` — the state and the outputs after the inputs `xs`.
* `Mealy.Undoes R f g` — `R` is a simulation under which `g` inverts `f`.
* `Mealy.Oblivious step next out` — the inputs do not move the state.

## Main results

* `Mealy.run_undo` — a run of `g` recovers the inputs of a run of `f`.
* `Mealy.Oblivious.run` — the states of an oblivious machine, and its outputs by place.
-/

namespace Mealy

variable {σ τ α β : Type*}

/-- The state and the outputs after feeding a list of inputs. -/
def run (step : σ → α → σ × β) : σ → List α → σ × List β
  | s, [] => (s, [])
  | s, a :: as => ((run step (step s a).1 as).1, (step s a).2 :: (run step (step s a).1 as).2)

@[simp] theorem run_nil (step : σ → α → σ × β) (s : σ) : run step s [] = (s, []) := rfl

@[simp] theorem run_cons (step : σ → α → σ × β) (s : σ) (a : α) (as : List α) :
    run step s (a :: as)
      = ((run step (step s a).1 as).1, (step s a).2 :: (run step (step s a).1 as).2) := rfl

@[simp] theorem length_run (step : σ → α → σ × β) : ∀ (as : List α) (s : σ),
    (run step s as).2.length = as.length := by
  intro as
  induction as with
  | nil => intro s; rfl
  | cons a as ih => intro s; simp [ih]

theorem run_append (step : σ → α → σ × β) : ∀ (as bs : List α) (s : σ),
    run step s (as ++ bs) = ((run step (run step s as).1 bs).1,
      (run step s as).2 ++ (run step (run step s as).1 bs).2) := by
  intro as
  induction as with
  | nil => intro bs s; rfl
  | cons a as ih => intro bs s; simp [ih]

/-- A property of the state that every step preserves holds after a run. -/
theorem run_invariant {step : σ → α → σ × β} {P : σ → Prop}
    (hstep : ∀ s a, P s → P (step s a).1) : ∀ (as : List α) (s : σ), P s → P (run step s as).1 := by
  intro as
  induction as with
  | nil => intro s hs; exact hs
  | cons a as ih => intro s hs; exact ih _ (hstep s a hs)

/-- `R` relates the states of two machines all along their runs, and whenever it
does, `g` applied to an output of `f` returns the input. -/
structure Undoes (R : σ → τ → Prop) (f : σ → α → σ × β) (g : τ → β → τ × α) : Prop where
  /-- Related states stay related, whatever each side reads. -/
  next : ∀ s t a b, R s t → R (f s a).1 (g t b).1
  /-- In related states the second machine inverts the first. -/
  output : ∀ s t a, R s t → (g t (f s a).2).2 = a

/-- **Two machines that undo each other step by step undo each other on whole
runs**, and their states are related again at the end. -/
theorem run_undo {R : σ → τ → Prop} {f : σ → α → σ × β} {g : τ → β → τ × α}
    (h : Undoes R f g) : ∀ (as : List α) (s : σ) (t : τ), R s t →
      (run g t (run f s as).2).2 = as ∧ R (run f s as).1 (run g t (run f s as).2).1 := by
  intro as
  induction as with
  | nil => intro s t hst; exact ⟨rfl, hst⟩
  | cons a as ih =>
    intro s t hst
    obtain ⟨hout, hrel⟩ := ih _ _ (h.next s t a (f s a).2 hst)
    simp only [run_cons]
    exact ⟨by rw [h.output s t a hst, hout], hrel⟩

/-- The inputs do not move the state. -/
structure Oblivious (step : σ → α → σ × β) (next : σ → σ) (out : σ → α → β) : Prop where
  next : ∀ s a, (step s a).1 = next s
  output : ∀ s a, (step s a).2 = out s a

/-- **A run of an oblivious machine**: the states are the iterates of one function, and
every output is made of the state at its place and the input there. -/
theorem Oblivious.run {step : σ → α → σ × β} {next : σ → σ} {out : σ → α → β}
    (h : Oblivious step next out) : ∀ (as : List α) (s : σ),
      Mealy.run step s as
        = (next^[as.length] s, List.zipWith out (List.iterate next s as.length) as) := by
  intro as
  induction as with
  | nil => intro s; rfl
  | cons a as ih =>
    intro s
    rw [run_cons, ih, h.next, h.output]
    rfl

end Mealy
