import Mathlib.Data.Nat.Notation
import Mathlib.Data.Option.Basic

/-!
# Programs that make calls

A program makes a call, and goes on with the answer.  What the calls do is said apart, by
`next`: it takes a state and a call to another state and the answer, and is not defined where
the call is an error.  A program may also be cut off, where what follows is of no interest or
has no end.

What holds at every call of a run is `Meets`.  `Keeps` is the rule to prove it with: a program
may rely on a condition on its steps, and guarantees a precondition of every call as long as
the condition was met, and a postcondition.

## Main definitions

* `Prog` — programs, with sequence and loop.
* `Meets` — every call of the run meets a condition.
* `Keeps` — precondition and postcondition, under a condition on the steps.

## Main results

* `Keeps.bind`, `Keeps.iter` — sequence and loop.
* `Keeps.meets_iff` — two conditions that are the same under the precondition are the same for
  the run.
-/

/-- A program with calls `α`, which have answers in `β`, and a result in `γ`. -/
inductive Prog {α : Type*} (β : α → Type*) (γ : Type*)
  | ret (c : γ)
  | call (a : α) (k : β a → Prog β γ)
  | cut

namespace Prog

variable {α : Type*} {β : α → Type*} {γ δ σ τ : Type*}

/-- One call, and its answer. -/
def ask (a : α) : Prog β (β a) := call a ret

def bind {γ δ : Type*} : Prog β γ → (γ → Prog β δ) → Prog β δ
  | ret c, f => f c
  | call a k, f => call a fun b => (k b).bind f
  | cut, _ => cut

instance : Monad (Prog β) where
  pure := ret
  bind := bind

/-- A loop, for a number of turns: a turn ends with the variables of the next one, or with a
result. -/
def iter (body : τ → Prog β (τ ⊕ γ)) : ℕ → τ → Prog β γ
  | 0, _ => cut
  | n + 1, x => (body x).bind fun
    | .inl y => iter body n y
    | .inr c => ret c

/-! ### What holds of a run -/

section

variable (next : σ → (a : α) → Option (σ × β a))

/-- Every call of the run meets the condition. -/
def Meets (ok : σ → α → Prop) : Prog β γ → σ → Prop
  | ret _, _ => True
  | call a k, s => ok s a ∧ ∀ r ∈ next s a, (k r.2).Meets ok r.1
  | cut, _ => True

instance decidableMeets {ok : σ → α → Prop} [∀ s a, Decidable (ok s a)] :
    ∀ (p : Prog β γ) (s : σ), Decidable (p.Meets next ok s)
  | ret _, _ => .isTrue trivial
  | call a k, s =>
    have : Decidable (∀ r ∈ next s a, (k r.2).Meets next ok r.1) :=
      match h : next s a with
      | none => .isTrue (by simp)
      | some r =>
        @decidable_of_iff _ ((k r.2).Meets next ok r.1) (by simp) (decidableMeets (k r.2) r.1)
    inferInstanceAs (Decidable (ok s a ∧ _))
  | cut, _ => .isTrue trivial

/-- As long as the steps are let, every call is made where it may be; the end is as it should
be. -/
def Keeps (lets pre : σ → α → Prop) (post : γ → σ → Prop) : Prog β γ → σ → Prop
  | ret c, s => post c s
  | call a k, s => pre s a ∧ (lets s a → ∀ r ∈ next s a, (k r.2).Keeps lets pre post r.1)
  | cut, _ => True

end

variable {next : σ → (a : α) → Option (σ × β a)} {lets pre ok : σ → α → Prop}
  {post : γ → σ → Prop} {s : σ}

theorem keeps_cut : (cut : Prog β γ).Keeps next lets pre post s := trivial

/-- A call, and what follows. -/
theorem keeps_ask {a : α} {k : β a → Prog β γ} (hpre : pre s a)
    (hk : lets s a → ∀ r ∈ next s a, (k r.2).Keeps next lets pre post r.1) :
    ((ask a).bind k).Keeps next lets pre post s := ⟨hpre, hk⟩

theorem Keeps.mono {post' : γ → σ → Prop} (himp : ∀ c s, post c s → post' c s) :
    ∀ {p : Prog β γ} {s : σ}, p.Keeps next lets pre post s → p.Keeps next lets pre post' s := by
  intro p
  induction p with
  | ret c => exact fun h => himp c _ h
  | call a k ih => exact fun h => ⟨h.1, fun hl r hr => ih r.2 (h.2 hl r hr)⟩
  | cut => exact id

/-- **Sequence.** -/
theorem Keeps.bind {f : γ → Prog β δ} {postf : δ → σ → Prop} :
    ∀ {p : Prog β γ} {s : σ},
      p.Keeps next lets pre (fun c t => (f c).Keeps next lets pre postf t) s →
      (p.bind f).Keeps next lets pre postf s := by
  intro p
  induction p with
  | ret c => exact id
  | call a k ih => exact fun h => ⟨h.1, fun hl r hr => ih r.2 (h.2 hl r hr)⟩
  | cut => exact id

/-- **Loops.**  What a turn keeps holds before every turn. -/
theorem Keeps.iter {body : τ → Prog β (τ ⊕ γ)} (inv : τ → σ → Prop)
    (hbody : ∀ x s, inv x s → (body x).Keeps next lets pre (Sum.elim inv post) s) :
    ∀ (n : ℕ) {x : τ} {s : σ}, inv x s → (iter body n x).Keeps next lets pre post s := by
  intro n
  induction n with
  | zero => exact fun _ => trivial
  | succ n ih =>
    intro x s hinv
    refine Keeps.bind ((hbody x s hinv).mono fun c t hc => ?_)
    cases c with
    | inl y => exact ih hc
    | inr c => exact hc

/-- **Two conditions for a run.**  Where every call is made under a precondition as long as one
of them is met, and the precondition makes them the same, the run meets both or none. -/
theorem Keeps.meets_iff (hiff : ∀ s a, pre s a → (ok s a ↔ lets s a)) :
    ∀ {p : Prog β γ} {s : σ}, p.Keeps next lets pre post s →
      (p.Meets next ok s ↔ p.Meets next lets s) := by
  intro p
  induction p with
  | ret c => exact fun _ => Iff.rfl
  | call a k ih =>
    intro s h
    have hhere := hiff s a h.1
    constructor
    · intro hm
      have hl := hhere.mp hm.1
      exact ⟨hl, fun r hr => (ih r.2 (h.2 hl r hr)).mp (hm.2 r hr)⟩
    · intro hm
      exact ⟨hhere.mpr hm.1, fun r hr => (ih r.2 (h.2 hm.1 r hr)).mpr (hm.2 r hr)⟩
  | cut => exact fun _ => Iff.rfl

end Prog
