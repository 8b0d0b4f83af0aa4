import Mathlib.Data.Option.Basic

/-!
# Runs of a system

A system of several parties moves by actions, each of which is possible in some states
and not in others.  A run is a list of actions, so every interleaving of the parties is
one run.  A side condition on the steps of a run is a relation between a state and the
action taken in it.

## Main definitions

* `run` — the state a list of actions leads to, if all of them are possible.
* `Meets` — every step of the run meets the side condition.
* `Reaches` — a run of actions of one kind leads there.

## Main results

* `inv_of_run`, `inv_of_all` — what every step (under the condition) preserves holds
  after the run.
* `step_of_run` — and before every step, which then meets the condition.
* `inv_of_history` — the same for what holds between a state and the actions so far.
* `meets_of_forall` — a condition from all reached states.
* `exists_stuck` — every list of actions is a run up to where it is stuck.
* `prefix_of_determined` — runs of a system with one way on.
-/

namespace Runs

variable {σ α : Type*}

section

variable (next : σ → α → Option σ)

/-- The state after a list of actions. -/
def run : σ → List α → Option σ
  | s, [] => some s
  | s, a :: as => (next s a).bind fun t => run t as

/-- Every step of the run meets the condition. -/
def Meets (ok : σ → α → Prop) : σ → List α → Prop
  | _, [] => True
  | s, a :: as => ok s a ∧ ∀ t ∈ next s a, Meets ok t as

/-- A run of actions of a kind leads from one state to the other. -/
def Reaches (kind : α → Prop) (s t : σ) : Prop :=
  ∃ as, (∀ a ∈ as, kind a) ∧ run next s as = some t

end

variable {next : σ → α → Option σ}

instance decidableMeets {ok : σ → α → Prop} [∀ s a, Decidable (ok s a)] :
    ∀ s as, Decidable (Meets next ok s as)
  | _, [] => .isTrue trivial
  | s, a :: as =>
    have : Decidable (∀ t ∈ next s a, Meets next ok t as) :=
      match h : next s a with
      | none => .isTrue (by simp)
      | some t => @decidable_of_iff _ (Meets next ok t as) (by simp) (decidableMeets t as)
    inferInstanceAs (Decidable (ok s a ∧ _))

/-- A weaker condition. -/
theorem Meets.imp {p q : σ → α → Prop} (h : ∀ s a, p s a → q s a) :
    ∀ {as : List α} {s : σ}, Meets next p s as → Meets next q s as := by
  intro as
  induction as with
  | nil => intro s _; trivial
  | cons a as ih =>
    intro s hmeets
    exact ⟨h s a hmeets.1, fun t ht => ih (hmeets.2 t ht)⟩

theorem run_cons {s t : σ} {a : α} (h : next s a = some t) (as : List α) :
    run next s (a :: as) = run next t as := by
  rw [run, h, Option.bind_some]

theorem meets_cons {ok : σ → α → Prop} {s t : σ} {a : α} {as : List α} (h : next s a = some t)
    (hok : ok s a) (has : Meets next ok t as) : Meets next ok s (a :: as) := by
  refine ⟨hok, fun u hu => ?_⟩
  rw [h] at hu
  cases hu
  exact has

theorem run_append : ∀ (as bs : List α) (s : σ),
    run next s (as ++ bs) = (run next s as).bind fun t => run next t bs := by
  intro as
  induction as with
  | nil => intro bs s; rfl
  | cons a as ih =>
    intro bs s
    rw [List.cons_append, run, run, Option.bind_assoc]
    congr 1
    funext t
    exact ih bs t

theorem Reaches.refl {kind : α → Prop} (s : σ) : Reaches next kind s s :=
  ⟨[], fun _ ha => absurd ha List.not_mem_nil, rfl⟩

theorem Reaches.step {kind : α → Prop} {s t u : σ} {a : α} (ha : kind a) (h : next s a = some t)
    (h' : Reaches next kind t u) : Reaches next kind s u := by
  obtain ⟨as, has, hrun⟩ := h'
  refine ⟨a :: as, fun b hb => ?_, ?_⟩
  · rcases List.mem_cons.mp hb with rfl | hb
    · exact ha
    · exact has b hb
  · rw [run_cons h, hrun]

theorem Reaches.trans {kind : α → Prop} {s t u : σ} (h : Reaches next kind s t)
    (h' : Reaches next kind t u) : Reaches next kind s u := by
  obtain ⟨as, has, hrun⟩ := h
  obtain ⟨bs, hbs, hrun'⟩ := h'
  refine ⟨as ++ bs, fun a ha => ?_, ?_⟩
  · exact (List.mem_append.mp ha).elim (has a) (hbs a)
  · rw [run_append, hrun, Option.bind_some, hrun']

theorem meets_append {ok : σ → α → Prop} : ∀ {as bs : List α} {s : σ}, Meets next ok s as →
    (∀ t ∈ run next s as, Meets next ok t bs) → Meets next ok s (as ++ bs) := by
  intro as
  induction as with
  | nil => intro bs s _ hbs; exact hbs s rfl
  | cons a as ih =>
    intro bs s has hbs
    obtain ⟨hok, has⟩ := has
    refine ⟨hok, fun t ht => ih (has t ht) fun u hu => hbs u ?_⟩
    rw [run, ht, Option.bind_some]
    exact hu

/-- **Invariants of runs.** -/
theorem inv_of_run {ok : σ → α → Prop} {inv : σ → Prop}
    (hstep : ∀ s a t, inv s → ok s a → next s a = some t → inv t) :
    ∀ {as : List α} {s t : σ}, inv s → Meets next ok s as → run next s as = some t → inv t := by
  intro as
  induction as with
  | nil =>
    intro s t hs _ hrun
    obtain rfl : s = t := by simpa [run] using hrun
    exact hs
  | cons a as ih =>
    intro s t hs hmeets hrun
    obtain ⟨hok, hrest⟩ := hmeets
    obtain ⟨u, hu, hrun⟩ := Option.bind_eq_some_iff.mp hrun
    exact ih (hstep s a u hs hok hu) (hrest u hu) hrun

/-- **Steps of runs.** -/
theorem step_of_run {ok : σ → α → Prop} {inv : σ → Prop}
    (hstep : ∀ s a t, inv s → ok s a → next s a = some t → inv t) {a : α} {after : List α} :
    ∀ {before : List α} {s t : σ}, inv s → Meets next ok s (before ++ a :: after) →
      run next s before = some t → inv t ∧ ok t a := by
  intro before
  induction before with
  | nil =>
    intro s t hs hmeets hrun
    obtain rfl : s = t := by simpa [run] using hrun
    exact ⟨hs, hmeets.1⟩
  | cons b before ih =>
    intro s t hs hmeets hrun
    obtain ⟨hok, hrest⟩ := hmeets
    obtain ⟨u, hu, hrun⟩ := Option.bind_eq_some_iff.mp hrun
    exact ih (hstep s b u hs hok hu) (hrest u hu) hrun

/-- **Invariants of histories.** -/
theorem inv_of_history {ok : σ → α → Prop} {inv : List α → σ → Prop}
    (hstep : ∀ before s a t, inv before s → ok s a → next s a = some t → inv (before ++ [a]) t) :
    ∀ {as before : List α} {s t : σ}, inv before s → Meets next ok s as →
      run next s as = some t → inv (before ++ as) t := by
  intro as
  induction as with
  | nil =>
    intro before s t hs _ hrun
    obtain rfl : s = t := by simpa [run] using hrun
    rwa [List.append_nil]
  | cons a as ih =>
    intro before s t hs hmeets hrun
    obtain ⟨hok, hrest⟩ := hmeets
    obtain ⟨u, hu, hrun⟩ := Option.bind_eq_some_iff.mp hrun
    have hinv := ih (hstep before s a u hs hok hu) (hrest u hu) hrun
    rwa [List.append_assoc, List.singleton_append] at hinv

/-- A run meets a condition that every state it reaches meets with the action taken there. -/
theorem meets_of_forall {ok : σ → α → Prop} : ∀ {as : List α} {s : σ},
    (∀ before a after t, as = before ++ a :: after → run next s before = some t → ok t a) →
      Meets next ok s as := by
  intro as
  induction as with
  | nil => intro s _; trivial
  | cons a as ih =>
    intro s h
    refine ⟨h [] a as s rfl rfl, fun t ht => ih fun before b after u has hrun => ?_⟩
    refine h (a :: before) b after u (by rw [has, List.cons_append]) ?_
    rw [run, ht, Option.bind_some, hrun]

/-- A condition on the actions alone. -/
theorem meets_of_mem {p : α → Prop} {as : List α} {s : σ} (h : ∀ a ∈ as, p a) :
    Meets next (fun _ a => p a) s as := by
  refine meets_of_forall fun before a after _ has _ => h a ?_
  rw [has]
  exact List.mem_append_right _ List.mem_cons_self

/-- A run goes on until it is through or stuck. -/
theorem exists_stuck (next : σ → α → Option σ) : ∀ (as : List α) (s : σ),
    ∃ before t, before <+: as ∧ run next s before = some t ∧
      (before = as ∨ ∃ a, next t a = none) := by
  intro as
  induction as with
  | nil => intro s; exact ⟨[], s, List.prefix_rfl, rfl, .inl rfl⟩
  | cons a as ih =>
    intro s
    cases hnext : next s a with
    | none => exact ⟨[], s, List.nil_prefix, rfl, .inr ⟨a, hnext⟩⟩
    | some u =>
      obtain ⟨before, t, hpre, hrun, hend⟩ := ih u
      refine ⟨a :: before, t, (List.prefix_cons_inj a).mpr hpre, ?_, ?_⟩
      · rw [run_cons hnext, hrun]
      · exact hend.imp_left (congrArg (a :: ·))

theorem meets_true : ∀ (as : List α) (s : σ), Meets next (fun _ _ => True) s as := by
  intro as
  induction as with
  | nil => intro s; trivial
  | cons a as ih => intro s; exact ⟨trivial, fun t _ => ih t⟩

/-- **Invariants of all runs.** -/
theorem inv_of_all {inv : σ → Prop} (hstep : ∀ s a t, inv s → next s a = some t → inv t)
    {as : List α} {s t : σ} (hs : inv s) (hrun : run next s as = some t) : inv t :=
  inv_of_run (fun s a t h _ hnext => hstep s a t h hnext) hs (meets_true as s) hrun

/-- **Runs of a determined system.**  Where at most one action of a kind is possible in every
state, a run of such actions is the beginning of every longer one. -/
theorem prefix_of_determined {kind : α → Prop}
    (h : ∀ s a b t u, kind a → kind b → next s a = some t → next s b = some u → a = b) :
    ∀ {as bs : List α} {s t u : σ}, (∀ a ∈ as, kind a) → (∀ b ∈ bs, kind b) →
      as.length ≤ bs.length → run next s as = some t → run next s bs = some u → as <+: bs := by
  intro as
  induction as with
  | nil => intro bs s t u _ _ _ _ _; exact List.nil_prefix
  | cons a as ih =>
    intro bs s t u has hbs hlen hrun hrun'
    cases bs with
    | nil => simp at hlen
    | cons b bs =>
      obtain ⟨v, hv, hrun⟩ := Option.bind_eq_some_iff.mp hrun
      obtain ⟨v', hv', hrun'⟩ := Option.bind_eq_some_iff.mp hrun'
      obtain rfl := h s a b v v' (has a List.mem_cons_self) (hbs b List.mem_cons_self) hv hv'
      obtain rfl : v = v' := Option.some.inj (hv.symm.trans hv')
      refine (List.prefix_cons_inj a).mpr (ih (fun x hx => has x (List.mem_cons_of_mem _ hx))
        (fun x hx => hbs x (List.mem_cons_of_mem _ hx)) ?_ hrun hrun')
      simpa using hlen

end Runs
