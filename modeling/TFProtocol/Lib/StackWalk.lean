import Mathlib.Data.List.Basic
import Mathlib.Logic.Relation

/-!
# Walking through nested places

Places hold items, and an item is passed over, reported, or reported and gone into as a
place of its own.  A place may be shut: then it is reported, but nothing is found in it.
The order of the reports is that of the recursive walk; a machine that keeps the places it
is in on a stack, each with the items that are left there, reports the same.

## Main definitions

* `Look` — what a walk does with an item.
* `Inside`, `Found` — the places in a place, and what is reported below it.
* `Walk` — the reports of the items that are left in a place.
* `State`, `next` — the stack machine.

## Main results

* `exists_walk` — the walk from a place with finitely many places below it ends.
* `Walk.mem_iff` — it reports what is found, and nothing else.
* `Walk.reaches` — the stack machine gives the same reports.
* `follow`, `follow_back` — a machine that keeps step with it does, too.
-/

namespace StackWalk

open Relation

/-- What a walk does with an item. -/
inductive Look (α γ : Type*)
  | skip
  | leaf (c : γ)
  | node (c : γ) (a : α)

variable {α β γ : Type*}

section

variable (items : α → Option (List β)) (look : α → β → Look α γ)

/-- The first place is an item of the second. -/
def Inside (b a : α) : Prop := ∃ l, items a = some l ∧ ∃ x ∈ l, ∃ c, look a x = .node c b

/-- What is reported below a place. -/
inductive Found : α → γ → Prop
  | leaf {a l x c} : items a = some l → x ∈ l → look a x = .leaf c → Found a c
  | node {a l x c b} : items a = some l → x ∈ l → look a x = .node c b → Found a c
  | deep {a l x c b c'} : items a = some l → x ∈ l → look a x = .node c' b → Found b c →
      Found a c

/-- The reports of the items that are left in a place. -/
inductive Walk : α → List β → List γ → Prop
  | nil (a) : Walk a [] []
  | skip {a x l L} : look a x = .skip → Walk a l L → Walk a (x :: l) L
  | leaf {a x l L c} : look a x = .leaf c → Walk a l L → Walk a (x :: l) (c :: L)
  | shut {a x l L c b} : look a x = .node c b → items b = none → Walk a l L →
      Walk a (x :: l) (c :: L)
  | node {a x l L c b m M} : look a x = .node c b → items b = some m → Walk b m M →
      Walk a l L → Walk a (x :: l) (c :: (M ++ L))

variable (α β γ) in
/-- The places the machine is in, the innermost first, and its reports so far. -/
structure State where
  stack : List (α × List β)
  out : List γ

/-- The machine takes the next item of the innermost place, or leaves it. -/
def next : State α β γ → Option (State α β γ)
  | ⟨[], _⟩ => none
  | ⟨(_, []) :: st, out⟩ => some ⟨st, out⟩
  | ⟨(a, x :: l) :: st, out⟩ =>
    match look a x with
    | .skip => some ⟨(a, l) :: st, out⟩
    | .leaf c => some ⟨(a, l) :: st, out ++ [c]⟩
    | .node c b =>
      match items b with
      | none => some ⟨(a, l) :: st, out ++ [c]⟩
      | some m => some ⟨(b, m) :: (a, l) :: st, out ++ [c]⟩

/-- The machine gets from one state to another. -/
def Reaches : State α β γ → State α β γ → Prop :=
  ReflTransGen fun s s' => next items look s = some s'

end

variable {items : α → Option (List β)} {look : α → β → Look α γ}

/-! ### The walk -/

/-- **The walk ends.** -/
theorem exists_walk {a : α} (h : Acc (Inside items look) a) :
    ∀ {l : List β}, items a = some l → ∃ L, Walk items look a l L := by
  induction h with
  | intro a _ ih =>
    intro l hl
    -- the items are taken from the left, so what is left is a part of all of them
    suffices ∀ m : List β, m ⊆ l → ∃ L, Walk items look a m L from this l (List.Subset.refl l)
    intro m
    induction m with
    | nil => exact fun _ => ⟨[], .nil a⟩
    | cons x m ihm =>
      intro hm
      obtain ⟨hx, hm⟩ := List.cons_subset.mp hm
      obtain ⟨L, hL⟩ := ihm hm
      cases hlook : look a x with
      | skip => exact ⟨L, .skip hlook hL⟩
      | leaf c => exact ⟨c :: L, .leaf hlook hL⟩
      | node c b =>
        cases hb : items b with
        | none => exact ⟨c :: L, .shut hlook hb hL⟩
        | some k =>
          obtain ⟨M, hM⟩ := ih b ⟨l, hl, x, hx, c, hlook⟩ hb
          exact ⟨c :: (M ++ L), .node hlook hb hM hL⟩

/-- What an item is reported as, or has below it. -/
def FoundAt (items : α → Option (List β)) (look : α → β → Look α γ) (a : α) (x : β) (c : γ) :
    Prop :=
  match look a x with
  | .skip => False
  | .leaf d => c = d
  | .node d b => c = d ∨ Found items look b c

theorem found_iff {a : α} {c : γ} :
    Found items look a c ↔ ∃ l, items a = some l ∧ ∃ x ∈ l, FoundAt items look a x c := by
  constructor
  · intro h
    cases h with
    | leaf hl hx hlook => exact ⟨_, hl, _, hx, by simp [FoundAt, hlook]⟩
    | node hl hx hlook => exact ⟨_, hl, _, hx, by simp [FoundAt, hlook]⟩
    | deep hl hx hlook hb => exact ⟨_, hl, _, hx, by simp [FoundAt, hlook, hb]⟩
  · rintro ⟨l, hl, x, hx, h⟩
    unfold FoundAt at h
    split at h
    · exact h.elim
    · next hlook =>
      subst h
      exact .leaf hl hx hlook
    · next hlook =>
      rcases h with rfl | h
      · exact .node hl hx hlook
      · exact .deep hl hx hlook h

/-- **The walk reports what is found.** -/
theorem Walk.mem_iff {a : α} {l : List β} {L : List γ} (h : Walk items look a l L) {c : γ} :
    c ∈ L ↔ ∃ x ∈ l, FoundAt items look a x c := by
  induction h with
  | nil a => simp
  | skip hlook _ ih => rw [ih, List.exists_mem_cons_iff, FoundAt, hlook, false_or]
  | leaf hlook _ ih => rw [List.mem_cons, ih, List.exists_mem_cons_iff, FoundAt, hlook]
  | shut hlook hb _ ih =>
    rw [List.mem_cons, ih, List.exists_mem_cons_iff, FoundAt, hlook]
    simp [found_iff, hb]
  | node hlook hb _ _ ihb ih =>
    rw [List.mem_cons, List.mem_append, ihb, ih, List.exists_mem_cons_iff, FoundAt, hlook]
    simp [found_iff, hb, or_assoc]

/-! ### The machine -/

/-- **The stack machine reports the walk**: it leaves the place as soon as nothing is left in
it, with the stack below untouched. -/
theorem Walk.reaches {a : α} {l : List β} {L : List γ} (h : Walk items look a l L) :
    ∀ (st : List (α × List β)) (out : List γ),
      Reaches items look ⟨(a, l) :: st, out⟩ ⟨st, out ++ L⟩ := by
  induction h with
  | nil a =>
    intro st out
    apply ReflTransGen.single
    rw [next, List.append_nil]
  | skip hlook _ ih =>
    intro st out
    refine .head ?_ (ih st out)
    simp only [next, hlook]
  | @leaf a x l L c hlook _ ih =>
    intro st out
    rw [List.append_cons out c L]
    refine .head ?_ (ih st (out ++ [c]))
    simp only [next, hlook]
  | @shut a x l L c b hlook hb _ ih =>
    intro st out
    rw [List.append_cons out c L]
    refine .head ?_ (ih st (out ++ [c]))
    simp only [next, hlook, hb]
  | @node a x l L c b m M hlook hb _ _ ihb ih =>
    intro st out
    have hout : out ++ c :: (M ++ L) = out ++ [c] ++ M ++ L := by simp
    rw [hout]
    refine .head ?_ ((ihb ((a, l) :: st) (out ++ [c])).trans (ih st _))
    simp only [next, hlook, hb]

theorem next_eq_none_iff {s : State α β γ} : next items look s = none ↔ s.stack = [] := by
  obtain ⟨stack, out⟩ := s
  cases stack with
  | nil => simp [next]
  | cons x st =>
    obtain ⟨a, l⟩ := x
    cases l with
    | nil => simp [next]
    | cons x l =>
      simp only [next, reduceCtorEq, iff_false]
      split
      · nofun
      · nofun
      · split <;> nofun

/-! ### Machines that keep step -/

section

variable {σ : Type*} {step : σ → Option σ} {R : σ → State α β γ → Prop}

/-- **A machine that keeps step** gets wherever the stack machine gets. -/
theorem follow
    (hR : ∀ s a a', R s a → next items look a = some a' → ∃ s', step s = some s' ∧ R s' a')
    {a b : State α β γ} (h : Reaches items look a b) {s : σ} (hs : R s a) :
    ∃ s', ReflTransGen (fun s s' => step s = some s') s s' ∧ R s' b := by
  induction h with
  | refl => exact ⟨s, .refl, hs⟩
  | tail _ hstep ih =>
    obtain ⟨s', hreach, hs'⟩ := ih
    obtain ⟨s'', hs'', hR''⟩ := hR s' _ _ hs' hstep
    exact ⟨s'', hreach.tail hs'', hR''⟩

/-- Every state it gets to is that of some state of the stack machine, if it ends with it. -/
theorem follow_back
    (hR : ∀ s a a', R s a → next items look a = some a' → ∃ s', step s = some s' ∧ R s' a')
    (hend : ∀ s a, R s a → a.stack = [] → step s = none)
    {s s' : σ} (h : ReflTransGen (fun s s' => step s = some s') s s')
    {a : State α β γ} (hs : R s a) : ∃ b, Reaches items look a b ∧ R s' b := by
  induction h with
  | refl => exact ⟨a, .refl, hs⟩
  | tail _ hstep ih =>
    obtain ⟨b, hreach, hb⟩ := ih
    cases hnext : next items look b with
    | none =>
      rw [hend _ b hb (next_eq_none_iff.mp hnext)] at hstep
      cases hstep
    | some b' =>
      obtain ⟨t, ht, hRt⟩ := hR _ b b' hb hnext
      rw [hstep] at ht
      cases ht
      exact ⟨b', hreach.tail hnext, hRt⟩

end

end StackWalk
