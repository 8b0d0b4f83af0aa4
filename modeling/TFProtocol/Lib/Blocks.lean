import Mathlib.Data.List.Nodup
import Mathlib.Data.List.Basic

/-!
# Blocks of memory

The blocks that were allocated, in order: the address of a block is its place, and a block
that was freed leaves its place empty, so that addresses are not used twice.  An allocation
may fail, and freeing what is not live is an error.

`Owns h l` lists blocks of the heap by address and contents, each once.  What is owned can be
taken apart in any order, and an operation on one part leaves the others.

## Main definitions

* `Blocks`, `get` — a heap, and what is at an address.
* `malloc`, `realloc`, `free`, `store` — allocation, release, and new contents.
* `Owns` — the blocks listed are live and distinct.

## Main results

* `Owns.malloc`, `Owns.realloc`, `Owns.free`, `Owns.store` — one block at a time.
* `free_of_get`, `realloc_of_get` — a block that is gone cannot be used again.
* `Owns.freeAll` — a list of blocks.
-/

/-- The blocks allocated so far. -/
abbrev Blocks (β : Type*) := List (Option β)

namespace Blocks

variable {β : Type*}

/-- What is at an address. -/
def get (h : Blocks β) (p : ℕ) : Option β := h[p]?.join

/-- `malloc`, with its outcome. -/
def malloc (ok : Bool) (b : β) (h : Blocks β) : Blocks β × Option ℕ :=
  if ok then (h ++ [some b], some h.length) else (h, none)

/-- `free`; nothing happens to the null pointer. -/
def free (p : Option ℕ) (h : Blocks β) : Option (Blocks β) :=
  match p with
  | none => some h
  | some p => if (h.get p).isSome then some (h.set p none) else none

/-- `realloc`, with its outcome.  The block moves, and `fit` makes the contents of the new one
from those of the old one; if it fails, the old one stays. -/
def realloc (ok : Bool) (fit : Option β → β) (p : Option ℕ) (h : Blocks β) :
    Option (Blocks β × Option ℕ) :=
  match p with
  | none => some (h.malloc ok (fit none))
  | some p =>
    match h.get p with
    | none => none
    | some b => some (if ok then malloc true (fit (some b)) (h.set p none) else (h, none))

/-- New contents for a block. -/
def store (h : Blocks β) (p : ℕ) (b : β) : Blocks β := h.set p (some b)

/-- A list of blocks is freed in order. -/
def freeAll : List ℕ → Blocks β → Option (Blocks β)
  | [], h => some h
  | p :: ps, h => (h.free (some p)).bind (freeAll ps)

theorem lt_length_of_get {h : Blocks β} {p : ℕ} {b : β} (hp : h.get p = some b) : p < h.length := by
  by_contra hlt
  rw [get, List.getElem?_eq_none (by omega)] at hp
  cases hp

theorem get_append_of_get {h : Blocks β} {p : ℕ} {b : β} (hp : h.get p = some b) (l : Blocks β) :
    get (h ++ l) p = some b := by
  rw [get, List.getElem?_append_left (lt_length_of_get hp)]
  exact hp

theorem get_append_length (h : Blocks β) (b : β) : get (h ++ [some b]) h.length = some b := by
  simp [get]

theorem get_set_of_ne {h : Blocks β} {p q : ℕ} (hne : p ≠ q) (c : Option β) :
    get (h.set p c) q = h.get q := by
  rw [get, List.getElem?_set_ne hne]
  rfl

theorem get_store {h : Blocks β} {p : ℕ} {b : β} (hp : h.get p = some b) (c : β) :
    get (h.store p c) p = some c := by
  rw [get, store, List.getElem?_set_self (lt_length_of_get hp)]
  rfl

theorem get_set_none (h : Blocks β) (p : ℕ) : get (h.set p none) p = none := by
  rw [get, List.getElem?_set_self']
  cases h[p]? <;> rfl

/-- What is gone cannot be freed. -/
theorem free_of_get {h : Blocks β} {p : ℕ} (hp : h.get p = none) : h.free (some p) = none := by
  rw [free, if_neg (by rw [hp]; nofun)]

/-- What is gone cannot be made longer. -/
theorem realloc_of_get {h : Blocks β} {p : ℕ} (hp : h.get p = none) (ok : Bool)
    (fit : Option β → β) : h.realloc ok fit (some p) = none := by
  rw [realloc, hp]

/-- The blocks listed are live, with these contents, and no two of them are the same. -/
def Owns (h : Blocks β) (l : List (ℕ × β)) : Prop :=
  (l.map Prod.fst).Nodup ∧ ∀ x ∈ l, h.get x.1 = some x.2

section

variable {h : Blocks β} {p : ℕ} {b : β} {l l' : List (ℕ × β)}

theorem owns_nil (h : Blocks β) : Owns h [] := ⟨List.nodup_nil, nofun⟩

theorem Owns.perm (ho : Owns h l) (hp : l.Perm l') : Owns h l' :=
  ⟨(hp.map _).nodup_iff.mp ho.1, fun x hx => ho.2 x (hp.mem_iff.mpr hx)⟩

theorem Owns.get (ho : Owns h ((p, b) :: l)) : h.get p = some b := ho.2 (p, b) List.mem_cons_self

theorem Owns.ne (ho : Owns h ((p, b) :: l)) : ∀ x ∈ l, p ≠ x.1 := by
  intro x hx heq
  have hnd := ho.1
  rw [List.map_cons, List.nodup_cons] at hnd
  exact hnd.1 (List.mem_map.mpr ⟨x, hx, heq.symm⟩)

theorem Owns.tail (ho : Owns h ((p, b) :: l)) : Owns h l :=
  ⟨(List.nodup_cons.mp ho.1).2, fun x hx => ho.2 x (List.mem_cons_of_mem _ hx)⟩

/-- A new block is none of the others. -/
theorem Owns.malloc (ho : Owns h l) (b : β) : Owns (h ++ [some b]) ((h.length, b) :: l) := by
  refine ⟨?_, ?_⟩
  · rw [List.map_cons, List.nodup_cons]
    refine ⟨fun hmem => ?_, ho.1⟩
    obtain ⟨x, hx, heq⟩ := List.mem_map.mp hmem
    have := lt_length_of_get (ho.2 x hx)
    omega
  · intro x hx
    rcases List.mem_cons.mp hx with rfl | hx
    · exact get_append_length h b
    · exact get_append_of_get (ho.2 x hx) _

/-- Where a block goes, the others stay. -/
theorem Owns.set_none (ho : Owns h ((p, b) :: l)) : Owns (h.set p none) l := by
  refine ⟨ho.tail.1, fun x hx => ?_⟩
  rw [get_set_of_ne (ho.ne x hx)]
  exact ho.tail.2 x hx

/-- A block that is freed is not owned any more; the others are. -/
theorem Owns.free (ho : Owns h ((p, b) :: l)) :
    ∃ h', h.free (some p) = some h' ∧ Owns h' l :=
  ⟨h.set p none, by rw [Blocks.free, if_pos (by rw [ho.get]; rfl)], ho.set_none⟩

/-- A block that is made longer is another one. -/
theorem Owns.realloc (ho : Owns h ((p, b) :: l)) (fit : Option β → β) :
    ∃ h', h.realloc true fit (some p) = some (h', some h.length) ∧
      Owns h' ((h.length, fit (some b)) :: l) := by
  have hnew := ho.set_none.malloc (fit (some b))
  rw [List.length_set] at hnew
  refine ⟨h.set p none ++ [some (fit (some b))], ?_, hnew⟩
  rw [Blocks.realloc, ho.get]
  simp only [Blocks.malloc, if_true, List.length_set]

theorem Owns.store (ho : Owns h ((p, b) :: l)) (c : β) : Owns (h.store p c) ((p, c) :: l) := by
  refine ⟨ho.1, fun x hx => ?_⟩
  rcases List.mem_cons.mp hx with rfl | hx
  · exact get_store ho.get c
  · rw [Blocks.store, get_set_of_ne (ho.ne x hx)]
    exact ho.tail.2 x hx

/-- **A list of blocks can be freed.** -/
theorem Owns.freeAll : ∀ {l₁ : List (ℕ × β)} {h : Blocks β}, Owns h (l₁ ++ l) →
    ∃ h', Blocks.freeAll (l₁.map Prod.fst) h = some h' ∧ Owns h' l := by
  intro l₁
  induction l₁ with
  | nil => intro h ho; exact ⟨h, rfl, ho⟩
  | cons x l₁ ih =>
    intro h ho
    obtain ⟨h', hfree, ho'⟩ := Owns.free ho
    obtain ⟨h'', hall, ho''⟩ := ih ho'
    exact ⟨h'', by rw [List.map_cons, Blocks.freeAll, hfree, Option.bind_some, hall], ho''⟩

end

end Blocks
