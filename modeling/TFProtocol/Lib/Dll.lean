import Mathlib.Data.List.AList

/-!
# Doubly linked lists in a heap

A heap maps the addresses of the cells that are allocated to their contents.  A cell of a
doubly linked list has two links, and the null pointer is `none`.  Reading or writing a
cell that is not allocated has no result.

A segment is a list of cells that lie in the heap one behind the other, with links that
agree in both directions.  Its two outer links, those that leave it, are parameters, so
that segments can be joined and cut.

## Main definitions

* `Cell`, `Heap`, `setPrev`, `setNext` — cells, and a store into a link.
* `Seg` — a segment, with the links that leave it.

## Main results

* `seg_append` — a segment is cut into two, and two are joined.
* `Seg.frame` — stores outside a segment leave it alone.
* `Seg.setNext_last`, `Seg.setPrev_first` — redirecting a link that leaves a segment.
-/

namespace Dll

/-- A cell: its links and what it carries. -/
structure Cell (ν : Type*) where
  prev : Option ℕ
  next : Option ℕ
  val : ν
  deriving DecidableEq, Repr

/-- The cells that are allocated. -/
abbrev Heap (ν : Type*) := AList fun _ : ℕ => Cell ν

variable {ν : Type*}

/-! ### Reading and writing -/

/-- `p->prev = q`. -/
def setPrev (h : Heap ν) (p : ℕ) (q : Option ℕ) : Option (Heap ν) :=
  (h.lookup p).map fun c => h.insert p { c with prev := q }

/-- `p->next = q`. -/
def setNext (h : Heap ν) (p : ℕ) (q : Option ℕ) : Option (Heap ν) :=
  (h.lookup p).map fun c => h.insert p { c with next := q }

theorem setPrev_eq_some {h : Heap ν} {p : ℕ} {c : Cell ν} (hc : h.lookup p = some c)
    (q : Option ℕ) : setPrev h p q = some (h.insert p { c with prev := q }) := by
  rw [setPrev, hc, Option.map_some]

theorem setNext_eq_some {h : Heap ν} {p : ℕ} {c : Cell ν} (hc : h.lookup p = some c)
    (q : Option ℕ) : setNext h p q = some (h.insert p { c with next := q }) := by
  rw [setNext, hc, Option.map_some]

/-! ### Segments -/

/-- The address a list of cells begins with, or `after` if there is none. -/
def first (cs : List (ℕ × ν)) (after : Option ℕ) : Option ℕ :=
  match cs with
  | [] => after
  | c :: _ => some c.1

/-- The address a list of cells ends with, or `before` if there is none. -/
def last (before : Option ℕ) (cs : List (ℕ × ν)) : Option ℕ :=
  match cs with
  | [] => before
  | c :: cs => last (some c.1) cs

@[simp] theorem first_nil (after : Option ℕ) : first ([] : List (ℕ × ν)) after = after := rfl

@[simp] theorem first_cons (c : ℕ × ν) (cs : List (ℕ × ν)) (after : Option ℕ) :
    first (c :: cs) after = some c.1 := rfl

@[simp] theorem last_nil (before : Option ℕ) : last before ([] : List (ℕ × ν)) = before := rfl

@[simp] theorem last_cons (before : Option ℕ) (c : ℕ × ν) (cs : List (ℕ × ν)) :
    last before (c :: cs) = last (some c.1) cs := rfl

@[simp] theorem first_append (xs ys : List (ℕ × ν)) (after : Option ℕ) :
    first (xs ++ ys) after = first xs (first ys after) := by
  cases xs with
  | nil => rfl
  | cons c xs => rfl

@[simp] theorem last_append : ∀ (xs ys : List (ℕ × ν)) (before : Option ℕ),
    last before (xs ++ ys) = last (last before xs) ys := by
  intro xs
  induction xs with
  | nil => intro ys before; rfl
  | cons c xs ih => intro ys before; exact ih ys (some c.1)

/-- The cells `cs` lie in the heap, linked in both directions. -/
def Seg (h : Heap ν) (before : Option ℕ) (cs : List (ℕ × ν)) (after : Option ℕ) : Prop :=
  match cs with
  | [] => True
  | c :: cs => h.lookup c.1 = some ⟨before, first cs after, c.2⟩ ∧ Seg h (some c.1) cs after

@[simp] theorem seg_nil (h : Heap ν) (before after : Option ℕ) : Seg h before [] after := trivial

@[simp] theorem seg_cons {h : Heap ν} {before after : Option ℕ} {c : ℕ × ν}
    {cs : List (ℕ × ν)} :
    Seg h before (c :: cs) after
      ↔ h.lookup c.1 = some ⟨before, first cs after, c.2⟩ ∧ Seg h (some c.1) cs after := Iff.rfl

/-- **Cutting and joining.** -/
theorem seg_append {h : Heap ν} {after : Option ℕ} : ∀ {xs ys : List (ℕ × ν)}
    {before : Option ℕ}, Seg h before (xs ++ ys) after
      ↔ Seg h before xs (first ys after) ∧ Seg h (last before xs) ys after := by
  intro xs
  induction xs with
  | nil => intro ys before; simp
  | cons c xs ih => intro ys before; simp [ih, and_assoc]

/-- A cell of a segment is allocated. -/
theorem Seg.lookup_isSome {h : Heap ν} {after : Option ℕ} : ∀ {cs : List (ℕ × ν)}
    {before : Option ℕ}, Seg h before cs after → ∀ c ∈ cs, (h.lookup c.1).isSome := by
  intro cs
  induction cs with
  | nil => intro before _ c hc; cases hc
  | cons d cs ih =>
    intro before hseg c hc
    rcases List.mem_cons.mp hc with rfl | hc
    · rw [hseg.1]
      rfl
    · exact ih hseg.2 c hc

/-- **Frame rule**: a segment depends on its own cells only. -/
theorem Seg.frame {h h' : Heap ν} {after : Option ℕ} : ∀ {cs : List (ℕ × ν)}
    {before : Option ℕ}, (∀ c ∈ cs, h'.lookup c.1 = h.lookup c.1) →
      Seg h before cs after → Seg h' before cs after := by
  intro cs
  induction cs with
  | nil => intro before _ _; trivial
  | cons d cs ih =>
    intro before hsame hseg
    refine ⟨?_, ih (fun c hc => hsame c (List.mem_cons_of_mem _ hc)) hseg.2⟩
    rw [hsame d List.mem_cons_self, hseg.1]

/-- The addresses of a segment, from its cells. -/
theorem ne_of_nodup {xs ys : List (ℕ × ν)} {p : ℕ × ν}
    (h : ((xs ++ p :: ys).map Prod.fst).Nodup) : ∀ c ∈ xs ++ ys, c.1 ≠ p.1 := by
  rw [List.map_append, List.map_cons, List.nodup_middle, ← List.map_append] at h
  intro c hc heq
  exact (List.nodup_cons.mp h).1 (heq ▸ List.mem_map_of_mem hc)

/-- The link that leaves a segment at its end is redirected. -/
theorem Seg.setNext_last {h : Heap ν} {xs : List (ℕ × ν)} {c : ℕ × ν}
    {before after : Option ℕ} (hseg : Seg h before (xs ++ [c]) after)
    (hne : ∀ d ∈ xs, d.1 ≠ c.1) (q : Option ℕ) :
    setNext h c.1 q = some (h.insert c.1 ⟨last before xs, q, c.2⟩) ∧
      Seg (h.insert c.1 ⟨last before xs, q, c.2⟩) before (xs ++ [c]) q := by
  obtain ⟨hxs, hc, -⟩ := seg_append.mp hseg
  refine ⟨setNext_eq_some hc q, seg_append.mpr ⟨?_, ?_, trivial⟩⟩
  · exact hxs.frame fun d hd => AList.lookup_insert_ne (hne d hd)
  · rw [AList.lookup_insert, first_nil]

/-- The link that leaves a segment at its start is redirected. -/
theorem Seg.setPrev_first {h : Heap ν} {xs : List (ℕ × ν)} {c : ℕ × ν}
    {before after : Option ℕ} (hseg : Seg h before (c :: xs) after)
    (hne : ∀ d ∈ xs, d.1 ≠ c.1) (q : Option ℕ) :
    setPrev h c.1 q = some (h.insert c.1 ⟨q, first xs after, c.2⟩) ∧
      Seg (h.insert c.1 ⟨q, first xs after, c.2⟩) q (c :: xs) after := by
  obtain ⟨hc, hxs⟩ := hseg
  refine ⟨setPrev_eq_some hc q, AList.lookup_insert _, ?_⟩
  exact hxs.frame fun d hd => AList.lookup_insert_ne (hne d hd)

end Dll
