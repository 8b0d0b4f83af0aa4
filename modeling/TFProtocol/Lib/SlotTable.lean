import Mathlib.Data.List.Basic

/-!
# Tables of slots

A table keeps values in slots that are used again: one value means that a slot is free.  A
new value goes into the first free slot, for which the table grows by one if there is none,
and the number of its slot is found again by looking for the value.

## Main definitions

* `claim` — the first free slot, in the table that has it.
* `Distinct` — no value, other than the free one, is in two slots.

## Main results

* `Distinct.store`, `Distinct.release` — a new value in a slot, and a slot that is freed.
* `getElem?_unclaim` — a slot that is given back unused.
* `findIdx?_store` — the value that was stored last is found in its slot.
-/

namespace SlotTable

variable {α : Type*} [DecidableEq α] {free : α}

/-- The first free slot, and the table, with one more slot if none was free. -/
def claim (free : α) (l : List α) : ℕ × List α :=
  match l.findIdx? (· = free) with
  | some i => (i, l)
  | none => (l.length, l ++ [free])

/-- No value is in two slots. -/
def Distinct (free : α) (l : List α) : Prop :=
  ∀ (i j : ℕ) (v : α), l[i]? = some v → l[j]? = some v → v ≠ free → i = j

/-! ### A free slot -/

/-- The slot is free. -/
theorem getElem?_claim (l : List α) : (claim free l).2[(claim free l).1]? = some free := by
  unfold claim
  cases h : l.findIdx? (· = free) with
  | none => simp
  | some i =>
    obtain ⟨hi, hfree, -⟩ := List.findIdx?_eq_some_iff_getElem.mp h
    rw [List.getElem?_eq_getElem hi]
    simpa using hfree

theorem claim_lt (l : List α) : (claim free l).1 < (claim free l).2.length := by
  by_contra h
  have hnone := List.getElem?_eq_none (Nat.not_lt.mp h)
  rw [getElem?_claim] at hnone
  cases hnone

/-- It was free before, or there was no such slot. -/
theorem claim_before (l : List α) :
    l[(claim free l).1]? = some free ∨ l[(claim free l).1]? = none := by
  have hafter : (claim free l).2[(claim free l).1]? = some free := getElem?_claim l
  unfold claim at hafter ⊢
  cases h : l.findIdx? (· = free) with
  | none => exact .inr (by simp)
  | some i => exact .inl (by simpa [h] using hafter)

theorem mem_of_mem_claim {l : List α} {v : α} (h : v ∈ (claim free l).2) : v ∈ l ∨ v = free := by
  unfold claim at h
  cases hfind : l.findIdx? (· = free) with
  | none => simpa [hfind] using h
  | some i => exact .inl (by simpa [hfind] using h)

/-- The other slots are as they were. -/
theorem getElem?_claim_ne {l : List α} {j : ℕ} (h : j ≠ (claim free l).1) :
    (claim free l).2[j]? = l[j]? := by
  unfold claim at h ⊢
  cases hfind : l.findIdx? (· = free) with
  | some i => rfl
  | none =>
    simp only [hfind] at h
    rcases Nat.lt_or_gt_of_ne h with hj | hj
    · exact List.getElem?_append_left hj
    · rw [List.getElem?_eq_none (by simp; omega), List.getElem?_eq_none (by omega)]

/-- **A slot that is given back.**  The slots that are not free are what they were. -/
theorem getElem?_unclaim {l : List α} {j : ℕ} {v : α} (hv : v ≠ free) :
    ((claim free l).2.set (claim free l).1 free)[j]? = some v ↔ l[j]? = some v := by
  by_cases hj : j = (claim free l).1
  · subst hj
    rw [List.getElem?_set_self (claim_lt l)]
    constructor
    · intro h
      exact absurd (Option.some.inj h).symm hv
    · intro h
      rcases @claim_before α _ free l with hfree | hnone
      · rw [hfree] at h
        exact absurd (Option.some.inj h).symm hv
      · rw [hnone] at h
        cases h
  · rw [List.getElem?_set_ne (Ne.symm hj), getElem?_claim_ne hj]

/-! ### Values in their slots -/

omit [DecidableEq α] in
theorem distinct_nil : Distinct free [] := by
  intro i j v hi
  simp at hi

theorem Distinct.claim {l : List α} (h : Distinct free l) : Distinct free (claim free l).2 := by
  intro i j v hi hj hv
  have hne : ∀ k, (SlotTable.claim free l).2[k]? = some v → k ≠ (SlotTable.claim free l).1 := by
    rintro k hk rfl
    rw [getElem?_claim] at hk
    exact hv (Option.some.inj hk).symm
  rw [getElem?_claim_ne (hne i hi)] at hi
  rw [getElem?_claim_ne (hne j hj)] at hj
  exact h i j v hi hj hv

omit [DecidableEq α] in
/-- **A new value in a slot.** -/
theorem Distinct.store {l : List α} (h : Distinct free l) {v : α} (hv : v ∉ l) (k : ℕ) :
    Distinct free (l.set k v) := by
  intro i j x hi hj hx
  rw [List.getElem?_set] at hi hj
  have hold : ∀ n : ℕ, l[n]? = some x → x ≠ v := by
    rintro n hn rfl
    exact hv (List.mem_of_getElem? hn)
  split at hi
  · next hki =>
    split at hj
    · next hkj => exact hki.symm.trans hkj
    · split at hi
      · exact absurd (Option.some.inj hi).symm (hold j hj)
      · cases hi
  · split at hj
    · split at hj
      · exact absurd (Option.some.inj hj).symm (hold i hi)
      · cases hj
    · exact h i j x hi hj hx

omit [DecidableEq α] in
/-- **A slot that is freed.** -/
theorem Distinct.release {l : List α} (h : Distinct free l) (k : ℕ) :
    Distinct free (l.set k free) := by
  intro i j x hi hj hx
  rw [List.getElem?_set] at hi hj
  have hset : ¬ (if k < l.length then some free else none) = some x := by
    intro hk
    split at hk
    · exact hx (Option.some.inj hk).symm
    · cases hk
  by_cases hki : k = i
  · rw [if_pos hki] at hi
    exact absurd hi hset
  · by_cases hkj : k = j
    · rw [if_pos hkj] at hj
      exact absurd hj hset
    · rw [if_neg hki] at hi
      rw [if_neg hkj] at hj
      exact h i j x hi hj hx

/-- **The value that was stored last is found in its slot.** -/
theorem findIdx?_store {l : List α} {v : α} (hv : v ∉ l) {k : ℕ} (hk : k < l.length) :
    (l.set k v).findIdx? (· = v) = some k := by
  rw [List.findIdx?_eq_some_iff_getElem]
  refine ⟨by simpa using hk, by simp, fun j hj => ?_⟩
  rw [List.getElem_set_ne (by omega)]
  have hmem : l[j] ∈ l := List.getElem_mem _
  simp only [decide_eq_true_eq]
  intro heq
  exact hv (heq ▸ hmem)

end SlotTable
