import TFProtocol.Lib.InodeTrees

/-!
# Adding entries

A new entry below a directory adds one list of names to those that lead somewhere, and
changes nothing for the others.  Whatever is added to new directories only leaves the entries
of the old ones.

## Main definitions

* `Tree.addDir` — a new directory under a name.
* `Grown` — one tree has the entries of another, and perhaps more.

## Main results

* `Proper.addDir`, `Proper.insert_file` — directories still have one name.
* `find_insert`, `find_addDir` — **what names lead to when an entry was added.**
* `Grown.find` — names lead where they led.
-/

namespace Inodes

variable {ν β : Type*} [DecidableEq ν]

/-- A new directory under a name. -/
def Tree.addDir (t : Tree ν β) (e : ℕ) (n : ν) : Tree ν β := (t.alloc none e).insert e n t.next

/-- The second tree has the entries of the first, with the same kinds of inodes. -/
structure Grown (t u : Tree ν β) : Prop where
  entry : ∀ e n i, t.entry e n = some i → u.entry e n = some i
  isDir : ∀ i, i < t.next → u.isDir i = t.isDir i

variable {t u : Tree ν β} {e f i k : ℕ} {n : ν} {ms ns : List ν}

theorem Grown.refl (t : Tree ν β) : Grown t t := ⟨fun _ _ _ h => h, fun _ _ => rfl⟩

/-- Names lead where they led. -/
theorem Grown.find (h : Grown t u) : ∀ {ns : List ν} {e i : ℕ}, e < t.next →
    t.find e ns = some i → u.find e ns = some i := by
  intro ns
  induction ns with
  | nil => exact fun _ hi => hi
  | cons n ns ih =>
    intro e i he hi
    have hdir : t.isDir e = true := isDir_of_find_cons (show t.find e (n :: ns) ≠ none by simp [hi])
    rw [find_cons hdir] at hi
    obtain ⟨j, hj, hi⟩ := Option.bind_eq_some_iff.mp hi
    rw [find_cons ((h.isDir e he).trans hdir), h.entry e n j hj]
    exact ih (entry_lt hj).2 hi

/-! ### A new directory -/

theorem next_addDir (t : Tree ν β) (e : ℕ) (n : ν) : (t.addDir e n).next = t.next + 1 :=
  next_insert ..

theorem entry_addDir (he : e < t.next) (n : ν) (f : ℕ) (m : ν) :
    (t.addDir e n).entry f m = if f = e ∧ m = n then some t.next else t.entry f m := by
  rw [Tree.addDir, entry_insert (Nat.lt_succ_of_lt he) (Nat.lt_succ_self _)]
  rfl

theorem data_addDir (t : Tree ν β) (e : ℕ) (n : ν) :
    (t.addDir e n).data = Function.update t.data t.next none := by
  rw [Tree.addDir, data_insert]
  rfl

theorem isDir_addDir (t : Tree ν β) (e : ℕ) (n : ν) (i : ℕ) :
    (t.addDir e n).isDir i = (decide (i = t.next) || t.isDir i) := by
  unfold Tree.isDir
  rw [data_addDir]
  by_cases hi : i = t.next
  · subst hi
    simp
  · rw [Function.update_of_ne hi]
    simp [hi]

theorem parent_addDir (he : e < t.next) (n : ν) :
    (t.addDir e n).parent = Function.update t.parent t.next e := by
  rw [Tree.addDir, parent_insert]
  show Function.update t.parent t.next (min e t.next) = _
  rw [Nat.min_eq_left he.le]

theorem names_insert (h : ((t.dir f).map Prod.fst).Nodup) (e : ℕ) (n : ν) (i : ℕ) :
    (((t.insert e n i).dir f).map Prod.fst).Nodup := by
  unfold Tree.insert
  split
  · show ((Function.update t.dir e _ f).map Prod.fst).Nodup
    by_cases hf : f = e
    · subst hf
      rw [Function.update_self, List.map_append, List.nodup_append]
      refine ⟨(List.filter_sublist.map Prod.fst).nodup h, by simp, ?_⟩
      intro x hx y hy
      obtain ⟨z, hz, rfl⟩ := List.mem_map.mp hx
      obtain rfl : y = n := by simpa using hy
      simpa using (List.mem_filter.mp hz).2
    · rwa [Function.update_of_ne hf]
  · exact h

/-- A directory gets a new directory. -/
theorem Proper.addDir (h : Proper t) (he : e < t.next) (n : ν) : Proper (t.addDir e n) := by
  have hnew {f : ℕ} {m : ν} (hm : t.entry f m = some t.next) : False :=
    absurd (entry_lt hm).2 (Nat.lt_irrefl _)
  have hcases {f : ℕ} {m : ν} {i : ℕ} (hm : (t.addDir e n).entry f m = some i) :
      f = e ∧ m = n ∧ i = t.next ∨ i ≠ t.next ∧ t.entry f m = some i := by
    rw [entry_addDir he] at hm
    split at hm
    · next hfm => exact Or.inl ⟨hfm.1, hfm.2, (Option.some.inj hm).symm⟩
    · exact Or.inr ⟨fun hi => hnew (hi ▸ hm), hm⟩
  refine ⟨?_, ?_, ?_, ?_, ?_⟩
  · exact fun f => names_insert (t := t.alloc none e) (h.names f) e n t.next
  · intro f m i hm hi
    rw [parent_addDir he]
    rcases hcases hm with ⟨rfl, -, rfl⟩ | ⟨hne, hm⟩
    · exact Function.update_self ..
    · rw [isDir_addDir, decide_eq_false hne, Bool.false_or] at hi
      rw [Function.update_of_ne hne]
      exact h.parent f m i hm hi
  · intro f m m' i hm hm' hi
    rcases hcases hm with ⟨-, rfl, rfl⟩ | ⟨hne, hm⟩
    · rcases hcases hm' with ⟨-, rfl, -⟩ | ⟨hne, -⟩
      · rfl
      · exact absurd rfl hne
    · rcases hcases hm' with ⟨-, -, rfl⟩ | ⟨-, hm'⟩
      · exact absurd rfl hne
      · rw [isDir_addDir, decide_eq_false hne, Bool.false_or] at hi
        exact h.single f m m' i hm hm' hi
  · intro f m hm
    rcases hcases hm with ⟨-, -, hz⟩ | ⟨-, hm⟩
    · exact absurd t.root_lt (by omega)
    · exact h.root f m hm
  · rw [parent_addDir he, Function.update_of_ne t.root_lt.ne]
    exact h.top

/-- A regular file gets a name. -/
theorem Proper.insert_file (h : Proper t) (he : e < t.next) (hi : i < t.next)
    (hfile : t.isDir i = false) (n : ν) : Proper (t.insert e n i) := by
  have hdir (j : ℕ) : (t.insert e n i).isDir j = t.isDir j := by
    unfold Tree.isDir
    rw [data_insert]
  have hcases {f : ℕ} {m : ν} {j : ℕ} (hm : (t.insert e n i).entry f m = some j)
      (hj : t.isDir j = true) : t.entry f m = some j := by
    rw [entry_insert he hi] at hm
    split at hm
    · obtain rfl := Option.some.inj hm
      rw [hfile] at hj
      cases hj
    · exact hm
  have hroot : t.isDir 0 = true := Option.isNone_iff_eq_none.mpr t.root_dir
  refine ⟨fun f => names_insert (h.names f) e n i, ?_, ?_, ?_, ?_⟩
  · intro f m j hm hj
    rw [hdir] at hj
    rw [parent_insert]
    exact h.parent f m j (hcases hm hj) hj
  · intro f m m' j hm hm' hj
    rw [hdir] at hj
    exact h.single f m m' j (hcases hm hj) (hcases hm' hj) hj
  · intro f m hm
    exact h.root f m (hcases hm hroot)
  · rw [parent_insert]
    exact h.top

/-! ### Names -/

/-- An entry is added to a directory that one list of names leads to. -/
theorem find_add (hk : k < t.next) (hms : t.find k ms = some f) (hf : t.isDir f = true)
    (huniq : ∀ ps, t.find k ps = some f → ps = ms) (hnone : t.entry f n = none)
    (hentry : ∀ f' m, u.entry f' m = if f' = f ∧ m = n then some i else t.entry f' m)
    (hdir : ∀ j, j < t.next → u.isDir j = t.isDir j) (hleaf : ∀ m, u.find i [m] = none) :
    ∀ ns, u.find k ns = if ns = ms ++ [n] then some i else t.find k ns := by
  intro ns
  induction ns using List.reverseRecOn with
  | nil =>
    rw [if_neg (by simp)]
    rfl
  | append_singleton ps q ih =>
    rw [find_append, ih]
    by_cases hps : ps = ms ++ [n]
    · -- nothing is below the new entry
      subst hps
      rw [if_pos rfl, Option.bind_some, hleaf, if_neg (by simp), find_append, find_append, hms,
        Option.bind_some, find_singleton hf, hnone]
      rfl
    · rw [if_neg hps, find_append]
      cases hf' : t.find k ps with
      | none =>
        rw [if_neg]
        · rfl
        · intro heq
          obtain rfl := (List.append_inj' heq rfl).1
          rw [hms] at hf'
          cases hf'
      | some f' =>
        have heq : ps ++ [q] = ms ++ [n] ↔ f' = f ∧ q = n := by
          constructor
          · intro heq
            obtain ⟨rfl, hq⟩ := List.append_inj' heq rfl
            exact ⟨Option.some.inj (hf'.symm.trans hms), by simpa using hq⟩
          · rintro ⟨rfl, rfl⟩
            rw [huniq ps hf']
        rw [Option.bind_some, Option.bind_some]
        by_cases hfd : t.isDir f' = true
        · have hfd' : u.isDir f' = true := (hdir f' (find_lt hk hf')).trans hfd
          rw [find_singleton hfd', find_singleton hfd, hentry]
          exact if_congr heq.symm rfl rfl
        · have hfd' : u.isDir f' = false := by
            rw [hdir f' (find_lt hk hf')]
            simpa using hfd
          rw [if_neg fun h => hfd ((heq.mp h).1 ▸ hf), Tree.find, Tree.find, hfd', if_neg hfd,
            if_neg Bool.false_ne_true]

section

variable (h : Proper t) (hfin : FiniteAt t k) (hlt : k < t.next) (hkd : t.isDir k = true)
  (hms : t.find k ms = some f) (hf : t.isDir f = true) (hnone : t.entry f n = none)

include h hfin hlt hkd hms hf hnone in
/-- **What names lead to when a file got a name.** -/
theorem find_insert (hi : i < t.next) (hfile : t.isDir i = false) (ns : List ν) :
    (t.insert f n i).find k ns = if ns = ms ++ [n] then some i else t.find k ns := by
  have hdir (j : ℕ) : (t.insert f n i).isDir j = t.isDir j := by
    unfold Tree.isDir
    rw [data_insert]
  refine find_add hlt hms hf (fun ps hps => h.find_inj hfin hkd hf hps hms) hnone
    (entry_insert (find_lt hlt hms) hi n) (fun j _ => hdir j) (fun m => ?_) ns
  rw [Tree.find, hdir, hfile, if_neg Bool.false_ne_true]

include h hfin hlt hkd hms hf hnone in
/-- **What names lead to when a directory was made.** -/
theorem find_addDir (ns : List ν) :
    (t.addDir f n).find k ns = if ns = ms ++ [n] then some t.next else t.find k ns := by
  refine find_add hlt hms hf (fun ps hps => h.find_inj hfin hkd hf hps hms) hnone
    (entry_addDir (find_lt hlt hms) n) (fun j hj => ?_) (fun m => ?_) ns
  · rw [isDir_addDir, decide_eq_false hj.ne, Bool.false_or]
  · have hnew : (t.addDir f n).isDir t.next = true := by simp [isDir_addDir]
    have hft : t.next ≠ f := (find_lt hlt hms).ne'
    rw [find_singleton hnew, entry_addDir (find_lt hlt hms), if_neg fun h => hft h.1]
    by_contra hne
    obtain ⟨j, hj⟩ := Option.ne_none_iff_exists'.mp hne
    exact absurd (entry_lt hj).1 (Nat.lt_irrefl _)

end

end Inodes
