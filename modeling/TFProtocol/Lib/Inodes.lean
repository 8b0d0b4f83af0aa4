import Mathlib.Data.List.Basic
import Mathlib.Data.Option.Basic
import Mathlib.Logic.Function.Basic

/-!
# Trees of inodes

A file system without symbolic links: directories hold names of inodes, a regular file may
have several names, and an inode number is never used twice.  The regular files of a
directory are a map from names to contents; the lemmas say which changes of the tree leave
that map as it is.

## Main definitions

* `Tree` — the inodes, with the invariant that names lead to known inodes.
* `Tree.remove`, `Tree.insert`, `Tree.write`, `Tree.alloc` — the changes.
* `Tree.walk` — following a path through directories.
* `Tree.below` — everything below a directory.
* `Tree.files` — the regular files of a directory.
* `DirsIn`, `Sub` — one tree has the directories, or the entries, of another.
* `NoneMade` — between two trees no file was made in a directory, not even for a while.

## Main results

* `files_remove`, `files_insert`, `files_write`, `files_alloc` — when the regular files of
  a directory stay the same.
* `DirsIn.walk` — a path that leads to a directory still does.
-/

namespace Inodes

/-- Inodes of a file system, with names `ν` and contents `β`. -/
structure Tree (ν β : Type*) where
  /-- The entries of a directory, in the order they are listed. -/
  dir : ℕ → List (ν × ℕ)
  /-- The content of a regular file; a directory has none. -/
  data : ℕ → Option β
  parent : ℕ → ℕ
  /-- The next inode number. -/
  next : ℕ
  /-- The root is the directory with the number `0`. -/
  root_lt : 0 < next
  root_dir : data 0 = none
  fresh : ∀ e, next ≤ e → dir e = []
  known : ∀ e, ∀ x ∈ dir e, x.2 < next
  parent_lt : ∀ e, e < next → parent e < next

/-- One component of a path. -/
inductive Step (ν : Type*)
  | stay
  | up
  | name (n : ν)
  deriving DecidableEq, Repr

variable {ν β : Type*} [DecidableEq ν]

namespace Tree

variable (t : Tree ν β)

/-- The inode is a directory. -/
def isDir (i : ℕ) : Bool := (t.data i).isNone

/-- The inode a name leads to. -/
def entry (e : ℕ) (n : ν) : Option ℕ := (t.dir e).lookup n

/-- The regular files of a directory. -/
def files (e : ℕ) (n : ν) : Option β := (t.entry e n).bind t.data

/-- The name is taken away. -/
def remove (e : ℕ) (n : ν) : Tree ν β where
  dir := Function.update t.dir e ((t.dir e).filter (·.1 ≠ n))
  data := t.data
  parent := t.parent
  next := t.next
  root_lt := t.root_lt
  root_dir := t.root_dir
  fresh f hf := by
    by_cases h : f = e
    · subst h
      rw [Function.update_self, t.fresh f hf, List.filter_nil]
    · rw [Function.update_of_ne h, t.fresh f hf]
  known f x hx := by
    by_cases h : f = e
    · subst h
      rw [Function.update_self] at hx
      exact t.known f x (List.mem_of_mem_filter hx)
    · rw [Function.update_of_ne h] at hx
      exact t.known f x hx
  parent_lt := t.parent_lt

/-- The name is given to an inode, whatever it led to before. -/
def insert (e : ℕ) (n : ν) (i : ℕ) : Tree ν β :=
  if h : e < t.next ∧ i < t.next then
    { t with
      dir := Function.update t.dir e ((t.dir e).filter (·.1 ≠ n) ++ [(n, i)])
      fresh := fun f hf => by
        rw [Function.update_of_ne (by omega), t.fresh f hf]
      known := fun f x hx => by
        by_cases hfe : f = e
        · subst hfe
          rw [Function.update_self] at hx
          rcases List.mem_append.mp hx with hx | hx
          · exact t.known f x (List.mem_of_mem_filter hx)
          · rw [List.mem_singleton.mp hx]
            exact h.2
        · rw [Function.update_of_ne hfe] at hx
          exact t.known f x hx }
  else t

/-- A regular file gets a content. -/
def write (i : ℕ) (c : β) : Tree ν β :=
  if h : (t.data i).isSome then
    { t with
      data := Function.update t.data i (some c)
      root_dir := by
        have hi : 0 ≠ i := by
          rintro rfl
          rw [t.root_dir] at h
          cases h
        rw [Function.update_of_ne hi, t.root_dir] }
  else t

/-- A new inode: a regular file with a content, or a directory. -/
def alloc (c : Option β) (e : ℕ) : Tree ν β where
  dir := t.dir
  data := Function.update t.data t.next c
  parent := Function.update t.parent t.next (min e t.next)
  next := t.next + 1
  root_lt := Nat.succ_pos _
  root_dir := by
    have := t.root_lt
    rw [Function.update_of_ne (by omega), t.root_dir]
  fresh f hf := t.fresh f (by omega)
  known f x hx := Nat.lt_succ_of_lt (t.known f x hx)
  parent_lt f hf := by
    by_cases h : f = t.next
    · subst h
      rw [Function.update_self]
      omega
    · rw [Function.update_of_ne h]
      exact Nat.lt_succ_of_lt (t.parent_lt f (by omega))

/-- A directory is moved below another one. -/
def setParent (i e : ℕ) : Tree ν β :=
  if h : e < t.next then
    { t with
      parent := Function.update t.parent i e
      parent_lt := fun f hf => by
        by_cases hfi : f = i
        · subst hfi
          rw [Function.update_self]
          exact h
        · rw [Function.update_of_ne hfi]
          exact t.parent_lt f hf }
  else t

/-- The directory one component leads to. -/
def step (e : ℕ) : Step ν → Option ℕ
  | .stay => some e
  | .up => if t.isDir (t.parent e) then some (t.parent e) else none
  | .name n => (t.entry e n).filter t.isDir

/-- The directory a path leads to. -/
def walk : ℕ → List (Step ν) → Option ℕ
  | e, [] => some e
  | e, c :: cs => (t.step e c).bind fun f => walk f cs

/-- Everything below a directory, to a depth, with a directory before its entries. -/
def below : ℕ → ℕ → List (List ν)
  | 0, _ => []
  | k + 1, e =>
    (t.dir e).flatMap fun x =>
      [x.1] :: if t.isDir x.2 then (below k x.2).map (x.1 :: ·) else []

/-- A directory and the directories above it, to a height. -/
def above : ℕ → ℕ → List ℕ
  | 0, e => [e]
  | k + 1, e => e :: above k (t.parent e)

end Tree

variable {t t' : Tree ν β}

/-! ### Entries -/

omit [DecidableEq ν] in
theorem mem_dir_lt {e : ℕ} {x : ν × ℕ} (h : x ∈ t.dir e) : e < t.next ∧ x.2 < t.next := by
  refine ⟨?_, t.known e x h⟩
  by_contra hge
  rw [t.fresh e (by omega)] at h
  cases h

theorem mem_of_lookup : ∀ {l : List (ν × ℕ)} {n : ν} {i : ℕ}, l.lookup n = some i → (n, i) ∈ l := by
  intro l
  induction l with
  | nil => intro n i h; cases h
  | cons x l ih =>
    intro n i h
    rw [List.lookup_cons] at h
    split at h
    · next heq =>
      obtain rfl : n = x.1 := by simpa using heq
      obtain rfl := Option.some.inj h
      exact List.mem_cons_self
    · exact List.mem_cons_of_mem _ (ih h)

theorem mem_dir_of_entry {e : ℕ} {n : ν} {i : ℕ} (h : t.entry e n = some i) : (n, i) ∈ t.dir e :=
  mem_of_lookup h

theorem entry_lt {e : ℕ} {n : ν} {i : ℕ} (h : t.entry e n = some i) : e < t.next ∧ i < t.next :=
  mem_dir_lt (mem_dir_of_entry h)

theorem files_lt {d : ℕ} {n : ν} {c : β} (h : t.files d n = some c) : d < t.next := by
  obtain ⟨i, hi, -⟩ := Option.bind_eq_some_iff.mp h
  exact (entry_lt hi).1

theorem lookup_filter_ne (n m : ν) : ∀ l : List (ν × ℕ),
    (l.filter (·.1 ≠ n)).lookup m = if m = n then none else l.lookup m := by
  intro l
  induction l with
  | nil => simp
  | cons x l ih =>
    by_cases hx : x.1 = n
    · rw [List.filter_cons_of_neg (by simpa using hx), ih, List.lookup_cons]
      by_cases hm : m = n
      · rw [if_pos hm, if_pos hm]
      · have : (m == x.1) = false := by simpa [hx] using hm
        rw [if_neg hm, if_neg hm, this]
    · rw [List.filter_cons_of_pos (by simpa using hx), List.lookup_cons, List.lookup_cons, ih]
      by_cases hm : m = n
      · have : (m == x.1) = false := by
          simp only [beq_eq_false_iff_ne]
          rintro rfl
          exact hx hm
        rw [this, if_pos hm]
      · rw [if_neg hm, if_neg hm]

theorem entry_remove (e : ℕ) (n : ν) (f : ℕ) (m : ν) :
    (t.remove e n).entry f m = if f = e ∧ m = n then none else t.entry f m := by
  show ((Function.update t.dir e _) f).lookup m = _
  by_cases hf : f = e
  · subst hf
    rw [Function.update_self, lookup_filter_ne]
    simp [Tree.entry]
  · rw [Function.update_of_ne hf, if_neg (fun h => hf h.1)]
    rfl

theorem entry_insert {e i : ℕ} (he : e < t.next) (hi : i < t.next) (n : ν) (f : ℕ) (m : ν) :
    (t.insert e n i).entry f m = if f = e ∧ m = n then some i else t.entry f m := by
  unfold Tree.insert
  rw [dif_pos ⟨he, hi⟩]
  show ((Function.update t.dir e _) f).lookup m = _
  by_cases hf : f = e
  · subst hf
    rw [Function.update_self, List.lookup_append, lookup_filter_ne]
    by_cases hm : m = n
    · subst hm
      simp
    · have : (m == n) = false := by simpa using hm
      simp [hm, Tree.entry, List.lookup_cons, this]
  · rw [Function.update_of_ne hf, if_neg (fun h => hf h.1)]
    rfl

theorem entry_insert_of_ne {e f i : ℕ} {n m : ν} (h : f ≠ e) :
    (t.insert e n i).entry f m = t.entry f m := by
  by_cases hlt : e < t.next ∧ i < t.next
  · rw [entry_insert hlt.1 hlt.2, if_neg fun heq => h heq.1]
  · unfold Tree.insert
    rw [dif_neg hlt]

/-! ### The regular files of a directory -/

theorem files_remove {d e : ℕ} {n : ν} (h : e = d → t.files d n = none) :
    (t.remove e n).files d = t.files d := by
  funext m
  show ((t.remove e n).entry d m).bind t.data = _
  rw [entry_remove]
  split
  · next heq =>
    obtain ⟨rfl, rfl⟩ := heq
    exact (h rfl).symm
  · rfl

@[simp] theorem data_insert (e : ℕ) (n : ν) (i : ℕ) : (t.insert e n i).data = t.data := by
  unfold Tree.insert
  split <;> rfl

@[simp] theorem next_insert (e : ℕ) (n : ν) (i : ℕ) : (t.insert e n i).next = t.next := by
  unfold Tree.insert
  split <;> rfl

@[simp] theorem parent_insert (e : ℕ) (n : ν) (i : ℕ) : (t.insert e n i).parent = t.parent := by
  unfold Tree.insert
  split <;> rfl

theorem files_insert {d e i : ℕ} {n : ν} (h : e = d → t.files d n = none ∧ t.data i = none) :
    (t.insert e n i).files d = t.files d := by
  by_cases hlt : e < t.next ∧ i < t.next
  · funext m
    show ((t.insert e n i).entry d m).bind (t.insert e n i).data = _
    rw [entry_insert hlt.1 hlt.2, data_insert]
    split
    · next heq =>
      obtain ⟨rfl, rfl⟩ := heq
      rw [(h rfl).1]
      exact (h rfl).2
    · rfl
  · unfold Tree.insert
    rw [dif_neg hlt]

theorem files_write_of_ne {d i : ℕ} {n : ν} {c : β} (h : t.entry d n ≠ some i) :
    (t.write i c).files d n = t.files d n := by
  unfold Tree.write
  split
  · show (t.entry d n).bind (Function.update t.data i (some c)) = (t.entry d n).bind t.data
    cases hn : t.entry d n with
    | none => rfl
    | some j =>
      have hj : j ≠ i := by
        rintro rfl
        exact h hn
      show Function.update t.data i (some c) j = t.data j
      rw [Function.update_of_ne hj]
  · rfl

theorem files_write {d i : ℕ} {c : β} (h : ∀ n, t.entry d n ≠ some i) :
    (t.write i c).files d = t.files d :=
  funext fun n => files_write_of_ne (h n)

@[simp] theorem files_alloc (d : ℕ) (c : Option β) (e : ℕ) : (t.alloc c e).files d = t.files d := by
  funext n
  show (t.entry d n).bind (Function.update t.data t.next c) = (t.entry d n).bind t.data
  cases hn : t.entry d n with
  | none => rfl
  | some j =>
    have := (entry_lt hn).2
    show Function.update t.data t.next c j = t.data j
    rw [Function.update_of_ne (by omega)]

@[simp] theorem files_setParent (d i e : ℕ) : (t.setParent i e).files d = t.files d := by
  unfold Tree.setParent
  split <;> rfl

/-! ### Directories of one tree in another -/

/-- Every directory of the first tree is in the second one, at the same place. -/
structure DirsIn (t' t : Tree ν β) : Prop where
  entry : ∀ e n i, t'.entry e n = some i → t'.data i = none → t.entry e n = some i ∧ t.data i = none
  parent : ∀ e, e < t'.next → t'.data e = none →
    e < t.next ∧ t.parent e = t'.parent e ∧ t.data e = none

theorem DirsIn.refl (t : Tree ν β) : DirsIn t t :=
  ⟨fun _ _ _ h hd => ⟨h, hd⟩, fun _ he hd => ⟨he, rfl, hd⟩⟩

/-- What one step does in a tree. -/
theorem step_lt {e f : ℕ} {c : Step ν} (he : e < t.next) (hd : t.data e = none)
    (h : t.step e c = some f) : f < t.next ∧ t.data f = none := by
  cases c with
  | stay =>
    obtain rfl : e = f := Option.some.inj h
    exact ⟨he, hd⟩
  | up =>
    simp only [Tree.step] at h
    split at h
    · next hup =>
      obtain rfl := Option.some.inj h
      exact ⟨t.parent_lt e he, Option.isNone_iff_eq_none.mp hup⟩
    · cases h
  | name n =>
    obtain ⟨hentry, hdir⟩ := Option.filter_eq_some_iff.mp h
    exact ⟨(entry_lt hentry).2, Option.isNone_iff_eq_none.mp hdir⟩

theorem DirsIn.step (h : DirsIn t' t) {e f : ℕ} {c : Step ν} (he : e < t'.next)
    (hd : t'.data e = none) (hstep : t'.step e c = some f) : t.step e c = some f := by
  have hf := step_lt he hd hstep
  cases c with
  | stay => exact hstep
  | up =>
    simp only [Tree.step] at hstep ⊢
    split at hstep
    · obtain rfl := Option.some.inj hstep
      have hpar := (h.parent e he hd).2.1
      have hdir : t.isDir (t'.parent e) = true :=
        Option.isNone_iff_eq_none.mpr (h.parent _ hf.1 hf.2).2.2
      rw [hpar, if_pos hdir]
    · cases hstep
  | name n =>
    obtain ⟨hentry, -⟩ := Option.filter_eq_some_iff.mp hstep
    obtain ⟨hentry', hdir⟩ := h.entry e n f hentry hf.2
    exact Option.filter_eq_some_iff.mpr ⟨hentry', Option.isNone_iff_eq_none.mpr hdir⟩

/-- A path that leads to a directory of the one tree leads to it in the other. -/
theorem DirsIn.walk (h : DirsIn t' t) : ∀ {cs : List (Step ν)} {e f : ℕ}, e < t'.next →
    t'.data e = none → t'.walk e cs = some f → t.walk e cs = some f := by
  intro cs
  induction cs with
  | nil => intro e f _ _ hw; exact hw
  | cons c cs ih =>
    intro e f he hd hw
    obtain ⟨g, hstep, hw⟩ := Option.bind_eq_some_iff.mp hw
    obtain ⟨hg, hgd⟩ := step_lt he hd hstep
    exact Option.bind_eq_some_iff.mpr ⟨g, h.step he hd hstep, ih hg hgd hw⟩

theorem walk_lt : ∀ {cs : List (Step ν)} {e f : ℕ}, e < t.next → t.data e = none →
    t.walk e cs = some f → f < t.next ∧ t.data f = none := by
  intro cs
  induction cs with
  | nil =>
    intro e f he hd hw
    obtain rfl : e = f := Option.some.inj hw
    exact ⟨he, hd⟩
  | cons c cs ih =>
    intro e f he hd hw
    obtain ⟨g, hstep, hw⟩ := Option.bind_eq_some_iff.mp hw
    obtain ⟨hg, hgd⟩ := step_lt he hd hstep
    exact ih hg hgd hw

/-- A name that is walked through is the name of an entry. -/
theorem mem_dir_of_walk {n : ν} : ∀ {cs : List (Step ν)} {e f : ℕ}, t.walk e cs = some f →
    Step.name n ∈ cs → ∃ d i, (n, i) ∈ t.dir d := by
  intro cs
  induction cs with
  | nil => intro e f _ hn; cases hn
  | cons c cs ih =>
    intro e f h hn
    obtain ⟨g, hg, h⟩ := Option.bind_eq_some_iff.mp h
    rcases List.mem_cons.mp hn with rfl | hn
    · have hentry : t.entry e n = some g := (Option.filter_eq_some_iff.mp hg).1
      exact ⟨e, g, mem_of_lookup hentry⟩
    · exact ih h hn

theorem walk_append (cs ds : List (Step ν)) : ∀ e, t.walk e (cs ++ ds)
    = (t.walk e cs).bind fun f => t.walk f ds := by
  induction cs with
  | nil => intro e; rfl
  | cons c cs ih =>
    intro e
    show ((t.step e c).bind fun f => t.walk f (cs ++ ds))
      = ((t.step e c).bind fun f => t.walk f cs).bind _
    rw [Option.bind_assoc]
    simp only [ih]

theorem DirsIn.trans {t'' : Tree ν β} (h : DirsIn t'' t') (h' : DirsIn t' t) : DirsIn t'' t := by
  refine ⟨fun e n i hentry hd => ?_, fun e he hd => ?_⟩
  · obtain ⟨hentry', hd'⟩ := h.entry e n i hentry hd
    exact h'.entry e n i hentry' hd'
  · obtain ⟨he', hpar, hd'⟩ := h.parent e he hd
    obtain ⟨he'', hpar', hd''⟩ := h'.parent e he' hd'
    exact ⟨he'', hpar'.trans hpar, hd''⟩

/-- Another name for a regular file adds no directory. -/
theorem dirsIn_insert_file {e i : ℕ} {n : ν} (hi : t.data i ≠ none) :
    DirsIn (t.insert e n i) t := by
  by_cases hlt : e < t.next ∧ i < t.next
  · refine ⟨fun f m j hentry hd => ?_, fun f hf hd => ?_⟩
    · rw [data_insert] at hd
      rw [entry_insert hlt.1 hlt.2] at hentry
      split at hentry
      · obtain rfl := Option.some.inj hentry
        exact absurd hd hi
      · exact ⟨hentry, hd⟩
    · rw [data_insert] at hd
      rw [next_insert] at hf
      exact ⟨hf, by rw [parent_insert], hd⟩
  · unfold Tree.insert
    rw [dif_neg hlt]
    exact .refl t

/-- A new regular file is no directory. -/
theorem dirsIn_alloc_file (c : β) (e : ℕ) : DirsIn (t.alloc (some c) e) t := by
  refine ⟨fun f m i hentry hd => ?_, fun f hf hd => ?_⟩
  · have hlt : i < t.next := (entry_lt (t := t) hentry).2
    have hd : Function.update t.data t.next (some c) i = none := hd
    rw [Function.update_of_ne (by omega)] at hd
    exact ⟨hentry, hd⟩
  · have hne : f ≠ t.next := by
      rintro rfl
      have hd : Function.update t.data t.next (some c) t.next = none := hd
      rw [Function.update_self] at hd
      cases hd
    have hf : f < t.next + 1 := hf
    have hd : Function.update t.data t.next (some c) f = none := hd
    rw [Function.update_of_ne hne] at hd
    exact ⟨by omega, (Function.update_of_ne hne _ _).symm, hd⟩

omit [DecidableEq ν] in
theorem data_write (i : ℕ) (c : β) (j : ℕ) : (t.write i c).data j = none ↔ t.data j = none := by
  unfold Tree.write
  split
  · next h =>
    show Function.update t.data i (some c) j = none ↔ _
    by_cases hj : j = i
    · subst hj
      rw [Function.update_self]
      constructor
      · nofun
      · intro hnone
        rw [hnone] at h
        cases h
    · rw [Function.update_of_ne hj]
  · exact Iff.rfl

@[simp] theorem entry_write (i : ℕ) (c : β) (e : ℕ) (n : ν) :
    (t.write i c).entry e n = t.entry e n := by
  unfold Tree.write
  split <;> rfl

/-- A content makes no directory. -/
theorem dirsIn_write (i : ℕ) (c : β) : DirsIn (t.write i c) t := by
  refine ⟨fun e n j hentry hd => ?_, fun e he hd => ?_⟩
  · rw [entry_write] at hentry
    exact ⟨hentry, (data_write i c j).mp hd⟩
  · have hnext : (t.write i c).next = t.next := by
      unfold Tree.write
      split <;> rfl
    have hparent : (t.write i c).parent = t.parent := by
      unfold Tree.write
      split <;> rfl
    exact ⟨hnext ▸ he, by rw [hparent], (data_write i c e).mp hd⟩

/-- A content takes no directory away. -/
theorem dirsIn_of_write (i : ℕ) (c : β) : DirsIn t (t.write i c) := by
  refine ⟨fun e n j hentry hd => ?_, fun e he hd => ?_⟩
  · rw [entry_write]
    exact ⟨hentry, (data_write i c j).mpr hd⟩
  · refine ⟨?_, ?_, (data_write i c e).mpr hd⟩
    · unfold Tree.write
      split <;> exact he
    · unfold Tree.write
      split <;> rfl

omit [DecidableEq ν] in
theorem data_write_self {i : ℕ} {c : β} (h : t.data i ≠ none) : (t.write i c).data i = some c := by
  unfold Tree.write
  rw [dif_pos (Option.isSome_iff_ne_none.mpr h)]
  exact Function.update_self ..

/-- A new name takes nothing away. -/
theorem dirsIn_insert_new {e i : ℕ} {n : ν} (hnone : t.entry e n = none) :
    DirsIn t (t.insert e n i) := by
  by_cases hlt : e < t.next ∧ i < t.next
  · refine ⟨fun g m j hentry hd => ?_, fun g hg hd => ?_⟩
    · rw [entry_insert hlt.1 hlt.2, data_insert, if_neg]
      · exact ⟨hentry, hd⟩
      · rintro ⟨rfl, rfl⟩
        rw [hnone] at hentry
        cases hentry
    · rw [data_insert, parent_insert, next_insert]
      exact ⟨hg, rfl, hd⟩
  · unfold Tree.insert
    rw [dif_neg hlt]
    exact .refl t

/-- A new inode takes nothing away. -/
theorem dirsIn_alloc (c : Option β) (f : ℕ) : DirsIn t (t.alloc c f) := by
  refine ⟨fun g m i hentry hd => ⟨hentry, ?_⟩, fun g hg hd => ⟨Nat.lt_succ_of_lt hg, ?_, ?_⟩⟩
  · have := (entry_lt hentry).2
    show Function.update t.data t.next c i = none
    rw [Function.update_of_ne (by omega)]
    exact hd
  · exact Function.update_of_ne (by omega) _ _
  · show Function.update t.data t.next c g = none
    rw [Function.update_of_ne (by omega)]
    exact hd

/-! ### Everything below a directory -/

omit [DecidableEq ν] in
theorem ne_nil_of_mem_below {k e : ℕ} {ns : List ν} (h : ns ∈ t.below k e) : ns ≠ [] := by
  cases k with
  | zero => cases h
  | succ k =>
    obtain ⟨x, -, h⟩ := List.mem_flatMap.mp h
    rcases List.mem_cons.mp h with rfl | h
    · exact List.cons_ne_nil _ _
    · split at h
      · obtain ⟨ms, -, rfl⟩ := List.mem_map.mp h
        exact List.cons_ne_nil _ _
      · cases h

/-! ### Taking entries away -/

/-- The first tree is the second one with some entries taken away. -/
structure Sub (t' t : Tree ν β) : Prop where
  dir : ∀ e, ∀ x ∈ t'.dir e, x ∈ t.dir e
  entry : ∀ e n i, t'.entry e n = some i → t.entry e n = some i
  data : t'.data = t.data
  parent : t'.parent = t.parent
  next : t'.next = t.next

theorem Sub.refl (t : Tree ν β) : Sub t t := ⟨fun _ _ h => h, fun _ _ _ h => h, rfl, rfl, rfl⟩

theorem Sub.trans {t'' : Tree ν β} (h : Sub t'' t') (h' : Sub t' t) : Sub t'' t :=
  ⟨fun e x hx => h'.dir e x (h.dir e x hx), fun e n i hi => h'.entry e n i (h.entry e n i hi),
    h.data.trans h'.data, h.parent.trans h'.parent, h.next.trans h'.next⟩

theorem sub_remove (e : ℕ) (n : ν) : Sub (t.remove e n) t := by
  refine ⟨fun f x hx => ?_, fun f m i hi => ?_, rfl, rfl, rfl⟩
  · show x ∈ t.dir f
    by_cases hf : f = e
    · subst hf
      have : x ∈ Function.update t.dir f ((t.dir f).filter (·.1 ≠ n)) f := hx
      rw [Function.update_self] at this
      exact List.mem_of_mem_filter this
    · have : x ∈ Function.update t.dir e ((t.dir e).filter (·.1 ≠ n)) f := hx
      rwa [Function.update_of_ne hf] at this
  · rw [entry_remove] at hi
    split at hi
    · cases hi
    · exact hi

theorem Sub.dirsIn (h : Sub t' t) : DirsIn t' t :=
  ⟨fun e n i hi hd => ⟨h.entry e n i hi, by rwa [← h.data]⟩,
    fun e he hd => ⟨by rwa [← h.next], by rw [h.parent], by rwa [← h.data]⟩⟩

theorem Sub.files (h : Sub t' t) {d : ℕ} {n : ν} {c : β} (hc : t'.files d n = some c) :
    t.files d n = some c := by
  obtain ⟨i, hi, hd⟩ := Option.bind_eq_some_iff.mp hc
  exact Option.bind_eq_some_iff.mpr ⟨i, h.entry d n i hi, by rwa [← h.data]⟩

theorem Sub.below (h : Sub t' t) :
    ∀ (k e : ℕ) (p : List ν), p ∈ t'.below k e → p ∈ t.below k e := by
  intro k
  induction k with
  | zero => intro e p hp; cases hp
  | succ k ih =>
    intro e p hp
    obtain ⟨x, hx, hp⟩ := List.mem_flatMap.mp hp
    refine List.mem_flatMap.mpr ⟨x, h.dir e x hx, ?_⟩
    have hdir : t.isDir x.2 = t'.isDir x.2 := by
      unfold Tree.isDir
      rw [h.data]
    rw [hdir]
    rcases List.mem_cons.mp hp with rfl | hp
    · exact List.mem_cons_self
    · refine List.mem_cons_of_mem _ ?_
      split
      · next hd =>
        rw [if_pos hd] at hp
        obtain ⟨q, hq, rfl⟩ := List.mem_map.mp hp
        exact List.mem_map.mpr ⟨q, ih x.2 q hq, rfl⟩
      · next hd =>
        rw [if_neg hd] at hp
        cases hp

/-! ### New directories -/

/-- The directories in directories from number `k` on have numbers from `k` on. -/
def NewApart (k : ℕ) (t : Tree ν β) : Prop :=
  ∀ e n i, k ≤ e → t.entry e n = some i → t.data i = none → k ≤ i

theorem newApart_next (t : Tree ν β) : NewApart t.next t := by
  intro e n i he hi _
  have := (entry_lt hi).1
  omega

/-- Names lead from a new directory to new directories. -/
theorem NewApart.walk {k : ℕ} (h : NewApart k t) : ∀ {ns : List ν} {e f : ℕ}, k ≤ e →
    t.walk e (ns.map .name) = some f → k ≤ f := by
  intro ns
  induction ns with
  | nil =>
    intro e f he hw
    obtain rfl : e = f := Option.some.inj hw
    exact he
  | cons n ns ih =>
    intro e f he hw
    obtain ⟨g, hstep, hw⟩ := Option.bind_eq_some_iff.mp hw
    obtain ⟨hentry, hdir⟩ := Option.filter_eq_some_iff.mp hstep
    exact ih (h e n g he hentry (Option.isNone_iff_eq_none.mp hdir)) hw

theorem NewApart.insert {k e i : ℕ} {n : ν} (h : NewApart k t) (hi : t.data i = none → k ≤ i) :
    NewApart k (t.insert e n i) := by
  by_cases hlt : e < t.next ∧ i < t.next
  · intro f m j hf hentry hd
    rw [data_insert] at hd
    rw [entry_insert hlt.1 hlt.2] at hentry
    split at hentry
    · obtain rfl := Option.some.inj hentry
      exact hi hd
    · exact h f m j hf hentry hd
  · unfold Tree.insert
    rw [dif_neg hlt]
    exact h

theorem NewApart.alloc {k f : ℕ} {c : Option β} (h : NewApart k t) : NewApart k (t.alloc c f) := by
  intro e n i he hentry hd
  have hlt : i < t.next := (entry_lt (t := t) hentry).2
  refine h e n i he hentry ?_
  have : Function.update t.data t.next c i = none := hd
  rwa [Function.update_of_ne (by omega)] at this

/-! ### Files that are made -/

/-- From the first tree to the second, no regular file is made in directory `d`, not even one
that is taken away again: an inode number keeps the directory it was made in. -/
structure NoneMade (d : ℕ) (t t' : Tree ν β) : Prop where
  le : t.next ≤ t'.next
  kind : ∀ i, i < t.next → (t'.data i = none ↔ t.data i = none)
  parent : ∀ i, i < t.next → t.data i ≠ none → t'.parent i = t.parent i
  made : ∀ i, t.next ≤ i → i < t'.next → t'.data i ≠ none → t'.parent i ≠ d

omit [DecidableEq ν] in
theorem NoneMade.refl (d : ℕ) (t : Tree ν β) : NoneMade d t t :=
  ⟨Nat.le_refl _, fun _ _ => Iff.rfl, fun _ _ _ => rfl,
    fun _ hle hlt => absurd (Nat.lt_of_le_of_lt hle hlt) (Nat.lt_irrefl _)⟩

omit [DecidableEq ν] in
theorem NoneMade.trans {d : ℕ} {t'' : Tree ν β} (h : NoneMade d t t') (h' : NoneMade d t' t'') :
    NoneMade d t t'' := by
  have hlt : ∀ {i}, i < t.next → i < t'.next := fun hi => Nat.lt_of_lt_of_le hi h.le
  refine ⟨Nat.le_trans h.le h'.le, fun i hi => (h'.kind i (hlt hi)).trans (h.kind i hi),
    fun i hi hd => ?_, fun i hle hi hd => ?_⟩
  · have hd' : t'.data i ≠ none := fun hnone => hd ((h.kind i hi).mp hnone)
    exact (h'.parent i (hlt hi) hd').trans (h.parent i hi hd)
  · rcases Nat.lt_or_ge i t'.next with hi' | hge
    · -- it was made on the way to the tree between
      have hd' : t'.data i ≠ none := fun hnone => hd ((h'.kind i hi').mpr hnone)
      rw [h'.parent i hi' hd']
      exact h.made i hle hi' hd'
    · exact h'.made i hge hi hd

omit [DecidableEq ν] in
/-- Whatever keeps the inodes makes none. -/
theorem noneMade_of_eq (d : ℕ) (hdata : ∀ i, t'.data i = none ↔ t.data i = none)
    (hparent : ∀ i, t.data i ≠ none → t'.parent i = t.parent i) (hnext : t'.next = t.next) :
    NoneMade d t t' := by
  refine ⟨Nat.le_of_eq hnext.symm, fun i _ => hdata i, fun i _ => hparent i, fun i hle hlt => ?_⟩
  rw [hnext] at hlt
  exact absurd (Nat.lt_of_le_of_lt hle hlt) (Nat.lt_irrefl _)

theorem Sub.noneMade (h : Sub t' t) (d : ℕ) : NoneMade d t t' :=
  noneMade_of_eq d (fun i => by rw [h.data]) (fun i _ => by rw [h.parent]) h.next

theorem noneMade_insert (d e : ℕ) (n : ν) (i : ℕ) : NoneMade d t (t.insert e n i) :=
  noneMade_of_eq d (fun j => by rw [data_insert]) (fun j _ => by rw [parent_insert])
    (next_insert e n i)

omit [DecidableEq ν] in
theorem noneMade_write (d i : ℕ) (c : β) : NoneMade d t (t.write i c) := by
  refine noneMade_of_eq d (data_write i c) (fun j _ => ?_) ?_
  · unfold Tree.write
    split <;> rfl
  · unfold Tree.write
    split <;> rfl

omit [DecidableEq ν] in
/-- A directory that is moved is no file. -/
theorem noneMade_setParent (d f : ℕ) {i : ℕ} (hi : t.data i = none) :
    NoneMade d t (t.setParent i f) := by
  unfold Tree.setParent
  split
  · refine noneMade_of_eq d (fun _ => Iff.rfl) (fun j hj => ?_) rfl
    have hne : j ≠ i := by
      rintro rfl
      exact hj hi
    exact Function.update_of_ne hne _ _
  · exact .refl d t

omit [DecidableEq ν] in
/-- A new inode is no file, or is made in another directory. -/
theorem noneMade_alloc {d e : ℕ} {c : Option β} (he : e < t.next) (h : c ≠ none → e ≠ d) :
    NoneMade d t (t.alloc c e) := by
  refine ⟨Nat.le_succ _, fun i hi => ?_, fun i hi _ => ?_, fun i hle hlt hd => ?_⟩
  · show Function.update t.data t.next c i = none ↔ _
    rw [Function.update_of_ne (by omega)]
  · show Function.update t.parent t.next _ i = _
    rw [Function.update_of_ne (by omega)]
  · obtain rfl : i = t.next := by
      have : i < t.next + 1 := hlt
      omega
    have hc : c ≠ none := by
      have hd : Function.update t.data t.next c t.next ≠ none := hd
      rwa [Function.update_self] at hd
    show Function.update t.parent t.next (min e t.next) t.next ≠ d
    rw [Function.update_self, Nat.min_eq_left (Nat.le_of_lt he)]
    exact h hc

end Inodes
