import TFProtocol.Lib.InodeTrees
import TFProtocol.Patterns

/-!
# Removing a directory with everything in it

`rmr` lists what is below a path and removes it from the last entry to the first, with
`rmdir` and then `unlink`, but passes over what has the string it was given in its path.  It
tests afterwards whether something is still there: a path that was passed over is tested with
a separator at its end, which finds directories only.

## Main definitions

* `rmrRet` — `rmr` with the value it returns.
* `keeps` — what has to stay: what has the string in its path, and the directories above it.
* `RemovesExactly` — everything else is gone, and the value says whether something stayed.
* `RmrOk` — the inputs on which that is so.
* `TokenNamed` — the token of `RMSECDIR` is the name of something in the directory.

## Main results

* `rmr_exact_iff` — **when exactly what should go is removed.**
* `rmdir_reports_success` — a file that stays and is not reported.
* `rmsecdir_named_iff` — **when a removal needs the token.**
* `rmsecdir_empty_token` — an empty token.
-/

namespace TFProtocol

open Bytes CStr

/-- `rmr(path, excl)`: the tree, and whether it returns `-1`. -/
def rmrRet (deny : List Byte → Bool) (excl : Option (List Byte)) (t : FileTree)
    (path : List Byte) : FileTree × Bool :=
  (path :: listdir t path).reverse.foldl
    (fun x p =>
      let u := rmrStep deny excl x.1 p
      -- the separator is still there if the path was passed over
      (u, x.2 || (treeFs u).access (if spared excl p then p ++ [slash] else p)))
    (t, false)

theorem rmrRet_fst (deny : List Byte → Bool) (excl : Option (List Byte)) (t : FileTree)
    (path : List Byte) : (rmrRet deny excl t path).1 = rmr deny excl t path :=
  (List.foldl_hom Prod.fst fun _ _ => rfl).symm

/-- A system that refuses nothing. -/
def free : List Byte → Bool := fun _ => false

/-- What has to stay below a path, as names from there on: what has the string in its path,
and the directories above it. -/
def keeps (excl : Option (List Byte)) (t : FileTree) (path : List Byte) (ns : List DirName) :
    Bool :=
  Inodes.kept ([] :: found t path) (fun ms => spared excl (below path ms)) ns

/-- Nothing is left of what a path led to: neither the path nor the entry. -/
structure Gone (t u : FileTree) (p : List Byte) : Prop where
  path : node u p = none
  entry : ∀ f n i, node t p = some i → t.entry f n = some i →
    t.isDir i = true ∨ fileSlot t p = some (f, n) → u.entry f n = none

/-- What stays and what goes is as it should be, nothing else changes, and `-1` says that
something is still there. -/
structure RemovesExactly (t : FileTree) (excl : Option (List Byte)) (path : List Byte) : Prop where
  stays : ∀ ns ∈ [] :: found t path, keeps excl t path ns = true →
    node (rmrRet free excl t path).1 (below path ns) = node t (below path ns)
  goes : ∀ ns ∈ [] :: found t path, keeps excl t path ns = false →
    Gone t (rmrRet free excl t path).1 (below path ns)
  rest : ∀ f n, (∀ ns ∈ [] :: found t path, keeps excl t path ns = false →
      slot t (below path ns) ≠ some (f, n)) →
    (rmrRet free excl t path).1.entry f n = t.entry f n
  ret : (rmrRet free excl t path).2 = true ↔
    ∃ ns ∈ [] :: found t path, (treeFs (rmrRet free excl t path).1).access (below path ns) = true

/-- The path is not that of a file to be spared.  If it is that of a directory, it ends in a
name and does not lead through an entry below itself, unless that has to stay anyway. -/
structure RmrOk (t : FileTree) (excl : Option (List Byte)) (path : List Byte) : Prop where
  file : isReg t path = true → spared excl path = false
  name : dirAt t path ≠ none → slot t path = none → keeps excl t path [] = true
  route : ∀ ns ∈ found t path, ∀ x ∈ t.route 0 (compSteps path),
    slot t (below path ns) = some x → keeps excl t path ns = true

variable {t u : FileTree} {p path : List Byte} {e f : ℕ} {n : DirName}
  {excl : Option (List Byte)} {ns ms : List DirName}

/-! ### Names and strings -/

theorem below_nil (p : List Byte) : below p [] = p := by simp [below]

theorem below_concat (p : List Byte) (ms : List DirName) (n : DirName) :
    below p (ms ++ [n]) = below p ms ++ slash :: n.val := by simp [below]

theorem slot_append (t : FileTree) (a : List Byte) (n : DirName) :
    slot t (a ++ slash :: n.val) = (dirAt t a).map fun e => (e, n) := by
  unfold slot
  rw [stripSlashes_of_not_trailing (trailing_append a n), lastSlash_append]
  simp [dirName?_val]

theorem slot_concat_slash (t : FileTree) (p : List Byte) : slot t (p ++ [slash]) = slot t p := by
  have hstrip : stripSlashes (p ++ [slash]) = stripSlashes p := by
    unfold stripSlashes
    rw [List.reverse_concat, List.dropWhile_cons_of_pos (by simp)]
  unfold slot
  rw [hstrip]

/-- What names below a directory stand for. -/
theorem slot_below (hp : dirAt t p = some e) (hne : ns ≠ []) :
    slot t (below p ns) = t.place e ns := by
  obtain ⟨ms, n, rfl⟩ := (List.eq_nil_or_concat' ns).resolve_left hne
  rw [below_concat, slot_append, dirAt_below, hp, Inodes.place_concat]
  rfl

theorem fileSlot_below_eq (hne : ns ≠ []) : fileSlot t (below p ns) = slot t (below p ns) := by
  obtain ⟨ms, n, rfl⟩ := (List.eq_nil_or_concat' ns).resolve_left hne
  rw [fileSlot, below_concat, trailing_append]
  rfl

/-- What a path with a name at its end leads to. -/
theorem dirAt_of_slot (h : slot t p = some (e, n)) : dirAt t p = (t.entry e n).filter t.isDir := by
  obtain ⟨a, ha, he⟩ := slot_eq_some h
  rw [← dirAt_stripSlashes, ha, dirAt_concat_name he]

theorem node_of_slot (h : slot t p = some (e, n)) (hname : trailing p = false) :
    node t p = t.entry e n := by
  have hfile : fileSlot t p = some (e, n) := by
    rw [fileSlot, hname]
    exact h
  unfold node
  rw [dirAt_of_slot h, hfile, Option.bind_some]
  cases t.entry e n with
  | none => rfl
  | some i =>
    by_cases hi : t.isDir i = true
    · rw [Option.filter_some_pos hi]
    · rw [Option.filter_some_neg (by simpa using hi)]

theorem trailing_below (hne : ns ≠ []) : trailing (below p ns) = false := by
  obtain ⟨ms, n, rfl⟩ := (List.eq_nil_or_concat' ns).resolve_left hne
  rw [below_concat]
  exact trailing_append _ _

theorem isDir_of_dirAt (h : dirAt t p = some e) : t.isDir e = true :=
  Option.isNone_iff_eq_none.mpr (Inodes.walk_lt t.root_lt t.root_dir h).2

/-- What names below a directory lead to. -/
theorem node_below_eq (hp : dirAt t p = some e) (ns : List DirName) :
    node t (below p ns) = t.find e ns := by
  have he := isDir_of_dirAt hp
  rcases List.eq_nil_or_concat' ns with rfl | ⟨ms, n, rfl⟩
  · rw [below_nil, node, hp]
    rfl
  · have hne : ms ++ [n] ≠ [] := by simp
    have hslot := slot_below hp hne
    rw [Inodes.place_concat] at hslot
    cases hf : t.walk e (ms.map .name) with
    | none =>
      rw [hf] at hslot
      have hdir : dirAt t (below p ms) = none := by
        rw [dirAt_below, hp]
        exact hf
      have hnone : t.find e (ms ++ [n]) = none := by
        by_contra hfind
        obtain ⟨i, hi⟩ := Option.ne_none_iff_exists'.mp hfind
        obtain ⟨f, hf', -⟩ := (Inodes.find_concat_iff he).mp hi
        rw [hf] at hf'
        cases hf'
      rw [node, dirAt_below, hp, Option.bind_some, List.map_append, Inodes.walk_append, hf,
        fileSlot_below_eq hne, hslot, hnone]
      rfl
    | some f =>
      rw [hf] at hslot
      rw [node_of_slot hslot (trailing_below hne), Inodes.find_append]
      obtain ⟨hfind, hdir⟩ := Inodes.find_of_walk he hf
      rw [hfind, Option.bind_some, Inodes.find_singleton hdir]

/-! ### One turn of the loop -/

theorem slot_of_fileSlot (h : fileSlot t p = some (e, n)) : slot t p = some (e, n) := by
  unfold fileSlot at h
  split at h
  · cases h
  · exact h

/-- There is nothing to unlink where the entry is gone. -/
theorem unlink_of_entry_none {v : FileTree} (hsub : Inodes.Sub v u) (hslot : slot u p = some (f, n))
    (hnone : v.entry f n = none) : unlink free v p = v := by
  unfold unlink
  split
  · rfl
  · next f' n' hv =>
    have heq := slot_of_dirsIn hsub.dirsIn (slot_of_fileSlot hv)
    rw [hslot] at heq
    obtain ⟨rfl, rfl⟩ : f = f' ∧ n = n' := by simpa using heq
    rw [hnone]

theorem rmrStep_of_spared (hspared : spared excl p = true) : rmrStep free excl u p = u := by
  rw [rmrStep, hspared, if_pos rfl]

/-- What one turn takes away: an empty directory or a file. -/
theorem rmrStep_eq (hspared : spared excl p = false) :
    rmrStep free excl u p =
      match slot u p with
      | none => u
      | some (f, n) =>
        match u.entry f n with
        | none => u
        | some i =>
          if u.isDir i then if (u.dir i).isEmpty then u.remove f n else u
          else if trailing p then u else u.remove f n := by
  rw [rmrStep, hspared, if_neg Bool.false_ne_true]
  cases hslot : slot u p with
  | none =>
    have hrm : rmdir free u (p ++ [slash]) = u := by rw [rmdir, slot_concat_slash, hslot]
    have hfile : fileSlot u p = none := by
      rw [fileSlot, hslot]
      split <;> rfl
    rw [hrm, unlink, hfile]
  | some x =>
    obtain ⟨f, n⟩ := x
    cases hentry : u.entry f n with
    | none =>
      have hrm : rmdir free u (p ++ [slash]) = u := by
        rw [rmdir, slot_concat_slash, hslot]
        simp only [hentry]
      rw [hrm, unlink_of_entry_none (.refl u) hslot hentry]
      simp only [hentry]
    | some i =>
      have hrm : rmdir free u (p ++ [slash]) =
          if u.isDir i && (u.dir i).isEmpty then u.remove f n else u := by
        rw [rmdir, slot_concat_slash, hslot]
        simp [hentry, free]
      have hgone : (u.remove f n).entry f n = none := by
        rw [Inodes.entry_remove, if_pos ⟨rfl, rfl⟩]
      simp only [hentry]
      rw [hrm]
      cases hdir : u.isDir i with
      | true =>
        cases hempty : (u.dir i).isEmpty with
        | true =>
          simpa using unlink_of_entry_none (Inodes.sub_remove f n) hslot hgone
        | false =>
          rw [Bool.and_false, if_neg Bool.false_ne_true, unlink, fileSlot, hslot]
          cases trailing p <;> simp [hentry, hdir]
      | false =>
        rw [Bool.false_and, if_neg Bool.false_ne_true, unlink, fileSlot, hslot]
        cases trailing p <;> simp [hentry, hdir, free]

theorem rmrStep_cases (excl : Option (List Byte)) (u : FileTree) (p : List Byte) :
    rmrStep free excl u p = u ∨ ∃ f n, slot u p = some (f, n) ∧ u.entry f n ≠ none ∧
      rmrStep free excl u p = u.remove f n := by
  cases hsp : spared excl p with
  | true => exact Or.inl (rmrStep_of_spared hsp)
  | false =>
    rw [rmrStep_eq hsp]
    split
    · exact Or.inl rfl
    · next f n hslot =>
      split
      · exact Or.inl rfl
      · next i hi =>
        have hne : u.entry f n ≠ none := by
          rw [hi]
          exact Option.some_ne_none i
        split
        · split
          · exact Or.inr ⟨f, n, hslot, hne, rfl⟩
          · exact Or.inl rfl
        · split
          · exact Or.inl rfl
          · exact Or.inr ⟨f, n, hslot, hne, rfl⟩

/-- A turn that takes an entry away is the one whose path names it. -/
theorem rmrStep_of_gone {g : ℕ} {m : DirName} (hentry : u.entry g m = some e)
    (hgone : (rmrStep free excl u p).entry g m = none) :
    slot u p = some (g, m) ∧ rmrStep free excl u p = u.remove g m := by
  rcases rmrStep_cases excl u p with heq | ⟨f, n, hslot, -, heq⟩
  · rw [heq, hentry] at hgone
    cases hgone
  · rw [heq, Inodes.entry_remove] at hgone
    split at hgone
    · next hfn =>
      obtain ⟨rfl, rfl⟩ := hfn
      exact ⟨hslot, heq⟩
    · rw [hentry] at hgone
      cases hgone

/-- One turn for an entry below the path. -/
theorem rmrStep_below (hspared : spared excl (below path ns) = false) (hp : dirAt u path = some e)
    (hne : ns ≠ []) : rmrStep free excl u (below path ns) = u.dropAt e ns := by
  rw [rmrStep_eq hspared, slot_below hp hne, trailing_below hne, Inodes.Tree.dropAt]
  cases u.place e ns with
  | none => rfl
  | some x =>
    simp only
    cases u.entry x.1 x.2 with
    | none => rfl
    | some i =>
      simp only
      cases u.isDir i <;> cases (u.dir i).isEmpty <;> rfl

theorem sub_rmrStep {deny : List Byte → Bool} : Inodes.Sub (rmrStep deny excl u p) u := by
  unfold rmrStep
  split
  · exact .refl u
  · exact (sub_unlink p).trans (sub_rmdir _)

/-- A path that leads somewhere still ends in the same entry. -/
theorem slot_of_sub {v : FileTree} (hsub : Inodes.Sub v t) (hslot : slot t p = some (f, n))
    (hp : dirAt v p ≠ none) : slot v p = some (f, n) := by
  obtain ⟨a, ha, hf⟩ := slot_eq_some hslot
  have hstrip : slot v p = slot v (a ++ slash :: n.val) := by
    unfold slot
    rw [ha, stripSlashes_of_not_trailing (trailing_append a n)]
  rw [hstrip, slot_append]
  cases hv : dirAt v a with
  | none =>
    rw [← dirAt_stripSlashes, ha, dirAt_append, hv] at hp
    exact absurd rfl hp
  | some f' =>
    obtain rfl : f' = f := Option.some.inj ((dirAt_of_dirsIn hsub.dirsIn hv).symm.trans hf)
    rfl

/-- A path whose entry is taken away leads nowhere. -/
theorem node_removeAll {l : List (ℕ × DirName)} {x : ℕ × DirName} (hslot : slot t p = some x)
    (hx : x ∈ l) : node (t.removeAll l) p = none := by
  have hsub := Inodes.sub_removeAll (t := t) l
  have hgone : (t.removeAll l).entry x.1 x.2 = none := by rw [Inodes.entry_removeAll, if_pos hx]
  have hdir : dirAt (t.removeAll l) p = none := by
    by_contra hne
    have h := dirAt_of_slot (slot_of_sub hsub hslot hne)
    rw [hgone] at h
    exact hne h
  unfold node
  rw [hdir]
  cases hfile : fileSlot (t.removeAll l) p with
  | none => rfl
  | some y =>
    have h := slot_of_dirsIn hsub.dirsIn (slot_of_fileSlot hfile)
    obtain rfl : x = y := Option.some.inj (hslot.symm.trans h)
    exact hgone

/-! ### The loop -/

/-- One turn of the loop, with the test behind it. -/
def rmrTurn (excl : Option (List Byte)) (path : List Byte) (ns : List DirName)
    (x : FileTree × Bool) : FileTree × Bool :=
  let u := rmrStep free excl x.1 (below path ns)
  (u, x.2 || (treeFs u).access
    (if spared excl (below path ns) then below path ns ++ [slash] else below path ns))

theorem rmrRet_eq (excl : Option (List Byte)) (t : FileTree) (path : List Byte) :
    rmrRet free excl t path =
      rmrTurn excl path [] ((found t path).foldr (rmrTurn excl path) (t, false)) := by
  have hlist : path :: listdir t path = ([] :: found t path).map (below path) := by
    rw [List.map_cons, below_nil]
    rfl
  rw [rmrRet, hlist, List.foldl_reverse, List.foldr_map]
  rfl

theorem rmrRet_snd (excl : Option (List Byte)) (t : FileTree) (path : List Byte) :
    (rmrRet free excl t path).2 =
      (((found t path).foldr (rmrTurn excl path) (t, false)).2 ||
        (treeFs (rmrRet free excl t path).1).access
          (if spared excl path then path ++ [slash] else path)) := by
  rw [rmrRet_eq]
  simp only [rmrTurn, below_nil]

theorem keeps_of_ne_nil (hne : ns ≠ []) :
    keeps excl t path ns =
      Inodes.kept (found t path) (fun ms => spared excl (below path ms)) ns := by
  unfold keeps Inodes.kept
  rw [List.any_cons]
  simp [hne]

theorem keeps_nil : keeps excl t path [] =
    (spared excl path || Inodes.kept (found t path) (fun ms => spared excl (below path ms)) []) := by
  unfold keeps Inodes.kept
  rw [List.any_cons]
  simp [below_nil]

/-- What is above something that stays stays. -/
theorem keeps_mono (h : ms <+: ns) (hns : keeps excl t path ns = true) :
    keeps excl t path ms = true := by
  obtain ⟨l, hl, hpre, hsp⟩ := Inodes.kept_iff.mp hns
  exact Inodes.kept_iff.mpr ⟨l, hl, h.trans hpre, hsp⟩

section Directory

variable (ht : Inodes.Proper t) (hfin : Inodes.FiniteAt t e) (hdir : dirAt t path = some e)

/-- The places of what goes, among some of what is listed. -/
def gonePlaces (t : FileTree) (excl : Option (List Byte)) (path : List Byte) (e : ℕ)
    (l : List (List DirName)) : List (ℕ × DirName) :=
  Inodes.goners t e (fun ms => spared excl (below path ms)) (found t path) l

include hdir in
theorem found_eq : found t path = t.below t.next e := by
  rw [found, hdir]

include hdir in
theorem ne_nil_of_mem_found (h : ns ∈ found t path) : ns ≠ [] := by
  rw [found_eq hdir] at h
  exact Inodes.ne_nil_of_mem_below h

include ht hfin hdir in
theorem mem_found_iff : ns ∈ found t path ↔ ns ≠ [] ∧ t.find e ns ≠ none := by
  rw [found_eq hdir]
  exact Inodes.mem_below_next ht hfin (dirAt_lt hdir) (isDir_of_dirAt hdir)

include hdir in
theorem mem_gonePlaces {l : List (List DirName)} (hl : ∀ ns ∈ l, ns ∈ found t path)
    {x : ℕ × DirName} : x ∈ gonePlaces t excl path e l ↔
      ∃ ns ∈ l, keeps excl t path ns = false ∧ slot t (below path ns) = some x := by
  rw [gonePlaces, Inodes.mem_goners]
  refine exists_congr fun ns => and_congr_right fun hns => ?_
  have hne := ne_nil_of_mem_found hdir (hl ns hns)
  rw [keeps_of_ne_nil hne, slot_below hdir hne]

variable (hroute : ∀ ns ∈ found t path, ∀ x ∈ t.route 0 (compSteps path),
  slot t (below path ns) = some x → keeps excl t path ns = true)

include hdir hroute in
/-- The path leads to the directory as long as only what should go is gone. -/
theorem dirAt_removeAll {l : List (List DirName)} (hl : ∀ ns ∈ l, ns ∈ found t path) :
    dirAt (t.removeAll (gonePlaces t excl path e l)) path = some e := by
  show (t.removeAll _).walk 0 (compSteps path) = some e
  rw [Inodes.walk_removeAll _ hdir, if_pos]
  intro x hx hgone
  obtain ⟨ns, hns, hkept, hslot⟩ := (mem_gonePlaces hdir hl).mp hgone
  rw [hroute ns (hl ns hns) x hx hslot] at hkept
  cases hkept

include ht hfin hdir hroute in
/-- The tree when the loop has come to some entry. -/
theorem foldr_rmrTurn : ∀ (B : List (List DirName)) {A : List (List DirName)},
    found t path = A ++ B →
      (B.foldr (rmrTurn excl path) (t, false)).1 = t.removeAll (gonePlaces t excl path e B) := by
  have hlib (B : List (List DirName)) {A : List (List DirName)} (hsplit : found t path = A ++ B) :
      B.foldr (fun ns u => if spared excl (below path ns) then u else u.dropAt e ns) t =
        t.removeAll (gonePlaces t excl path e B) := by
    have hbelow := found_eq hdir
    have h : _ = t.removeAll (Inodes.goners t e (fun ms => spared excl (below path ms)) _ B) :=
      Inodes.foldr_dropAt ht hfin (dirAt_lt hdir) (isDir_of_dirAt hdir) B (hbelow.symm.trans hsplit)
    rwa [← hbelow] at h
  intro B
  induction B with
  | nil => intro A _; rfl
  | cons ns B ih =>
    intro A hsplit
    have hB : found t path = (A ++ [ns]) ++ B := by simpa using hsplit
    have hin : ∀ ms ∈ ns :: B, ms ∈ found t path := by
      intro ms hms
      rw [hsplit]
      exact List.mem_append_right _ hms
    have hturn := hlib (ns :: B) hsplit
    rw [List.foldr_cons, hlib B hB] at hturn
    rw [List.foldr_cons]
    show rmrStep free excl (B.foldr (rmrTurn excl path) (t, false)).1 (below path ns) = _
    rw [ih hB, ← hturn]
    cases hsp : spared excl (below path ns) with
    | true => rw [rmrStep_of_spared hsp, if_pos rfl]
    | false =>
      rw [if_neg Bool.false_ne_true]
      refine rmrStep_below hsp (dirAt_removeAll hdir hroute fun ms hms => ?_) ?_
      · exact hin ms (List.mem_cons_of_mem _ hms)
      · exact ne_nil_of_mem_found hdir (hin ns List.mem_cons_self)

include ht hfin hdir in
/-- When everything that should go is gone from a directory, it is empty if it should go
itself. -/
theorem isEmpty_removeAll (hspared : spared excl path = false) :
    ((t.removeAll (gonePlaces t excl path e (found t path))).dir e).isEmpty =
      !keeps excl t path [] := by
  have he := isDir_of_dirAt hdir
  have hkept : keeps excl t path [] = true ↔
      ∃ y ∈ t.dir e, keeps excl t path [y.1] = true := by
    rw [keeps_nil, hspared, Bool.false_or, found_eq hdir]
    simp only [keeps_of_ne_nil (List.cons_ne_nil _ []), found_eq hdir]
    exact Inodes.kept_dir_iff ht hfin (dirAt_lt hdir) he (show t.find e [] = some e from rfl) he
      (by simpa only [below_nil] using hspared)
  rw [Bool.eq_iff_iff, Bool.not_eq_true', ← Bool.not_eq_true, hkept, List.isEmpty_iff,
    List.eq_nil_iff_forall_not_mem, not_exists]
  refine forall_congr' fun y => ?_
  rw [Inodes.mem_dir_removeAll, not_and, not_and, not_not]
  refine imp_congr_right fun hy => ?_
  have hplace : t.place e [y.1] = some (e, y.1) := rfl
  have hin : [y.1] ∈ found t path := by
    refine (mem_found_iff ht hfin hdir).mpr ⟨List.cons_ne_nil _ _, ?_⟩
    rw [Inodes.find_singleton he, ht.entry_eq.mpr hy]
    exact Option.some_ne_none _
  rw [gonePlaces, Inodes.place_mem_goners ht hfin he hplace, and_iff_right hin,
    keeps_of_ne_nil (List.cons_ne_nil _ _), Bool.not_eq_true]

include ht hfin hdir hroute in
/-- The tree that is left. -/
theorem rmrRet_tree (hname : slot t path = none → keeps excl t path [] = true) :
    (keeps excl t path [] = true ∧
      (rmrRet free excl t path).1 = t.removeAll (gonePlaces t excl path e (found t path))) ∨
    (keeps excl t path [] = false ∧ ∃ x, slot t path = some x ∧ t.entry x.1 x.2 = some e ∧
      (rmrRet free excl t path).1 = t.removeAll (x :: gonePlaces t excl path e (found t path))) := by
  have htree := foldr_rmrTurn ht hfin hdir hroute (found t path) (A := []) rfl
  have hat := dirAt_removeAll hdir hroute (l := found t path) fun _ h => h
  have hret : (rmrRet free excl t path).1 =
      rmrStep free excl (t.removeAll (gonePlaces t excl path e (found t path))) path := by
    rw [rmrRet_eq, ← htree]
    show rmrStep free excl _ (below path []) = _
    rw [below_nil]
  cases hsp : spared excl path with
  | true =>
    refine Or.inl ⟨by rw [keeps_nil, hsp]; rfl, ?_⟩
    rw [hret, rmrStep_of_spared hsp]
  | false =>
    have hempty := isEmpty_removeAll ht hfin hdir hsp
    have hsub := Inodes.sub_removeAll (t := t) (gonePlaces t excl path e (found t path))
    rw [rmrStep_eq hsp] at hret
    cases hslot : slot t path with
    | none =>
      refine Or.inl ⟨hname hslot, ?_⟩
      have hnone : slot (t.removeAll (gonePlaces t excl path e (found t path))) path = none := by
        by_contra hne
        obtain ⟨x, hx⟩ := Option.ne_none_iff_exists'.mp hne
        rw [slot_of_dirsIn hsub.dirsIn hx] at hslot
        cases hslot
      rw [hret, hnone]
    | some x =>
      have hslot' := slot_of_sub hsub hslot (by rw [hat]; exact Option.some_ne_none e)
      have hentry' := (Option.filter_eq_some_iff.mp ((dirAt_of_slot hslot').symm.trans hat)).1
      have hentry := hsub.entry _ _ _ hentry'
      rw [hslot'] at hret
      simp only [hentry', Inodes.isDir_removeAll, isDir_of_dirAt hdir, if_true, hempty] at hret
      cases hkept : keeps excl t path [] with
      | true => exact Or.inl ⟨rfl, by simpa [hkept] using hret⟩
      | false =>
        rw [hkept, Bool.not_false, if_pos rfl] at hret
        exact Or.inr ⟨rfl, x, rfl, hentry, hret⟩

/-- Everything that goes is gone when the places of it are taken away. -/
theorem gone_removeAll (ht : Inodes.Proper t) {l : List (ℕ × DirName)} {x : ℕ × DirName} {i : ℕ}
    (hslot : slot t p = some x) (hentry : t.entry x.1 x.2 = some i) (hnode : node t p = some i)
    (hx : x ∈ l) : Gone t (t.removeAll l) p := by
  refine ⟨node_removeAll hslot hx, fun f n j hj hfn hkind => ?_⟩
  obtain rfl : i = j := Option.some.inj (hnode.symm.trans hj)
  obtain rfl : x = (f, n) := by
    rcases hkind with hdir | hfile
    · obtain rfl : x.1 = f := (ht.parent _ _ _ hentry hdir).symm.trans (ht.parent _ _ _ hfn hdir)
      rw [← ht.single _ _ _ _ hentry hfn hdir]
    · exact Option.some.inj (hslot.symm.trans (slot_of_fileSlot hfile))
  rw [Inodes.entry_removeAll, if_pos hx]

include ht hfin hdir in
/-- The entry that listed names stand for. -/
theorem exists_entry_of_mem_found (hns : ns ∈ found t path) : ∃ x i,
    slot t (below path ns) = some x ∧ t.entry x.1 x.2 = some i ∧
      node t (below path ns) = some i := by
  obtain ⟨hne, hfind⟩ := (mem_found_iff ht hfin hdir).mp hns
  obtain ⟨i, hi⟩ := Option.ne_none_iff_exists'.mp hfind
  have hnode : node t (below path ns) = some i := (node_below_eq hdir ns).trans hi
  obtain ⟨ms, n, rfl⟩ := (List.eq_nil_or_concat' ns).resolve_left hne
  obtain ⟨f, hf, hn⟩ := (Inodes.find_concat_iff (isDir_of_dirAt hdir)).mp hi
  refine ⟨(f, n), i, ?_, hn, hnode⟩
  rw [slot_below hdir hne, Inodes.place_concat, hf]
  rfl

theorem keeps_of_spared (hns : ns ∈ [] :: found t path)
    (h : spared excl (below path ns) = true) : keeps excl t path ns = true :=
  Inodes.kept_iff.mpr ⟨ns, hns, List.prefix_rfl, h⟩

include ht hfin hdir hroute in
/-- No test finds anything when nothing has to stay. -/
theorem foldr_rmrTurn_snd (hnone : keeps excl t path [] = false) :
    ∀ (B : List (List DirName)) {A : List (List DirName)}, found t path = A ++ B →
      (B.foldr (rmrTurn excl path) (t, false)).2 = false := by
  intro B
  induction B with
  | nil => intro A _; rfl
  | cons ns B ih =>
    intro A hsplit
    have hin : ∀ ms ∈ ns :: B, ms ∈ found t path := by
      intro ms hms
      rw [hsplit]
      exact List.mem_append_right _ hms
    have hkept : keeps excl t path ns = false := by
      rw [Bool.eq_false_iff]
      intro hms
      rw [keeps_mono List.nil_prefix hms] at hnone
      cases hnone
    have hns := hin ns List.mem_cons_self
    have hsp : spared excl (below path ns) = false := by
      rw [Bool.eq_false_iff]
      intro h
      rw [keeps_of_spared (List.mem_cons_of_mem _ hns) h] at hkept
      cases hkept
    obtain ⟨x, i, hslot, -, -⟩ := exists_entry_of_mem_found ht hfin hdir hns
    have hx : x ∈ gonePlaces t excl path e (ns :: B) :=
      (mem_gonePlaces hdir hin).mpr ⟨ns, List.mem_cons_self, hkept, hslot⟩
    have htree := foldr_rmrTurn ht hfin hdir hroute (ns :: B) hsplit
    have hacc : (treeFs (t.removeAll (gonePlaces t excl path e (ns :: B)))).access
        (below path ns) = false := by
      show (node _ _).isSome = false
      rw [node_removeAll hslot hx]
      rfl
    rw [← htree, List.foldr_cons] at hacc
    rw [List.foldr_cons]
    show ((B.foldr (rmrTurn excl path) (t, false)).2 || (treeFs _).access _) = false
    rw [ih (A := A ++ [ns]) (by simpa using hsplit), Bool.false_or, hsp]
    exact hacc

include ht hfin hdir in
/-- What stays is reached as before. -/
theorem node_removeAll_of_keeps (hat : dirAt (t.removeAll (gonePlaces t excl path e
      (found t path))) path = some e) (hns : keeps excl t path ns = true) :
    node (t.removeAll (gonePlaces t excl path e (found t path))) (below path ns) =
      node t (below path ns) := by
  rw [node_below_eq hat, node_below_eq hdir]
  refine Inodes.find_removeAll (isDir_of_dirAt hdir) fun ps hpre x hx hgone => ?_
  have hkept := ((Inodes.place_mem_goners ht hfin (isDir_of_dirAt hdir) hx).mp hgone).2
  have hne : ps ≠ [] := by
    rintro rfl
    cases hx
  rw [← keeps_of_ne_nil hne, keeps_mono hpre hns] at hkept
  cases hkept

theorem access_of_dirAt {v : FileTree} (h : dirAt v p = some e) :
    (treeFs v).access p = true ∧ (treeFs v).access (p ++ [slash]) = true := by
  have h' : dirAt v (p ++ [slash]) = some e := by rw [dirAt_concat_slash, h]
  constructor
  · show (node v p).isSome = true
    rw [node, h]
    rfl
  · show (node v (p ++ [slash])).isSome = true
    rw [node, h']
    rfl

include ht hfin hdir in
/-- The places of what goes are those that are taken away. -/
theorem removesExactly_of_places {l : List (ℕ × DirName)}
    (htree : (rmrRet free excl t path).1 = t.removeAll l)
    (hstays : ∀ ns, keeps excl t path ns = true →
      node (t.removeAll l) (below path ns) = node t (below path ns))
    (hl : ∀ x, x ∈ l ↔ ∃ ns ∈ [] :: found t path, keeps excl t path ns = false ∧
      slot t (below path ns) = some x)
    (hself : keeps excl t path [] = false → ∃ x, slot t path = some x ∧ t.entry x.1 x.2 = some e)
    (hret : (rmrRet free excl t path).2 = keeps excl t path []) :
    RemovesExactly t excl path := by
  have hgoes : ∀ ns ∈ [] :: found t path, keeps excl t path ns = false →
      Gone t (t.removeAll l) (below path ns) := by
    intro ns hns hkept
    rcases List.mem_cons.mp hns with rfl | hmem
    · obtain ⟨x, hslot, hentry⟩ := hself hkept
      have hnode : node t (below path []) = some e := by
        rw [node_below_eq hdir]
        rfl
      rw [← below_nil path] at hslot
      exact gone_removeAll ht hslot hentry hnode ((hl x).mpr ⟨[], hns, hkept, hslot⟩)
    · obtain ⟨x, i, hslot, hentry, hnode⟩ := exists_entry_of_mem_found ht hfin hdir hmem
      exact gone_removeAll ht hslot hentry hnode ((hl x).mpr ⟨ns, hns, hkept, hslot⟩)
  refine ⟨?_, ?_, ?_, ?_⟩
  · intro ns _ hkept
    rw [htree]
    exact hstays ns hkept
  · intro ns hns hkept
    rw [htree]
    exact hgoes ns hns hkept
  · intro f n hfn
    rw [htree, Inodes.entry_removeAll, if_neg]
    intro hmem
    obtain ⟨ns, hns, hkept, hslot⟩ := (hl (f, n)).mp hmem
    exact hfn ns hns hkept hslot
  · rw [hret, htree]
    constructor
    · intro hkept
      refine ⟨[], List.mem_cons_self, ?_⟩
      show (node _ _).isSome = true
      rw [hstays [] hkept, node_below_eq hdir]
      rfl
    · rintro ⟨ns, hns, hacc⟩
      by_contra hkept
      have hkept' : keeps excl t path ns = false := by
        rw [Bool.eq_false_iff]
        exact fun h => hkept (keeps_mono List.nil_prefix h)
      have hnone : (treeFs (t.removeAll l)).access (below path ns) = false := by
        show (node _ _).isSome = false
        rw [(hgoes ns hns hkept').path]
        rfl
      rw [hnone] at hacc
      cases hacc

include ht hfin hdir in
/-- **Everything that should go is removed**, and nothing else. -/
theorem removesExactly_of_ok (hok : RmrOk t excl path) : RemovesExactly t excl path := by
  have hroute := hok.route
  have hat := dirAt_removeAll hdir hroute (l := found t path) fun _ h => h
  have hfold := foldr_rmrTurn ht hfin hdir hroute (found t path) (A := []) rfl
  have hmem (x : ℕ × DirName) : x ∈ gonePlaces t excl path e (found t path) ↔ _ :=
    mem_gonePlaces hdir fun _ h => h
  rcases rmrRet_tree ht hfin hdir hroute
      (hok.name (by rw [hdir]; exact Option.some_ne_none e)) with
    ⟨hkept, htree⟩ | ⟨hkept, x, hslot, hentry, htree⟩
  · refine removesExactly_of_places ht hfin hdir htree ?_ ?_ ?_ ?_
    · exact fun ns => node_removeAll_of_keeps ht hfin hdir hat
    · intro x
      rw [hmem]
      simp [hkept]
    · intro h
      rw [hkept] at h
      cases h
    · -- the directory itself is found by the last test
      rw [rmrRet_snd, htree, hkept]
      obtain ⟨hacc, hacc'⟩ := access_of_dirAt hat
      cases spared excl path <;> simp [hacc, hacc']
  · refine removesExactly_of_places ht hfin hdir htree ?_ ?_ ?_ ?_
    · intro ns hns
      rw [keeps_mono List.nil_prefix hns] at hkept
      cases hkept
    · intro y
      rw [List.mem_cons, hmem, List.exists_mem_cons_iff, below_nil, hslot, hkept]
      refine or_congr ?_ Iff.rfl
      rw [Option.some_inj, and_iff_right rfl, eq_comm]
    · exact fun _ => ⟨x, hslot, hentry⟩
    · have hsp : spared excl path = false := by
        rw [keeps_nil, Bool.or_eq_false_iff] at hkept
        exact hkept.1
      have hnone := node_removeAll hslot (List.mem_cons_self (a := x)
        (l := gonePlaces t excl path e (found t path)))
      have hacc : (treeFs (t.removeAll (x :: gonePlaces t excl path e (found t path)))).access path =
          false := by
        show (node _ _).isSome = false
        rw [hnone]
        rfl
      rw [rmrRet_snd, foldr_rmrTurn_snd ht hfin hdir hroute hkept (found t path) (A := []) rfl, hsp,
        htree, Bool.false_or, hkept]
      exact hacc

include hfin hdir in
/-- The entry of the directory itself is none of those below it. -/
theorem entry_foldr_rmrTurn {g : ℕ} {m : DirName} (hself : t.entry g m = some e) :
    ∀ B : List (List DirName), (∀ ns ∈ B, ns ∈ found t path) →
      Inodes.Sub (B.foldr (rmrTurn excl path) (t, false)).1 t ∧
        (B.foldr (rmrTurn excl path) (t, false)).1.entry g m = some e := by
  intro B
  induction B with
  | nil => exact fun _ => ⟨.refl t, hself⟩
  | cons ns B ih =>
    intro hB
    obtain ⟨hsub, hentry⟩ := ih fun ns hns => hB ns (List.mem_cons_of_mem _ hns)
    rw [List.foldr_cons]
    show Inodes.Sub (rmrStep free excl _ (below path ns)) t ∧
      (rmrStep free excl _ (below path ns)).entry g m = some e
    generalize (B.foldr (rmrTurn excl path) (t, false)).1 = u at hsub hentry
    refine ⟨sub_rmrStep.trans hsub, ?_⟩
    rcases rmrStep_cases excl u (below path ns) with heq | ⟨f, n, hslot, -, heq⟩
    · rwa [heq]
    · rw [heq, Inodes.entry_remove, if_neg, hentry]
      rintro ⟨rfl, rfl⟩
      have hne := ne_nil_of_mem_found hdir (hB ns List.mem_cons_self)
      have hplace := slot_of_dirsIn hsub.dirsIn hslot
      rw [slot_below hdir hne] at hplace
      obtain ⟨ms, n, rfl⟩ := (List.eq_nil_or_concat' ns).resolve_left hne
      rw [Inodes.place_concat] at hplace
      obtain ⟨f, hf, heq⟩ := Option.map_eq_some_iff.mp hplace
      obtain ⟨rfl, rfl⟩ : f = g ∧ n = m := by simpa using heq
      have hcycle : t.find e (ms ++ [n]) = some e :=
        (Inodes.find_concat_iff (isDir_of_dirAt hdir)).mpr ⟨f, hf, hself⟩
      exact hne (hfin.no_cycle (show t.find e [] = some e from rfl) hcycle)

include hdir in
/-- A path of a directory leads to it or nowhere when only entries are taken away. -/
theorem node_of_sub {v : FileTree} (hsub : Inodes.Sub v t) (hnone : dirAt v path = none) :
    node v path = none := by
  unfold node
  rw [hnone]
  cases hfile : fileSlot v path with
  | none => rfl
  | some x =>
    have hslot := slot_of_fileSlot hfile
    have hslot' := slot_of_dirsIn hsub.dirsIn hslot
    have hentry := (Option.filter_eq_some_iff.mp ((dirAt_of_slot hslot').symm.trans hdir)).1
    show v.entry x.1 x.2 = none
    by_contra hne
    obtain ⟨i, hi⟩ := Option.ne_none_iff_exists'.mp hne
    obtain rfl : e = i := Option.some.inj (hentry.symm.trans (hsub.entry _ _ _ hi))
    have hfilter := dirAt_of_slot hslot
    have he : v.isDir e = true := (hsub.isDir_eq e).trans (isDir_of_dirAt hdir)
    rw [hnone, hi, Option.filter_some_pos he] at hfilter
    cases hfilter

include hfin hdir in
/-- The entry of the directory is still there when its own turn, the last one, comes. -/
theorem exists_before_last {g : ℕ} {m : DirName} (hself : t.entry g m = some e) :
    ∃ u, Inodes.Sub u t ∧ u.entry g m = some e ∧
      (rmrRet free excl t path).1 = rmrStep free excl u path := by
  obtain ⟨hsub, hentry⟩ :
      Inodes.Sub ((found t path).foldr (rmrTurn excl path) (t, false)).1 t ∧ _ :=
    entry_foldr_rmrTurn hfin hdir hself (found t path) fun _ hns => hns
  refine ⟨_, hsub, hentry, ?_⟩
  rw [rmrRet_eq]
  show rmrStep free excl _ (below path []) = _
  rw [below_nil]

include ht hfin hdir in
/-- Where the result is right, the path was fit for it. -/
theorem ok_of_removesExactly (hroot : e ≠ 0) (h : RemovesExactly t excl path) :
    RmrOk t excl path := by
  obtain ⟨g, m, hself⟩ := ht.exists_entry hdir hroot
  have hnode : node t (below path []) = some e := by
    rw [node_below_eq hdir]
    rfl
  obtain ⟨u, hsub, hentry, hret⟩ := exists_before_last hfin hdir hself
  -- if the directory should go, its entry has to be taken away in the last turn
  have hlast (hkept : keeps excl t path [] = false) :
      slot u path = some (g, m) ∧ (rmrRet free excl t path).1 = u.remove g m := by
    have hgone := (h.goes [] List.mem_cons_self hkept).entry g m e hnode hself
      (Or.inl (isDir_of_dirAt hdir))
    rw [hret] at hgone ⊢
    exact rmrStep_of_gone hentry hgone
  refine ⟨?_, ?_, ?_⟩
  · intro hreg
    rw [← below_nil path, isReg, hnode, Option.bind_some] at hreg
    have hdata := Option.isNone_iff_eq_none.mp (isDir_of_dirAt hdir)
    rw [hdata] at hreg
    cases hreg
  · intro _ hslot
    by_contra hkept
    obtain ⟨hu, -⟩ := hlast (by simpa using hkept)
    rw [slot_of_dirsIn hsub.dirsIn hu] at hslot
    cases hslot
  · intro ns hns x hx hslot
    by_contra hkept
    obtain ⟨y, i, hy, hi, hnode'⟩ := exists_entry_of_mem_found ht hfin hdir hns
    obtain rfl : x = y := Option.some.inj (hslot.symm.trans hy)
    have hne := ne_nil_of_mem_found hdir hns
    have hgone := (h.goes ns (List.mem_cons_of_mem _ hns) (by simpa using hkept)).entry x.1 x.2 i
      hnode' hi (Or.inr (by rw [fileSlot_below_eq hne, hslot]))
    have hsub' : Inodes.Sub (rmrRet free excl t path).1 t := by
      rw [hret]
      exact sub_rmrStep.trans hsub
    have hlost : dirAt (rmrRet free excl t path).1 path = none := by
      by_contra hat
      obtain ⟨e', he'⟩ := Option.ne_none_iff_exists'.mp hat
      exact (hsub'.walk he').2 x hx hgone
    cases hkept' : keeps excl t path [] with
    | true =>
      have hstays := h.stays [] List.mem_cons_self hkept'
      rw [hnode, below_nil, node_of_sub hdir hsub' hlost] at hstays
      cases hstays
    | false =>
      obtain ⟨hu, hremove⟩ := hlast hkept'
      have hfilter := dirAt_of_slot hu
      have hat : dirAt u path = some e := by
        rw [hfilter, hentry, Option.filter_some_pos]
        exact (hsub.isDir_eq e).trans (isDir_of_dirAt hdir)
      have hthere := (hsub.walk hat).2 x hx
      rw [hremove, Inodes.entry_remove] at hgone
      split at hgone
      · next hxg =>
        -- the directory would be below itself
        rw [hxg.1, hxg.2, hself] at hi
        obtain rfl := Option.some.inj hi
        rw [node_below_eq hdir] at hnode'
        exact hne (hfin.no_cycle (show t.find e [] = some e from rfl) hnode')
      · exact hthere hgone

end Directory

section File

variable (hnone : dirAt t path = none)

include hnone in
theorem found_of_not_dir : found t path = [] := by rw [found, hnone]

include hnone in
theorem keeps_of_not_dir : keeps excl t path [] = spared excl path := by
  rw [keeps_nil, found_of_not_dir hnone]
  simp [Inodes.kept]

include hnone in
theorem rmrRet_of_not_dir : rmrRet free excl t path =
    (rmrStep free excl t path, (treeFs (rmrStep free excl t path)).access
      (if spared excl path then path ++ [slash] else path)) := by
  rw [rmrRet_eq, found_of_not_dir hnone, List.foldr_nil, rmrTurn, below_nil, Bool.false_or]

include hnone in
theorem isDir_of_not_dir {i : ℕ} (hslot : slot t path = some (f, n)) (hi : t.entry f n = some i) :
    t.isDir i = false := by
  by_contra hne
  have hdir := dirAt_of_slot hslot
  rw [hnone, hi, Option.filter_some_pos (by simpa using hne)] at hdir
  cases hdir

include hnone in
theorem exists_fileSlot_of_node {i : ℕ} (hnode : node t path = some i) :
    ∃ x, fileSlot t path = some x ∧ t.entry x.1 x.2 = some i := by
  rw [node, hnone] at hnode
  exact Option.bind_eq_some_iff.mp hnode

include hnone in
/-- With a slash behind it only a directory is found. -/
theorem node_concat_slash_of_not_dir : node t (path ++ [slash]) = none := by
  rw [node, dirAt_concat_slash, hnone, fileSlot]
  simp [trailing]

include hnone in
theorem rmrStep_of_node_none (hnode : node t path = none) : rmrStep free excl t path = t := by
  cases hsp : spared excl path with
  | true => exact rmrStep_of_spared hsp
  | false =>
    rw [rmrStep_eq hsp]
    split
    · rfl
    · next f n hslot =>
      split
      · rfl
      · next i hi =>
        have hfile := isDir_of_not_dir hnone hslot hi
        have htr : trailing path = true := by
          by_contra htr
          rw [node_of_slot hslot (by simpa using htr), hi] at hnode
          cases hnode
        rw [hfile, htr, if_neg Bool.false_ne_true, if_pos rfl]

include hnone in
/-- A path that leads nowhere. -/
theorem removesExactly_of_node_none (hnode : node t path = none) : RemovesExactly t excl path := by
  have hret : rmrRet free excl t path = _ := rmrRet_of_not_dir hnone
  rw [rmrStep_of_node_none hnone hnode] at hret
  have hsnd : (rmrRet free excl t path).2 = false := by
    rw [hret]
    show (node t _).isSome = false
    split
    · rw [node_concat_slash_of_not_dir hnone]
      rfl
    · rw [hnode]
      rfl
  refine ⟨?_, ?_, ?_, ?_⟩
  · intro ns _ _
    rw [hret]
  · intro ns hns _
    rw [found_of_not_dir hnone, List.mem_singleton] at hns
    subst hns
    rw [hret, below_nil]
    refine ⟨hnode, fun f n i hi _ _ => ?_⟩
    rw [hnode] at hi
    cases hi
  · intro f n _
    rw [hret]
  · rw [hsnd, found_of_not_dir hnone, hret]
    simp [below_nil, treeFs, hnode]

include hnone in
/-- A regular file is removed unless it is to be spared; in that case it stays, and the test
does not find it. -/
theorem removesExactly_file_iff (ht : Inodes.Proper t) {i : ℕ} (hnode : node t path = some i) :
    RemovesExactly t excl path ↔ spared excl path = false := by
  obtain ⟨x, hfile, hi⟩ := exists_fileSlot_of_node hnone hnode
  have hslot := slot_of_fileSlot hfile
  have htr : trailing path = false := by
    by_contra htr
    rw [fileSlot, if_pos (by simpa using htr)] at hfile
    cases hfile
  have hreg := isDir_of_not_dir hnone hslot hi
  have hret : rmrRet free excl t path = _ := rmrRet_of_not_dir hnone
  constructor
  · intro h
    by_contra hsp
    have hsp : spared excl path = true := by simpa using hsp
    have hstep : rmrStep free excl t path = t := rmrStep_of_spared hsp
    have hsnd := h.ret.mpr ⟨[], List.mem_cons_self, by
      rw [hret, hstep, below_nil]
      show (node t path).isSome = true
      rw [hnode]
      rfl⟩
    rw [hret, hstep, hsp, if_pos rfl] at hsnd
    rw [show (treeFs t).access (path ++ [slash]) = false by
      show (node t _).isSome = false
      rw [node_concat_slash_of_not_dir hnone]
      rfl] at hsnd
    cases hsnd
  · intro hsp
    have hstep : rmrStep free excl t path = t.removeAll [x] := by
      rw [rmrStep_eq hsp, hslot]
      simp only [hi, hreg, htr, Bool.false_eq_true, if_false]
      rfl
    have hgone : Gone t (t.removeAll [x]) path :=
      gone_removeAll ht hslot hi hnode (List.mem_singleton_self x)
    have hkept : keeps excl t path [] = false := (keeps_of_not_dir hnone).trans hsp
    rw [hstep, hsp] at hret
    refine ⟨?_, ?_, ?_, ?_⟩
    · intro ns hns hns'
      rw [found_of_not_dir hnone, List.mem_singleton] at hns
      rw [hns, hkept] at hns'
      cases hns'
    · intro ns hns _
      rw [found_of_not_dir hnone, List.mem_singleton] at hns
      rw [hns, below_nil, hret]
      exact hgone
    · intro f n hfn
      rw [hret, Inodes.entry_removeAll, if_neg]
      intro hmem
      apply hfn [] List.mem_cons_self hkept
      rw [below_nil, hslot, List.mem_singleton.mp hmem]
    · rw [hret, found_of_not_dir hnone]
      simp [below_nil, treeFs, hgone.path]

end File

/-- **When exactly what should go is removed.**  The path is not that of a file to be spared;
and the path of a directory ends in a name and does not lead through what is removed. -/
theorem rmr_exact_iff (ht : Inodes.Proper t) (excl : Option (List Byte))
    (hfin : ∀ e, dirAt t path = some e → e ≠ 0 ∧ Inodes.FiniteAt t e) :
    RemovesExactly t excl path ↔ RmrOk t excl path := by
  cases hdir : dirAt t path with
  | some e =>
    obtain ⟨hroot, hfinite⟩ := hfin e hdir
    exact ⟨ok_of_removesExactly ht hfinite hdir hroot, removesExactly_of_ok ht hfinite hdir⟩
  | none =>
    have hok : RmrOk t excl path ↔ (isReg t path = true → spared excl path = false) := by
      refine ⟨RmrOk.file, fun h => ⟨h, fun hne => absurd hdir hne, ?_⟩⟩
      intro ns hns
      rw [found_of_not_dir hdir] at hns
      cases hns
    rw [hok]
    cases hnode : node t path with
    | none =>
      refine iff_of_true (removesExactly_of_node_none hdir hnode) fun hreg => ?_
      rw [isReg, hnode] at hreg
      cases hreg
    | some i =>
      rw [removesExactly_file_iff hdir ht hnode, isReg, hnode]
      refine (imp_iff_right ?_).symm
      obtain ⟨x, hfile, hi⟩ := exists_fileSlot_of_node hdir hnode
      have hreg := isDir_of_not_dir hdir (slot_of_fileSlot hfile) hi
      simpa [Inodes.Tree.isDir] using hreg

/-- The entries of the tree with a file below a directory of the same name. -/
theorem nestedTree_proper : Inodes.Proper nestedTree := .of_forall (by decide) rfl

theorem nestedTree_finite (e : ℕ) : Inodes.FiniteAt nestedTree e := by
  refine Inodes.finiteAt_of_lt (fun e x hx => ?_) e
  match e with
  | 0 => exact (show ∀ y ∈ nestedTree.dir 0, 0 < y.2 by decide) x hx
  | 1 => exact (show ∀ y ∈ nestedTree.dir 1, 1 < y.2 by decide) x hx
  | 2 => exact (show ∀ y ∈ nestedTree.dir 2, 2 < y.2 by decide) x hx
  | e + 3 => cases hx

/-- The directory `/srv/a` goes with the file in it. -/
theorem rmr_exact_nested : RemovesExactly nestedTree (some sdext) (lit "/srv/a") := by
  refine (rmr_exact_iff nestedTree_proper (some sdext) fun e he => ?_).mpr ⟨?_, ?_, ?_⟩
  · obtain rfl : 2 = e := Option.some.inj ((show dirAt nestedTree (lit "/srv/a") = some 2 by
      decide).symm.trans he)
    exact ⟨by decide, nestedTree_finite 2⟩
  · decide +kernel
  · decide +kernel
  · decide +kernel

/-- **A file stays and is not reported.**  `rmr` passes over the file `/srv/x.sd`, tests
`/srv/x.sd/` and returns `0`. -/
theorem rmdir_reports_success :
    (rmrRet free (some sdext) nestedTree (lit "/srv/x.sd")).2 = false ∧
      ¬ RemovesExactly nestedTree (some sdext) (lit "/srv/x.sd") := by
  refine ⟨by decide +kernel, fun h => ?_⟩
  have hret := h.ret.mpr ⟨[], List.mem_cons_self, by decide +kernel⟩
  exact absurd hret (by decide +kernel)

/-! ### `RMSECDIR` -/

/-- The token is the name of something in the directory. -/
def TokenNamed (t : FileTree) (dst tok : List Byte) : Prop :=
  ∃ e n, dirAt t dst = some e ∧ n.val = tok ∧ t.entry e n ≠ none

/-- `RMSECDIR` removes something only if the token is the name of something in the
directory. -/
def NeedsToken (w : CoreEnv) (s : CoreSt) (arg : List Byte) : Prop :=
  ∀ tok dstp, strstr multipSeps arg = some (tok, dstp) →
    (cmdRmsecdir w s arg).tree ≠ s.tree → TokenNamed s.tree (check w s .rmsecdir dstp).dst tok

/-- The checks of `cmd_rmsecdir` before it removes anything. -/
def rmsecdirGoes (w : CoreEnv) (s : CoreSt) (tok dstp : List Byte) : Bool :=
  let c := check w s .rmsecdir dstp
  c.ok && trylck s.tree s.lcknam c.dst false && (treeFs s.tree).access (c.dst ++ [slash] ++ tok)

/-- The token can be a name, or the command stops before the removal, or nothing can be
removed. -/
def RmsecdirOk (w : CoreEnv) (s : CoreSt) (arg : List Byte) : Prop :=
  ∀ tok dstp, strstr multipSeps arg = some (tok, dstp) →
    dirName? tok ≠ none ∨ rmsecdirGoes w s tok dstp = false ∨
      ∀ p ∈ (check w s .rmsecdir dstp).dst :: listdir s.tree (check w s .rmsecdir dstp).dst,
        rmrStep w.deny none s.tree p = s.tree

section

variable {deny : List Byte → Bool}

/-- A turn that changes the tree takes an entry away. -/
theorem exists_lost_entry (h : rmrStep deny excl u p ≠ u) :
    ∃ e n, u.entry e n ≠ none ∧ (rmrStep deny excl u p).entry e n = none := by
  have hlost {v : FileTree} {e i : ℕ} {n : DirName} (hi : u.entry e n = some i)
      (hv : Inodes.Sub v (u.remove e n)) : u.entry e n ≠ none ∧ v.entry e n = none := by
    refine ⟨by rw [hi]; exact Option.some_ne_none i, ?_⟩
    by_contra hne
    obtain ⟨j, hj⟩ := Option.ne_none_iff_exists'.mp hne
    have hgone := hv.entry e n j hj
    rw [Inodes.entry_remove, if_pos ⟨rfl, rfl⟩] at hgone
    cases hgone
  unfold rmrStep at h ⊢
  split at h
  · exact absurd rfl h
  · next hsp =>
    rw [if_neg hsp]
    rcases rmdir_cases deny u (p ++ [slash]) with hrm | ⟨e, n, i, hi, -, hrm⟩
    · rw [hrm] at h ⊢
      rcases unlink_cases deny u p with hun | ⟨e, n, i, -, hi, -, hun⟩
      · exact absurd hun h
      · rw [hun]
        exact ⟨e, n, hlost hi (.refl _)⟩
    · rw [hrm]
      exact ⟨e, n, hlost hi (sub_unlink p)⟩

theorem sub_foldl_rmrStep (l : List (List Byte)) :
    Inodes.Sub (l.foldl (rmrStep deny excl) u) u :=
  List.foldlRecOn (motive := fun v => Inodes.Sub v u) l _ (.refl u)
    fun _ hv _ _ => sub_rmrStep.trans hv

/-- Nothing is removed if and only if nothing can be. -/
theorem foldl_rmrStep_eq_self (l : List (List Byte)) :
    l.foldl (rmrStep deny excl) u = u ↔ ∀ p ∈ l, rmrStep deny excl u p = u := by
  induction l with
  | nil => simp
  | cons p l ih =>
    rw [List.forall_mem_cons, List.foldl_cons]
    constructor
    · intro h
      have hp : rmrStep deny excl u p = u := by
        by_contra hne
        obtain ⟨e, n, hthere, hlost⟩ := exists_lost_entry hne
        obtain ⟨i, hi⟩ := Option.ne_none_iff_exists'.mp hthere
        have hsub : Inodes.Sub (l.foldl (rmrStep deny excl) (rmrStep deny excl u p)) _ :=
          sub_foldl_rmrStep l
        rw [h] at hsub
        rw [hsub.entry e n i hi] at hlost
        cases hlost
      rw [hp] at h
      exact ⟨hp, ih.mp h⟩
    · rintro ⟨hp, hl⟩
      rw [hp]
      exact ih.mpr hl

theorem rmr_eq_self_iff (excl : Option (List Byte)) (t : FileTree) (path : List Byte) :
    rmr deny excl t path = t ↔ ∀ p ∈ path :: listdir t path, rmrStep deny excl t p = t := by
  rw [rmr, foldl_rmrStep_eq_self]
  simp only [List.mem_reverse]

end

/-- A name in a directory that leads somewhere. -/
theorem tokenNamed_of_access {dst tok : List Byte} (hname : dirName? tok ≠ none)
    (hacc : (treeFs t).access (dst ++ [slash] ++ tok) = true) : TokenNamed t dst tok := by
  obtain ⟨n, hn⟩ := Option.ne_none_iff_exists'.mp hname
  obtain rfl := val_of_dirName? hn
  have hpath : dst ++ [slash] ++ n.val = below dst [n] := by simp [below]
  have hnode : node t (below dst [n]) ≠ none := by
    rw [hpath] at hacc
    exact Option.isSome_iff_ne_none.mp hacc
  cases hdst : dirAt t dst with
  | none =>
    refine absurd ?_ hnode
    rw [node, dirAt_below, hdst, fileSlot_below_eq (by simp), ← List.nil_append [n], below_concat,
      below_nil, slot_append, hdst]
    rfl
  | some e =>
    refine ⟨e, n, hdst, rfl, ?_⟩
    rwa [node_below_eq hdst, Inodes.find_singleton (isDir_of_dirAt hdst)] at hnode

/-- What `RMSECDIR` leaves. -/
theorem cmdRmsecdir_tree {w : CoreEnv} {s : CoreSt} {arg tok dstp : List Byte}
    (harg : strstr multipSeps arg = some (tok, dstp)) :
    (cmdRmsecdir w s arg).tree =
      if rmsecdirGoes w s tok dstp then rmr w.deny none s.tree (check w s .rmsecdir dstp).dst
      else s.tree := by
  unfold cmdRmsecdir
  rw [harg]
  dsimp only [CoreSt.after]
  cases hgo : rmsecdirGoes w s tok dstp with
  | true =>
    simp only [rmsecdirGoes, Bool.and_eq_true] at hgo
    obtain ⟨⟨hok, hlock⟩, hacc⟩ := hgo
    simp only [hok, hlock, hacc, Bool.not_true, Bool.or_self, Bool.false_eq_true, if_false, if_true]
  | false =>
    split
    · rfl
    · next hgo' =>
      split
      · rfl
      · next hacc =>
        simp only [Bool.or_eq_true, Bool.not_eq_true', not_or, Bool.not_eq_false] at hgo' hacc
        simp only [rmsecdirGoes, hgo'.1, hgo'.2, hacc, Bool.and_self] at hgo
        cases hgo

/-- **When a removal needs the token.**  A token that cannot be a name passes if the path it
gives exists. -/
theorem rmsecdir_named_iff (w : CoreEnv) (s : CoreSt) (arg : List Byte) :
    NeedsToken w s arg ↔ RmsecdirOk w s arg := by
  refine forall_congr' fun tok => forall_congr' fun dstp => imp_congr_right fun harg => ?_
  rw [cmdRmsecdir_tree harg]
  cases hgo : rmsecdirGoes w s tok dstp with
  | false =>
    rw [if_neg Bool.false_ne_true]
    exact iff_of_true (fun h => absurd rfl h) (Or.inr (Or.inl rfl))
  | true =>
    rw [if_pos rfl, ne_eq, rmr_eq_self_iff]
    constructor
    · intro h
      by_cases hstill : ∀ p ∈ (check w s .rmsecdir dstp).dst ::
          listdir s.tree (check w s .rmsecdir dstp).dst, rmrStep w.deny none s.tree p = s.tree
      · exact Or.inr (Or.inr hstill)
      · obtain ⟨e, n, -, rfl, -⟩ := h hstill
        apply Or.inl
        rw [dirName?_val]
        exact Option.some_ne_none n
    · rintro (hname | hgo' | hstill)
      · intro _
        apply tokenNamed_of_access hname
        simp only [rmsecdirGoes, Bool.and_eq_true] at hgo
        exact hgo.2
      · cases hgo'
      · exact fun h => absurd hstill h

/-- **An empty token.**  `RMSECDIR` with nothing before the separator removes the directory
`a`. -/
theorem rmsecdir_empty_token :
    (cmdRmsecdir idleEnv nestedSession (lit " | a")).tree.entry 1 (exampleName "a") = none ∧
      ¬ NeedsToken idleEnv nestedSession (lit " | a") := by
  have hgone : (cmdRmsecdir idleEnv nestedSession (lit " | a")).tree.entry 1 (exampleName "a") =
      none := by decide +kernel
  refine ⟨hgone, fun h => ?_⟩
  obtain ⟨e, n, -, hn, -⟩ := h [] (lit "a") (by decide) fun heq => by
    rw [heq] at hgone
    exact absurd hgone (by decide)
  exact n.nonempty hn

end TFProtocol
