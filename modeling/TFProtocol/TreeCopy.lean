import TFProtocol.Lib.InodeGrowth
import TFProtocol.TreeRemove

/-!
# Copying a directory with everything in it

`cpr` lists what is below the source, makes the destination, and then goes through the list:
a directory is made again below the destination, a file gets a second name there.  The list
was made before the destination, so a destination inside the source is not copied into
itself; and a directory stands in the list before its entries, so it is there when they come.

## Main definitions

* `cprRet` — `cpr` with the value it returns.
* `CopyOf` — a new directory for a directory, the file itself for a file.
* `TreeCopied` — the copy has the names of the source and nothing else, and nothing outside
  it has changed.
* `CopyLoop` — what holds in the middle of the loop.

## Main results

* `CopyLoop.step` — one turn of the loop.
* `cpr_copies` — **a copy reproduces the tree.**
* `cpr_into_itself` — a directory copied into itself.
-/

namespace TFProtocol

open Bytes CStr

/-- The loop of `cpr` over the list, and whether it came to its end: what a path has behind
the source goes behind the destination. -/
def cprRetLoop (deny : List Byte → Bool) (srcp dstp : List Byte) :
    FileTree → List (List Byte) → FileTree × Bool
  | t, [] => (t, true)
  | t, prec :: rest =>
    let path := dstp ++ prec.drop srcp.length
    let r := if (treeFs t).isDir prec then mkdir deny t path else link deny t prec path
    if r.2 then cprRetLoop deny srcp dstp r.1 rest else (r.1, false)

/-- `cpr(srcp, dstp)`: the tree, and whether it returns `0`. -/
def cprRet (deny : List Byte → Bool) (t : FileTree) (srcp dstp : List Byte) : FileTree × Bool :=
  let list := listdir t srcp
  let r := mkdir deny t dstp
  if r.2 then cprRetLoop deny srcp dstp r.1 list else (r.1, false)

/-- What stands in the copy for an inode of the source. -/
def CopyOf (t u : FileTree) (i j : ℕ) : Prop :=
  if t.isDir i then t.next ≤ j ∧ u.isDir j = true else j = i

/-- The entry `m` of directory `g` is a copy of directory `e`: every directory is a new
directory, every file has a second name, and nothing else has changed. -/
structure TreeCopied (t u : FileTree) (e g : ℕ) (m : DirName) : Prop where
  entry : u.entry g m = some t.next
  same : ∀ ns i, t.find e ns = some i → ∃ j, u.find t.next ns = some j ∧ CopyOf t u i j
  only : ∀ ns, t.find e ns = none → u.find t.next ns = none
  apart : ∀ ms ns j, u.isDir j = true → u.find t.next ms = some j → u.find t.next ns = some j →
    ms = ns
  outside : ∀ d n, d < t.next → ¬ (d = g ∧ n = m) → u.entry d n = t.entry d n
  data : ∀ d, d < t.next → u.data d = t.data d
  parent : ∀ d, d < t.next → u.parent d = t.parent d

/-- In the middle of the loop: `done` has been copied. -/
structure CopyLoop (t : FileTree) (e g : ℕ) (m : DirName) (done : List (List DirName))
    (u : FileTree) : Prop where
  proper : Inodes.Proper u
  next : t.next < u.next
  entry : ∀ d n, d < t.next → u.entry d n = if d = g ∧ n = m then some t.next else t.entry d n
  data : ∀ d, d < t.next → u.data d = t.data d
  parent : ∀ d, d < t.next → u.parent d = t.parent d
  root : u.isDir t.next = true
  copied : ∀ ns ∈ done, ∀ i, t.find e ns = some i →
    ∃ j, u.find t.next ns = some j ∧ CopyOf t u i j
  only : ∀ ns, ns ≠ [] → ns ∉ done → u.find t.next ns = none

variable {t u : FileTree} {srcp dstp : List Byte} {e g : ℕ} {m n : DirName}
  {done : List (List DirName)} {ns ms : List DirName}

/-- The suffix of a path below the source is the same for every spelling of the source. -/
theorem append_drop_below (srcp dstp : List Byte) (ns : List DirName) :
    dstp ++ (below srcp ns).drop srcp.length = below dstp ns := by
  unfold below
  rw [List.drop_left]

theorem cprRet_fst (deny : List Byte → Bool) (t : FileTree) (srcp dstp : List Byte) :
    (cprRet deny t srcp dstp).1 = cprTree deny t srcp dstp := by
  have hloop : ∀ (l : List (List DirName)) (u : FileTree),
      (cprRetLoop deny srcp dstp u (l.map (below srcp))).1 = cprTreeLoop deny srcp dstp u l := by
    intro l
    induction l with
    | nil => exact fun _ => rfl
    | cons ns l ih =>
      intro u
      rw [List.map_cons]
      unfold cprRetLoop cprTreeLoop
      dsimp only
      rw [append_drop_below]
      generalize (if (treeFs u).isDir (below srcp ns) then mkdir deny u (below dstp ns)
        else link deny u (below srcp ns) (below dstp ns)) = r
      split
      · exact ih r.1
      · rfl
  unfold cprRet cprTree
  dsimp only
  split
  · exact hloop _ _
  · rfl

/-! ### The loop -/

section

variable (hl : CopyLoop t e g m done u)

include hl in
theorem CopyLoop.isDir_eq {d : ℕ} (hd : d < t.next) : u.isDir d = t.isDir d := by
  unfold Inodes.Tree.isDir
  rw [hl.data d hd]

include hl in
/-- What was there is still there. -/
theorem CopyLoop.grown (habs : t.entry g m = none) : Inodes.Grown t u := by
  refine ⟨fun d n i hi => ?_, fun d hd => hl.isDir_eq hd⟩
  rw [hl.entry d n (Inodes.entry_lt hi).1, if_neg, hi]
  rintro ⟨rfl, rfl⟩
  rw [habs] at hi
  cases hi

include hl in
theorem CopyLoop.dirsIn (habs : t.entry g m = none) : Inodes.DirsIn t u := by
  refine ⟨fun d n i hi hdata => ?_, fun d hd hdata => ?_⟩
  · exact ⟨(hl.grown habs).entry d n i hi, (hl.data i (Inodes.entry_lt hi).2).trans hdata⟩
  · exact ⟨hd.trans hl.next, hl.parent d hd, (hl.data d hd).trans hdata⟩

include hl in
/-- The copy is no deeper than what was listed. -/
theorem CopyLoop.finiteAt (ht : Inodes.Proper t) (hsrc : dirAt t srcp = some e)
    (hdone : ∀ ns ∈ done, ns ∈ found t srcp) : Inodes.FiniteAt u t.next := by
  refine ⟨t.next, fun ns hns => ?_⟩
  by_cases hne : ns = []
  · rw [hne]
    exact Nat.zero_le _
  · by_cases hmem : ns ∈ done
    · have hbelow := hdone ns hmem
      rw [found_eq hsrc] at hbelow
      exact ((Inodes.mem_below_iff ht _ (isDir_of_dirAt hsrc)).mp hbelow).2.1
    · exact absurd (hl.only ns hne hmem) hns

include hl in
/-- One more entry is in the copy. -/
theorem CopyLoop.add {u' : FileTree} {i j : ℕ} (hproper : Inodes.Proper u') (hnext : u.next ≤ u'.next)
    (hentry : ∀ d n, d < t.next → u'.entry d n = u.entry d n)
    (hdata : ∀ d, d < t.next → u'.data d = u.data d)
    (hparent : ∀ d, d < t.next → u'.parent d = u.parent d)
    (hdir : ∀ d, u.isDir d = true → u'.isDir d = true)
    (hfind : ∀ ps, u'.find t.next ps = if ps = ns then some j else u.find t.next ps)
    (hi : t.find e ns = some i) (hcopy : CopyOf t u' i j) :
    CopyLoop t e g m (done ++ [ns]) u' := by
  refine ⟨hproper, hl.next.trans_le hnext, ?_, ?_, ?_, hdir _ hl.root, ?_, ?_⟩
  · intro d n hd
    rw [hentry d n hd, hl.entry d n hd]
  · intro d hd
    rw [hdata d hd, hl.data d hd]
  · intro d hd
    rw [hparent d hd, hl.parent d hd]
  · intro ps hps i' hi'
    by_cases heq : ps = ns
    · subst heq
      obtain rfl : i = i' := Option.some.inj (hi.symm.trans hi')
      exact ⟨j, by rw [hfind, if_pos rfl], hcopy⟩
    · have hmem : ps ∈ done := by
        rcases List.mem_append.mp hps with h | h
        · exact h
        · exact absurd (List.mem_singleton.mp h) heq
      obtain ⟨j', hj', hcopy'⟩ := hl.copied ps hmem i' hi'
      refine ⟨j', by rw [hfind, if_neg heq, hj'], ?_⟩
      unfold CopyOf at hcopy' ⊢
      split
      · next hd =>
        rw [if_pos hd] at hcopy'
        exact ⟨hcopy'.1, hdir _ hcopy'.2⟩
      · next hd => rwa [if_neg hd] at hcopy'
  · intro ps hne hps
    rw [List.mem_append, List.mem_singleton, not_or] at hps
    rw [hfind, if_neg hps.2]
    exact hl.only ps hne hps.1

section

variable {f i : ℕ} (hfin : Inodes.FiniteAt u t.next) (hf : u.find t.next ms = some f)
  (hfd : u.isDir f = true) (hfn : t.next ≤ f) (hnone : u.entry f n = none)
  (hi : t.find e (ms ++ [n]) = some i)

include hl hfin hf hfd hfn hnone hi in
/-- A directory for a directory. -/
theorem CopyLoop.addDir (hd : t.isDir i = true) :
    CopyLoop t e g m (done ++ [ms ++ [n]]) (u.addDir f n) := by
  have hnext := hl.next
  have hflt : f < u.next := Inodes.find_lt hl.next hf
  refine hl.add (hl.proper.addDir hflt n) ?_ ?_ ?_ ?_ ?_
    (Inodes.find_addDir hl.proper hfin hl.next hl.root hf hfd hnone) hi ?_
  · rw [Inodes.next_addDir]
    exact Nat.le_succ _
  · intro d n' hd
    rw [Inodes.entry_addDir hflt, if_neg fun h => absurd (h.1 ▸ hd) (by omega)]
  · intro d hd
    rw [Inodes.data_addDir, Function.update_of_ne (by omega)]
  · intro d hd
    rw [Inodes.parent_addDir hflt, Function.update_of_ne (by omega)]
  · intro d hd
    rw [Inodes.isDir_addDir, hd, Bool.or_true]
  · rw [CopyOf, if_pos hd]
    exact ⟨hl.next.le, by simp [Inodes.isDir_addDir]⟩

include hl hfin hf hfd hfn hnone hi in
/-- A second name for a file. -/
theorem CopyLoop.insert (hilt : i < t.next) (hd : t.isDir i = false) :
    CopyLoop t e g m (done ++ [ms ++ [n]]) (u.insert f n i) := by
  have hflt : f < u.next := Inodes.find_lt hl.next hf
  have hfile : u.isDir i = false := (hl.isDir_eq hilt).trans hd
  refine hl.add (hl.proper.insert_file hflt (hilt.trans hl.next) hfile n) ?_ ?_ ?_ ?_ ?_
    (Inodes.find_insert hl.proper hfin hl.next hl.root hf hfd hnone (hilt.trans hl.next) hfile)
    hi ?_
  · rw [Inodes.next_insert]
  · intro d n' hd
    rw [Inodes.entry_insert_of_ne (by omega)]
  · intro d _
    rw [Inodes.data_insert]
  · intro d _
    rw [Inodes.parent_insert]
  · intro d hd
    unfold Inodes.Tree.isDir at hd ⊢
    rwa [Inodes.data_insert]
  · rw [CopyOf, hd, if_neg Bool.false_ne_true]

end

include hl in
/-- The directory for the next entry was made before, and does not have it yet. -/
theorem CopyLoop.parent_copied (ht : Inodes.Proper t) (hfin : Inodes.FiniteAt t e)
    (hsrc : dirAt t srcp = some e) {rest : List (List DirName)}
    (hsplit : found t srcp = done ++ (ms ++ [n]) :: rest) :
    ∃ f, u.find t.next ms = some f ∧ u.isDir f = true ∧ t.next ≤ f ∧ u.entry f n = none := by
  have he := isDir_of_dirAt hsrc
  have hbelow : t.below t.next e = done ++ (ms ++ [n]) :: rest := (found_eq hsrc).symm.trans hsplit
  obtain ⟨hbefore, -⟩ := Inodes.prefix_of_split hbelow ht
  have hmem : ms ++ [n] ∈ found t srcp := by
    rw [hsplit]
    exact List.mem_append_right _ List.mem_cons_self
  obtain ⟨-, hfind⟩ := (mem_found_iff ht hfin hsrc).mp hmem
  obtain ⟨i, hi⟩ := Option.ne_none_iff_exists'.mp hfind
  obtain ⟨d, hd, -⟩ := (Inodes.find_concat_iff he).mp hi
  obtain ⟨hms, hdir⟩ := Inodes.find_of_walk he hd
  obtain ⟨f, hf, hfd, hfn⟩ : ∃ f, u.find t.next ms = some f ∧ u.isDir f = true ∧ t.next ≤ f := by
    by_cases hne : ms = []
    · subst hne
      exact ⟨t.next, rfl, hl.root, le_rfl⟩
    · have hin : ms ∈ done := by
        have hall : ms ∈ found t srcp :=
          (mem_found_iff ht hfin hsrc).mpr ⟨hne, by rw [hms]; exact Option.some_ne_none d⟩
        rw [hsplit, List.mem_append, List.mem_cons] at hall
        rcases hall with h | h | h
        · exact h
        · simp at h
        · exact absurd h (hbefore ms (List.prefix_append _ _))
      obtain ⟨j, hj, hcopy⟩ := hl.copied ms hin d hms
      rw [CopyOf, if_pos hdir] at hcopy
      exact ⟨j, hj, hcopy.2, hcopy.1⟩
  refine ⟨f, hf, hfd, hfn, ?_⟩
  have hnew : ms ++ [n] ∉ done := by
    have hpair := Inodes.below_pairwise ht.names t.next e
    rw [hbelow, List.pairwise_append] at hpair
    exact fun h => hpair.2.2 _ h _ List.mem_cons_self List.prefix_rfl
  have hnone := hl.only (ms ++ [n]) (by simp) hnew
  rwa [Inodes.find_append, hf, Option.bind_some, Inodes.find_singleton hfd] at hnone

end

section

variable (ht : Inodes.Proper t) (hfin : Inodes.FiniteAt t e) (hsrc : dirAt t srcp = some e)
  (hdst : slot t dstp = some (g, m)) (habs : t.entry g m = none)

include ht hfin hsrc hdst habs in
/-- One turn of the loop. -/
theorem CopyLoop.step (hl : CopyLoop t e g m done u) {rest : List (List DirName)}
    (hsplit : found t srcp = done ++ ns :: rest) :
    ∃ u', (if (treeFs u).isDir (below srcp ns) then mkdir free u (below dstp ns)
        else link free u (below srcp ns) (below dstp ns)) = (u', true) ∧
      CopyLoop t e g m (done ++ [ns]) u' := by
  have hmem : ns ∈ found t srcp := by
    rw [hsplit]
    exact List.mem_append_right _ List.mem_cons_self
  have hdone : ∀ ps ∈ done, ps ∈ found t srcp := by
    intro ps hps
    rw [hsplit]
    exact List.mem_append_left _ hps
  obtain ⟨hne, hfind⟩ := (mem_found_iff ht hfin hsrc).mp hmem
  obtain ⟨i, hi⟩ := Option.ne_none_iff_exists'.mp hfind
  obtain ⟨ms, n, rfl⟩ := (List.eq_nil_or_concat' ns).resolve_left hne
  obtain ⟨f, hf, hfd, hfn, hnone⟩ := hl.parent_copied ht hfin hsrc hsplit
  -- both paths lead where they led, and the destination to the copy
  have hdirs := hl.dirsIn habs
  have hsrc' : dirAt u srcp = some e := dirAt_of_dirsIn hdirs hsrc
  have hg : g < t.next := by
    obtain ⟨a, -, ha⟩ := slot_eq_some hdst
    exact dirAt_lt ha
  have hdst' : dirAt u dstp = some t.next := by
    rw [dirAt_of_slot (slot_of_dirsIn hdirs hdst), hl.entry g m hg, if_pos ⟨rfl, rfl⟩,
      Option.filter_some_pos hl.root]
  have hi' : u.find e (ms ++ [n]) = some i := (hl.grown habs).find (dirAt_lt hsrc) hi
  have hilt : i < t.next := Inodes.find_lt (dirAt_lt hsrc) hi
  have hslot : slot u (below dstp (ms ++ [n])) = some (f, n) := by
    rw [slot_below hdst' hne, Inodes.place_concat, Inodes.walk_of_find hl.root hf hfd]
    rfl
  have hfin' := hl.finiteAt ht hsrc hdone
  have hkind : (treeFs u).isDir (below srcp (ms ++ [n])) = t.isDir i := by
    show (dirAt u _).isSome = _
    rw [dirAt_below, hsrc', Option.bind_some,
      Inodes.walk_names _ ((hl.isDir_eq (dirAt_lt hsrc)).trans (isDir_of_dirAt hsrc)), hi',
      ← hl.isDir_eq hilt]
    cases hd : u.isDir i with
    | true => rw [Option.filter_some_pos hd]; rfl
    | false => rw [Option.filter_some_neg hd]; rfl
  rw [hkind]
  cases hd : t.isDir i with
  | true =>
    refine ⟨u.addDir f n, ?_, hl.addDir hfin' hf hfd hfn hnone hi hd⟩
    rw [if_pos rfl, mkdir, hslot]
    simp only [hnone, free]
    rfl
  | false =>
    have hfile : u.isDir i = false := (hl.isDir_eq hilt).trans hd
    refine ⟨u.insert f n i, ?_, hl.insert hfin' hf hfd hfn hnone hi hilt hd⟩
    rw [if_neg Bool.false_ne_true, link, node_below_eq hsrc', hi', fileSlot_below_eq hne, hslot]
    simp [hnone, free, hfile]

include ht hfin hsrc hdst habs in
/-- The loop comes to its end. -/
theorem CopyLoop.run : ∀ (rest done : List (List DirName)) {u : FileTree},
    found t srcp = done ++ rest → CopyLoop t e g m done u →
      ∃ u', cprRetLoop free srcp dstp u (rest.map (below srcp)) = (u', true) ∧
        CopyLoop t e g m (found t srcp) u' := by
  intro rest
  induction rest with
  | nil =>
    intro done u hsplit hl
    rw [List.append_nil] at hsplit
    exact ⟨u, rfl, hsplit ▸ hl⟩
  | cons ns rest ih =>
    intro done u hsplit hl
    obtain ⟨u', hr, hl'⟩ := hl.step ht hfin hsrc hdst habs hsplit
    obtain ⟨u'', hrun, hl''⟩ := ih (done ++ [ns]) (by simpa using hsplit) hl'
    refine ⟨u'', ?_, hl''⟩
    rw [List.map_cons]
    unfold cprRetLoop
    dsimp only
    rw [append_drop_below, hr, if_pos rfl]
    exact hrun

include ht in
/-- The destination is an empty directory at first. -/
theorem CopyLoop.start (hg : g < t.next) (e : ℕ) : CopyLoop t e g m [] (t.addDir g m) := by
  have hroot : (t.addDir g m).isDir t.next = true := by simp [Inodes.isDir_addDir]
  refine ⟨ht.addDir hg m, ?_, ?_, ?_, ?_, hroot, ?_, ?_⟩
  · rw [Inodes.next_addDir]
    exact Nat.lt_succ_self _
  · exact fun d n _ => Inodes.entry_addDir hg m d n
  · intro d hd
    rw [Inodes.data_addDir, Function.update_of_ne hd.ne]
  · intro d hd
    rw [Inodes.parent_addDir hg, Function.update_of_ne hd.ne]
  · intro ns hns
    cases hns
  · intro ns hne _
    obtain ⟨n, ns, rfl⟩ := List.exists_cons_of_ne_nil hne
    rw [Inodes.find_cons hroot, Inodes.entry_addDir hg, if_neg fun h => hg.ne' h.1]
    have hempty : t.entry t.next n = none := by
      by_contra hsome
      obtain ⟨j, hj⟩ := Option.ne_none_iff_exists'.mp hsome
      exact absurd (Inodes.entry_lt hj).1 (Nat.lt_irrefl _)
    rw [hempty]
    rfl

include ht hfin hsrc hdst habs in
/-- **A copy reproduces the tree.**  A directory is copied to a path that does not exist in a
directory that does, perhaps in the source itself: the call succeeds, every directory of the
source is a new directory in the copy, every file has a second name there, and nothing else
is changed. -/
theorem cpr_copies :
    (cprRet free t srcp dstp).2 = true ∧
      dirAt (cprRet free t srcp dstp).1 dstp = some t.next ∧
      TreeCopied t (cprRet free t srcp dstp).1 e g m := by
  have hg : g < t.next := by
    obtain ⟨a, -, ha⟩ := slot_eq_some hdst
    exact dirAt_lt ha
  obtain ⟨u, hrun, hl⟩ := CopyLoop.run ht hfin hsrc hdst habs (found t srcp) [] rfl
    (CopyLoop.start (m := m) ht hg e)
  have hmk : mkdir free t dstp = (t.addDir g m, true) := by
    rw [mkdir, hdst]
    simp only [habs, free]
    rfl
  have hret : cprRet free t srcp dstp = (u, true) := by
    unfold cprRet
    dsimp only
    rw [hmk, if_pos rfl]
    exact hrun
  rw [hret]
  have hentry : u.entry g m = some t.next := by rw [hl.entry g m hg, if_pos ⟨rfl, rfl⟩]
  have hfin' := hl.finiteAt ht hsrc fun _ h => h
  refine ⟨rfl, ?_, hentry, ?_, ?_, ?_, ?_, hl.data, hl.parent⟩
  · rw [dirAt_of_slot (slot_of_dirsIn (hl.dirsIn habs) hdst), hentry,
      Option.filter_some_pos hl.root]
  · intro ns i hi
    by_cases hne : ns = []
    · subst hne
      obtain rfl : e = i := Option.some.inj hi
      refine ⟨t.next, rfl, ?_⟩
      rw [CopyOf, if_pos (isDir_of_dirAt hsrc)]
      exact ⟨le_rfl, hl.root⟩
    · refine hl.copied ns ((mem_found_iff ht hfin hsrc).mpr ⟨hne, ?_⟩) i hi
      rw [hi]
      exact Option.some_ne_none i
  · intro ns hnone
    refine hl.only ns ?_ fun hmem => ((mem_found_iff ht hfin hsrc).mp hmem).2 hnone
    rintro rfl
    cases hnone
  · exact fun ms ns j hj hms hns => hl.proper.find_inj hfin' hl.root hj hms hns
  · intro d n hd hne
    rw [hl.entry d n hd, if_neg hne]

end

/-- The directory `/srv/a` is copied into itself: the copy has the file `a` and not the
copy. -/
theorem cpr_into_itself :
    (cprRet free nestedTree (lit "/srv/a/") (lit "/srv/a/b")).2 = true ∧
      dirAt (cprRet free nestedTree (lit "/srv/a/") (lit "/srv/a/b")).1 (lit "/srv/a/b") = some 5 ∧
      TreeCopied nestedTree (cprRet free nestedTree (lit "/srv/a/") (lit "/srv/a/b")).1 2 2
        (exampleName "b") :=
  cpr_copies nestedTree_proper (nestedTree_finite 2) (by decide) (by decide) (by decide)

end TFProtocol
