import TFProtocol.SecfsRuns

/-!
# Commands with a pattern

`XCOPY`, `XCPDIR`, `XDEL` and `XRMDIR` list everything below a directory and do something
with the entries whose path ends in a pattern.  The test looks for the first occurrence of
the pattern in the path and asks whether it is as long as the pattern.  An entry is passed
over when the pattern also occurs earlier: in the name of a directory above it, in the root
of the server, or in the name itself.

## Main definitions

* `PatternCmd`, `PatternCmd.listed`, `PatternCmd.chosen` — the commands, what they list and
  what they choose.
* `PatternExact` — exactly the listed entries that end in the pattern are chosen.

## Main results

* `endsIn_iff` — the paths that pass the test.
* `cmdXdel_chosen`, `cmdXrmdir_chosen`, `cmdXcopyTree_chosen`, `cmdXcpdirTree_chosen` — the
  commands act on what is chosen.
* `pattern_exact_iff` — **when a pattern matches suffixes.**
* `xdel_passes_over` — a file below a directory of the same name.
-/

namespace TFProtocol

open Bytes CStr

/-! ### The test -/

/-- **The paths that pass the test** end in the pattern, and the pattern does not occur
before. -/
theorem endsIn_iff {pat : List Byte} : ∀ {p : List Byte}, p ≠ [] →
    (endsIn pat p = true ↔ pat <:+ p ∧ ¬ pat <:+: p.dropLast) := by
  intro p
  induction p with
  | nil => exact fun h => absurd rfl h
  | cons x xs ih =>
    intro _
    by_cases hpre : pat <+: x :: xs
    · -- the first occurrence is at the start
      have hends : endsIn pat (x :: xs) = true ↔ pat = x :: xs := by
        rw [endsIn, strstr, if_pos hpre]
        simp only [decide_eq_true_eq, List.drop_eq_nil_iff]
        exact ⟨fun hle => hpre.eq_of_length (Nat.le_antisymm hpre.length_le hle), fun h => h ▸ le_rfl⟩
      rw [hends]
      constructor
      · rintro rfl
        refine ⟨List.suffix_rfl, fun hin => ?_⟩
        have := hin.length_le
        rw [List.length_dropLast, List.length_cons] at this
        omega
      · rintro ⟨-, hnot⟩
        by_contra hne
        refine hnot (List.IsPrefix.isInfix ?_)
        have hlen : pat.length ≤ (x :: xs).dropLast.length := by
          have hle := hpre.length_le
          have hneq : pat.length ≠ (x :: xs).length := fun h => hne (hpre.eq_of_length h)
          rw [List.length_dropLast]
          omega
        exact List.prefix_of_prefix_length_le hpre (List.dropLast_prefix _) hlen
    · have hends : endsIn pat (x :: xs) = endsIn pat xs := by
        rw [endsIn, strstr, if_neg hpre, endsIn]
        cases strstr pat xs <;> rfl
      have hne : pat ≠ [] := fun h => hpre (h ▸ List.nil_prefix)
      have hsuf : pat <:+ x :: xs ↔ pat <:+ xs := by
        rw [List.suffix_cons_iff]
        exact or_iff_right fun h => hpre (h ▸ List.prefix_rfl)
      rw [hends, hsuf]
      cases xs with
      | nil =>
        rw [List.suffix_nil]
        simp [endsIn, strstr, hne]
      | cons y ys =>
        have hin : pat <:+: (x :: y :: ys).dropLast ↔ pat <:+: (y :: ys).dropLast := by
          rw [List.dropLast_cons_of_ne_nil (List.cons_ne_nil y ys), List.infix_cons_iff]
          refine or_iff_right fun h => hpre (h.trans ?_)
          exact List.prefix_cons_inj x |>.mpr (List.dropLast_prefix _)
        rw [ih (List.cons_ne_nil y ys), hin]

/-! ### The commands -/

/-- The commands with a pattern. -/
inductive PatternCmd
  | xcopy
  | xcpdir
  | xdel
  | xrmdir
  deriving DecidableEq, Repr

/-- The paths a command lists: below the root of the server, or below the directory it is
given. -/
def PatternCmd.listed (t : FileTree) (dbdir dst : List Byte) : PatternCmd → List (List Byte)
  | .xcopy | .xcpdir => listdir t dbdir
  | .xdel | .xrmdir => listdir t dst

/-- The paths a command does something with. -/
def PatternCmd.chosen (t : FileTree) (dbdir dst pat : List Byte) (k : PatternCmd) :
    List (List Byte) :=
  (k.listed t dbdir dst).filter (endsIn pat)

/-- The command chooses exactly the listed paths that end in the pattern. -/
def PatternExact (t : FileTree) (dbdir dst pat : List Byte) (k : PatternCmd) : Prop :=
  ∀ p, p ∈ k.chosen t dbdir dst pat ↔ p ∈ k.listed t dbdir dst ∧ pat <:+ p

section

variable {w : CoreEnv} {s : CoreSt} {arg : List Byte}

/-- A loop over what is listed is a loop over what is chosen. -/
theorem crossRemove_chosen {site : Site} {act : FileTree → List Byte → FileTree}
    {srcp nam : List Byte} (harg : strstr (lit " ") arg = some (srcp, nam))
    (hgo : (check w s site srcp).ok = true)
    (hlock : trylck s.tree s.lcknam (check w s site srcp).dst false = true)
    (hdir : (treeFs s.tree).isDir (check w s site srcp).dst = true) :
    (crossRemove w s site act arg).tree =
      ((listdir s.tree (check w s site srcp).dst).filter (endsIn nam)).foldl act s.tree := by
  rw [List.foldl_filter]
  unfold crossRemove
  rw [harg]
  simp only [CoreSt.after, hgo, hlock, hdir, Bool.not_true, Bool.or_false, Bool.false_eq_true,
    if_false]

theorem crossTree_chosen {site : Site} {rmtrail : Bool} {kind : FileTree → List Byte → Bool}
    {act : List Byte → FileTree → List Byte → FileTree} {newn srcp dstpat : List Byte}
    (harg : crossArgs arg = some (newn, srcp, dstpat)) (hgo : (check w s site srcp).ok = true)
    (hlock : trylck s.tree s.lcknam (check w s site srcp).dst rmtrail = true)
    (hkind : kind s.tree (check w s site srcp).dst = true) :
    (crossTree w s site rmtrail kind act arg).tree =
      ((listdir s.tree (check w s site srcp).jail.dbdir).filter (endsIn dstpat)).foldl
        (fun t prec => if trylck t s.lcknam (prec ++ [slash] ++ newn) true then
          act (check w s site srcp).dst t (prec ++ [slash] ++ newn) else t) s.tree := by
  rw [List.foldl_filter]
  unfold crossTree
  rw [harg]
  simp only [CoreSt.after, hgo, hlock, hkind, Bool.not_true, Bool.or_false, Bool.false_eq_true,
    if_false]
  congr 1
  funext t prec
  unfold crossStep
  cases endsIn dstpat prec <;> rfl

/-- `XDEL` takes away the files among what it chooses. -/
theorem cmdXdel_chosen {srcp nam : List Byte} (harg : strstr (lit " ") arg = some (srcp, nam))
    (hgo : (check w s .xdel srcp).ok = true)
    (hlock : trylck s.tree s.lcknam (check w s .xdel srcp).dst false = true)
    (hdir : (treeFs s.tree).isDir (check w s .xdel srcp).dst = true) :
    (cmdXdel w s arg).tree =
      (PatternCmd.xdel.chosen s.tree s.jail.dbdir (check w s .xdel srcp).dst nam).foldl
        (fun t prec => if trylck t s.lcknam prec true then unlink w.deny t prec else t) s.tree :=
  crossRemove_chosen harg hgo hlock hdir

/-- `XRMDIR` takes away the directories among what it chooses. -/
theorem cmdXrmdir_chosen {srcp nam : List Byte} (harg : strstr (lit " ") arg = some (srcp, nam))
    (hgo : (check w s .xrmdir srcp).ok = true)
    (hlock : trylck s.tree s.lcknam (check w s .xrmdir srcp).dst false = true)
    (hdir : (treeFs s.tree).isDir (check w s .xrmdir srcp).dst = true) :
    (cmdXrmdir w s arg).tree =
      (PatternCmd.xrmdir.chosen s.tree s.jail.dbdir (check w s .xrmdir srcp).dst nam).foldl
        (fun t prec => if (treeFs t).isDir prec && trylck t s.lcknam prec false then
          rmr w.deny (some sdext) t prec else t) s.tree :=
  crossRemove_chosen harg hgo hlock hdir

/-- `XCOPY` gives the file a name in what it chooses. -/
theorem cmdXcopyTree_chosen {newn srcp dstpat : List Byte}
    (harg : crossArgs arg = some (newn, srcp, dstpat)) (hgo : (check w s .xcopy srcp).ok = true)
    (hlock : trylck s.tree s.lcknam (check w s .xcopy srcp).dst true = true)
    (hreg : isReg s.tree (check w s .xcopy srcp).dst = true) :
    (cmdXcopyTree w s arg).tree =
      (PatternCmd.xcopy.chosen s.tree s.jail.dbdir [] dstpat).foldl
        (fun t prec => if trylck t s.lcknam (prec ++ [slash] ++ newn) true then
          (link w.deny t (check w s .xcopy srcp).dst (prec ++ [slash] ++ newn)).1 else t)
        s.tree := by
  rw [cmdXcopyTree, crossTree_chosen harg hgo hlock hreg, dbdir_check]
  rfl

/-- `XCPDIR` makes a copy of the directory in what it chooses. -/
theorem cmdXcpdirTree_chosen {newn srcp dstpat : List Byte}
    (harg : crossArgs arg = some (newn, srcp, dstpat)) (hgo : (check w s .xcpdir srcp).ok = true)
    (hlock : trylck s.tree s.lcknam (check w s .xcpdir srcp).dst false = true)
    (hdir : (treeFs s.tree).isDir (check w s .xcpdir srcp).dst = true) :
    (cmdXcpdirTree w s arg).tree =
      (PatternCmd.xcpdir.chosen s.tree s.jail.dbdir [] dstpat).foldl
        (fun t prec => if trylck t s.lcknam (prec ++ [slash] ++ newn) true then
          cprTree w.deny t (check w s .xcpdir srcp).dst (prec ++ [slash] ++ newn) else t)
        s.tree := by
  rw [cmdXcpdirTree, crossTree_chosen harg hgo hlock hdir, dbdir_check]
  rfl

end

theorem ne_nil_of_mem_listdir {t : FileTree} {path p : List Byte} (h : p ∈ listdir t path) :
    p ≠ [] := by
  obtain ⟨ns, hns, rfl⟩ := List.mem_map.mp h
  unfold found at hns
  split at hns
  · cases hns
  · obtain ⟨n, ms, rfl⟩ := List.exists_cons_of_ne_nil (Inodes.ne_nil_of_mem_below hns)
    simp [below]

theorem ne_nil_of_mem_listed {t : FileTree} {dbdir dst p : List Byte} {k : PatternCmd}
    (h : p ∈ k.listed t dbdir dst) : p ≠ [] := by
  cases k <;> exact ne_nil_of_mem_listdir h

/-- **When a pattern matches suffixes.**  A command with a pattern chooses exactly the listed
paths that end in it if and only if the pattern does not occur in one of these before its
end. -/
theorem pattern_exact_iff (t : FileTree) (dbdir dst pat : List Byte) (k : PatternCmd) :
    PatternExact t dbdir dst pat k ↔
      ∀ p ∈ k.listed t dbdir dst, pat <:+ p → ¬ pat <:+: p.dropLast := by
  have hchosen (p : List Byte) : p ∈ k.chosen t dbdir dst pat ↔
      p ∈ k.listed t dbdir dst ∧ pat <:+ p ∧ ¬ pat <:+: p.dropLast := by
    rw [PatternCmd.chosen, List.mem_filter]
    exact and_congr_right fun hp => endsIn_iff (ne_nil_of_mem_listed hp)
  constructor
  · intro h p hp hsuf
    exact ((hchosen p).mp ((h p).mpr ⟨hp, hsuf⟩)).2.2
  · intro h p
    rw [hchosen]
    exact ⟨fun hp => ⟨hp.1, hp.2.1⟩, fun hp => ⟨hp.1, hp.2, h p hp.1 hp.2⟩⟩

/-! ### A file below a directory of the same name -/

theorem pred_lt_five (e : ℕ) (he : e < 5) : e - 1 < 5 := by
  omega

/-- The directory `/srv/a`, number `2`, has a file `a` in it; beside it is the file
`x.sd`. -/
def nestedTree : FileTree where
  dir e := [[(exampleName "srv", 1)], [(exampleName "a", 2), (exampleName "x.sd", 4)],
    [(exampleName "a", 3)]].getD e []
  data e := [none, none, none, some (lit "x"), some (lit "y")].getD e none
  parent e := e - 1
  next := 5
  root_lt := Nat.succ_pos _
  root_dir := rfl
  fresh e he := by
    match e with
    | e + 5 => rfl
  known e x hx := by
    match e with
    | 0 => exact (show ∀ y ∈ [(exampleName "srv", 1)], y.2 < 5 by decide) x hx
    | 1 =>
      exact (show ∀ y ∈ [(exampleName "a", 2), (exampleName "x.sd", 4)], y.2 < 5 by decide) x hx
    | 2 => exact (show ∀ y ∈ [(exampleName "a", 3)], y.2 < 5 by decide) x hx
    | e + 3 => cases hx
  parent_lt := pred_lt_five

/-- A session without an identity in that tree. -/
def nestedSession : CoreSt := ⟨nestedTree, exampleRoots, [], false, []⟩

/-- **A file is passed over.**  `XDEL / a` lists `/srv///a/a` and leaves it, since the first
`a` is that of the directory. -/
theorem xdel_passes_over :
    (cmdXdel idleEnv nestedSession (lit "/ a")).tree.files 2 (exampleName "a") = some (lit "x") ∧
      ¬ PatternExact nestedTree (lit "/srv/") (lit "/srv//") (lit "a") .xdel := by
  refine ⟨by decide +kernel, fun h => ?_⟩
  have hmem := (h (lit "/srv///a/a")).mpr ⟨by decide +kernel, by decide⟩
  exact absurd hmem (by decide +kernel)

end TFProtocol
