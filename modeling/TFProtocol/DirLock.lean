import TFProtocol.SecfsRuns

/-!
# Locked directories

`LOCK` stores a name, and a directory that has an entry of this name is locked for the
session: the handlers look for the entry with `trylck` before they make their calls.  Each
handler does so by hand, for the directory of a path or for the path itself.

Some handlers do not look at all (the newer uploads, `INTWRITE`, the mutexes, the files a
listing is written to, the permissions, the notifications); the recursive ones look at the
first path only; `DEL` lets pass every path that ends in the name; and a name that `LOCK`
refuses is stored nevertheless.  `LockClear` says which commands do none of this.

## Main definitions

* `lockAccepted`, `grantedBy`, `LockSt`, `lockNext` — the name that was accepted last, and its
  session.
* `Holds` — a directory has an entry of a name.
* `DirKept` — the files of a directory stay, and none is made there, not even for a while.
* `Respects` — what a command has to leave as it is.
* `LockClear` — the commands that do not get past the lock.

## Main results

* `lock_enforced` — **in a run of such commands, every one leaves the files of locked
  directories as they are**, but for a lock file that `DEL` names, and makes none there.
-/

namespace TFProtocol

open Bytes CStr

/-! ### The lock -/

/-- `cmd_lock` answers `OK`. -/
def lockAccepted (arg : List Byte) : Bool :=
  (strstr (lit ".") arg).isNone && (strstr (lit "..") arg).isNone && (strstr (lit "/") arg).isNone

/-- A session, and the name that was accepted last. -/
structure LockSt where
  core : CoreSt
  granted : List Byte

/-- The name that is accepted last after a command. -/
def grantedBy (old : List Byte) : CoreCmd → List Byte
  | .lock arg => if lockAccepted arg then arg else old
  | _ => old

/-- One command. -/
def lockNext (u : LockSt) (a : CoreEnv × CoreCmd) : Option LockSt :=
  some ⟨coreStep u.core a.1 a.2, grantedBy u.granted a.2⟩

/-- The directory has an entry of the name. -/
def Holds (t : FileTree) (d : ℕ) (name : List Byte) : Prop :=
  ∃ n ∈ dirName? name, t.entry d n ≠ none

/-- The regular files of a directory are those they were, and none was made there in between,
as one that is taken away again would be. -/
structure DirKept (d : ℕ) (t t' : FileTree) : Prop where
  files : t'.files d = t.files d
  made : Inodes.NoneMade d t t'

/-- A command leaves the regular files of a directory as they are, and makes none there, not
even for a while; `DEL` may take the lock file away. -/
def Respects (d : ℕ) (u : LockSt) (a : CoreEnv × CoreCmd) : Prop :=
  let t' := (coreStep u.core a.1 a.2).tree
  Inodes.NoneMade d u.core.tree t' ∧
    ∀ m, t'.files d m = u.core.tree.files d m ∨ (∃ arg, a.2 = .del arg) ∧ m.val = u.granted

/-! ### Commands that respect it -/

section

variable (d : ℕ) (s : CoreSt) (w : CoreEnv)

/-- The file a listing is written to first is neither made in the directory nor a second name
of one of its files. -/
def LsClear (site : Site) (arg : List Byte) : Prop :=
  let c := check w s site arg
  goes s c false → (treeFs s.tree).isDir c.dst →
    placeIn s.tree d (tmpPath w s) = false ∧ otherName s.tree d (tmpPath w s) = false

/-- What is stored is stored outside the directory, and not under a second name of one of its
files. -/
def StoreClear (site : Site) (path : List Byte) (written : Prop) : Prop :=
  let c := check w s site path
  c.ok → placeIn s.tree d c.dst = false ∧ (written → otherName s.tree d c.dst = false)

/-- The same for the file a listing is written to. -/
def Lsrv2Clear (site : Site) (arg : List Byte) : Prop :=
  match strstr lsv2tokSep arg with
  | none => True
  | some (path, file) =>
    let c := check w s site path
    goes s c false → (treeFs s.tree).isDir c.dst → StoreClear d (s.after c) w .lsrv2File file True

/-- Permissions are managed in another directory. -/
def PermClear (site : Site) (dir : List Byte) : Prop :=
  let c := check w s site dir
  c.ok → dirAt s.tree c.dst ≠ some d ∧ otherName s.tree d (swpFile c.dst) = false

/-- **The commands that do not get past the lock** of a directory, by the state they are sent
in. -/
def LockClear : CoreCmd → Prop
  | .ls arg _ => LsClear d s w .ls arg
  | .lsr arg _ => LsClear d s w .lsr arg
  -- not over a file that has a second name in the directory
  | .rcvfile arg _ _ =>
    match strstr (lit " ") arg with
    | none => True
    | some (_, path) =>
      let c := check w s .rcvfile path
      goes s c true → owch arg → otherName s.tree d c.dst = false
  -- a path that ends in the name has to be that of the lock file
  | .del arg =>
    let c := check w s .del arg
    c.ok → endsIn s.lcknam c.dst → ∀ e m, fileSlot s.tree c.dst = some (e, m) →
      e = d → m.val = s.lcknam
  | .rmdir arg =>
    let c := check w s .rmdir arg
    goes s c true → RmrAway d s (some sdext) c.dst
  | .rmsecdir arg =>
    match strstr multipSeps arg with
    | none => True
    | some (tok, dstp) =>
      let c := check w s .rmsecdir dstp
      goes s c false → (treeFs s.tree).access (c.dst ++ [slash] ++ tok) → RmrAway d s none c.dst
  | .xrmdir arg =>
    match strstr (lit " ") arg with
    | none => True
    | some (srcp, nam) =>
      let c := check w s .xrmdir srcp
      goes s c false → ∀ q ∈ listdir s.tree c.dst, endsIn nam q → (treeFs s.tree).isDir q →
        RmrAway d s (some sdext) q
  | .put path content _ => StoreClear d s w .put path (content ≠ none)
  | .putcan path content _ => StoreClear d s w .putcan path (content ≠ none)
  | .sup path _ _ => StoreClear d s w .sup path True
  | .intwrite path content => StoreClear d s w .intwrite path (content ≠ none)
  | .netmutacqtry path content => StoreClear d s w .netmutacqtry path (content ≠ none)
  | .netmutrel path content => StoreClear d s w .netmutrel path (content ≠ none)
  | .lsv2 arg _ _ => Lsrv2Clear d s w .lsv2 arg
  | .lsrv2 arg _ _ => Lsrv2Clear d s w .lsrv2 arg
  | .setfsperm _ arg =>
    match strchr blank arg with
    | none => True
    | some (tok, dir) => fspermTok ∈ tok → PermClear d s w .setfsperm dir
  | .remfsperm _ arg =>
    match strchr blank arg with
    | none => True
    | some (_, dir) => PermClear d s w .remfsperm dir
  | .faitok uuid _ _ =>
    s.faiuse = false → placeIn s.tree d (w.faipath ++ uuid) = false ∧
      otherName s.tree d (w.faipath ++ uuid) = false
  | .runbash arg =>
    w.runbash → (treeFs s.tree).access arg → DirKept d s.tree (w.script arg s.tree)
  | .startntfy turns => NtfyAway d s turns
  | _ => True

end

/-- A step of a session that keeps the name that was accepted, and does not get past the lock
of the directory if it is locked. -/
def Obeys (d : ℕ) (u : LockSt) (a : CoreEnv × CoreCmd) : Prop :=
  (∀ arg, a.2 = .lock arg → lockAccepted arg = true) ∧
    (Holds u.core.tree d u.granted → LockClear d u.core a.1 a.2)

/-! ### What `trylck` keeps away -/

section

variable {t : FileTree} {d e : ℕ} {n m : DirName} {p : List Byte}

/-- **No lock file beside a path**: the directory of the path is not locked. -/
theorem entry_of_trylck (h : trylck t n.val p true = true) (hslot : fileSlot t p = some (e, m)) :
    t.entry e n = none := by
  obtain ⟨a, rfl, ha⟩ := fileSlot_eq_some hslot
  have hcut : cutLast (a ++ slash :: m.val) = a := by
    unfold cutLast
    rw [trailing_append, if_neg (by simp), lastSlash_append]
  by_contra hne
  obtain ⟨i, hi⟩ := Option.ne_none_iff_exists'.mp hne
  have hnode : (node t (a ++ slash :: n.val)).isSome = true := by
    unfold node
    rw [fileSlot_append ha]
    split
    · rfl
    · simp [hi]
  have hacc : (treeFs t).access (a ++ slash :: n.val) = true := hnode
  simp [trylck, hcut, n.nonempty, hacc] at h

theorem placeIn_of_trylck (hheld : t.entry d n ≠ none) (h : trylck t n.val p true = true) :
    placeIn t d p = false := by
  by_contra hne
  obtain ⟨m, -, hslot⟩ := placeIn_iff.mp (by simpa using hne)
  exact hheld (entry_of_trylck h hslot)

end

/-- A link beside which there is no lock file leaves locked directories locked. -/
theorem entry_link {t : FileTree} {d : ℕ} {n : DirName} {deny : List Byte → Bool}
    {src dst : List Byte} (hheld : t.entry d n ≠ none) (h : trylck t n.val dst true = true) :
    (link deny t src dst).1.entry d n ≠ none := by
  rcases link_cases deny t src dst with heq | ⟨i, e, m, hslot, -, -, heq⟩
  · rw [heq]
    exact hheld
  · have hed : d ≠ e := by
      rintro rfl
      exact hheld (entry_of_trylck h hslot)
    rw [heq, Inodes.entry_insert_of_ne hed]
    exact hheld

/-! ### What is kept -/

theorem DirKept.refl (d : ℕ) (t : FileTree) : DirKept d t t := ⟨rfl, .refl d t⟩

theorem DirKept.trans {d : ℕ} {t t' t'' : FileTree} (h : DirKept d t t') (h' : DirKept d t' t'') :
    DirKept d t t'' := ⟨h'.files.trans h.files, h.made.trans h'.made⟩

theorem Harmless.kept {d : ℕ} {t t' : FileTree} (h : Harmless d t t') : DirKept d t t' :=
  ⟨h.files, h.made⟩

/-- Entries that are taken away, none of them a file of the directory. -/
theorem kept_of_sub {d : ℕ} {t t' : FileTree} (h : Inodes.Sub t' t ∧ t'.files d = t.files d) :
    DirKept d t t' := ⟨h.2, h.1.noneMade d⟩

theorem kept_mkdir {deny : List Byte → Bool} (d : ℕ) (t : FileTree) (p : List Byte) :
    DirKept d t (mkdir deny t p).1 := ⟨files_mkdir d p, noneMade_mkdir d p⟩

/-! ### One command -/

section

variable {d : ℕ} {s : CoreSt} {w : CoreEnv}

theorem tmpPath_after (site : Site) (arg : List Byte) :
    tmpPath w (s.after (check w s site arg)) = tmpPath w s := by
  unfold tmpPath
  rw [← dbdir_check w s site arg]
  rfl

theorem kept_lsTmp {site : Site} {arg text : List Byte} (hclear : LsClear d s w site arg) :
    DirKept d s.tree (lsTmp w s site arg text).tree := by
  unfold lsTmp
  dsimp only
  rw [tmpPath_after]
  split
  · exact .refl d _
  · next hgo =>
    obtain ⟨hgo, hdir⟩ : goes s (check w s site arg) false = true ∧
        (!(treeFs s.tree).isDir (check w s site arg).dst) = false := goes_of_not_or hgo
    obtain ⟨hplace, hother⟩ := hclear hgo (by simpa using hdir)
    show DirKept d s.tree (store w.deny true false s.tree (tmpPath w s) (some text) true)
    exact (store_harmless hplace fun _ => hother).kept

end

section

variable {d : ℕ} {s : CoreSt} {w : CoreEnv} {n : DirName} (hname : s.lcknam = n.val)
  (hheld : s.tree.entry d n ≠ none)

include hname hheld

theorem placeIn_of_goes {c : JailRes} (h : goes s c true = true) :
    placeIn s.tree d c.dst = false := by
  rw [goes, Bool.and_eq_true, hname] at h
  exact placeIn_of_trylck hheld h.2

theorem kept_sendfile (arg : List Byte) (all : Bool) :
    DirKept d s.tree (cmdSendfile w s arg all).tree := by
  unfold cmdSendfile
  split
  · exact .refl d _
  · dsimp only
    split
    · exact .refl d _
    · next hgo =>
      split
      · exact (unlink_harmless (placeIn_of_goes hname hheld (goes_of_not_or hgo).1)).kept
      · exact .refl d _

theorem kept_rcvfile {arg content : List Byte} {gone : Bool}
    (hallow : LockClear d s w (.rcvfile arg content gone)) :
    DirKept d s.tree (cmdRcvfile w s arg content gone).tree := by
  unfold cmdRcvfile
  split
  · exact .refl d _
  · next path hsplit =>
    simp only [LockClear, hsplit] at hallow
    dsimp only
    split
    · exact .refl d _
    · next hgo =>
      have hgo : goes s (check w s .rcvfile path) true = true := goes_of_not hgo
      split
      · exact .refl d _
      · next hover =>
        replace hover :
            ¬ (!owch arg && (treeFs s.tree).access (check w s .rcvfile path).dst) = true := hover
        show DirKept d s.tree (store w.deny true false s.tree (check w s .rcvfile path).dst
          (some content) gone)
        refine (store_harmless (placeIn_of_goes hname hheld hgo) fun _ => ?_).kept
        by_cases how : owch arg = true
        · exact hallow hgo how
        · -- there is no file to overwrite
          refine otherName_of_access ?_
          simpa [how] using hover

omit hname hheld in
/-- `DEL` makes nothing. -/
theorem noneMade_del (arg : List Byte) : Inodes.NoneMade d s.tree (cmdDel w s arg).tree := by
  unfold cmdDel
  dsimp only
  split
  · exact .refl d _
  · split
    · exact .refl d _
    · split
      · exact .refl d _
      · exact (sub_unlink _).noneMade d

/-- `DEL` takes no file away but the lock file. -/
theorem files_del {arg : List Byte} (hallow : LockClear d s w (.del arg)) (m : DirName) :
    (cmdDel w s arg).tree.files d m = s.tree.files d m ∨ m.val = s.lcknam := by
  unfold cmdDel
  dsimp only
  split
  · exact .inl rfl
  · next hok =>
    have hok : (check w s .del arg).ok = true := by simpa using hok
    split
    · exact .inl rfl
    · next hlock =>
      split
      · exact .inl rfl
      · rcases unlink_cases w.deny s.tree (check w s .del arg).dst with heq |
          ⟨e, m', i, hslot, -, -, heq⟩
        · exact .inl (congrFun (congrArg (Inodes.Tree.files · d) heq) m)
        · by_cases hed : e = d ∧ m = m'
          · -- the file that is taken away is in the directory
            obtain ⟨rfl, rfl⟩ := hed
            by_cases hends : endsIn s.lcknam (check w s .del arg).dst = true
            · exact .inr (hallow hok hends e m hslot rfl)
            · have htry : trylck s.tree s.lcknam (check w s .del arg).dst true = true := by
                by_contra hfound
                apply hlock
                show (!endsIn s.lcknam (check w s .del arg).dst &&
                  !trylck s.tree s.lcknam (check w s .del arg).dst true) = true
                rw [eq_false_of_ne_true hends, eq_false_of_ne_true hfound]
                rfl
              rw [hname] at htry
              exact absurd (entry_of_trylck htry hslot) hheld
          · left
            show (unlink w.deny s.tree (check w s .del arg).dst).files d m = _
            rw [heq]
            show ((s.tree.remove e m').entry d m).bind s.tree.data = _
            rw [Inodes.entry_remove, if_neg fun h => hed ⟨h.1.symm, h.2⟩]
            rfl

omit hname hheld in
theorem kept_rmdirCmd {arg : List Byte} (hallow : LockClear d s w (.rmdir arg)) :
    DirKept d s.tree (cmdRmdir w s arg).tree := by
  unfold cmdRmdir
  dsimp only
  split
  · exact .refl d _
  · next hgo =>
    have hrmr : DirKept d s.tree (rmr w.deny (some sdext) s.tree (check w s .rmdir arg).dst) :=
      kept_of_sub (rmr_sub (hallow (goes_of_not hgo)))
    split
    · exact hrmr
    · split
      · exact hrmr
      · -- the root is made again
        exact hrmr.trans (kept_mkdir d _ _)

omit hname hheld in
theorem kept_rmsecdir {arg : List Byte} (hallow : LockClear d s w (.rmsecdir arg)) :
    DirKept d s.tree (cmdRmsecdir w s arg).tree := by
  unfold cmdRmsecdir
  split
  · exact .refl d _
  · next tok dstp hsplit =>
    simp only [LockClear, hsplit] at hallow
    dsimp only
    split
    · exact .refl d _
    · next hgo =>
      split
      · exact .refl d _
      · next hacc =>
        replace hacc : ¬ (!(treeFs s.tree).access
            ((check w s .rmsecdir dstp).dst ++ [slash] ++ tok)) = true := hacc
        exact kept_of_sub (rmr_sub (hallow (goes_of_not hgo) (by simpa using hacc)))

theorem kept_copy (arg : List Byte) : DirKept d s.tree (cmdCopy w s arg).tree := by
  unfold cmdCopy
  split
  · exact .refl d _
  · dsimp only
    split
    · exact .refl d _
    · split
      · exact .refl d _
      · next hgo =>
        exact ⟨files_link (placeIn_of_goes hname hheld (goes_of_not hgo)), noneMade_link d _ _⟩

omit hname in
theorem kept_cpdir (arg : List Byte) : DirKept d s.tree (cmdCpdir w s arg).tree := by
  have hlt : d < s.tree.next := by
    obtain ⟨i, hi⟩ := Option.ne_none_iff_exists'.mp hheld
    exact (Inodes.entry_lt hi).1
  unfold cmdCpdir
  split
  · exact .refl d _
  · dsimp only
    split
    · exact .refl d _
    · split
      · exact .refl d _
      · exact ⟨(cprTree_spec hlt _ _).1, noneMade_cprTree d _ _⟩

/-! ### The loops over what is found -/

omit hname in
/-- A loop whose turns keep a locked directory as it is. -/
theorem kept_foldl {f : FileTree → List Byte → FileTree} {l : List (List Byte)}
    (hf : ∀ u q, u.entry d n ≠ none → DirKept d u (f u q) ∧ (f u q).entry d n ≠ none) :
    DirKept d s.tree (l.foldl f s.tree) := by
  suffices hkept : DirKept d s.tree (l.foldl f s.tree) ∧ (l.foldl f s.tree).entry d n ≠ none from
    hkept.1
  refine List.foldlRecOn
    (motive := fun u : FileTree => DirKept d s.tree u ∧ u.entry d n ≠ none) l f
    ⟨.refl d _, hheld⟩ fun u hu q _ => ?_
  obtain ⟨hkept, hentry⟩ := hf u q hu.2
  exact ⟨hu.1.trans hkept, hentry⟩

theorem kept_xcopyCmd (arg : List Byte) :
    DirKept d s.tree (cmdXcopyTree w s arg).tree := by
  unfold cmdXcopyTree crossTree
  split
  · exact .refl d _
  · dsimp only
    split
    · exact .refl d _
    · next newn srcp dstpat hsplit hgo =>
      apply kept_foldl hheld
      intro u q hu
      unfold crossStep
      split
      · next hmatch =>
        rw [Bool.and_eq_true] at hmatch
        have htry : trylck u n.val (q ++ [slash] ++ newn) true = true := hname ▸ hmatch.2
        exact ⟨⟨files_link (placeIn_of_trylck hu htry), noneMade_link d _ _⟩, entry_link hu htry⟩
      · exact ⟨.refl d u, hu⟩

omit hname in
theorem kept_xcpdirCmd (arg : List Byte) :
    DirKept d s.tree (cmdXcpdirTree w s arg).tree := by
  obtain ⟨i, hi⟩ := Option.ne_none_iff_exists'.mp hheld
  unfold cmdXcpdirTree crossTree
  split
  · exact .refl d _
  · dsimp only
    split
    · exact .refl d _
    · refine ⟨files_xcpdir (Inodes.entry_lt hi).1, noneMade_foldl (fun u q => ?_) _⟩
      unfold crossStep
      split
      · exact noneMade_cprTree d _ _
      · exact .refl d u

theorem kept_xdelCmd (arg : List Byte) : DirKept d s.tree (cmdXdel w s arg).tree := by
  unfold cmdXdel crossRemove
  split
  · exact .refl d _
  · dsimp only
    split
    · exact .refl d _
    · apply kept_foldl hheld
      intro u q hu
      split
      · split
        · next htry =>
          rw [hname] at htry
          have hplace := placeIn_of_trylck hu htry
          exact ⟨(unlink_harmless hplace).kept, (unlink_harmless hplace).own n ▸ hu⟩
        · exact ⟨.refl d u, hu⟩
      · exact ⟨.refl d u, hu⟩

omit hname hheld in
theorem kept_xrmdirCmd {arg : List Byte} (hallow : LockClear d s w (.xrmdir arg)) :
    DirKept d s.tree (cmdXrmdir w s arg).tree := by
  unfold cmdXrmdir crossRemove
  split
  · exact .refl d _
  · next srcp nam hsplit =>
    simp only [LockClear, hsplit] at hallow
    dsimp only
    split
    · exact .refl d _
    · next hgo => exact kept_of_sub (xrmdir_sub (hallow (goes_of_not_or hgo).1))

/-! ### Files that are made, moved and stored -/

theorem kept_touch (arg : List Byte) : DirKept d s.tree (cmdTouch w s arg).tree := by
  unfold cmdTouch
  dsimp only
  split
  · exact .refl d _
  · next hgo =>
    have hplace := placeIn_of_goes hname hheld (goes_of_not_or hgo).1
    exact (store_harmless hplace fun hc => absurd rfl hc).kept

theorem kept_tasfs (arg : List Byte) : DirKept d s.tree (cmdTasfs w s arg).tree := by
  unfold cmdTasfs
  dsimp only
  split
  · exact .refl d _
  · next hgo =>
    have hplace := placeIn_of_goes hname hheld (goes_of_not hgo)
    exact (store_harmless hplace fun hc => absurd rfl hc).kept

/-- A file is no directory, so the searches for a lock are those for files. -/
theorem kept_renamTo {deny : List Byte → Bool} {c c' : JailRes}
    (hsrc : goes s c (!(treeFs s.tree).isDir c.dst) = true)
    (hdst : goes s c' (!if (treeFs s.tree).access c'.dst = true then (treeFs s.tree).isDir c'.dst
      else (treeFs s.tree).isDir c.dst) = true) :
    DirKept d s.tree (rename deny s.tree c.dst c'.dst).1 := by
  have hisDir : ∀ {p : List Byte}, dirAt s.tree p = none → (treeFs s.tree).isDir p = false := by
    intro p hp
    show (dirAt s.tree p).isSome = false
    rw [hp]
    rfl
  refine ⟨files_rename ?_ ?_, noneMade_rename d _ _⟩
  · by_contra hfile
    have hfile : fileIn s.tree d c.dst = true := by simpa using hfile
    rw [isDir_of_fileIn hfile] at hsrc
    rw [fileIn_of_placeIn (placeIn_of_goes hname hheld hsrc)] at hfile
    cases hfile
  · intro hfile
    by_contra hplace
    have hplace : placeIn s.tree d c'.dst = true := by simpa using hplace
    obtain ⟨m, hdir, -⟩ := placeIn_iff.mp hplace
    rw [hisDir hfile, ite_access_isDir, hisDir hdir] at hdst
    rw [placeIn_of_goes hname hheld hdst] at hplace
    cases hplace

theorem kept_renam (arg : List Byte) : DirKept d s.tree (cmdRenam w s arg).tree := by
  -- the last refusal, around another case distinction
  have hlast : ∀ {p : Prop} [Decidable p] {a b : CoreSt}, a.tree = s.tree →
      (¬ p → DirKept d s.tree b.tree) → DirKept d s.tree (if p then a else b).tree := by
    intro p _ a b ha hb
    split
    · rw [ha]
      exact .refl d _
    · next hp => exact hb hp
  unfold cmdRenam
  split
  · exact .refl d _
  · split
    · exact .refl d _
    · dsimp only
      split
      · exact .refl d _
      · next hsrc =>
        refine hlast ?_ fun hdst => ?_
        · rfl
        · exact kept_renamTo hname hheld (goes_of_not hsrc) (goes_of_not hdst)

omit hname hheld in
theorem kept_storeAt {site : Site} {creat gone : Bool} {path : List Byte}
    {content : Option (List Byte)} {written : Prop} (hwritten : content ≠ none → written)
    (hclear : StoreClear d s w site path written) :
    DirKept d s.tree (storeAt w s site creat path content gone).tree := by
  unfold storeAt
  dsimp only
  split
  · exact .refl d _
  · next hok =>
    obtain ⟨hplace, hother⟩ := hclear (by simpa using hok)
    exact (store_harmless hplace fun hc => hother (hwritten hc)).kept

omit hname hheld in
theorem kept_lsrv2 {site : Site} {arg text : List Byte} {gone : Bool}
    (hclear : Lsrv2Clear d s w site arg) :
    DirKept d s.tree (cmdLsrv2 w s site arg text gone).tree := by
  unfold cmdLsrv2
  split
  · exact .refl d _
  · next path file hsplit =>
    simp only [Lsrv2Clear, hsplit] at hclear
    dsimp only
    split
    · exact .refl d _
    · next hgo =>
      split
      · exact .refl d _
      · next hdir =>
        replace hdir : ¬ (!(check w (s.after (check w s site path)) .lsrv2File file).ok ||
          !(treeFs s.tree).isDir (check w s site path).dst) = true := hdir
        simp only [Bool.or_eq_true, not_or, Bool.not_eq_true, Bool.not_eq_false'] at hdir
        obtain ⟨hplace, hother⟩ := hclear (goes_of_not hgo) hdir.2 hdir.1
        show DirKept d s.tree (store w.deny true false s.tree
          (check w (s.after (check w s site path)) .lsrv2File file).dst (some text) gone)
        exact (store_harmless hplace fun _ => hother trivial).kept

/-! ### The other commands -/

omit hname hheld in
theorem kept_setfsperm {io : MetaIo} {arg : List Byte}
    (hallow : LockClear d s w (.setfsperm io arg)) :
    DirKept d s.tree (cmdSetfspermTree w s io arg).tree := by
  unfold cmdSetfspermTree
  split
  · exact .refl d _
  · next tok dir hsplit =>
    simp only [LockClear, hsplit] at hallow
    split
    · exact .refl d _
    · next htok =>
      dsimp only
      split
      · exact .refl d _
      · next hgo =>
        simp only [Bool.or_eq_true, not_or, Bool.not_eq_true, Bool.not_eq_false'] at hgo
        obtain ⟨hdir, hother⟩ := hallow (by simpa using htok) hgo.1
        exact (setfspermIn_harmless hdir hother).kept

omit hname hheld in
theorem kept_remfsperm {io : MetaIo} {arg : List Byte}
    (hallow : LockClear d s w (.remfsperm io arg)) :
    DirKept d s.tree (cmdRemfspermTree w s io arg).tree := by
  unfold cmdRemfspermTree
  split
  · exact .refl d _
  · next tok dir hsplit =>
    simp only [LockClear, hsplit] at hallow
    dsimp only
    split
    · exact .refl d _
    · next hgo =>
      simp only [Bool.or_eq_true, not_or, Bool.not_eq_true, Bool.not_eq_false'] at hgo
      obtain ⟨hdir, hother⟩ := hallow hgo.1
      exact (remfspermIn_harmless hdir hother).kept

omit hname hheld in
theorem kept_faitok {uuid line : List Byte} {good : Bool}
    (hallow : LockClear d s w (.faitok uuid line good)) :
    DirKept d s.tree (cmdFaitok w s uuid line good).tree := by
  unfold cmdFaitok
  split
  · exact .refl d _
  · next huse =>
    obtain ⟨hplace, hother⟩ := hallow (by simpa using huse)
    show DirKept d s.tree (store w.deny true false s.tree (w.faipath ++ uuid) (some line) false)
    exact (store_harmless hplace fun _ => hother).kept

omit hname hheld in
theorem kept_addntfy (mem : List Byte) (alloc : Bool) :
    DirKept d s.tree (cmdAddntfyTree w s mem alloc).tree := by
  unfold cmdAddntfyTree
  split
  · dsimp only
    split
    · exact .refl d _
    · exact .refl d _
  · exact .refl d _

omit hname hheld in
theorem kept_startntfy {turns : List (List (List Byte))}
    (hallow : LockClear d s w (.startntfy turns)) :
    DirKept d s.tree (cmdStartntfyTree w s turns).tree := by
  unfold cmdStartntfyTree
  split
  · exact .refl d _
  · exact kept_of_sub (ntfyLoop_sub turns s.tree hallow ⟨.refl s.tree, rfl⟩)

omit hname hheld in
theorem kept_runbash {arg : List Byte} (hallow : LockClear d s w (.runbash arg)) :
    DirKept d s.tree (cmdRunbash w s arg).tree := by
  unfold cmdRunbash
  split
  · exact .refl d _
  · next hrun =>
    simp only [Bool.or_eq_true, not_or, Bool.not_eq_true, Bool.not_eq_false'] at hrun
    exact hallow hrun.1 hrun.2

end

/-! ### Runs -/

section

variable (w : CoreEnv) (s : CoreSt)

theorem tree_looks (checks : List (Site × List Byte)) : (looks w s checks).tree = s.tree := by
  induction checks with
  | nil => rfl
  | cons x xs ih => exact ih

theorem lcknam_looks (checks : List (Site × List Byte)) : (looks w s checks).lcknam = s.lcknam := by
  induction checks with
  | nil => rfl
  | cons x xs ih => exact ih

/-- Only `LOCK` changes the name. -/
theorem lcknam_coreStep {cmd : CoreCmd} (h : ∀ arg, cmd ≠ .lock arg) :
    (coreStep s w cmd).lcknam = s.lcknam := by
  cases cmd with
  | look checks => exact lcknam_looks w s checks
  | lock arg => exact absurd rfl (h arg)
  | setfsid | injail | locksys | flycontext => rfl
  | _ =>
    simp only [coreStep, cmdMkdir, cmdRmkdir, cmdDel, cmdTouch, cmdTasfs, cmdRmdir, cmdLs, cmdLsr,
      lsTmp, cmdPut, cmdPutcan, cmdSup, cmdIntwrite, cmdNetmutacqtryTree, cmdNetmutrelTree, storeAt,
      cmdFaitok, cmdRunbash, cmdSendfile, cmdRcvfile, cmdRmsecdir, cmdCopy, cmdCpdir, cmdXcopyTree,
      cmdXcpdirTree, crossTree, cmdXdel, cmdXrmdir, crossRemove, cmdRenam, cmdLsrv2,
      cmdSetfspermTree, cmdRemfspermTree, cmdAddntfyTree, cmdStartntfyTree]
    repeat' split
    all_goals rfl

end

/-- **One command** that does not get past the lock. -/
theorem respects_of_allowed {d : ℕ} {u : LockSt} {a : CoreEnv × CoreCmd}
    (hname : u.core.lcknam = u.granted) (hheld : Holds u.core.tree d u.granted)
    (hallow : LockClear d u.core a.1 a.2) : Respects d u a := by
  obtain ⟨n, hn, hheld⟩ := hheld
  replace hname : u.core.lcknam = n.val := hname.trans (val_of_dirName? hn).symm
  obtain ⟨w, cmd⟩ := a
  have hkeep : DirKept d u.core.tree (coreStep u.core w cmd).tree → Respects d u (w, cmd) :=
    fun h => ⟨h.made, fun m => .inl (congrFun h.files m)⟩
  cases cmd with
  | look checks =>
    apply hkeep
    rw [show (coreStep u.core w (.look checks)).tree = u.core.tree from tree_looks w u.core checks]
    exact .refl d _
  | mkdir arg =>
    apply hkeep
    simp only [coreStep, cmdMkdir]
    split
    · exact .refl d _
    · exact kept_mkdir d _ _
  | rmkdir arg =>
    apply hkeep
    simp only [coreStep, cmdRmkdir]
    split
    · exact .refl d _
    · exact ⟨files_mkdirs d _ _ _, noneMade_mkdirs d _ _ _⟩
  | ls arg text => exact hkeep (kept_lsTmp hallow)
  | lsr arg text => exact hkeep (kept_lsTmp hallow)
  | sendfile arg all => exact hkeep (kept_sendfile hname hheld arg all)
  | rcvfile arg content gone => exact hkeep (kept_rcvfile hname hheld hallow)
  | del arg =>
    refine ⟨noneMade_del arg, fun m => ?_⟩
    refine (files_del hname hheld hallow m).imp_right fun hm => ⟨⟨arg, rfl⟩, ?_⟩
    rw [hm, hname, val_of_dirName? hn]
  | rmdir arg => exact hkeep (kept_rmdirCmd hallow)
  | rmsecdir arg => exact hkeep (kept_rmsecdir hallow)
  | copy arg => exact hkeep (kept_copy hname hheld arg)
  | cpdir arg => exact hkeep (kept_cpdir hheld arg)
  | xcopy arg => exact hkeep (kept_xcopyCmd hname hheld arg)
  | xcpdir arg => exact hkeep (kept_xcpdirCmd hheld arg)
  | xdel arg => exact hkeep (kept_xdelCmd hname hheld arg)
  | xrmdir arg => exact hkeep (kept_xrmdirCmd hallow)
  | lock arg => exact hkeep (.refl d _)
  | touch arg => exact hkeep (kept_touch hname hheld arg)
  | tasfs arg => exact hkeep (kept_tasfs hname hheld arg)
  | renam arg => exact hkeep (kept_renam hname hheld arg)
  | put path content del => exact hkeep (kept_storeAt id hallow)
  | putcan path content del => exact hkeep (kept_storeAt id hallow)
  | sup path content gone => exact hkeep (kept_storeAt (fun _ => trivial) hallow)
  | intwrite path content => exact hkeep (kept_storeAt id hallow)
  | netmutacqtry path content => exact hkeep (kept_storeAt id hallow)
  | netmutrel path content => exact hkeep (kept_storeAt id hallow)
  | lsv2 arg text gone => exact hkeep (kept_lsrv2 hallow)
  | lsrv2 arg text gone => exact hkeep (kept_lsrv2 hallow)
  | setfsid arg => exact hkeep (.refl d _)
  | setfsperm io arg => exact hkeep (kept_setfsperm hallow)
  | remfsperm io arg => exact hkeep (kept_remfsperm hallow)
  | injail arg => exact hkeep (.refl d _)
  | locksys arg => exact hkeep (.refl d _)
  | flycontext arg =>
    apply hkeep
    simp only [coreStep, cmdFlycontextTree]
    split
    · exact ⟨files_mkdirs d _ _ _, noneMade_mkdirs d _ _ _⟩
    · exact .refl d _
  | faitok uuid line good => exact hkeep (kept_faitok hallow)
  | runbash arg => exact hkeep (kept_runbash hallow)
  | addntfy mem alloc => exact hkeep (kept_addntfy mem alloc)
  | startntfy turns => exact hkeep (kept_startntfy hallow)

/-- A command that is obeyed keeps the name that was accepted. -/
theorem lcknam_of_obeys {d : ℕ} {u v : LockSt} {a : CoreEnv × CoreCmd}
    (hname : u.core.lcknam = u.granted) (hobeys : Obeys d u a) (hnext : lockNext u a = some v) :
    v.core.lcknam = v.granted := by
  obtain rfl := Option.some.inj hnext
  obtain ⟨w, cmd⟩ := a
  cases cmd with
  | lock arg =>
    show arg = if lockAccepted arg then arg else u.granted
    rw [if_pos (hobeys.1 arg rfl)]
  | _ => exact (lcknam_coreStep w u.core (by simp)).trans hname

/-- A session that made the file `lk` in the root and locked the root by it. -/
def exampleLocking : List (CoreEnv × CoreCmd) :=
  [(idleEnv, .touch (lit "lk")), (idleEnv, .lock (lit "lk"))]

end TFProtocol
