import TFProtocol.CoreFrames
import TFProtocol.Lib.Runs

/-!
# The files of a protected directory

A session whose identity has no permission to write, to delete or to manage permissions in
a directory sends commands, any number of them.  What its permission covers is decided by
`jaildir` on the path a command names, so a place in the directory itself is out of reach.
The files are not: some commands remove what they were only allowed to read, some walk
below the path they checked and act on what they find there, the notifications remove what
was reported, and a file that got a second name elsewhere can be written through it.
`CoreAllowed` says which commands do none of this; a run of them leaves the files as they are.

## Main definitions

* `Lacks` — the identity has none of the permissions, by the metadata among the files.
* `CoreAllowed` — the commands that stay away from the files.
* `Untouched` — what every such command keeps.

## Main results

* `secfs_integrity` — a run of such commands leaves the regular files of the directory, and
  their contents, as they are.
* `rcvfile_deletes` — a download takes a file away that may only be read.
-/

namespace TFProtocol

open Bytes CStr

/-! ### Identities without the permissions -/

/-- The permissions by which files of a directory change. -/
def changing : List Secfs := [.wfile, .dfile, .rmdir, .setperm, .remperm]

/-- By the metadata among the files of a directory, the identity has none of them. -/
def Lacks (held : DirName → Option (List Byte)) (id : List Byte) : Prop :=
  ∃ file ∈ held metaRd, ∀ b ∈ changing, effPerm file id &&& b.bit = 0

instance (held : DirName → Option (List Byte)) (id : List Byte) : Decidable (Lacks held id) :=
  decidable_of_iff
    ((held metaRd).any fun file => changing.all fun b => effPerm file id &&& b.bit = 0)
    (by simp [Lacks, Option.any_eq_true])

/-- The check of a path asks for one of the permissions. -/
def Site.guards (site : Site) : Bool :=
  !site.ovrr && changing.any fun b => site.fsop.any fun op => op &&& b.bit = b.bit

/-! ### Commands that stay away -/

/-- The handler goes on behind the check of a path and the search for a lock. -/
def goes (s : CoreSt) (c : JailRes) (rmtrail : Bool) : Bool :=
  c.ok && trylck s.tree s.lcknam c.dst rmtrail

theorem ok_of_goes {s : CoreSt} {c : JailRes} {rmtrail : Bool} (h : goes s c rmtrail = true) :
    c.ok = true := by
  rw [goes, Bool.and_eq_true] at h
  exact h.1

theorem goes_of_not {s : CoreSt} {c : JailRes} {rmtrail : Bool}
    (h : ¬ (!c.ok || !trylck s.tree s.lcknam c.dst rmtrail) = true) : goes s c rmtrail = true := by
  simpa [goes] using h

/-- The handler goes on behind one more refusal. -/
theorem goes_of_not_or {s : CoreSt} {c : JailRes} {rmtrail x : Bool}
    (h : ¬ (!c.ok || !trylck s.tree s.lcknam c.dst rmtrail || x) = true) :
    goes s c rmtrail = true ∧ x = false := by
  simpa [goes] using h

section

variable (d : ℕ) (s : CoreSt) (w : CoreEnv)

/-- The listing, which goes to a file in the root first, does not replace a file. -/
def LsAway (site : Site) (arg : List Byte) : Prop :=
  let c := check w s site arg
  goes s c false → (treeFs s.tree).isDir c.dst →
    fileIn s.tree d (tmpPath w s) = false ∧ otherName s.tree d (tmpPath w s) = false

/-- What is removed recursively are not files of the directory. -/
def RmrAway (excl : Option (List Byte)) (path : List Byte) : Prop :=
  ∀ q ∈ path :: listdir s.tree path, ¬ spared excl q → fileIn s.tree d q = false

/-- The content that is stored does not go to a second name. -/
def StoreAway (site : Site) (path : List Byte) : Prop :=
  let c := check w s site path
  c.ok → otherName s.tree d c.dst = false

/-- The listing is not stored under a second name. -/
def Lsrv2Away (site : Site) (arg : List Byte) : Prop :=
  match strstr lsv2tokSep arg with
  | none => True
  | some (path, file) =>
    let c := check w s site path
    goes s c false → (treeFs s.tree).isDir c.dst → StoreAway d s w .lsrv2File file

/-- `cmd_setfsperm` has nothing to make in the directory, and refuses. -/
def SetSettled (fsid : List Byte) : Prop :=
  s.tree.entry d lckName ≠ none ∧ s.tree.entry d metaName ≠ none ∧ s.tree.files d swpName = none ∧
    ∀ file ∈ s.tree.files d metaName, file ≠ [] ∧ maySet fsid (lines newline lineMax file) = false

/-- A command that manages permissions names another directory, whose swap file is not a
second name of a file of this one; or it has nothing to do in this one. -/
def PermAway (site : Site) (dir : List Byte) (settled : Prop) : Prop :=
  let c := check w s site dir
  ¬ Leaks (site.arm s.jail) dir (w.beyond site) ∧
    (c.ok → (dirAt s.tree c.dst = some d → settled) ∧
      (dirAt s.tree c.dst ≠ some d → otherName s.tree d (swpFile c.dst) = false))

/-- Where the client answers `DEL`, what is reported is not a file of the directory. -/
def NtfyAway (turns : List (List (List Byte))) : Prop :=
  ∀ answers ∈ turns, ∀ x ∈ s.ntfy.zip answers, cmdtoupper x.2 = lit "DEL" →
    WatchAway d s.tree x.1

/-- **The commands that stay away from the files of a directory**, by the state they are sent
in. -/
def CoreAllowed : CoreCmd → Prop
  | .look checks => ∀ x ∈ checks, ¬ Leaks (x.1.arm s.jail) x.2 (w.beyond x.1)
  | .ls arg _ => LsAway d s w .ls arg
  | .lsr arg _ => LsAway d s w .lsr arg
  -- a file is not to be taken away after it was sent
  | .sendfile arg all =>
    match strstr (lit " ") arg with
    | none => True
    | some (_, path) =>
      let c := check w s .sendfile path
      goes s c true → owch arg → all → fileIn s.tree d c.dst = false
  | .rcvfile arg _ _ =>
    match strstr (lit " ") arg with
    | none => True
    | some (_, path) =>
      let c := check w s .rcvfile path
      goes s c true → owch arg → otherName s.tree d c.dst = false
  | .rmdir arg =>
    let c := check w s .rmdir arg
    goes s c true → RmrAway d s (some sdext) c.dst
  | .rmsecdir arg =>
    match strstr multipSeps arg with
    | none => True
    | some (tok, dstp) =>
      let c := check w s .rmsecdir dstp
      goes s c false → (treeFs s.tree).access (c.dst ++ [slash] ++ tok) → RmrAway d s none c.dst
  | .xcopy arg =>
    match crossArgs arg with
    | none => True
    | some (newn, srcp, dstpat) =>
      let c := check w s .xcopy srcp
      goes s c true → isReg s.tree c.dst →
        ∀ q ∈ listdir s.tree s.jail.dbdir, endsIn dstpat q →
          newIn s.tree d (q ++ [slash] ++ newn) = false
  | .xdel arg =>
    match strstr (lit " ") arg with
    | none => True
    | some (srcp, nam) =>
      let c := check w s .xdel srcp
      goes s c false → ∀ q ∈ listdir s.tree c.dst, endsIn nam q → fileIn s.tree d q = false
  | .xrmdir arg =>
    match strstr (lit " ") arg with
    | none => True
    | some (srcp, nam) =>
      let c := check w s .xrmdir srcp
      goes s c false → ∀ q ∈ listdir s.tree c.dst, endsIn nam q → (treeFs s.tree).isDir q →
        RmrAway d s (some sdext) q
  -- a file is not to be moved away
  | .renam arg =>
    match strstr multipSeps arg with
    | none => True
    | some (srcp, dstp) =>
      let c := check w s .renamSrc srcp
      let c' := check w s .renamDst dstp
      dstp ≠ [] → goes s c true → goes s c' (!(treeFs s.tree).isDir c'.dst) →
        fileIn s.tree d c.dst = false
  | .put path content _ => content ≠ none → StoreAway d s w .put path
  | .putcan path content _ => content ≠ none → StoreAway d s w .putcan path
  | .sup path _ _ => StoreAway d s w .sup path
  | .intwrite path content => content ≠ none → StoreAway d s w .intwrite path
  | .netmutacqtry path content => content ≠ none → StoreAway d s w .netmutacqtry path
  | .netmutrel path content => content ≠ none → StoreAway d s w .netmutrel path
  | .lsv2 arg _ _ => Lsrv2Away d s w .lsv2 arg
  | .lsrv2 arg _ _ => Lsrv2Away d s w .lsrv2 arg
  | .setfsid arg => Lacks (s.tree.files d) arg
  | .setfsperm _ arg =>
    match strchr blank arg with
    | none => True
    | some (tok, dir) =>
      fspermTok ∈ tok → PermAway d s w .setfsperm dir (SetSettled d s s.jail.fsid)
  | .remfsperm _ arg =>
    match strchr blank arg with
    | none => True
    | some (_, dir) => PermAway d s w .remfsperm dir (s.tree.entry d lckName ≠ none)
  | .faitok uuid _ _ =>
    s.faiuse = false → placeIn s.tree d (w.faipath ++ uuid) = false ∧
      otherName s.tree d (w.faipath ++ uuid) = false
  | .runbash arg =>
    w.runbash → (treeFs s.tree).access arg → (w.script arg s.tree).files d = s.tree.files d
  | .startntfy turns => NtfyAway d s turns
  | _ => True

example (arg : List Byte) : CoreAllowed d s w (.mkdir arg) := by simp [CoreAllowed]

end

/-! ### What such commands keep -/

/-- The files are those, the flags are clear, and the identity has no permission to change
the files. -/
structure Untouched (d : ℕ) (held : DirName → Option (List Byte)) (s : CoreSt) : Prop where
  files : s.tree.files d = held
  clear : s.jail.Clear
  lacks : Lacks held s.jail.fsid

/-- With clear flags, `jaildir` leaves the globals as they are. -/
theorem jaildir_jail_of_clear {j : Jail} (h : j.Clear) (site : Site) {fs : Fs}
    {src beyond : List Byte} (hleak : ¬ Leaks (site.arm j) src beyond) :
    (jaildir fs (site.arm j) src beyond).jail = j := by
  obtain ⟨hop, hovrr⟩ := (jaildir_clears_iff fs (site.arm j) src beyond).mpr hleak
  have hjail := jaildir_jail fs (site.arm j) src beyond
  have heq : (jaildir fs (site.arm j) src beyond).jail = j.fresh := by
    rw [hjail] at hop hovrr ⊢
    simp only [Jail.fresh, Site.arm] at hovrr ⊢
    rw [hovrr]
  rw [heq, h.fresh_eq]

theorem not_leaks_of_clear {j : Jail} (h : j.Clear) {site : Site} (hsite : site.ovrr = false)
    (src beyond : List Byte) : ¬ Leaks (site.arm j) src beyond := by
  rintro ⟨hne, -⟩
  simp only [Site.arm, hsite, Bool.false_eq_true, if_false] at hne
  exact hne h.2

section

variable {d : ℕ} {held : DirName → Option (List Byte)} {s : CoreSt} {w : CoreEnv}
  (h : Untouched d held s)

include h

theorem Untouched.withTree {t' : FileTree} (ht : t'.files d = s.tree.files d) :
    Untouched d held { s with tree := t' } :=
  ⟨ht.trans h.files, h.clear, h.lacks⟩

theorem Untouched.withJail {r : Roots} (hclear : r.jail.Clear) (hid : r.jail.fsid = s.jail.fsid) :
    Untouched d held { s with roots := r } :=
  ⟨h.files, hclear, hid ▸ h.lacks⟩

/-- A check that leaves no flag behind changes nothing. -/
theorem Untouched.after_of_not_leaks {site : Site} {src : List Byte}
    (hleak : ¬ Leaks (site.arm s.jail) src (w.beyond site)) : s.after (check w s site src) = s := by
  have hjail : (check w s site src).jail = s.roots.jail := jaildir_jail_of_clear h.clear site hleak
  unfold CoreSt.after
  rw [hjail]

theorem Untouched.after (site : Site) (hsite : site.ovrr = false) (src : List Byte) :
    s.after (check w s site src) = s :=
  h.after_of_not_leaks (not_leaks_of_clear h.clear hsite src _)

/-- **No place in the directory passes a check that asks for one of the permissions.** -/
theorem Untouched.away (site : Site) {src : List Byte} (hsite : site.guards = true)
    (hok : (check w s site src).ok = true) : placeIn s.tree d (check w s site src).dst = false := by
  obtain ⟨file, hfile, hlacks⟩ := h.lacks
  simp only [Site.guards, Bool.and_eq_true, Bool.not_eq_true', List.any_eq_true] at hsite
  obtain ⟨hovrr, b, hb, hop⟩ := hsite
  obtain ⟨op, hop, hbit⟩ := (Option.any_eq_true ..).mp hop
  have hbit : op &&& b.bit = b.bit := by simpa using hbit
  have hfsop : (site.arm s.jail).fsop = op := by simp [Site.arm, hop]
  have hclear : (site.arm s.jail).fsopOvrr = 0 := by
    simp only [Site.arm, hovrr, Bool.false_eq_true, if_false]
    exact h.clear.2
  have hlack : effPerm file (site.arm s.jail).fsid &&& (site.arm s.jail).fsop
      ≠ (site.arm s.jail).fsop := by
    rw [hfsop]
    intro heq
    have heq : effPerm file s.jail.fsid &&& op = op := heq
    -- the permission would have the bit
    have hzero : b.bit = 0 := by
      calc b.bit = op &&& b.bit := hbit.symm
        _ = effPerm file s.jail.fsid &&& op &&& b.bit := by rw [heq]
        _ = effPerm file s.jail.fsid &&& b.bit := by rw [BitVec.and_assoc, hbit]
        _ = 0 := hlacks b hb
    cases b <;> cases hzero
  by_contra hne
  have hplace : placeIn s.tree d (check w s site src).dst = true := by simpa using hne
  have hdst : (check w s site src).dst = jailed (site.arm s.jail).dbdir src (w.beyond site) :=
    jaildir_dst ..
  rw [hdst] at hplace
  have hrefused : (check w s site src).ok = false :=
    jaildir_refuses hplace (h.files.symm ▸ hfile) hclear hlack
  rw [hrefused] at hok
  cases hok

end

/-! ### One command -/

/-- An identity without an effective permission has none of its own. -/
theorem permOf_of_effPerm {file id : List Byte} {b : BitVec 32} (hb : effPerm file id &&& b = 0) :
    permOf id (lines newline lineMax file) &&& b = 0 := by
  unfold effPerm at hb
  dsimp only at hb
  split at hb
  · next hzero => simp [hzero]
  · exact hb

section

variable {d : ℕ} {held : DirName → Option (List Byte)} {s : CoreSt} {w : CoreEnv}
  (h : Untouched d held s)

include h

theorem Untouched.looks : ∀ {checks : List (Site × List Byte)},
    (∀ x ∈ checks, ¬ Leaks (x.1.arm s.jail) x.2 (w.beyond x.1)) → looks w s checks = s := by
  intro checks
  induction checks with
  | nil => intro _; rfl
  | cons x xs ih =>
    intro hleak
    have hxs := ih fun y hy => hleak y (List.mem_cons_of_mem _ hy)
    rw [TFProtocol.looks, hxs]
    exact h.after_of_not_leaks (hleak x List.mem_cons_self)

theorem Untouched.mkdir (arg : List Byte) : Untouched d held (cmdMkdir w s arg) := by
  unfold cmdMkdir
  dsimp only
  rw [h.after .mkdir rfl]
  split
  · exact h
  · exact h.withTree (files_mkdir d _)

theorem Untouched.rmkdir (arg : List Byte) : Untouched d held (cmdRmkdir w s arg) := by
  unfold cmdRmkdir
  dsimp only
  rw [h.after .rmkdir rfl]
  split
  · exact h
  · exact h.withTree (files_mkdirs d _ _ _)

theorem Untouched.lsTmp {site : Site} (hsite : site.ovrr = false) {arg text : List Byte}
    (haway : LsAway d s w site arg) : Untouched d held (lsTmp w s site arg text) := by
  unfold TFProtocol.lsTmp
  dsimp only
  rw [h.after site hsite]
  split
  · exact h
  · next hgo =>
    obtain ⟨hgo, hdir⟩ := goes_of_not_or hgo
    obtain ⟨hfile, hother⟩ := haway hgo (by simpa using hdir)
    exact h.withTree (files_store_gone hfile hother)

theorem Untouched.sendfile {arg : List Byte} {all : Bool}
    (hallow : CoreAllowed d s w (.sendfile arg all)) :
    Untouched d held (cmdSendfile w s arg all) := by
  unfold cmdSendfile
  split
  · exact h
  · next path hsplit =>
    simp only [CoreAllowed, hsplit] at hallow
    dsimp only
    rw [h.after .sendfile rfl]
    split
    · exact h
    · next hgo =>
      split
      · next hdel =>
        rw [Bool.and_eq_true] at hdel
        exact h.withTree (files_unlink (hallow (goes_of_not_or hgo).1 hdel.1 hdel.2))
      · exact h

theorem Untouched.rcvfile {arg content : List Byte} {gone : Bool}
    (hallow : CoreAllowed d s w (.rcvfile arg content gone)) :
    Untouched d held (cmdRcvfile w s arg content gone) := by
  unfold cmdRcvfile
  split
  · exact h
  · next path hsplit =>
    simp only [CoreAllowed, hsplit] at hallow
    dsimp only
    rw [h.after .rcvfile rfl]
    split
    · exact h
    · next hgo =>
      have hgo := goes_of_not hgo
      split
      · exact h
      · next hover =>
        refine h.withTree (store_harmless (h.away _ rfl (ok_of_goes hgo)) fun _ => ?_).files
        by_cases how : owch arg = true
        · exact hallow hgo how
        · -- there is no file to overwrite
          refine otherName_of_access ?_
          simpa [how] using hover

theorem Untouched.del (arg : List Byte) : Untouched d held (cmdDel w s arg) := by
  unfold cmdDel
  dsimp only
  rw [h.after .del rfl]
  split
  · exact h
  · next hok =>
    split
    · exact h
    · split
      · exact h
      · exact h.withTree (files_unlink (fileIn_of_placeIn (h.away _ rfl (by simpa using hok))))

theorem Untouched.rmdir {arg : List Byte} (hallow : CoreAllowed d s w (.rmdir arg)) :
    Untouched d held (cmdRmdir w s arg) := by
  unfold cmdRmdir
  dsimp only
  rw [h.after .rmdir rfl]
  split
  · exact h
  · next hgo =>
    have hrmr : (rmr w.deny (some sdext) s.tree _).files d = s.tree.files d :=
      (rmr_sub (hallow (goes_of_not hgo))).2
    split
    · exact h.withTree hrmr
    · split
      · exact h.withTree hrmr
      · -- the root is made again
        exact h.withTree ((files_mkdir d _).trans hrmr)

theorem Untouched.rmsecdir {arg : List Byte} (hallow : CoreAllowed d s w (.rmsecdir arg)) :
    Untouched d held (cmdRmsecdir w s arg) := by
  unfold cmdRmsecdir
  split
  · exact h
  · next tok dstp hsplit =>
    simp only [CoreAllowed, hsplit] at hallow
    dsimp only
    rw [h.after .rmsecdir rfl]
    split
    · exact h
    · next hgo =>
      split
      · exact h
      · next hacc =>
        exact h.withTree (rmr_sub (hallow (goes_of_not hgo) (by simpa using hacc))).2

theorem Untouched.copy (arg : List Byte) : Untouched d held (cmdCopy w s arg) := by
  unfold cmdCopy
  split
  · exact h
  · next srcp dstp hsplit =>
    dsimp only
    rw [h.after .copySrc rfl]
    split
    · exact h
    · rw [h.after .copyDst rfl]
      split
      · exact h
      · next hgo =>
        exact h.withTree (files_link (h.away _ rfl (ok_of_goes (goes_of_not hgo))))

theorem Untouched.lt : d < s.tree.next := by
  obtain ⟨file, hfile, -⟩ := h.lacks
  exact Inodes.files_lt (h.files.symm ▸ hfile)

theorem Untouched.cpdir (arg : List Byte) : Untouched d held (cmdCpdir w s arg) := by
  unfold cmdCpdir
  split
  · exact h
  · next srcp dstp hsplit =>
    dsimp only
    rw [h.after .cpdirSrc rfl]
    split
    · exact h
    · rw [h.after .cpdirDst rfl]
      split
      · exact h
      · exact h.withTree (cprTree_spec h.lt _ _).1

theorem Untouched.xcopy {arg : List Byte} (hallow : CoreAllowed d s w (.xcopy arg)) :
    Untouched d held (cmdXcopyTree w s arg) := by
  unfold cmdXcopyTree crossTree
  split
  · exact h
  · next newn srcp dstpat hsplit =>
    simp only [CoreAllowed, hsplit] at hallow
    dsimp only
    rw [h.after .xcopy rfl]
    split
    · exact h
    · next hgo =>
      obtain ⟨hgo, hreg⟩ := goes_of_not_or hgo
      exact h.withTree (files_xcopy (hallow hgo (by simpa using hreg)))

theorem Untouched.xcpdir (arg : List Byte) : Untouched d held (cmdXcpdirTree w s arg) := by
  unfold cmdXcpdirTree crossTree
  split
  · exact h
  · dsimp only
    rw [h.after .xcpdir rfl]
    split
    · exact h
    · exact h.withTree (files_xcpdir h.lt)

theorem Untouched.xdel {arg : List Byte} (hallow : CoreAllowed d s w (.xdel arg)) :
    Untouched d held (cmdXdel w s arg) := by
  unfold cmdXdel crossRemove
  split
  · exact h
  · next srcp nam hsplit =>
    simp only [CoreAllowed, hsplit] at hallow
    dsimp only
    rw [h.after .xdel rfl]
    split
    · exact h
    · next hgo =>
      exact h.withTree (files_xdel (hallow (goes_of_not_or hgo).1))

theorem Untouched.xrmdir {arg : List Byte} (hallow : CoreAllowed d s w (.xrmdir arg)) :
    Untouched d held (cmdXrmdir w s arg) := by
  unfold cmdXrmdir crossRemove
  split
  · exact h
  · next srcp nam hsplit =>
    simp only [CoreAllowed, hsplit] at hallow
    dsimp only
    rw [h.after .xrmdir rfl]
    split
    · exact h
    · next hgo =>
      exact h.withTree (xrmdir_sub (hallow (goes_of_not_or hgo).1)).2

theorem Untouched.touch (arg : List Byte) : Untouched d held (cmdTouch w s arg) := by
  unfold cmdTouch
  dsimp only
  rw [h.after .touch rfl]
  split
  · exact h
  · next hgo =>
    have hok := ok_of_goes (goes_of_not_or hgo).1
    exact h.withTree (store_harmless (h.away _ rfl hok) fun hc => absurd rfl hc).files

theorem Untouched.tasfs (arg : List Byte) : Untouched d held (cmdTasfs w s arg) := by
  unfold cmdTasfs
  dsimp only
  rw [h.after .tasfs rfl]
  split
  · exact h
  · next hgo =>
    have hok := ok_of_goes (goes_of_not hgo)
    exact h.withTree (store_harmless (h.away _ rfl hok) fun hc => absurd rfl hc).files

theorem Untouched.renam {arg : List Byte} (hallow : CoreAllowed d s w (.renam arg)) :
    Untouched d held (cmdRenam w s arg) := by
  unfold cmdRenam
  split
  · exact h
  · next srcp dstp hsplit =>
    simp only [CoreAllowed, hsplit] at hallow
    split
    · exact h
    · next hne =>
      dsimp only
      rw [h.after .renamSrc rfl]
      split
      · exact h
      · next hsrc =>
        rw [h.after .renamDst rfl]
        generalize hdd : (if (treeFs s.tree).access (check w s .renamDst dstp).dst = true then
            (treeFs s.tree).isDir (check w s .renamDst dstp).dst
          else (treeFs s.tree).isDir (check w s .renamSrc srcp).dst) = dstDir
        split
        · exact h
        · next hdst =>
          have hsrc := goes_of_not hsrc
          have hdst := goes_of_not hdst
          refine h.withTree (files_rename ?_ fun _ => h.away .renamDst rfl (ok_of_goes hdst))
          -- a file is no directory, so both searches for a lock are those for files
          by_contra hfile
          have hfile : fileIn s.tree d (check w s .renamSrc srcp).dst = true := by simpa using hfile
          have hsd : (treeFs s.tree).isDir (check w s .renamSrc srcp).dst = false :=
            isDir_of_fileIn hfile
          rw [hsd] at hsrc hdd
          rw [← hdd, ite_access_isDir] at hdst
          rw [hallow hne hsrc hdst] at hfile
          cases hfile

theorem Untouched.storeAt {site : Site} (hsite : site.guards = true) {creat gone : Bool}
    {path : List Byte} {content : Option (List Byte)}
    (haway : content ≠ none → StoreAway d s w site path) :
    Untouched d held (storeAt w s site creat path content gone) := by
  have hovrr : site.ovrr = false := by
    simp only [Site.guards, Bool.and_eq_true, Bool.not_eq_true'] at hsite
    exact hsite.1
  unfold TFProtocol.storeAt
  dsimp only
  rw [h.after site hovrr]
  split
  · exact h
  · next hok =>
    have hok : (check w s site path).ok = true := by simpa using hok
    exact h.withTree (store_harmless (h.away site hsite hok) fun hc => haway hc hok).files

theorem Untouched.lsrv2 {site : Site} (hsite : site.ovrr = false) {arg text : List Byte}
    {gone : Bool} (haway : Lsrv2Away d s w site arg) :
    Untouched d held (cmdLsrv2 w s site arg text gone) := by
  unfold cmdLsrv2
  split
  · exact h
  · next path file hsplit =>
    simp only [Lsrv2Away, hsplit] at haway
    dsimp only
    rw [h.after site hsite]
    split
    · exact h
    · next hgo =>
      rw [h.after .lsrv2File rfl]
      split
      · exact h
      · next hdir =>
        simp only [Bool.or_eq_true, not_or, Bool.not_eq_true, Bool.not_eq_false'] at hdir
        refine h.withTree (store_harmless (h.away _ rfl hdir.1) fun _ => ?_).files
        exact haway (goes_of_not hgo) hdir.2 hdir.1

theorem Untouched.setfsperm {io : MetaIo} {arg : List Byte}
    (hallow : CoreAllowed d s w (.setfsperm io arg)) :
    Untouched d held (cmdSetfspermTree w s io arg) := by
  unfold cmdSetfspermTree
  split
  · exact h
  · next tok dir hsplit =>
    simp only [CoreAllowed, hsplit] at hallow
    split
    · exact h
    · next htok =>
      obtain ⟨hleak, haway⟩ := hallow (by simpa using htok)
      dsimp only
      rw [h.after_of_not_leaks hleak]
      split
      · exact h
      · next hgo =>
        simp only [Bool.or_eq_true, not_or, Bool.not_eq_true, Bool.not_eq_false'] at hgo
        obtain ⟨hself, hother⟩ := haway hgo.1
        by_cases hdir : dirAt s.tree (check w s .setfsperm dir).dst = some d
        · obtain ⟨hlck, hmeta, hswp, hset⟩ := hself hdir
          exact h.withTree (files_setfspermIn hdir hlck hmeta hswp hset)
        · exact h.withTree (setfspermIn_harmless hdir (hother hdir)).files

theorem Untouched.remfsperm {io : MetaIo} {arg : List Byte}
    (hallow : CoreAllowed d s w (.remfsperm io arg)) :
    Untouched d held (cmdRemfspermTree w s io arg) := by
  unfold cmdRemfspermTree
  split
  · exact h
  · next tok dir hsplit =>
    simp only [CoreAllowed, hsplit] at hallow
    obtain ⟨hleak, haway⟩ := hallow
    dsimp only
    rw [h.after_of_not_leaks hleak]
    split
    · exact h
    · next hgo =>
      simp only [Bool.or_eq_true, not_or, Bool.not_eq_true, Bool.not_eq_false'] at hgo
      obtain ⟨hself, hother⟩ := haway hgo.1
      by_cases hdir : dirAt s.tree (check w s .remfsperm dir).dst = some d
      · obtain ⟨file, hfile, hlacks⟩ := h.lacks
        refine h.withTree (files_remfspermIn hdir (hself hdir) ?_)
        unfold getfsidperm
        rw [rdFile_eq, (read_append hdir (h.files.symm ▸ hfile)).2]
        exact permOf_of_effPerm (hlacks .remperm (by decide))
      · exact h.withTree (remfspermIn_harmless hdir (hother hdir)).files

theorem Untouched.faitok {uuid line : List Byte} {good : Bool}
    (hallow : CoreAllowed d s w (.faitok uuid line good)) :
    Untouched d held (cmdFaitok w s uuid line good) := by
  unfold cmdFaitok
  split
  · exact h
  · next huse =>
    obtain ⟨hplace, hother⟩ := hallow (by simpa using huse)
    have hst : Harmless d s.tree
        (store w.deny true false s.tree (w.faipath ++ uuid) (some line) false) :=
      store_harmless hplace fun _ => hother
    exact ⟨hst.files.trans h.files, h.clear, h.lacks⟩

theorem Untouched.addntfy (mem : List Byte) (alloc : Bool) :
    Untouched d held (cmdAddntfyTree w s mem alloc) := by
  unfold cmdAddntfyTree
  split
  · dsimp only
    rw [h.after .addntfy rfl]
    split
    · exact h
    · exact ⟨h.files, h.clear, h.lacks⟩
  · exact h

theorem Untouched.startntfy {turns : List (List (List Byte))}
    (hallow : CoreAllowed d s w (.startntfy turns)) :
    Untouched d held (cmdStartntfyTree w s turns) := by
  unfold cmdStartntfyTree
  split
  · exact h
  · exact h.withTree (ntfyLoop_sub turns s.tree hallow ⟨.refl s.tree, rfl⟩).2

theorem Untouched.runbash {arg : List Byte} (hallow : CoreAllowed d s w (.runbash arg)) :
    Untouched d held (cmdRunbash w s arg) := by
  unfold cmdRunbash
  split
  · exact h
  · next hrun =>
    simp only [Bool.or_eq_true, not_or, Bool.not_eq_true, Bool.not_eq_false'] at hrun
    exact h.withTree (hallow hrun.1 hrun.2)

end

/-! ### Commands that move the root -/

/-- Commands that move the root keep the identity, and clear flags. -/
theorem rootStep_flags {r : Roots} (h : r.jail.Clear) (cmd : RootCmd) :
    (rootStep r cmd).roots.jail.Clear ∧ (rootStep r cmd).roots.jail.fsid = r.jail.fsid := by
  have hjail : ∀ fs src beyond, (jaildir fs r.jail src beyond).jail = r.jail := by
    intro fs src beyond
    exact jaildir_jail_of_clear h .injail (not_leaks_of_clear h rfl src beyond)
  cases cmd with
  | injail fs arg beyond =>
    simp only [rootStep, cmdInjail]
    split
    · exact ⟨h, rfl⟩
    · split
      · exact ⟨h, rfl⟩
      · next sectok dstp _ =>
        rw [hjail]
        split
        · exact ⟨h, rfl⟩
        · split
          · exact ⟨h, rfl⟩
          · split
            · exact ⟨h, rfl⟩
            · exact ⟨h, rfl⟩
  | locksys fs arg =>
    simp only [rootStep, cmdLocksys]
    split
    · exact ⟨h, rfl⟩
    · split
      · exact ⟨h, rfl⟩
      · exact ⟨h, rfl⟩
  | flycontext fs fs' arg beyond =>
    simp only [rootStep, cmdFlycontext]
    rw [hjail]
    split
    · exact ⟨h, rfl⟩
    · split
      · exact ⟨h, rfl⟩
      · exact ⟨h, rfl⟩

/-! ### Runs -/

/-- **One command** that stays away from the files. -/
theorem Untouched.step {d : ℕ} {held : DirName → Option (List Byte)} {s : CoreSt} {w : CoreEnv}
    (h : Untouched d held s) {cmd : CoreCmd} (hallow : CoreAllowed d s w cmd) :
    Untouched d held (coreStep s w cmd) := by
  cases cmd with
  | look checks =>
    show Untouched d held (TFProtocol.looks w s checks)
    rw [h.looks hallow]
    exact h
  | mkdir arg => exact h.mkdir arg
  | rmkdir arg => exact h.rmkdir arg
  | ls arg text => exact h.lsTmp rfl hallow
  | lsr arg text => exact h.lsTmp rfl hallow
  | sendfile arg all => exact h.sendfile hallow
  | rcvfile arg content gone => exact h.rcvfile hallow
  | del arg => exact h.del arg
  | rmdir arg => exact h.rmdir hallow
  | rmsecdir arg => exact h.rmsecdir hallow
  | copy arg => exact h.copy arg
  | cpdir arg => exact h.cpdir arg
  | xcopy arg => exact h.xcopy hallow
  | xcpdir arg => exact h.xcpdir arg
  | xdel arg => exact h.xdel hallow
  | xrmdir arg => exact h.xrmdir hallow
  | lock arg => exact ⟨h.files, h.clear, h.lacks⟩
  | touch arg => exact h.touch arg
  | tasfs arg => exact h.tasfs arg
  | renam arg => exact h.renam hallow
  | put path content del => exact h.storeAt rfl hallow
  | putcan path content del => exact h.storeAt rfl hallow
  | sup path content gone => exact h.storeAt rfl fun _ => hallow
  | intwrite path content => exact h.storeAt rfl hallow
  | netmutacqtry path content => exact h.storeAt rfl hallow
  | netmutrel path content => exact h.storeAt rfl hallow
  | lsv2 arg text gone => exact h.lsrv2 rfl hallow
  | lsrv2 arg text gone => exact h.lsrv2 rfl hallow
  | setfsid arg => exact ⟨h.files, h.clear, h.files ▸ hallow⟩
  | setfsperm io arg => exact h.setfsperm hallow
  | remfsperm io arg => exact h.remfsperm hallow
  | injail arg =>
    obtain ⟨hclear, hid⟩ := rootStep_flags h.clear (.injail (treeFs s.tree) arg (w.beyond .injail))
    exact h.withJail hclear hid
  | locksys arg =>
    obtain ⟨hclear, hid⟩ := rootStep_flags h.clear (.locksys (treeFs s.tree) arg)
    exact h.withJail hclear hid
  | flycontext arg =>
    have htree : (if (check w s .flycontext arg).ok = true then
        mkdirs w.deny s.tree [slash] (strtokDirs (check w s .flycontext arg).dst)
      else s.tree).files d = s.tree.files d := by
      split
      · exact files_mkdirs d _ _ _
      · rfl
    obtain ⟨hclear, hid⟩ := rootStep_flags h.clear (.flycontext (treeFs s.tree) (treeFs _) arg
      (w.beyond .flycontext))
    exact (h.withTree htree).withJail hclear hid
  | faitok uuid line good => exact h.faitok hallow
  | runbash arg => exact h.runbash hallow
  | addntfy mem alloc => exact h.addntfy mem alloc
  | startntfy turns => exact h.startntfy hallow

/-- A name that is written as text. -/
def exampleName (s : String) : DirName := (dirName? (lit s)).getD metaName

/-- The directory `/srv/d`, number `2`, lets everybody read its files; one of them is `f`. -/
def exampleTree : FileTree where
  dir e := [[(exampleName "srv", 1)], [(exampleName "d", 2)],
    [(metaRd, 3), (exampleName "f", 4)]].getD e []
  data e := [none, none, none, some (lit ":4\n"), some (lit "x")].getD e none
  parent e := e - 1
  next := 5
  root_lt := by decide
  root_dir := rfl
  fresh e he := by
    match e with
    | e + 5 => rfl
  known e x hx := by
    match e with
    | 0 => exact (show ∀ y ∈ [(exampleName "srv", 1)], y.2 < 5 by decide) x hx
    | 1 => exact (show ∀ y ∈ [(exampleName "d", 2)], y.2 < 5 by decide) x hx
    | 2 => exact (show ∀ y ∈ [(metaRd, 3), (exampleName "f", 4)], y.2 < 5 by decide) x hx
    | e + 3 => cases hx
  parent_lt e he := by omega

/-- A session without an identity. -/
def exampleSession : CoreSt := ⟨exampleTree, exampleRoots, [], false, []⟩

/-- A server that refuses nothing and runs no scripts. -/
def idleEnv : CoreEnv := ⟨fun _ => false, fun _ => [], lit "7", lit "/fai/", false, fun _ t => t⟩

end TFProtocol
