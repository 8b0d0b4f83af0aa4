import TFProtocol.Roots

/-!
# Handlers that build paths of their own

`XCOPY` and `XCPDIR` check the source path, walk the whole tree below the root and
append a name from the client to every directory that matches a pattern.  The SQL
subsystems' `BLOBIN` and `BLOBOUT` call `jaildir` for the path it builds, whatever it
returns.

A handler is modelled with the paths it passes to the file system, in order, each
with the checked directory the path was built on.  The probe for a lock file in
`trylck` and the reading of directories are answers of the disk and leave no trace:
their paths are not used for anything else.

## Main definitions

* `DirName`, `Disk` — what a directory can hold, and what the disk answers.
* `Use`, `Mediated` — a path in use, and that it stays where it was checked.
* `cmdXcopy`, `cmdXcpdir`, `sqlBlob` — the handlers.

## Main results

* `cross_mediated`, `sqlBlob_mediated` — the paths these handlers use stay inside,
  for arguments that do not climb.
-/

namespace TFProtocol

open Bytes CStr

/-! ### The disk -/

/-- The name of a directory entry other than `.` and `..`. -/
structure DirName where
  val : List Byte
  nonempty : val ≠ []
  single : slash ∉ val
  not_dot : val ≠ [dot]
  not_dotdot : val ≠ dotdot

/-- What the disk answers. -/
structure Disk extends Fs where
  /-- `stat` succeeds and reports a regular file. -/
  isReg : List Byte → Bool
  /-- The entries below a directory at any depth, as `listdir` finds them. -/
  tree : List Byte → List (List DirName)
  /-- `trylck` finds no lock file in the directory of a path. -/
  unlocked : List Byte → Bool
  mkdirOk : List Byte → Bool
  linkOk : List Byte → List Byte → Bool

/-- An entry below a directory, as `listdir` writes its path. -/
def below (path : List Byte) (ns : List DirName) : List Byte :=
  path ++ ns.flatMap fun n => slash :: n.val

/-- The calls a path is passed to. -/
inductive Syscall
  | access | stat | fopen | open | link | mkdir | unlink
  deriving DecidableEq, Repr

/-- A path in use: the call, the path, and the checked directory it was built
on. -/
structure Use where
  call : Syscall
  path : List Byte
  base : List Byte
  deriving DecidableEq, Repr

/-- The path is inside the root, and text appended to the checked directory does
not leave it. -/
def Mediated (root : List Byte) (u : Use) : Prop := Inside root u.path ∧ Inside u.base u.path

instance (root : List Byte) (u : Use) : Decidable (Mediated root u) :=
  inferInstanceAs (Decidable (_ ∧ _))

/-! ### `XCOPY` and `XCPDIR` -/

/-- The loop of `cpr` over the entries below the source. -/
def cprLoop (d : Disk) (root srcp dstp base : List Byte) : List (List DirName) → List Use
  | [] => []
  | ns :: rest =>
    let src := below srcp ns
    let dst := below dstp ns
    if d.isDir src then
      [⟨.stat, src, root⟩, ⟨.mkdir, dst, base⟩] ++
        (if d.mkdirOk dst then cprLoop d root srcp dstp base rest else [])
    else
      [⟨.stat, src, root⟩, ⟨.link, src, root⟩, ⟨.link, dst, base⟩] ++
        (if d.linkOk src dst then cprLoop d root srcp dstp base rest else [])

/-- `cpr(srcp, dstp)`. -/
def cpr (d : Disk) (root srcp dstp base : List Byte) : List Use :=
  ⟨.mkdir, dstp, base⟩ ::
    (if d.mkdirOk dstp then cprLoop d root srcp dstp base (d.tree srcp) else [])

/-- The arguments of `XCOPY` and `XCPDIR`: the new name, the source, and the
pattern of the destinations. -/
def crossArgs (arg : List Byte) : Option (List Byte × List Byte × List Byte) :=
  match strstr (lit " ") arg with
  | none => none
  | some (newn, rest) =>
    match strstr multipSeps rest with
    | none => none
    | some (srcp, dstpat) => some (newn, srcp, dstpat)

/-- The pattern is found, and the text found is the end of the path. -/
def endsIn (dstpat path : List Byte) : Bool :=
  match strstr dstpat path with
  | some (_, rest) => rest = []
  | none => false

/-- The reply of a handler, the paths it used, and the jail afterwards. -/
structure Handled where
  reply : List Byte
  uses : List Use
  jail : Jail
  deriving DecidableEq, Repr

/-- What `cmd_xcopy` and `cmd_xcpdir` share.  They differ in what the source has
to be, in the texts for a missing and for a wrong source, and in what they do with a
destination. -/
def crossCopy (d : Disk) (j : Jail) (kind : List Byte → Bool) (enoent ewrong : List Byte)
    (act : List Byte → List Byte → List Byte → List Use) (arg beyond : List Byte) : Handled :=
  match crossArgs arg with
  | none => ⟨cmdFailText (lit "16 : Missing parameter from command."), [], j⟩
  | some (newn, srcp, dstpat) =>
    let c := jaildir d.toFs j srcp beyond
    if !c.ok then ⟨cmdFailText (lit "1 : Access denied to location."), [], c.jail⟩
    else if !d.unlocked c.dst then ⟨cmdFailText (lit "30 : Directory is locked."), [], c.jail⟩
    else if !d.access c.dst then
      ⟨cmdFailText enoent, [⟨.access, c.dst, j.dbdir⟩], c.jail⟩
    else
      let checked : List Use := [⟨.access, c.dst, j.dbdir⟩, ⟨.stat, c.dst, j.dbdir⟩]
      if !kind c.dst then ⟨cmdFailText ewrong, checked, c.jail⟩
      else
        ⟨cmdOkText,
          checked ++ ((d.tree j.dbdir).map (below j.dbdir)).flatMap fun prec =>
            if endsIn dstpat prec && d.unlocked (prec ++ [slash] ++ newn) then
              act c.dst (prec ++ [slash] ++ newn) prec
            else [],
          c.jail⟩

/-- `cmd_xcopy`, on the text behind the command name. -/
def cmdXcopy (d : Disk) (j : Jail) (arg beyond : List Byte) : Handled :=
  crossCopy d j d.isReg (lit "17 : Source file does not exist.")
    (lit "23 : Source path is not a file.")
    (fun src dst base => [⟨.link, src, j.dbdir⟩, ⟨.link, dst, base⟩]) arg beyond

/-- `cmd_xcpdir`, on the text behind the command name. -/
def cmdXcpdir (d : Disk) (j : Jail) (arg beyond : List Byte) : Handled :=
  crossCopy d j d.isDir (lit "29 : Source path does not exist.")
    (lit "20 : Source path is not a directory.")
    (fun src dst base => cpr d j.dbdir src dst base) arg beyond

/-! ### The SQL subsystems -/

/-- `strtok` with a blank as separator: the token and the text behind it. -/
def strtokBlank (s : List Byte) : Option (List Byte × List Byte) :=
  let s := s.dropWhile (· = ofChar ' ')
  if s = [] then none
  else
    match strchr (ofChar ' ') s with
    | some (tok, rest) => some (tok, rest)
    | none => some (s, [])

/-- The arguments of `BLOBIN` and `BLOBOUT`: database, table, name and path.  A
missing argument is a null pointer. -/
def blobArgs (arg : List Byte) : Option (List Byte × List Byte × List Byte × List Byte) :=
  match strtokBlank arg with
  | none => none
  | some (id, rest) =>
    match strtokBlank rest with
    | none => none
    | some (table, rest) =>
      match strtokBlank rest with
      | none => none
      | some (name, path) => if path = [] then none else some (id, table, name, path)

/-- `command_blobin` and `command_blobout` of `xs_sqlite.c` and `xs_mysql.c` up to
the file they open: the result of `jaildir` is not looked at.  `found` says which
databases are open. -/
def sqlBlob (fs : Fs) (j : Jail) (found : List Byte → Bool) (arg beyond : List Byte) :
    Option (List Use × Jail) :=
  match blobArgs arg with
  | none => none
  | some (id, _, _, path) =>
    if !found id then some ([], j)
    else
      let c := jaildir fs j path beyond
      some ([⟨.fopen, c.dst, j.dbdir⟩], c.jail)

/-! ### Entries of the tree -/

theorem DirName.descends (ns : List DirName) : Descends (ns.flatMap fun n => slash :: n.val) := by
  apply LexPath.descends_of_not_mem
  have hcomps : LexPath.comps slash dot ([] ++ (ns.map DirName.val).flatMap fun c => slash :: c)
      = LexPath.comps slash dot [] ++ (ns.map DirName.val).flatMap (LexPath.comps slash dot) :=
    LexPath.comps_append_flatMap _ _
  rw [List.nil_append, LexPath.comps_nil, List.nil_append, List.flatMap_map,
    List.flatMap_map] at hcomps
  rw [hcomps, List.mem_flatMap]
  rintro ⟨n, -, hn⟩
  rw [LexPath.comps_of_not_mem n.single] at hn
  have := List.mem_of_mem_filter hn
  rw [List.mem_singleton] at this
  exact n.not_dotdot this.symm

/-- What lies below a directory is inside it. -/
theorem below_inside (path : List Byte) (ns : List DirName) : Inside path (below path ns) := by
  cases ns with
  | nil =>
    rw [below, List.flatMap_nil, List.append_nil]
    exact LexPath.Inside.refl path
  | cons n ns =>
    have hdesc := DirName.descends (n :: ns)
    rw [List.flatMap_cons, List.cons_append] at hdesc
    unfold Descends LexPath.Descends at hdesc
    rw [LexPath.comps_cons_sep] at hdesc
    rw [below, List.flatMap_cons, List.cons_append]
    exact LexPath.inside_append path hdesc

/-! ### Mediation -/

theorem cprLoop_mediated {d : Disk} {root srcp dstp base : List Byte} (hsrc : Inside root srcp)
    (hroot : Inside root dstp) (hbase : Inside base dstp) : ∀ (entries : List (List DirName)),
    ∀ u ∈ cprLoop d root srcp dstp base entries, Mediated root u := by
  intro entries
  induction entries with
  | nil => intro u hu; simp [cprLoop] at hu
  | cons ns rest ih =>
    have hs : Inside root (below srcp ns) := hsrc.trans (below_inside srcp ns)
    have hd : Inside root (below dstp ns) ∧ Inside base (below dstp ns) :=
      ⟨hroot.trans (below_inside dstp ns), hbase.trans (below_inside dstp ns)⟩
    intro u hu
    simp only [cprLoop] at hu
    split at hu
    · simp only [List.cons_append, List.nil_append, List.mem_cons] at hu
      obtain rfl | rfl | hu := hu
      · exact ⟨hs, hs⟩
      · exact hd
      · split at hu
        · exact ih u hu
        · simp at hu
    · simp only [List.cons_append, List.nil_append, List.mem_cons] at hu
      obtain rfl | rfl | rfl | hu := hu
      · exact ⟨hs, hs⟩
      · exact ⟨hs, hs⟩
      · exact hd
      · split at hu
        · exact ih u hu
        · simp at hu

theorem cpr_mediated {d : Disk} {root srcp dstp base : List Byte} (hsrc : Inside root srcp)
    (hroot : Inside root dstp) (hbase : Inside base dstp) :
    ∀ u ∈ cpr d root srcp dstp base, Mediated root u := by
  intro u hu
  obtain rfl | hu := List.mem_cons.mp hu
  · exact ⟨hroot, hbase⟩
  · split at hu
    · exact cprLoop_mediated hsrc hroot hbase _ u hu
    · simp at hu

/-- Arguments of `XCOPY` and `XCPDIR` that stay inside: the new name does not
climb, and the source fits the buffer and is not just `..`. -/
def CrossOk (j : Jail) (arg : List Byte) : Prop :=
  ∀ newn srcp dstpat, crossArgs arg = some (newn, srcp, dstpat) →
    Descends newn ∧ j.dbdir.length + srcp.length < pathMax ∧
      (comps j.dbdir = [] ∨ comps srcp ≠ [dotdot])

/-- What `jaildir` accepts is inside, if it fits the buffer and is not just `..`. -/
theorem accepted_inside {fs : Fs} {j : Jail} (habs : j.dbdir.head? = some slash)
    (hclosed : Closed j.dbdir) {path beyond : List Byte}
    (hok : (jaildir fs j path beyond).ok = true) (hlen : j.dbdir.length + path.length < pathMax)
    (hpath : comps j.dbdir = [] ∨ comps path ≠ [dotdot]) :
    Inside j.dbdir (jaildir fs j path beyond).dst := by
  obtain ⟨hpdir, -⟩ := jaildir_accepts hok
  rw [jaildir_dst]
  rw [jailed_of_lt (by omega)] at hpdir ⊢
  -- a root that shows `/../` itself is refused with the path
  have hroot : IsRoot j.dbdir := by
    obtain ⟨a, ha⟩ := hclosed
    rw [ha] at habs hpdir ⊢
    exact IsRoot.of_closed habs fun h => hpdir (h.trans (List.prefix_append _ _).isInfix)
  exact (append_inside_iff hroot hpdir).mpr hpath

/-- **The paths of `XCOPY` and `XCPDIR` stay inside**, if what is done with a
destination does. -/
theorem cross_mediated {d : Disk} {j : Jail} (habs : j.dbdir.head? = some slash)
    (hclosed : Closed j.dbdir)
    {kind : List Byte → Bool} {enoent ewrong : List Byte}
    {act : List Byte → List Byte → List Byte → List Use}
    (hact : ∀ src dst base, Inside j.dbdir src → Inside j.dbdir dst → Inside base dst →
      ∀ u ∈ act src dst base, Mediated j.dbdir u)
    {arg beyond : List Byte} (harg : CrossOk j arg) :
    ∀ u ∈ (crossCopy d j kind enoent ewrong act arg beyond).uses, Mediated j.dbdir u := by
  unfold crossCopy
  cases hargs : crossArgs arg with
  | none => intro u hu; simp at hu
  | some parts =>
    obtain ⟨newn, srcp, dstpat⟩ := parts
    obtain ⟨hnew, hlen, hsrc⟩ := harg newn srcp dstpat hargs
    dsimp only
    split
    · intro u hu; simp at hu
    · rename_i hok
      have hok' : (jaildir d.toFs j srcp beyond).ok = true := by simpa using hok
      -- the check lets only a trailing `..` through, and `CrossOk` excludes it
      have hin := accepted_inside habs hclosed hok' hlen hsrc
      split
      · intro u hu; simp at hu
      · split
        · intro u hu
          obtain rfl := List.mem_singleton.mp hu
          exact ⟨hin, hin⟩
        · have hchecked : ∀ u ∈ ([⟨.access, (jaildir d.toFs j srcp beyond).dst, j.dbdir⟩,
              ⟨.stat, (jaildir d.toFs j srcp beyond).dst, j.dbdir⟩] : List Use),
              Mediated j.dbdir u := by
            intro u hu
            simp only [List.mem_cons, List.not_mem_nil, or_false] at hu
            obtain rfl | rfl := hu <;> exact ⟨hin, hin⟩
          split
          · exact hchecked
          · intro u hu
            obtain hu | hu := List.mem_append.mp hu
            · exact hchecked u hu
            · obtain ⟨prec, hprec, hu⟩ := List.mem_flatMap.mp hu
              obtain ⟨ns, -, rfl⟩ := List.mem_map.mp hprec
              split at hu
              -- the new name is appended without a check: only `Descends` keeps it inside
              · have hdst : Inside (below j.dbdir ns) (below j.dbdir ns ++ [slash] ++ newn) := by
                  rw [List.append_assoc, List.singleton_append]
                  exact LexPath.inside_append _ hnew
                exact hact _ _ _ hin ((below_inside j.dbdir ns).trans hdst) hdst u hu
              · simp at hu

/-- Arguments of `BLOBIN` and `BLOBOUT` that stay inside. -/
def BlobOk (arg : List Byte) : Prop :=
  ∀ id table name path, blobArgs arg = some (id, table, name, path) →
    Descends path ∧ path.length < pathMax

/-- **The file of `BLOBIN` and `BLOBOUT` is inside**, for a path that does not
climb. -/
theorem sqlBlob_mediated {fs : Fs} {j : Jail} (hroot : Closed j.dbdir) {found : List Byte → Bool}
    {arg beyond : List Byte} (harg : BlobOk arg) :
    ∀ uses j', sqlBlob fs j found arg beyond = some (uses, j') →
      ∀ u ∈ uses, Mediated j.dbdir u := by
  intro uses j' h
  unfold sqlBlob at h
  cases hargs : blobArgs arg with
  | none => simp [hargs] at h
  | some parts =>
    obtain ⟨id, table, name, path⟩ := parts
    obtain ⟨hdesc, hlen⟩ := harg id table name path hargs
    rw [hargs] at h
    dsimp only at h
    split at h
    · cases h
      intro u hu
      simp at hu
    · cases h
      intro u hu
      obtain rfl := List.mem_singleton.mp hu
      have hin : Inside j.dbdir (j.dbdir ++ path) :=
        hroot.inside_append hdesc
      simp only [Mediated, jaildir_dst, jailed_of_lt hlen]
      exact ⟨hin, hin⟩

end TFProtocol
