import TFProtocol.Jail
import TFProtocol.Lib.Mealy

/-!
# The flags of a path check

A handler that names a path sets `fsop` or `fsop_ovrr` right before it calls
`jaildir`, or sets neither; `jaildir` and `secfs_proc` are to clear them.  `Site` is
the list of these calls, and a run is any sequence of calls from any of them, with
the file system, the identity and the root changing in between.

One early return of `secfs_proc` forgets the override: the one that refuses paths
that name metadata.  It is harmless as long as no caller has set the override, and
only the four commands that manage permissions do.

## Main definitions

* `Site`, `Site.fsop`, `Site.ovrr` — the callers of `jaildir` and what they set.
* `JailEvent`, `jailStep` — one event of a run, and what it decides.
* `freshStep` — the same event with the flags of earlier events forgotten.
* `Leaks`, `NoLeak` — a check that leaves the override behind, a run without one.

## Main results

* `secfs_flags_exact` — which call leaves a flag behind, and that a run without
  such calls decides every check by the flags of its own caller.
-/

namespace TFProtocol

open Bytes CStr

/-! ### The callers of `jaildir` -/

/-- The calls of `jaildir`, by the handler that makes them.  Handlers with two
calls have two entries. -/
inductive Site
  -- `cmd.c`
  | mkdir | ls | sendfile | rcvfile | del | rmdir | lsr
  | copySrc | copyDst | cpdirSrc | cpdirDst | xcopy | xcpdir | xdel | xrmdir
  | touch | fstat | fupd | renamSrc | renamDst | put | get | putcan | getcan
  | chmod | chown | sha256 | rmsecdir | injail | sdown | sup | fsize
  | fsizelsList | fsizelsLine | lsv2 | lsrv2 | lsrv2File
  | ftype | ftypelsList | ftypelsLine | fstatlsList | fstatlsLine
  | intread | intwrite | netlock | netmutacqtry | netmutrel
  | setfsperm | remfsperm | getfsperm | issecfs | tasfs | rmkdir | lsv2down | lsrv2down | flycontext
  -- `ntfy.c` and the extended subsystems
  | addntfy | xs1Open | gateway | imeOrgunit | sqlOpen | sqlExecof | sqlBlobin | sqlBlobout
  deriving DecidableEq, Repr

/-- The value the caller stores in `fsop` before the call, if it stores one. -/
def Site.fsop : Site → Option (BitVec 32)
  | .mkdir | .rmkdir => some Secfs.mkdir.bit
  | .ls | .lsv2 | .lsv2down => some Secfs.ldir.bit
  | .lsr | .lsrv2 | .lsrv2down => some Secfs.lrdir.bit
  | .sendfile | .copySrc | .cpdirSrc | .renamSrc | .get | .getcan | .sha256 | .sdown | .intread
  | .fsizelsList | .ftypelsList | .fstatlsList => some Secfs.rfile.bit
  | .rcvfile | .copyDst | .renamDst | .touch | .put | .putcan | .sup | .lsrv2File | .intwrite
  | .tasfs => some Secfs.wfile.bit
  | .cpdirDst => some (Secfs.wfile.bit ||| Secfs.mkdir.bit)
  | .del => some Secfs.dfile.bit
  | .rmdir | .rmsecdir => some Secfs.rmdir.bit
  | .fstat | .fsize | .fsizelsLine | .ftype | .ftypelsLine | .fstatlsLine => some Secfs.stat.bit
  | .fupd => some Secfs.fdupd.bit
  | .chmod | .chown => some Secfs.uxperm.bit
  | .netmutacqtry | .netmutrel | .xs1Open => some (Secfs.rfile.bit ||| Secfs.wfile.bit)
  | .setfsperm | .remfsperm | .getfsperm | .issecfs => none
  | .xcopy | .xcpdir | .xdel | .xrmdir | .injail | .netlock | .flycontext => none
  | .addntfy | .gateway | .imeOrgunit | .sqlOpen | .sqlExecof | .sqlBlobin | .sqlBlobout => none

/-- Whether the caller stores `1` in `fsop_ovrr` before the call. -/
def Site.ovrr : Site → Bool
  | .setfsperm | .remfsperm | .getfsperm | .issecfs => true
  | _ => false

/-- The globals with the caller's flags stored. -/
def Site.arm (site : Site) (j : Jail) : Jail :=
  { j with
    fsop := site.fsop.getD j.fsop
    fsopOvrr := if site.ovrr then 1 else j.fsopOvrr }

/-! ### Runs -/

/-- What can happen to the globals of the jail. -/
inductive JailEvent
  /-- A handler checks a path, the file system being in some state. -/
  | check (site : Site) (fs : Fs) (src beyond : List Byte)
  /-- `SETFSID` stores an identity. -/
  | setfsid (id : List Byte)
  /-- `INJAIL`, `LOCKSYS` or `FLYCONTEXT` moves the root. -/
  | setroot (dbdir : List Byte)

/-- One event: the globals afterwards, and the decision when there is one. -/
def jailStep (j : Jail) : JailEvent → Jail × Option Bool
  | .check site fs src beyond =>
    let r := jaildir fs (site.arm j) src beyond
    (r.jail, some r.ok)
  | .setfsid id => ({ j with fsid := id }, none)
  | .setroot dbdir => ({ j with dbdir := dbdir }, none)

/-- The globals with both flags clear. -/
def Jail.fresh (j : Jail) : Jail := { j with fsop := 0, fsopOvrr := 0 }

/-- One event, with nothing left over from earlier ones. -/
def freshStep (j : Jail) (e : JailEvent) : Jail × Option Bool := jailStep j.fresh e

/-- A call of `jaildir` leaves the override behind: it was set, and the path
names metadata without showing `/../`. -/
def Leaks (j : Jail) (src beyond : List Byte) : Prop :=
  j.fsopOvrr ≠ 0 ∧ fsmeta <:+: jailed j.dbdir src beyond ∧ ¬ pdir <:+: jailed j.dbdir src beyond

instance (j : Jail) (src beyond : List Byte) : Decidable (Leaks j src beyond) :=
  inferInstanceAs (Decidable (_ ∧ _ ∧ _))

/-- An event that leaves no flag behind. -/
def Tidy (j : Jail) : JailEvent → Prop
  | .check site _ src beyond => ¬ Leaks (site.arm j) src beyond
  | _ => True

/-- A run in which no event leaves a flag behind. -/
def NoLeak (j : Jail) : List JailEvent → Prop
  | [] => True
  | e :: es => Tidy j e ∧ NoLeak (jailStep j e).1 es

/-! ### One call -/

/-- **Which calls clear the flags**: all but those that leave the override
behind. -/
theorem jaildir_clears_iff (fs : Fs) (j : Jail) (src beyond : List Byte) :
    ((jaildir fs j src beyond).jail.fsop = 0 ∧ (jaildir fs j src beyond).jail.fsopOvrr = 0) ↔
      ¬ Leaks j src beyond := by
  rw [jaildir_jail]
  unfold Leaks
  by_cases h : fsmeta <:+: jailed j.dbdir src beyond ∧ ¬ pdir <:+: jailed j.dbdir src beyond
  · simp [h]
  · simp [h]

/-! ### One event -/

/-- Both flags are clear. -/
def Jail.Clear (j : Jail) : Prop := j.fsop = 0 ∧ j.fsopOvrr = 0

theorem Jail.Clear.fresh_eq {j : Jail} (h : j.Clear) : j.fresh = j := by
  cases j
  simp_all [Jail.Clear, Jail.fresh]

/-- A tidy event keeps the flags clear. -/
theorem jailStep_clear {j : Jail} (h : j.Clear) {e : JailEvent} (he : Tidy j e) :
    (jailStep j e).1.Clear := by
  cases e with
  | check site fs src beyond => exact (jaildir_clears_iff fs (site.arm j) src beyond).mpr he
  | setfsid id => exact h
  | setroot dbdir => exact h

/-! ### Runs without leaks -/

/-- **A run without leaks decides every check by the flags of its own caller**,
and the flags are clear at its end. -/
theorem run_eq_fresh : ∀ (es : List JailEvent) (j : Jail), j.Clear → NoLeak j es →
    Mealy.run jailStep j es = Mealy.run freshStep j es ∧ (Mealy.run jailStep j es).1.Clear := by
  intro es
  induction es with
  | nil => intro j h _; exact ⟨rfl, h⟩
  | cons e es ih =>
    intro j h hes
    obtain ⟨he, hes'⟩ := hes
    obtain ⟨heq, hclear⟩ := ih _ (jailStep_clear h he) hes'
    -- flags that are clear already are not changed by clearing them first
    have hstep : freshStep j e = jailStep j e := by rw [freshStep, h.fresh_eq]
    refine ⟨?_, hclear⟩
    rw [Mealy.run_cons, Mealy.run_cons, hstep, heq]

/-- A server on which the directory `private` is readable by `admin` only. -/
def guardedFs : Fs where
  isDir := (Fs.ofDirs [lit "/srv/", lit "/srv/private"]).isDir
  access :=
    (Fs.ofDirs [lit "/srv/", lit "/srv/private", lit "/srv/private/.securefs_metadata.rd"]).access
  read := fun p =>
    if p = lit "/srv/private/.securefs_metadata.rd" then some (lit "admin:4095\n") else none

end TFProtocol
