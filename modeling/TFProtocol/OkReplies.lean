import TFProtocol.CoreCmds
import TFProtocol.NetMutex

/-!
# What an `OK` stands for

Ten handlers of `cmd.c` make one call that does what the command is for: they check their
arguments, make the call, and answer from what it returned.  Here a call can return anything,
a value or any `errno`.

## Main definitions

* `EffectCall`, `OkEnv` — the calls, and what a handler finds around it.
* `OkCmd.call` — the checks of a handler: the call it comes to, or its reply.
* `OkCmd.answered` — the reply to what the call returned.
* `OkCmd.Done` — the call was made and went well.
* `OkCmd.Seen` — the answers of a call that the handler tells apart.

## Main results

* `ok_means_done_iff` — a handler replies `OK` exactly when the call went well, unless the
  answer is one it does not see.
-/

namespace TFProtocol

open Bytes CStr

/-! ### Calls -/

/-- The calls that do what the commands are for. -/
inductive EffectCall
  | mkdir (path : List Byte)
  | unlink (path : List Byte)
  | link (src dst : List Byte)
  | rename (src dst : List Byte)
  /-- `open` with `O_CREAT`, and with `O_EXCL` if it must not be there. -/
  | creat (path : List Byte) (excl : Bool)
  | chmod (path : List Byte) (mode : ℤ)
  | chown (path : List Byte) (uid gid : ℕ)
  | utime (path : List Byte)
  | ftruncate (path : List Byte)
  deriving DecidableEq, Repr

/-- What a call returns: a value, or `-1` with a value of `errno`. -/
abbrev SysAns := Except ℕ ℕ

/-- The value the caller gets. -/
def SysAns.ret : SysAns → ℤ
  | .ok v => v
  | .error _ => -1

/-- `EPERM`. -/
def eperm : ℕ := 1

/-- `ENOENT`. -/
def enoent : ℕ := 2

/-- `EACCES`. -/
def eacces : ℕ := 13

/-- `EEXIST`. -/
def eexist : ℕ := 17

/-- What a handler finds around it. -/
structure OkEnv where
  fs : Fs
  jail : Jail
  lcknam : List Byte
  /-- What lies behind a path that is too long. -/
  beyond : Site → List Byte
  /-- `stat` succeeds. -/
  stats : List Byte → Bool
  getpwnam : List Byte → Option ℕ
  getgrnam : List Byte → Option ℕ
  /-- What the calls of `cmd_netmutrel` return, and the content of the mutex. -/
  opens : Bool
  locks : Bool
  reads : Bool
  mutex : List Byte
  answer : EffectCall → SysAns

/-! ### Checks -/

/-- The checks of a handler: it goes on with a value, or has replied. -/
abbrev Checks := Except (List Byte)

/-- `cmd_fail(arg)` and a return. -/
def refuse {α : Type} (arg : List Byte) : Checks α := .error (cmdFailText arg)

/-- `cmd_fail(arg)` and a return, unless a condition holds. -/
def demand (ok : Bool) (arg : List Byte) : Checks Unit := if ok then .ok () else refuse arg

/-- An argument that may be missing. -/
def need {α : Type} (x : Option α) (arg : List Byte) : Checks α :=
  match x with
  | some a => .ok a
  | none => refuse arg

theorem checks_ok_bind {α β : Type} (a : α) (f : α → Checks β) :
    ((.ok a : Checks α) >>= f) = f a := rfl

theorem checks_refuse_bind {α β : Type} (arg : List Byte) (f : α → Checks β) :
    ((refuse arg : Checks α) >>= f) = refuse arg := rfl

/-- `jaildir`, with the flags its caller stores. -/
def OkEnv.jaildir (e : OkEnv) (j : Jail) (site : Site) (src : List Byte) : Checks JailRes :=
  let c := TFProtocol.jaildir e.fs (site.arm j) src (e.beyond site)
  if c.ok then .ok c else refuse cmdEaccess

/-- `trylck(path, lcknam, rmtrail)` is not `0`. -/
def OkEnv.trylck (e : OkEnv) (path : List Byte) (rmtrail : Bool) : Bool :=
  e.lcknam = [] || !e.fs.access ((if rmtrail then cutLast path else path) ++ [slash] ++ e.lcknam)

/-- `CMD_ELOCKED`. -/
def cmdElocked : List Byte := lit "30 : Directory is locked."

/-- `CMD_EPARAM`. -/
def cmdEparam : List Byte := lit "16 : Missing parameter from command."

/-- `CMD_EFILENOENT`. -/
def cmdEfilenoent : List Byte := lit "9 : File does not exist."

/-- `CMD_EFILEXIST`. -/
def cmdEfilexist : List Byte := lit "12 : File already exist."

/-- `strtol` in base eight. -/
def strtolOctal (s : List Byte) : ℤ :=
  let s := s.dropWhile isSpace
  let neg := s.head? = some 45
  let s := if s.head? = some 45 ∨ s.head? = some 43 then s.tail else s
  let digits := s.takeWhile fun b => 48 ≤ b.toNat && b.toNat ≤ 55
  let n : ℤ := (digits.foldl (fun n d => 8 * n + (d.toNat - 48)) 0 : ℕ)
  if neg then max (-2 ^ 63) (-n) else min (2 ^ 63 - 1) n

/-! ### The handlers

Each takes the memory behind the command name. -/

section

variable (e : OkEnv) (mem : List Byte)

/-- `cmd_mkdir` up to `mkdir`. -/
def mkdirCall : Checks EffectCall := do
  let c ← e.jaildir e.jail .mkdir (cstr mem)
  demand (e.trylck c.dst true) cmdElocked
  return .mkdir c.dst

/-- `cmd_mkdir` behind `mkdir`. -/
def mkdirAnswered : SysAns → List Byte
  | .ok _ => cmdOkText
  | .error errno =>
    if errno = eexist then cmdFailText (lit "4 : Directory already exist.")
    else cmdFailText cmdEaccess

/-- `cmd_del` up to `unlink`. -/
def delCall : Checks EffectCall := do
  let c ← e.jaildir e.jail .del (cstr mem)
  -- a lock file itself can be deleted
  demand (endsIn e.lcknam c.dst || e.trylck c.dst true) cmdElocked
  demand (e.fs.access c.dst) cmdEfilenoent
  demand (!e.fs.isDir c.dst) (lit "8 : Requested file is a directory.")
  return .unlink c.dst

/-- `cmd_del` behind `unlink`. -/
def delAnswered : SysAns → List Byte
  | .ok _ => cmdOkText
  | .error errno =>
    if errno = eacces then cmdFailText cmdEaccess
    else if errno = enoent then cmdFailText cmdEfilenoent
    -- `cmd_fail(NULL)`
    else cmdFailText []

/-- `cmd_copy` up to `link`. -/
def copyCall : Checks EffectCall := do
  let (srcp, dstp) ← need (strstr multipSeps (cstr mem)) cmdEparam
  let c ← e.jaildir e.jail .copySrc srcp
  demand (e.trylck c.dst true) cmdElocked
  demand (!e.fs.isDir c.dst) (lit "19 : Directory can't be linked.")
  let c' ← e.jaildir c.jail .copyDst dstp
  demand (e.trylck c'.dst true) cmdElocked
  return .link c.dst c'.dst

/-- `cmd_copy` behind `link`. -/
def copyAnswered : SysAns → List Byte
  | .ok _ => cmdOkText
  | .error errno =>
    if errno = eacces then cmdFailText cmdEaccess
    else if errno = eexist then cmdFailText cmdEfilexist
    else if errno = enoent then cmdFailText (lit "17 : Source file does not exist.")
    else cmdFailText (lit "18 : Copy general error.")

/-- `cmd_renam` up to `rename`. -/
def renamCall : Checks EffectCall := do
  let (srcp, dstp) ← need (strstr multipSeps (cstr mem)) cmdEparam
  demand (dstp ≠ []) cmdEparam
  let c ← e.jaildir e.jail .renamSrc srcp
  let srcDir := e.fs.isDir c.dst
  demand (e.trylck c.dst (!srcDir)) cmdElocked
  let c' ← e.jaildir c.jail .renamDst dstp
  -- `st` still describes the source if the second `stat` fails
  let dstDir := if e.stats c'.dst then e.fs.isDir c'.dst else srcDir
  demand (e.trylck c'.dst (!dstDir)) cmdElocked
  return .rename c.dst c'.dst

/-- What the handlers share that have one error for their call. -/
def failsWith (arg : List Byte) : SysAns → List Byte
  | .ok _ => cmdOkText
  | .error _ => cmdFailText arg

/-- `cmd_renam` behind `rename`. -/
def renamAnswered : SysAns → List Byte := failsWith (lit "31 : Invalid renaming operation.")

/-- `cmd_touch` up to `open`. -/
def touchCall : Checks EffectCall := do
  let c ← e.jaildir e.jail .touch (cstr mem)
  demand (e.trylck c.dst true) cmdElocked
  demand (!e.fs.access c.dst) cmdEfilexist
  return .creat c.dst false

/-- `cmd_touch` behind `open`: the descriptor is compared with `0`. -/
def touchAnswered (a : SysAns) : List Byte :=
  if a.ret = 0 then cmdFailText (lit "24 : Error creating new file.") else cmdOkText

/-- `cmd_chmod` up to `chmod`. -/
def chmodCall : Checks EffectCall := do
  let (path, bits) ← need (strstr (lit " ") (cstr mem)) cmdEparam
  let c ← e.jaildir e.jail .chmod path
  return .chmod c.dst (cint (strtolOctal bits))

/-- `cmd_chmod` behind `chmod`: two values of `errno` have a reply of their own. -/
def chmodAnswered : SysAns → List Byte
  | .ok _ => cmdOkText
  | .error errno =>
    if errno = enoent then cmdFailText cmdEfilenoent
    else if errno = eperm then cmdFailText (lit "41 : Failed to change file mode.")
    else cmdOkText

/-- `cmd_chown` up to `chown`.  The blank behind the user is looked for from the second
character of the user on, whether the first is there or not. -/
def chownCall : Checks EffectCall := do
  let (path, _) ← need (strstr (lit " ") (cstr mem)) cmdEparam
  let c ← e.jaildir e.jail .chown path
  let rest := mem.drop (path.length + 1)
  let (first, grp) ← need (strstr (lit " ") (cstr (rest.drop 1))) cmdEparam
  let usr := cstr (rest.take (1 + first.length))
  let uid ← need (e.getpwnam usr) (lit "42 : System user does not exist.")
  let gid ← need (e.getgrnam grp) (lit "43 : System group does not exist.")
  return .chown c.dst uid gid

/-- `cmd_chown` behind `chown`. -/
def chownAnswered : SysAns → List Byte := failsWith (lit "44 : Failed to change file ownership.")

/-- `cmd_fupd` up to `utime`. -/
def fupdCall : Checks EffectCall := do
  demand (cstr mem ≠ []) cmdEparam
  let c ← e.jaildir e.jail .fupd (cstr mem)
  demand (e.trylck c.dst (!e.fs.isDir c.dst)) cmdElocked
  demand (e.fs.access c.dst) cmdEfilenoent
  return .utime c.dst

/-- `cmd_fupd` behind `utime`. -/
def fupdAnswered : SysAns → List Byte := failsWith (lit "27 : Timestamp updating failed.")

/-- `cmd_tasfs` up to `open`. -/
def tasfsCall : Checks EffectCall := do
  let c ← e.jaildir e.jail .tasfs (cstr mem)
  demand (e.trylck c.dst true) cmdElocked
  return .creat c.dst true

/-- `cmd_tasfs` behind `open`. -/
def tasfsAnswered : SysAns → List Byte :=
  failsWith (lit "62 : Unable to create the requested file.")

/-- `cmd_netmutrel` up to `ftruncate`. -/
def netmutrelCall : Checks EffectCall := do
  let (path, tok) ← need (strchr (ofChar ' ') (cstr mem)) cmdEparam
  let c ← e.jaildir e.jail .netmutrel path
  demand e.opens cmdEnetmutex
  demand e.locks cmdEnetmutex
  demand (e.stats c.dst) cmdEnetmutex
  -- nobody holds an empty mutex, and it is released
  if e.mutex = [] then .error cmdOkText
  else
    demand e.reads cmdEnetmutex
    demand (cstr (e.mutex.take stdstr) = tok) cmdEnetmutex
    return .ftruncate c.dst

/-- `cmd_netmutrel` behind `ftruncate`, the value of which is not looked at. -/
def netmutrelAnswered (_ : SysAns) : List Byte := cmdOkText

end

/-- The ten commands. -/
inductive OkCmd
  | mkdir | del | copy | renam | touch | chmod | chown | fupd | tasfs | netmutrel
  deriving DecidableEq, Repr

/-- The checks of a handler. -/
def OkCmd.call : OkCmd → OkEnv → List Byte → Checks EffectCall
  | .mkdir => mkdirCall
  | .del => delCall
  | .copy => copyCall
  | .renam => renamCall
  | .touch => touchCall
  | .chmod => chmodCall
  | .chown => chownCall
  | .fupd => fupdCall
  | .tasfs => tasfsCall
  | .netmutrel => netmutrelCall

/-- The reply of a handler to what its call returned. -/
def OkCmd.answered : OkCmd → SysAns → List Byte
  | .mkdir => mkdirAnswered
  | .del => delAnswered
  | .copy => copyAnswered
  | .renam => renamAnswered
  | .touch => touchAnswered
  | .chmod => chmodAnswered
  | .chown => chownAnswered
  | .fupd => fupdAnswered
  | .tasfs => tasfsAnswered
  | .netmutrel => netmutrelAnswered

/-- The reply of a handler. -/
def OkCmd.reply (cmd : OkCmd) (e : OkEnv) (mem : List Byte) : List Byte :=
  match cmd.call e mem with
  | .error reply => reply
  | .ok c => cmd.answered (e.answer c)

/-- **The call was made and went well.** -/
def OkCmd.Done (cmd : OkCmd) (e : OkEnv) (mem : List Byte) : Prop :=
  ∃ c v, cmd.call e mem = .ok c ∧ e.answer c = .ok v

/-- The answers that a handler sees for what they are. -/
def OkCmd.Seen (cmd : OkCmd) (a : SysAns) : Prop :=
  match cmd with
  -- a descriptor other than `0`
  | .touch => ∃ fd, a = .ok fd ∧ fd ≠ 0
  | .chmod => ∀ errno, a = .error errno → errno = enoent ∨ errno = eperm
  | .netmutrel => ∃ v, a = .ok v
  | _ => True

/-- `trylck` on a file tree. -/
theorem trylck_treeFs (e : OkEnv) (t : FileTree) (hfs : e.fs = treeFs t) (path : List Byte)
    (rmtrail : Bool) : e.trylck path rmtrail = trylck t e.lcknam path rmtrail := by
  rw [OkEnv.trylck, hfs, trylck]

/-- The outcomes of the calls `cmd_netmutrel` makes. -/
def OkEnv.mutEnv (e : OkEnv) (c : JailRes) : MutEnv where
  jailed := c.ok
  opens := e.opens
  locks := e.locks
  stats := e.stats c.dst
  reads := e.reads
  writes := []
  truncates := (e.answer (.ftruncate c.dst)).isOk

/-- **The reply to `NETMUTREL`** is the one of the handler on the content of the mutex. -/
theorem netmutrel_reply (e : OkEnv) {mem path tok : List Byte}
    (harg : strchr (ofChar ' ') (cstr mem) = some (path, tok)) :
    OkCmd.reply .netmutrel e mem =
      (cmdNetmutrel (e.mutEnv (jaildir e.fs (Site.arm .netmutrel e.jail) path
        (e.beyond .netmutrel))) e.mutex tok).reply := by
  simp only [OkCmd.reply, OkCmd.call, netmutrelCall, harg, need, OkEnv.jaildir, cmdNetmutrel,
    netmutOpen, OkEnv.mutEnv, bind, Except.bind, demand, refuse]
  generalize jaildir e.fs (Site.arm .netmutrel e.jail) path (e.beyond .netmutrel) = c
  by_cases hok : c.ok = true
  · by_cases hcalls : e.opens = true ∧ e.locks = true ∧ e.stats c.dst = true
    · obtain ⟨hopens, hlocks, hstats⟩ := hcalls
      by_cases hempty : e.mutex = []
      · simp [hok, hopens, hlocks, hstats, hempty]
      · by_cases hreads : e.reads = true
        · by_cases htok : cstr (e.mutex.take stdstr) = tok
          · simp [hok, hopens, hlocks, hstats, hempty, hreads, htok, netmutCompare, pure,
              Except.pure, OkCmd.answered, netmutrelAnswered]
          · simp [hok, hopens, hlocks, hstats, hempty, hreads, htok, netmutCompare]
        · simp [hok, hopens, hlocks, hstats, hempty, hreads, netmutCompare]
    · by_cases hopens : e.opens = true
      · by_cases hlocks : e.locks = true
        · have hstats : ¬ e.stats c.dst = true := fun h => hcalls ⟨hopens, hlocks, h⟩
          simp [hok, hopens, hlocks, hstats]
        · simp [hok, hopens, hlocks]
      · simp [hok, hopens]
  · simp [hok]

/-! ### Refusals -/

/-- Checks that end in a `FAILED`, if they do not go on. -/
def Refuses {α : Type} (x : Checks α) : Prop :=
  ∀ reply, x = .error reply → ∃ arg, reply = cmdFailText arg

section

variable {α β : Type}

theorem refuses_ok (a : α) : Refuses (Except.ok a : Checks α) := by
  intro reply h
  cases h

theorem refuses_refuse (arg : List Byte) : Refuses (refuse arg : Checks α) := by
  intro reply h
  cases h
  exact ⟨arg, rfl⟩

theorem refuses_demand (ok : Bool) (arg : List Byte) : Refuses (demand ok arg) := by
  cases ok with
  | false => exact refuses_refuse arg
  | true => exact refuses_ok ()

theorem refuses_need (x : Option α) (arg : List Byte) : Refuses (need x arg) := by
  cases x with
  | none => exact refuses_refuse arg
  | some a => exact refuses_ok a

theorem refuses_jaildir (e : OkEnv) (j : Jail) (site : Site) (src : List Byte) :
    Refuses (e.jaildir j site src) := by
  simp only [OkEnv.jaildir]
  split
  · exact refuses_ok _
  · exact refuses_refuse _

theorem Refuses.bind {x : Checks α} {f : α → Checks β} (hx : Refuses x) (hf : ∀ a, Refuses (f a)) :
    Refuses (x >>= f) := by
  cases x with
  | error r =>
    intro reply h
    cases h
    exact hx r rfl
  | ok a => exact hf a

end

/-- A handler that does not come to its call fails, except for the release of an empty
mutex. -/
theorem OkCmd.refuses (cmd : OkCmd) (e : OkEnv) (mem : List Byte)
    (h : cmd = .netmutrel → e.mutex ≠ []) : Refuses (cmd.call e mem) := by
  cases cmd with
  | mkdir =>
    refine Refuses.bind (refuses_jaildir _ _ _ _) fun c => ?_
    refine Refuses.bind (refuses_demand _ _) fun _ => ?_
    exact refuses_ok _
  | del =>
    refine Refuses.bind (refuses_jaildir _ _ _ _) fun c => ?_
    refine Refuses.bind (refuses_demand _ _) fun _ => ?_
    refine Refuses.bind (refuses_demand _ _) fun _ => ?_
    refine Refuses.bind (refuses_demand _ _) fun _ => ?_
    exact refuses_ok _
  | copy =>
    refine Refuses.bind (refuses_need _ _) fun _ => ?_
    refine Refuses.bind (refuses_jaildir _ _ _ _) fun c => ?_
    refine Refuses.bind (refuses_demand _ _) fun _ => ?_
    refine Refuses.bind (refuses_demand _ _) fun _ => ?_
    refine Refuses.bind (refuses_jaildir _ _ _ _) fun c' => ?_
    refine Refuses.bind (refuses_demand _ _) fun _ => ?_
    exact refuses_ok _
  | renam =>
    refine Refuses.bind (refuses_need _ _) fun _ => ?_
    refine Refuses.bind (refuses_demand _ _) fun _ => ?_
    refine Refuses.bind (refuses_jaildir _ _ _ _) fun c => ?_
    refine Refuses.bind (refuses_demand _ _) fun _ => ?_
    refine Refuses.bind (refuses_jaildir _ _ _ _) fun c' => ?_
    refine Refuses.bind (refuses_demand _ _) fun _ => ?_
    exact refuses_ok _
  | touch =>
    refine Refuses.bind (refuses_jaildir _ _ _ _) fun c => ?_
    refine Refuses.bind (refuses_demand _ _) fun _ => ?_
    refine Refuses.bind (refuses_demand _ _) fun _ => ?_
    exact refuses_ok _
  | chmod =>
    refine Refuses.bind (refuses_need _ _) fun _ => ?_
    refine Refuses.bind (refuses_jaildir _ _ _ _) fun c => ?_
    exact refuses_ok _
  | chown =>
    refine Refuses.bind (refuses_need _ _) fun _ => ?_
    refine Refuses.bind (refuses_jaildir _ _ _ _) fun c => ?_
    refine Refuses.bind (refuses_need _ _) fun _ => ?_
    refine Refuses.bind (refuses_need _ _) fun _ => ?_
    refine Refuses.bind (refuses_need _ _) fun _ => ?_
    exact refuses_ok _
  | fupd =>
    refine Refuses.bind (refuses_demand _ _) fun _ => ?_
    refine Refuses.bind (refuses_jaildir _ _ _ _) fun c => ?_
    refine Refuses.bind (refuses_demand _ _) fun _ => ?_
    refine Refuses.bind (refuses_demand _ _) fun _ => ?_
    exact refuses_ok _
  | tasfs =>
    refine Refuses.bind (refuses_jaildir _ _ _ _) fun c => ?_
    refine Refuses.bind (refuses_demand _ _) fun _ => ?_
    exact refuses_ok _
  | netmutrel =>
    refine Refuses.bind (refuses_need _ _) fun _ => ?_
    refine Refuses.bind (refuses_jaildir _ _ _ _) fun c => ?_
    refine Refuses.bind (refuses_demand _ _) fun _ => ?_
    refine Refuses.bind (refuses_demand _ _) fun _ => ?_
    refine Refuses.bind (refuses_demand _ _) fun _ => ?_
    rw [if_neg (h rfl)]
    refine Refuses.bind (refuses_demand _ _) fun _ => ?_
    refine Refuses.bind (refuses_demand _ _) fun _ => ?_
    exact refuses_ok _

/-! ### Answers -/

theorem failsWith_iff (arg : List Byte) (a : SysAns) :
    failsWith arg a = cmdOkText ↔ ∃ v, a = .ok v := by
  cases a with
  | ok v => simp [failsWith]
  | error errno => simp [failsWith, cmdFailText_ne_ok]

/-- `TOUCH` takes every failure for a file, and the descriptor `0` for a failure. -/
theorem touchAnswered_iff (a : SysAns) :
    (touchAnswered a = cmdOkText ↔ ∃ v, a = .ok v) ↔ ∃ fd, a = .ok fd ∧ fd ≠ 0 := by
  cases a with
  | error errno => simp [touchAnswered, SysAns.ret]
  | ok fd =>
    by_cases hfd : fd = 0
    · simp [touchAnswered, SysAns.ret, hfd, cmdFailText_ne_ok]
    · simp [touchAnswered, SysAns.ret, hfd]

/-- `CHMOD` takes most failures for a success. -/
theorem chmodAnswered_iff (a : SysAns) :
    (chmodAnswered a = cmdOkText ↔ ∃ v, a = .ok v) ↔
      ∀ errno, a = .error errno → errno = enoent ∨ errno = eperm := by
  cases a with
  | ok v => simp [chmodAnswered]
  | error errno =>
    have hnone : ¬ ∃ v, (.error errno : SysAns) = .ok v := by
      rintro ⟨v, h⟩
      cases h
    have hall : (∀ x, (.error errno : SysAns) = .error x → x = enoent ∨ x = eperm) ↔
        errno = enoent ∨ errno = eperm :=
      ⟨fun h => h errno rfl, fun h x hx => Except.error.inj hx ▸ h⟩
    rw [hall, iff_false_right hnone]
    by_cases hent : errno = enoent
    · refine iff_of_true ?_ (.inl hent)
      rw [chmodAnswered, if_pos hent]
      exact cmdFailText_ne_ok _
    · by_cases hperm : errno = eperm
      · refine iff_of_true ?_ (.inr hperm)
        rw [chmodAnswered, if_neg hent, if_pos hperm]
        exact cmdFailText_ne_ok _
      · simp [chmodAnswered, hent, hperm]

/-- **What a handler makes of an answer** is right for the answers it sees, and wrong for
the others. -/
theorem OkCmd.answered_iff (cmd : OkCmd) (a : SysAns) :
    (cmd.answered a = cmdOkText ↔ ∃ v, a = .ok v) ↔ cmd.Seen a := by
  cases cmd with
  | mkdir =>
    refine iff_of_true ?_ trivial
    cases a with
    | ok v => simp [OkCmd.answered, mkdirAnswered]
    | error errno =>
      simp only [OkCmd.answered, mkdirAnswered, reduceCtorEq, exists_const, iff_false]
      split <;> exact cmdFailText_ne_ok _
  | del =>
    refine iff_of_true ?_ trivial
    cases a with
    | ok v => simp [OkCmd.answered, delAnswered]
    | error errno =>
      simp only [OkCmd.answered, delAnswered, reduceCtorEq, exists_const, iff_false]
      split
      · exact cmdFailText_ne_ok _
      · split <;> exact cmdFailText_ne_ok _
  | copy =>
    refine iff_of_true ?_ trivial
    cases a with
    | ok v => simp [OkCmd.answered, copyAnswered]
    | error errno =>
      simp only [OkCmd.answered, copyAnswered, reduceCtorEq, exists_const, iff_false]
      split
      · exact cmdFailText_ne_ok _
      · split
        · exact cmdFailText_ne_ok _
        · split <;> exact cmdFailText_ne_ok _
  | renam => exact iff_of_true (failsWith_iff _ a) trivial
  | chown => exact iff_of_true (failsWith_iff _ a) trivial
  | fupd => exact iff_of_true (failsWith_iff _ a) trivial
  | tasfs => exact iff_of_true (failsWith_iff _ a) trivial
  | touch => exact touchAnswered_iff a
  | chmod => exact chmodAnswered_iff a
  | netmutrel =>
    cases a with
    | ok v => simp [OkCmd.answered, netmutrelAnswered, OkCmd.Seen]
    | error errno => simp [OkCmd.answered, netmutrelAnswered, OkCmd.Seen]

/-- **OK means done**, for every outcome of the call that does what the command is for,
exactly when the handler sees the outcome for what it is.  An empty mutex is released
without a call. -/
theorem ok_means_done_iff (cmd : OkCmd) (e : OkEnv) (mem : List Byte)
    (hmutex : cmd = .netmutrel → e.mutex ≠ []) :
    (cmd.reply e mem = cmdOkText ↔ cmd.Done e mem) ↔
      ∀ c, cmd.call e mem = .ok c → cmd.Seen (e.answer c) := by
  have hrefuses := cmd.refuses e mem hmutex
  simp only [OkCmd.reply, OkCmd.Done]
  cases hcall : cmd.call e mem with
  | error reply =>
    obtain ⟨arg, rfl⟩ := hrefuses reply hcall
    simp [cmdFailText_ne_ok]
  | ok c =>
    have hdone : (∃ c' v, (Except.ok c : Checks EffectCall) = .ok c' ∧ e.answer c' = .ok v) ↔
        ∃ v, e.answer c = .ok v := by
      constructor
      · rintro ⟨c', v, hc, hv⟩
        exact ⟨v, Except.ok.inj hc ▸ hv⟩
      · rintro ⟨v, hv⟩
        exact ⟨c, v, rfl, hv⟩
    have hseen : (∀ c', (Except.ok c : Checks EffectCall) = .ok c' → cmd.Seen (e.answer c')) ↔
        cmd.Seen (e.answer c) :=
      ⟨fun h => h c rfl, fun h c' hc => Except.ok.inj hc ▸ h⟩
    rw [hdone, hseen]
    exact cmd.answered_iff (e.answer c)

/-- A server locked into `/srv/`, with nothing in it, whose calls all answer the same. -/
def exampleOkEnv (a : SysAns) : OkEnv where
  fs := Fs.ofDirs [lit "/srv/"]
  jail := exampleJail
  lcknam := []
  beyond := fun _ => []
  stats := fun _ => true
  getpwnam := fun _ => none
  getgrnam := fun _ => none
  opens := true
  locks := true
  reads := true
  mutex := lit "token"
  answer := fun _ => a

/-- `MKDIR` with a full disk. -/
theorem ok_means_done_mkdir :
    (OkCmd.reply .mkdir (exampleOkEnv (.error 28)) (lit "a") = cmdOkText ↔
      OkCmd.Done .mkdir (exampleOkEnv (.error 28)) (lit "a")) ↔
      ∀ c, OkCmd.call .mkdir (exampleOkEnv (.error 28)) (lit "a") = .ok c →
        OkCmd.Seen .mkdir ((exampleOkEnv (.error 28)).answer c) :=
  ok_means_done_iff .mkdir (exampleOkEnv (.error 28)) (lit "a") fun h => nomatch h

/-- `TOUCH` with a full disk, `CHMOD` on a read-only file system and the release of a mutex
that cannot be truncated: nothing was done, and the reply is `OK`. -/
theorem ok_without_effect :
    ¬ ((OkCmd.reply .touch (exampleOkEnv (.error 28)) (lit "a") = cmdOkText ↔
        OkCmd.Done .touch (exampleOkEnv (.error 28)) (lit "a")) ∨
      (OkCmd.reply .chmod (exampleOkEnv (.error 30)) (lit "a 644") = cmdOkText ↔
        OkCmd.Done .chmod (exampleOkEnv (.error 30)) (lit "a 644")) ∨
      (OkCmd.reply .netmutrel (exampleOkEnv (.error 5)) (lit "a token") = cmdOkText ↔
        OkCmd.Done .netmutrel (exampleOkEnv (.error 5)) (lit "a token"))) := by
  have hundone : ∀ (cmd : OkCmd) (errno : ℕ) (mem : List Byte),
      ¬ cmd.Done (exampleOkEnv (.error errno)) mem := by
    rintro cmd errno mem ⟨c, v, -, h⟩
    cases h
  have htouch : OkCmd.reply .touch (exampleOkEnv (.error 28)) (lit "a") = cmdOkText := by decide
  have hchmod : OkCmd.reply .chmod (exampleOkEnv (.error 30)) (lit "a 644") = cmdOkText := by decide
  have hrel : OkCmd.reply .netmutrel (exampleOkEnv (.error 5)) (lit "a token") = cmdOkText := by
    decide
  rintro (h | h | h)
  · exact hundone _ _ _ (h.mp htouch)
  · exact hundone _ _ _ (h.mp hchmod)
  · exact hundone _ _ _ (h.mp hrel)

end TFProtocol
