import TFProtocol.Lib.CStr
import TFProtocol.Lib.Runs
import TFProtocol.Jail
import TFProtocol.Server

/-!
# The subsystem `xs_ntmex`

The subsystem loads a shared object that the client names and calls its entry point.  Who
may load what is decided once, by `LOAD`: the path must be a line of the access control list
of the key that `INSKEY` installed, or that list must not exist.  `chkacl` takes any failure
of `access` for a list that does not exist.  The key, the name of the list, the handle and
the entry point are four globals; they outlive `GOBACK` and are used by any later `RUN`.

The key file and the lists do not change.  What `access`, `dlopen`, `dlsym` and `uname`
answer is an argument of each command.  A text that does not fit the array it is copied to
has no defined outcome, and the step has no result.

## Main definitions

* `chkacl` — the access control list.
* `Admitted` — what the list of a key lets through.
* `Ntmex` — the globals, the modules that are open, and the key that is installed.
* `ntmexCmd`, `ntmexNext` — a command, and a run of any number of visits.
* `AclSeen` — `access` does not miss a list that would have refused the path.
* `Warranted` — what the globals say of each other between two commands.

## Main results

* `chkacl_unlines` — a list written line by line accepts its lines.
* `warranted_next` — every step keeps the globals together.
* `run_calls_allowed` — **whatever `RUN` calls is admitted by the list of the key**, in runs
  whose `access` misses no such list.
* `run_calls_unlisted` — otherwise it need not be.
-/

namespace TFProtocol

open Bytes CStr

/-! ### The files -/

/-- `KEYLEN`. -/
def ntmexKeylen : ℕ := 255

/-- The files of the subsystem. -/
structure NtmexFiles where
  /-- `tfproto.xsntmex`, the name of the key file. -/
  xsntmex : List Byte
  /-- What can be read of it, if it can be opened. -/
  keydb : Option (List Byte)
  /-- Whether a list is there, by its name. -/
  listed : List Byte → Bool
  /-- What can be read of a list. -/
  fopen : List Byte → Option (List Byte)

/-- The comparison in the loop over the key file: a piece without a newline is skipped. -/
def isKeyLine (key buf : List Byte) : Bool :=
  match strchr newline (cstr buf) with
  | some (l, _) => l = key
  | none => false

/-- The loop over the key file. -/
def inKeydb (file key : List Byte) : Bool := (lines newline ntmexKeylen file).any (isKeyLine key)

/-- The name of the list that belongs to a key. -/
def aclName (f : NtmexFiles) (key : List Byte) : List Byte :=
  f.xsntmex ++ lit "." ++ key ++ lit ".acl"

/-- The comparison in the loop over a list: a newline is cut off, if there is one. -/
def isAclLine (path buf : List Byte) : Bool :=
  match strchr newline (cstr buf) with
  | some (l, _) => l = path
  | none => cstr buf = path

/-- The loop over a list, where it can be opened. -/
def onList (f : NtmexFiles) (acl path : List Byte) : Bool :=
  match f.fopen acl with
  | none => false
  | some file => (lines newline lineMax file).any (isAclLine path)

/-- `chkacl`, where `seen` says that `access` found the list. -/
def chkacl (f : NtmexFiles) (seen : Bool) (acl path : List Byte) : Bool :=
  if !seen then true else onList f acl path

/-- What a list lets through: its paths, and every path if there is no such list. -/
def Admitted (f : NtmexFiles) (acl path : List Byte) : Prop :=
  f.listed acl = true → onList f acl path = true

instance (f : NtmexFiles) (acl path : List Byte) : Decidable (Admitted f acl path) :=
  inferInstanceAs (Decidable (_ → _))

theorem isAclLine_line {l : List Byte} (hnl : newline ∉ l) (hnul : 0 ∉ l) (path : List Byte) :
    isAclLine path (l ++ [newline]) = decide (l = path) := by
  have hzero : (0 : Byte) ∉ l ++ [newline] := by
    rw [List.mem_append, List.mem_singleton, not_or]
    exact ⟨hnul, by decide⟩
  rw [isAclLine, cstr_eq_self hzero, strchr_append hnl []]

/-- **A list written line by line accepts the paths that are its lines**, and no others. -/
theorem chkacl_unlines {f : NtmexFiles} {acl : List Byte} {paths : List (List Byte)}
    (hfile : f.fopen acl = some (unlines newline paths))
    (hpaths : ∀ p ∈ paths, newline ∉ p ∧ 0 ∉ p ∧ p.length + 1 < lineMax) (path : List Byte) :
    chkacl f true acl path = true ↔ path ∈ paths := by
  have hlines : lines newline lineMax (unlines newline paths) = paths.map fun l => l ++ [newline] :=
    lines_unlines fun p hp => ⟨(hpaths p hp).1, (hpaths p hp).2.2⟩
  rw [chkacl, if_neg (by decide), onList, hfile]
  dsimp only
  rw [hlines, List.any_map, List.any_eq_true]
  constructor
  · rintro ⟨p, hp, h⟩
    rw [Function.comp_apply, isAclLine_line (hpaths p hp).1 (hpaths p hp).2.1,
      decide_eq_true_eq] at h
    exact h ▸ hp
  · intro hp
    refine ⟨path, hp, ?_⟩
    rw [Function.comp_apply, isAclLine_line (hpaths path hp).1 (hpaths path hp).2.1]
    exact decide_eq_true rfl

/-! ### The globals -/

/-- A reference that `dlopen` gave out: the handle and the path it was opened under. -/
structure Opened where
  hdl : ℕ
  path : List Byte
  deriving DecidableEq, Repr

/-- A function pointer of `dlsym`, with the handle it was looked up in. -/
structure Entry where
  hdl : ℕ
  addr : ℕ
  deriving DecidableEq, Repr

/-- The state of the process.  The last two fields are not globals of the source: the
references to modules that are held, and the key of the last `INSKEY` that succeeded. -/
structure Ntmex where
  exitmod : Bool
  entry : Option Entry
  keyset : Bool
  sohdl : Option ℕ
  acl : List Byte
  /-- The process is in the loop of `xs_ntmex`. -/
  inside : Bool
  opened : List Opened
  key : List Byte
  deriving DecidableEq, Repr

/-- The process before the first visit. -/
def Ntmex.start : Ntmex := ⟨false, none, false, none, [], false, [], []⟩

/-- What the system answers during one command. -/
structure NtmexEnv where
  access : List Byte → Bool
  dlopen : Option ℕ
  dlsym : Option ℕ
  /-- `sysname`, `release`, `version` and `machine`. -/
  uname : Option (List Byte × List Byte × List Byte × List Byte)
  /-- The reply of `SYSNFO` is sent. -/
  sent : Bool

/-- What a command leaves: the state, the reply and the function it called. -/
structure NtmexOut where
  st : Ntmex
  reply : List Byte
  call : Option Entry
  deriving DecidableEq, Repr

/-- A handler that replies and calls nothing. -/
def Ntmex.replying (s : Ntmex) (reply : List Byte) : NtmexOut := ⟨s, reply, none⟩

/-- `strcpy` into an array of `size` bytes. -/
def strcpyTo (size : ℕ) (src : List Byte) : Option (List Byte) :=
  if src.length < size then some src else none

theorem strcpyTo_eq {size : ℕ} {src t : List Byte} (h : strcpyTo size src = some t) :
    t = src := by
  unfold strcpyTo at h
  split at h
  · exact (Option.some.inj h).symm
  · cases h

/-- `dlclose`, where there is a handle: the reference is given back. -/
def dlclose (opened : List Opened) : Option ℕ → List Opened
  | none => opened
  | some h => opened.eraseP (·.hdl = h)

/-! ### The commands -/

section

variable (f : NtmexFiles)

/-- `xs_ntmex_inskey`. -/
def xsNtmexInskey (s : Ntmex) (buf : List Byte) : Option NtmexOut :=
  if s.keyset then some (s.replying (cmdFailText (lit "3 : Key already set.")))
  else
    (strcpyTo ntmexKeylen (cstr (buf.drop 7))).bind fun key =>
    match f.keydb with
    | none => some (s.replying (cmdFailText (lit "1 : Failed to read key's database.")))
    | some db =>
      if inKeydb db key then
        (strcpyTo pathMax (aclName f key)).map fun acl =>
          { s with keyset := true, acl, key }.replying cmdOkText
      else some (s.replying (cmdFailText (lit "2 : Failed to set the key.")))

/-- `xs_ntmex_goback`. -/
def xsNtmexGoback (s : Ntmex) : NtmexOut := { s with exitmod := true }.replying cmdOkText

/-- `xs_ntmex_exit`. -/
def xsNtmexExit (s : Ntmex) : NtmexOut :=
  { s with exitmod := true, keyset := false, entry := none, acl := [],
           opened := dlclose s.opened s.sohdl, sohdl := none }.replying cmdOkText

/-- The first lines of `xs_ntmex_load`: the module that is open is closed. -/
def Ntmex.unload (s : Ntmex) : Ntmex :=
  if s.sohdl.isSome then
    { s with opened := dlclose s.opened s.sohdl, sohdl := none, entry := none }
  else s

/-- The end of `xs_ntmex_load`: `dlopen` and `dlsym`. -/
def Ntmex.load (s : Ntmex) (e : NtmexEnv) (path : List Byte) : NtmexOut :=
  match e.dlopen with
  | none => s.replying (cmdFailText (lit "6 : Failed to load the module."))
  | some h =>
    let opened := ⟨h, path⟩ :: s.opened
    match e.dlsym with
    | none =>
      { s with entry := none, opened := dlclose opened (some h), sohdl := none }.replying
        (cmdFailText (lit "6 : Failed to load the module."))
    | some addr =>
      { s with sohdl := some h, opened, entry := some ⟨h, addr⟩ }.replying cmdOkText

/-- `xs_ntmex_load`. -/
def xsNtmexLoad (s : Ntmex) (e : NtmexEnv) (buf : List Byte) : Option NtmexOut :=
  if !s.keyset then
    some (s.replying (cmdFailText (lit "5 : Access key have not installed yet.")))
  else
    (strcpyTo pathMax (cstr (buf.drop 5))).map fun path =>
      if !e.access path then
        s.unload.replying (cmdFailText (lit "1 : Access denied to location."))
      else if !chkacl f (e.access s.unload.acl) s.unload.acl path then
        s.unload.replying (cmdFailText (lit "8 : Access Control List denied."))
      else s.unload.load e path

/-- `xs_ntmex_run`. -/
def xsNtmexRun (s : Ntmex) : NtmexOut :=
  if !s.keyset then s.replying (cmdFailText (lit "5 : Access key have not installed yet."))
  else
    match s.entry with
    | none => s.replying (cmdFailText (lit "4 : Entry-point not assigned."))
    | some entry => ⟨s, cmdOkText, some entry⟩

/-- `xs_ntmex_sysnfo`.  A reply that cannot be sent ends the visit. -/
def xsNtmexSysnfo (s : Ntmex) (e : NtmexEnv) : NtmexOut :=
  if !s.keyset then s.replying (cmdFailText (lit "5 : Access key have not installed yet."))
  else
    match e.uname with
    | none => s.replying (cmdFailText (lit "7 : Information unavailable."))
    | some (sysname, release, version, machine) =>
      { s with exitmod := s.exitmod || !e.sent }.replying
        (cmdOkText ++ lit " " ++ sysname ++ lit " | " ++ release ++ lit " | " ++ version ++
          lit " | " ++ machine)

/-- One turn of the loop of `xs_ntmex`, with the command in the buffer. -/
def ntmexCmd (s : Ntmex) (e : NtmexEnv) (buf : List Byte) : Option NtmexOut :=
  let cmd := cmdtoupper (excmd buf)
  if cmd = lit "INSKEY" then xsNtmexInskey f s buf
  else if cmd = lit "GOBACK" then some (xsNtmexGoback s)
  else if cmd = lit "EXIT" then some (xsNtmexExit s)
  else if cmd = lit "LOAD" then xsNtmexLoad f s e buf
  else if cmd = lit "RUN" then some (xsNtmexRun s)
  else if cmd = lit "SYSNFO" then some (xsNtmexSysnfo s e)
  else some (s.replying (lit "UNKNOWN"))

/-- What happens to the subsystem: it is entered, a command arrives, or `getcmd` fails. -/
inductive NtmexAct
  | enter
  | cmd (buf : List Byte) (e : NtmexEnv)
  | lost

/-- One step.  The loop ends when a command sets `exitmod`. -/
def ntmexNext (s : Ntmex) : NtmexAct → Option Ntmex
  | .enter => if s.inside then none else some { s with exitmod := false, inside := true }
  | .cmd buf e =>
    if s.inside then
      (ntmexCmd f s e buf).map fun out => { out.st with inside := !out.st.exitmod }
    else none
  | .lost => if s.inside then some { s with inside := false } else none

end

/-! ### What the globals say of each other -/

/-- A `LOAD` does not get the answer that the list of the key is not there, when it is there
and the path is none of its lines. -/
def AclSeen (f : NtmexFiles) (s : Ntmex) : NtmexAct → Prop
  | .cmd buf e =>
    cmdtoupper (excmd buf) = lit "LOAD" → s.keyset = true →
      e.access (cstr (buf.drop 5)) = true → e.access s.acl = false →
        Admitted f s.acl (cstr (buf.drop 5))
  | _ => True

instance (f : NtmexFiles) (s : Ntmex) : ∀ a, Decidable (AclSeen f s a)
  | .cmd _ _ => inferInstanceAs (Decidable (_ → _))
  | .enter => .isTrue trivial
  | .lost => .isTrue trivial

/-- Between two commands: the name of the list belongs to the installed key, and a module is
open exactly when there is a handle.  Then a key is installed, the list of the key admits the
path of the module, and the entry point belongs to the module. -/
structure Warranted (f : NtmexFiles) (s : Ntmex) : Prop where
  key : s.keyset = true → s.acl = aclName f s.key ∧ ∃ db, f.keydb = some db ∧ inKeydb db s.key
  idle : s.sohdl = none → s.opened = [] ∧ s.entry = none
  busy : ∀ h, s.sohdl = some h → s.keyset = true ∧ ∃ m, s.opened = [m] ∧ m.hdl = h ∧
    Admitted f s.acl m.path ∧ ∃ addr, s.entry = some ⟨h, addr⟩

theorem warranted_start (f : NtmexFiles) : Warranted f Ntmex.start where
  key h := nomatch h
  idle _ := ⟨rfl, rfl⟩
  busy _ h := nomatch h

variable {f : NtmexFiles} {s : Ntmex}

/-- The loop variables do not matter. -/
theorem Warranted.of_loop (h : Warranted f s) (exitmod inside : Bool) :
    Warranted f { s with exitmod, inside } := ⟨h.key, h.idle, h.busy⟩

theorem dlclose_cons (m : Opened) (ms : List Opened) : dlclose (m :: ms) (some m.hdl) = ms := by
  rw [dlclose, List.eraseP_cons_of_pos (by simp)]

/-- Giving the handle back closes the only module. -/
theorem Warranted.dlclose_opened (h : Warranted f s) : dlclose s.opened s.sohdl = [] := by
  cases hs : s.sohdl with
  | none => exact (h.idle hs).1
  | some hdl =>
    obtain ⟨-, m, hm, rfl, -⟩ := h.busy hdl hs
    rw [hm, dlclose_cons]

theorem unload_spec (h : Warranted f s) :
    s.unload = { s with sohdl := none, entry := none, opened := [] } := by
  unfold Ntmex.unload
  split
  · rw [h.dlclose_opened]
  next hs =>
    have hs : s.sohdl = none := by simpa using hs
    obtain ⟨ho, he⟩ := h.idle hs
    rw [← hs, ← ho, ← he]

theorem warranted_unload (h : Warranted f s) : Warranted f s.unload := by
  rw [unload_spec h]
  exact ⟨h.key, fun _ => ⟨rfl, rfl⟩, fun _ hs => nomatch hs⟩

theorem warranted_inskey (h : Warranted f s) {buf : List Byte} {out : NtmexOut}
    (hout : xsNtmexInskey f s buf = some out) : Warranted f out.st := by
  unfold xsNtmexInskey at hout
  split at hout
  · cases hout
    exact h
  next hkey =>
    -- without a key there is no module, so a new name of the list warrants nothing yet
    have hnone : s.sohdl = none := by
      cases hs : s.sohdl with
      | none => rfl
      | some hdl => exact absurd (h.busy hdl hs).1 hkey
    obtain ⟨key, -, hout⟩ := Option.bind_eq_some_iff.mp hout
    split at hout
    · cases hout
      exact h
    next db hdb =>
      split at hout
      next hin =>
        obtain ⟨acl, hacl, rfl⟩ := Option.map_eq_some_iff.mp hout
        have hname : aclName f key = acl := (strcpyTo_eq hacl).symm
        refine ⟨fun _ => ⟨hname.symm, db, hdb, hin⟩, h.idle, fun hdl hs => ?_⟩
        exact nomatch hnone.symm.trans hs
      · cases hout
        exact h

theorem warranted_exit (h : Warranted f s) : Warranted f (xsNtmexExit s).st :=
  ⟨fun hk => (nomatch hk), fun _ => ⟨h.dlclose_opened, rfl⟩, fun _ hs => nomatch hs⟩

theorem warranted_load (h : Warranted f s) (e : NtmexEnv) {path : List Byte}
    (hkey : s.keyset = true) (hnone : s.sohdl = none)
    (hacl : Admitted f s.acl path) : Warranted f (s.load e path).st := by
  unfold Ntmex.load
  split
  · exact h
  next hdl _ =>
    dsimp only
    split
    · -- the module has no such symbol: it is closed again
      refine ⟨h.key, fun _ => ⟨?_, rfl⟩, fun _ hs => (by cases hs)⟩
      exact (dlclose_cons ⟨hdl, path⟩ s.opened).trans (h.idle hnone).1
    next addr _ =>
      refine ⟨h.key, fun hs => (by cases hs), fun hdl' hs => ⟨hkey, ?_⟩⟩
      cases hs
      refine ⟨⟨hdl, path⟩, ?_, rfl, hacl, addr, rfl⟩
      show _ :: s.opened = _
      rw [(h.idle hnone).1]

/-- What `chkacl` lets through is admitted, where `access` does not miss the list. -/
theorem admitted_of_chkacl {seen : Bool} {acl path : List Byte}
    (hok : chkacl f seen acl path = true) (hseen : seen = false → Admitted f acl path) :
    Admitted f acl path := by
  cases seen with
  | false => exact hseen rfl
  | true => exact fun _ => hok

theorem warranted_loadCmd (h : Warranted f s) {e : NtmexEnv} {buf : List Byte} {out : NtmexOut}
    (hseen : s.keyset = true → e.access (cstr (buf.drop 5)) = true → e.access s.acl = false →
      Admitted f s.acl (cstr (buf.drop 5)))
    (hout : xsNtmexLoad f s e buf = some out) : Warranted f out.st := by
  have hun := warranted_unload h
  have hst := unload_spec h
  unfold xsNtmexLoad at hout
  split at hout
  · cases hout
    exact h
  next hkey =>
    have hset : s.keyset = true := by simpa using hkey
    have hkey : s.unload.keyset = true := by rw [hst, hset]
    have hnone : s.unload.sohdl = none := by rw [hst]
    have hname : s.unload.acl = s.acl := by rw [hst]
    obtain ⟨path, hpath, rfl⟩ := Option.map_eq_some_iff.mp hout
    obtain rfl := strcpyTo_eq hpath
    split
    · exact hun
    next hacc =>
      split
      · exact hun
      next hacl =>
        refine warranted_load hun e hkey hnone (admitted_of_chkacl (by simpa using hacl) ?_)
        rw [hname]
        exact hseen hset (by simpa using hacc)

theorem warranted_cmd (h : Warranted f s) {e : NtmexEnv} {buf : List Byte} {out : NtmexOut}
    (hseen : AclSeen f s (.cmd buf e)) (hout : ntmexCmd f s e buf = some out) :
    Warranted f out.st := by
  unfold ntmexCmd at hout
  dsimp only at hout
  split at hout
  · exact warranted_inskey h hout
  split at hout
  · cases hout
    exact h.of_loop true s.inside
  split at hout
  · cases hout
    exact warranted_exit h
  split at hout
  next hload => exact warranted_loadCmd h (hseen hload) hout
  split at hout
  · cases hout
    unfold xsNtmexRun
    repeat' split
    all_goals exact h
  split at hout
  · cases hout
    unfold xsNtmexSysnfo
    repeat' split
    all_goals first | exact h | exact h.of_loop _ s.inside
  · cases hout
    exact h

/-- **Every step keeps the globals together.** -/
theorem warranted_next {a : NtmexAct} {t : Ntmex} (h : Warranted f s) (hseen : AclSeen f s a)
    (ht : ntmexNext f s a = some t) : Warranted f t := by
  cases a with
  | enter =>
    rw [ntmexNext] at ht
    split at ht
    · cases ht
    · cases ht
      exact h.of_loop false true
  | cmd buf e =>
    rw [ntmexNext] at ht
    split at ht
    · obtain ⟨out, hout, rfl⟩ := Option.map_eq_some_iff.mp ht
      exact (warranted_cmd h hseen hout).of_loop out.st.exitmod _
    · cases ht
  | lost =>
    rw [ntmexNext] at ht
    split at ht
    · cases ht
      exact h.of_loop s.exitmod false
    · cases ht

/-- Only `RUN` calls, and only the entry point, with a key installed. -/
theorem ntmexCmd_call {e : NtmexEnv} {buf : List Byte} {out : NtmexOut} {entry : Entry}
    (hout : ntmexCmd f s e buf = some out) (hcall : out.call = some entry) :
    s.keyset = true ∧ s.entry = some entry := by
  have hquiet : ∀ {t : Ntmex} {reply : List Byte}, (t.replying reply).call ≠ some entry :=
    fun h => nomatch h
  unfold ntmexCmd at hout
  dsimp only at hout
  split at hout
  · unfold xsNtmexInskey at hout
    split at hout
    · cases hout
      exact absurd hcall hquiet
    · obtain ⟨key, -, hout⟩ := Option.bind_eq_some_iff.mp hout
      split at hout
      · cases hout
        exact absurd hcall hquiet
      · split at hout
        · obtain ⟨acl, -, rfl⟩ := Option.map_eq_some_iff.mp hout
          exact absurd hcall hquiet
        · cases hout
          exact absurd hcall hquiet
  split at hout
  · cases hout
    exact absurd hcall hquiet
  split at hout
  · cases hout
    exact absurd hcall hquiet
  split at hout
  · unfold xsNtmexLoad at hout
    split at hout
    · cases hout
      exact absurd hcall hquiet
    · obtain ⟨path, -, rfl⟩ := Option.map_eq_some_iff.mp hout
      unfold Ntmex.load at hcall
      dsimp only at hcall
      repeat' split at hcall
      all_goals exact absurd hcall hquiet
  split at hout
  · cases hout
    unfold xsNtmexRun at hcall
    split at hcall
    · exact absurd hcall hquiet
    next hkey =>
      split at hcall
      · exact absurd hcall hquiet
      next hentry => exact ⟨by simpa using hkey, hentry.trans hcall⟩
  split at hout
  · cases hout
    unfold xsNtmexSysnfo at hcall
    repeat' split at hcall
    all_goals exact absurd hcall hquiet
  · cases hout
    exact absurd hcall hquiet

/-- **Whatever `RUN` calls is admitted by the list of the key.**  In every run in which
`access` does not miss the list of a `LOAD` it would have refused, whatever else the system
answers, a command that calls an entry point finds a key installed and the module of the
entry point open, and the list of the installed key admits the path of that module. -/
theorem run_calls_allowed {f : NtmexFiles} {as : List NtmexAct} {s : Ntmex} {buf : List Byte}
    {e : NtmexEnv} {out : NtmexOut} {entry : Entry}
    (hseen : Runs.Meets (ntmexNext f) (AclSeen f) Ntmex.start as)
    (hrun : Runs.run (ntmexNext f) Ntmex.start as = some s)
    (hout : ntmexCmd f s e buf = some out) (hcall : out.call = some entry) :
    s.keyset = true ∧ (∃ db, f.keydb = some db ∧ inKeydb db s.key = true) ∧
      ∃ m ∈ s.opened, m.hdl = entry.hdl ∧ Admitted f (aclName f s.key) m.path := by
  have h : Warranted f s :=
    Runs.inv_of_run (fun _ _ _ => warranted_next) (warranted_start f) hseen hrun
  obtain ⟨hkey, hentry⟩ := ntmexCmd_call hout hcall
  obtain ⟨hacl, hdb⟩ := h.key hkey
  refine ⟨hkey, hdb, ?_⟩
  cases hs : s.sohdl with
  | none => exact nomatch (h.idle hs).2.symm.trans hentry
  | some hdl =>
    obtain ⟨-, m, hm, hhdl, hok, addr, haddr⟩ := h.busy hdl hs
    obtain rfl : (⟨hdl, addr⟩ : Entry) = entry := Option.some.inj (haddr.symm.trans hentry)
    exact ⟨m, by rw [hm]; exact List.mem_singleton_self m, hhdl, hacl ▸ hok⟩

/-- A key file with two keys; the list of the first one has two lines. -/
def exampleNtmex : NtmexFiles where
  xsntmex := lit "/k"
  keydb := some (lit "one\ntwo\n")
  listed name := name = lit "/k.one.acl"
  fopen name := if name = lit "/k.one.acl" then some (lit "/a.so\n/b.so\n") else none

/-- The answers of a system where every file exists and every module loads. -/
def exampleLoads (hdl : ℕ) : NtmexEnv := ⟨fun _ => true, some hdl, some 7, none, true⟩

/-- The key is installed, a module is refused and the next one loaded, the client goes back
and returns. -/
def exampleVisits : List NtmexAct :=
  [.enter, .cmd (lit "INSKEY one") (exampleLoads 1), .cmd (lit "LOAD /c.so") (exampleLoads 2),
    .cmd (lit "LOAD /b.so") (exampleLoads 3), .cmd (lit "GOBACK") (exampleLoads 4), .enter]

theorem run_calls_allowed_after_goback :
    ∃ s out, Runs.run (ntmexNext exampleNtmex) Ntmex.start exampleVisits = some s ∧
      ntmexCmd exampleNtmex s (exampleLoads 5) (lit "RUN") = some out ∧
      out.call = some ⟨3, 7⟩ ∧ s.keyset = true ∧
      (∃ db, exampleNtmex.keydb = some db ∧ inKeydb db s.key = true) ∧
      ∃ m ∈ s.opened, m.hdl = 3 ∧ Admitted exampleNtmex (aclName exampleNtmex s.key) m.path := by
  have hrun : (Runs.run (ntmexNext exampleNtmex) Ntmex.start exampleVisits).isSome = true := by
    decide +kernel
  obtain ⟨s, hs⟩ := Option.isSome_iff_exists.mp hrun
  have hcmd : ((Runs.run (ntmexNext exampleNtmex) Ntmex.start exampleVisits).bind
      fun s => ntmexCmd exampleNtmex s (exampleLoads 5) (lit "RUN")).map (·.call) =
        some (some ⟨3, 7⟩) := by
    decide +kernel
  have hseen : Runs.Meets (ntmexNext exampleNtmex) (AclSeen exampleNtmex) Ntmex.start
      exampleVisits := by
    decide +kernel
  rw [hs, Option.bind_some] at hcmd
  obtain ⟨out, hout, hcall⟩ := Option.map_eq_some_iff.mp hcmd
  exact ⟨s, out, hs, hout, hcall, run_calls_allowed hseen hs hout hcall⟩

/-- The answers of the same system, where `access` fails on the list of the first key. -/
def exampleBlind (hdl : ℕ) : NtmexEnv :=
  { exampleLoads hdl with access := fun name => name ≠ lit "/k.one.acl" }

/-- The key is installed and a module loaded that is not on its list. -/
def exampleUnlisted : List NtmexAct :=
  [.enter, .cmd (lit "INSKEY one") (exampleLoads 1), .cmd (lit "LOAD /c.so") (exampleBlind 2)]

/-- The state behind it. -/
def exampleLoaded : Ntmex :=
  ⟨false, some ⟨2, 7⟩, true, some 2, lit "/k.one.acl", true, [⟨2, lit "/c.so"⟩], lit "one"⟩

/-- **A failing `access` lets every module through**: `RUN` calls one that the list of the key
does not admit. -/
theorem run_calls_unlisted : ¬ ∀ (f : NtmexFiles) (as : List NtmexAct) (s : Ntmex)
    (buf : List Byte) (e : NtmexEnv) (out : NtmexOut) (entry : Entry),
    Runs.run (ntmexNext f) Ntmex.start as = some s → ntmexCmd f s e buf = some out →
      out.call = some entry →
      s.keyset = true ∧ ∃ m ∈ s.opened, m.hdl = entry.hdl ∧
        Admitted f (aclName f s.key) m.path := by
  intro h
  have hrun : Runs.run (ntmexNext exampleNtmex) Ntmex.start exampleUnlisted =
      some exampleLoaded := by
    decide +kernel
  obtain ⟨-, m, hm, -, hok⟩ := h exampleNtmex exampleUnlisted exampleLoaded (lit "RUN")
    (exampleLoads 3) ⟨exampleLoaded, cmdOkText, some ⟨2, 7⟩⟩ ⟨2, 7⟩ hrun (by decide +kernel) rfl
  rw [List.mem_singleton.mp hm] at hok
  exact absurd hok (by decide +kernel)

end TFProtocol
