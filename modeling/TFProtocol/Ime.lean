import TFProtocol.PathHandlers

/-!
# Instant messaging

`xs_ime` keeps a small state between its opcodes: three bits of readiness, the
directory of the organising unit, and the directories of the user.  `OPC_UNIT` builds
its directory with `jaildir`; `OPC_USR` appends a user name to it, `OPC_SNDMSG` the
name of every recipient, and the name of the sender goes into the file names of
messages.

The sender's name can hold anything, so a message file may lie in a directory of
its own, and the piece of its name that `cpymsg` cuts out, from the first `msgtmp` to
the first `.tmp`, may end in the middle of a component.

## Main definitions

* `Ime` — the static variables of `xs_ime.c`.
* `Stamp` — the numbers that go into a file name.
* `opcOrgunit`, `opcUsr`, `opcSndmsg`, `cpymsg`, `mkmsgdir` — the functions of
  `xs_imeopc1.c`.
* `ImeOp`, `imeStep` — one opcode.
* `ImeInv`, `ImeOp.Ok` — the invariant of a session, and opcodes that keep it.

## Main results

* `imeStep_mediated` — an opcode whose names do not climb keeps the invariant, and
  all paths it uses stay inside.
-/

namespace TFProtocol

open Bytes CStr

/-- The static variables of the subsystem. -/
structure Ime where
  /-- The bits `ORUN`, `USR` and `SETUP` of `ready`. -/
  orun : Bool
  usr : Bool
  setup : Bool
  orgunit : List Byte
  usrnam : List Byte
  usrmsg : List Byte
  unusr : Bool
  deriving DecidableEq, Repr, Inhabited

/-- The numbers in the name of a message file: the time, the running number and
the process. -/
structure Stamp where
  date : List Byte
  id : List Byte
  pid : List Byte
  date_ne : date ≠ []
  date_digits : ∀ b ∈ date, isDigit b = true
  id_digits : ∀ b ∈ id, isDigit b = true
  pid_digits : ∀ b ∈ pid, isDigit b = true

/-- What an opcode finds outside. -/
structure ImeEnv where
  disk : Disk
  /-- The lock on the file of a user is taken. -/
  lockTaken : List Byte → Bool
  stamp : Stamp
  beyond : List Byte

/-- `chkrdy`. -/
def chkrdy (s : Ime) : Bool := s.orun && s.usr && s.setup

/-- `MSGFOLDER`, `BLACKLIST`, `MSGTMPDIR`, `LCKFILE` and `TMPEXT`. -/
def msgfolder : List Byte := lit "messages"

@[inherit_doc msgfolder]
def blacklist : List Byte := lit "blacklist"

@[inherit_doc msgfolder]
def msgtmpdir : List Byte := lit "msgtmp"

@[inherit_doc msgfolder]
def lckfile : List Byte := lit "loged-in"

@[inherit_doc msgfolder]
def tmpext : List Byte := lit ".tmp"

/-- A path and an entry below it. -/
def join (a b : List Byte) : List Byte := a ++ slash :: b

/-- The text of an opcode as the handlers copy it: cut to `PATH_MAX - 1` bytes,
up to the first NUL. -/
def nameOf (data : List Byte) : List Byte := cstr (data.take (pathMax - 1))

/-- `opc_orgunit`: the result of `jaildir` is not looked at. -/
def opcOrgunit (env : ImeEnv) (j : Jail) (s : Ime) (data : List Byte) : Ime × Jail × List Use :=
  if chkrdy s || !s.setup then (s, j, [])
  else
    let c := jaildir env.disk.toFs j (nameOf data) env.beyond
    ({ s with orgunit := c.dst, orun := env.disk.access c.dst }, c.jail,
      [⟨.access, c.dst, j.dbdir⟩])

/-- The directories `mkmsgdir` creates. -/
def mkmsgdir (orgunit usrpath : List Byte) : List Use :=
  [⟨.mkdir, join usrpath msgfolder, orgunit⟩,
    ⟨.mkdir, join (join usrpath msgfolder) blacklist, orgunit⟩,
    ⟨.mkdir, join (join usrpath msgfolder) msgtmpdir, orgunit⟩]

/-- `USRNAME_LEN`. -/
def usrnameLen : ℕ := 128

/-- `opc_usr`: the user is looked up below the unit, whether there is one or
not. -/
def opcUsr (env : ImeEnv) (s : Ime) (data : List Byte) : Ime × List Use :=
  if chkrdy s || !s.setup then (s, [])
  else
    let usrpath := join s.orgunit (nameOf data)
    let s := { s with usrnam := nameOf data }
    let login : List Use :=
      if s.unusr then [⟨.open, join usrpath lckfile, s.orgunit⟩] else []
    if s.unusr && env.lockTaken (join usrpath lckfile) then (s, login)
    else
      let seen := login ++ [⟨.access, usrpath, s.orgunit⟩]
      if !env.disk.access usrpath || usrnameLen ≤ (data.take (pathMax - 1)).length then
        ({ s with usr := false }, seen)
      else
        ({ s with usr := true, usrmsg := join usrpath msgfolder },
          seen ++ mkmsgdir s.orgunit usrpath)

/-- The name of a message file, `date-id.usrnam.pid.tmp`. -/
def tmpName (t : Stamp) (usrnam : List Byte) : List Byte :=
  (t.date ++ lit "-" ++ t.id ++ lit ".") ++ (usrnam ++ (lit "." ++ t.pid ++ tmpext))

/-- `mktmpath`. -/
def mktmpath (t : Stamp) (s : Ime) : List Byte :=
  join s.usrmsg (join msgtmpdir (tmpName t s.usrnam))

/-- The piece of a message path that `cpymsg` uses as the file name: from one
character behind the first `msgtmp` up to the first `.tmp`. -/
def msgFile (msg : List Byte) : List Byte :=
  match strstr msgtmpdir msg, strstr tmpext msg with
  | some (a, _), some (b, _) =>
    (msg.drop (a.length + msgtmpdir.length + 1)).take (b.length - (a.length + msgtmpdir.length + 1))
  | _, _ => []

/-- `cpymsg(usr, msg)`, with the test of `chkblk`. -/
def cpymsg (env : ImeEnv) (s : Ime) (usr msg : List Byte) : List Use :=
  let path := join (join s.orgunit usr) msgfolder
  let black := join path (join blacklist s.usrnam)
  if env.disk.access black then [⟨.access, black, s.orgunit⟩]
  else
    [⟨.access, black, s.orgunit⟩, ⟨.link, msg, s.usrmsg⟩,
      ⟨.link, join path (msgFile msg), s.orgunit⟩]

/-- The recipients of a message: the names before the first blank, separated by
colons. -/
def recipients (data : List Byte) : List (List Byte) :=
  match strchr (ofChar ' ') (cstr data) with
  | none => []
  | some (names, _) => (names.splitOn (ofChar ':')).filter fun r => decide (r ≠ [])

/-- `BUFLEN`, and the size of the header. -/
def imeBuflen : ℕ := 16 * 1024

@[inherit_doc imeBuflen]
def imeHdrlen : ℕ := 5

/-- `opc_sndmsg`. -/
def opcSndmsg (env : ImeEnv) (s : Ime) (data : List Byte) : List Use :=
  if imeBuflen ≤ data.length + imeHdrlen then []
  else if !chkrdy s then []
  else
    match strchr (ofChar ' ') (cstr data) with
    | none => []
    | some (names, _) =>
      if data.length ≤ names.length + 1 then []
      else
        let msg := mktmpath env.stamp s
        ⟨.open, msg, s.usrmsg⟩ ::
          ((recipients data).flatMap fun usr => cpymsg env s usr msg) ++ [⟨.unlink, msg, s.usrmsg⟩]

/-- The opcodes that touch paths or readiness. -/
inductive ImeOp
  | setup (unusr : Bool)
  | unit (data : List Byte)
  | usr (data : List Byte)
  | sndmsg (data : List Byte)
  deriving DecidableEq, Repr

/-- One opcode. -/
def imeStep (env : ImeEnv) (j : Jail) (s : Ime) : ImeOp → Ime × Jail × List Use
  | .setup unusr => ({ s with setup := true, unusr := unusr }, j, [])
  | .unit data => opcOrgunit env j s data
  | .usr data => ((opcUsr env s data).1, j, (opcUsr env s data).2)
  | .sndmsg data => (s, j, opcSndmsg env s data)

/-! ### The invariant -/

/-- The directories that are ready for use are inside the root, and the user name does not
climb. -/
structure ImeInv (root : List Byte) (s : Ime) : Prop where
  orun : s.orun = true → Inside root s.orgunit
  msg : s.usr = true → Inside root s.usrmsg
  nam : Descends s.usrnam

/-- An opcode whose names do not climb.  A user needs a unit inside the root first, and the
path of the user must not hold the text that `cpymsg` looks for. -/
def ImeOp.Ok (root : List Byte) (s : Ime) : ImeOp → Prop
  | .setup _ => True
  | .unit data => Descends (nameOf data)
  | .usr data => Inside root s.orgunit ∧ Descends (nameOf data)
  | .sndmsg data => (∀ r ∈ recipients data, Descends r) ∧ ¬ msgtmpdir <:+: s.usrmsg

/-! ### Joined paths -/

theorem join_inside (a : List Byte) {b : List Byte} (hb : Descends b) : Inside a (join a b) :=
  LexPath.inside_append a hb

theorem Descends.join {a b : List Byte} (ha : Descends a) (hb : Descends b) :
    Descends (join a b) := LexPath.Descends.append_sep ha hb

theorem join_assoc (a b c : List Byte) : join (join a b) c = join a (join b c) := by
  simp [join]

theorem length_nameOf (data : List Byte) : (nameOf data).length < pathMax := by
  have h : (nameOf data).length ≤ (data.take (pathMax - 1)).length :=
    (List.takeWhile_prefix _).length_le
  rw [List.length_take] at h
  unfold pathMax at h ⊢
  omega

/-! ### File names of messages -/

theorem isDigit_ne {b c : Byte} (h : isDigit b = true) (hc : isDigit c = false) : b ≠ c := by
  rintro rfl
  rw [h] at hc
  cases hc

theorem slash_not_mem_digits {ds : List Byte} (h : ∀ b ∈ ds, isDigit b = true) : slash ∉ ds :=
  fun hm => isDigit_ne (h slash hm) (by decide) rfl

/-- The name of a message file does not climb. -/
theorem tmpName_descends (t : Stamp) {usrnam : List Byte} (h : Descends usrnam) :
    Descends (tmpName t usrnam) := by
  obtain ⟨x, xs, hdate⟩ := List.exists_cons_of_ne_nil t.date_ne
  have hx : x ≠ dot :=
    isDigit_ne (t.date_digits x (hdate ▸ List.mem_cons_self)) (by decide)
  apply LexPath.Descends.append_left
  · apply LexPath.Descends.append_right h
    · simp only [List.mem_append, not_or]
      exact ⟨⟨by decide, slash_not_mem_digits t.pid_digits⟩, by decide⟩
    · simp only [List.length_append, show tmpext.length = 4 from by decide]
      omega
  · simp only [List.mem_append, not_or]
    exact ⟨⟨⟨slash_not_mem_digits t.date_digits, by decide⟩, slash_not_mem_digits t.id_digits⟩,
      by decide⟩
  · exact ⟨x, xs ++ lit "-" ++ t.id ++ lit ".", by simp [hdate], hx⟩

/-- Where `cpymsg` finds the directory of temporary files. -/
theorem strstr_msgtmpdir {t : Stamp} {s : Ime} (h : ¬ msgtmpdir <:+: s.usrmsg) :
    strstr msgtmpdir (mktmpath t s) = some (s.usrmsg ++ [slash], slash :: tmpName t s.usrnam) :=
  strstr_append_sep (by decide) (by decide) _ s.usrmsg h

/-- What `cpymsg` cuts out of a message path is an initial part of the file
name, unless the path holds `msgtmp` earlier. -/
theorem msgFile_isPrefix {t : Stamp} {s : Ime} (h : ¬ msgtmpdir <:+: s.usrmsg) :
    msgFile (mktmpath t s) <+: tmpName t s.usrnam := by
  have hdrop : (mktmpath t s).drop ((s.usrmsg ++ [slash]).length + msgtmpdir.length + 1)
      = tmpName t s.usrnam := by
    have hsplit : mktmpath t s
        = (s.usrmsg ++ [slash] ++ msgtmpdir ++ [slash]) ++ tmpName t s.usrnam := by
      simp [mktmpath, join]
    rw [hsplit]
    exact List.drop_left' (by simp; omega)
  unfold msgFile
  rw [strstr_msgtmpdir h]
  cases strstr tmpext (mktmpath t s) with
  | none => exact List.nil_prefix
  | some parts =>
    dsimp only
    rw [hdrop]
    exact List.take_prefix _ _

/-- The file a message is copied to does not leave the unit. -/
theorem msgFile_descends {t : Stamp} {s : Ime} (hnam : Descends s.usrnam)
    (h : ¬ msgtmpdir <:+: s.usrmsg) {usr : List Byte} (husr : Descends usr) :
    Descends (join usr (join msgfolder (msgFile (mktmpath t s)))) := by
  have hcut := LexPath.Descends.descends_isPrefix (tmpName_descends t hnam) (msgFile_isPrefix h)
  have htail : LexPath.descends dot 0
      (LexPath.comps slash dot (join msgfolder (msgFile (mktmpath t s)))) = true := by
    have hfolder : LexPath.comps slash dot msgfolder = [msgfolder] := by decide
    rw [join, LexPath.comps_append_sep, hfolder, List.singleton_append]
    simpa [LexPath.descends, show msgfolder ≠ [dot, dot] from by decide] using hcut
  unfold Descends LexPath.Descends
  rw [join, LexPath.comps_append_sep]
  exact LexPath.descends_append htail _ husr

/-! ### One opcode -/

/-- Paths built on a checked directory by appending text that does not climb. -/
theorem mediated_join {root base b : List Byte} (hbase : Inside root base) (hb : Descends b)
    (call : Syscall) : Mediated root ⟨call, join base b, base⟩ :=
  ⟨hbase.trans (join_inside base hb), join_inside base hb⟩

theorem opcOrgunit_mediated {env : ImeEnv} {j : Jail} {s : Ime} (hroot : Closed j.dbdir)
    (hs : ImeInv j.dbdir s) {data : List Byte} (hdata : Descends (nameOf data)) :
    ImeInv j.dbdir (opcOrgunit env j s data).1 ∧
      ∀ u ∈ (opcOrgunit env j s data).2.2, Mediated j.dbdir u := by
  unfold opcOrgunit
  split
  · exact ⟨hs, by simp⟩
  · have hin : Inside j.dbdir (j.dbdir ++ nameOf data) :=
      hroot.inside_append hdata
    simp only [jaildir_dst, jailed_of_lt (length_nameOf data)]
    refine ⟨⟨fun _ => hin, hs.msg, hs.nam⟩, ?_⟩
    intro u hu
    obtain rfl := List.mem_singleton.mp hu
    exact ⟨hin, hin⟩

theorem opcUsr_mediated {env : ImeEnv} {root : List Byte} {s : Ime} (hs : ImeInv root s)
    {data : List Byte} (hbase : Inside root s.orgunit) (hdata : Descends (nameOf data)) :
    ImeInv root (opcUsr env s data).1 ∧ ∀ u ∈ (opcUsr env s data).2, Mediated root u := by
  have hfolder : Descends msgfolder := by decide
  -- every path of the handler is unit, user and a fixed name, in this order
  have hpath : ∀ (b : List Byte) (call : Syscall), Descends b →
      Mediated root ⟨call, join (join s.orgunit (nameOf data)) b, s.orgunit⟩ := by
    intro b call hb
    rw [join_assoc]
    exact mediated_join hbase (hdata.join hb) call
  unfold opcUsr
  split
  · exact ⟨hs, by simp⟩
  · have hlogin : ∀ u ∈ (if s.unusr then
        [⟨.open, join (join s.orgunit (nameOf data)) lckfile, s.orgunit⟩] else [] : List Use),
        Mediated root u := by
      intro u hu
      split at hu
      · obtain rfl := List.mem_singleton.mp hu
        exact hpath _ _ (by decide)
      · simp at hu
    have hseen : ∀ u ∈ (if s.unusr then
        [⟨.open, join (join s.orgunit (nameOf data)) lckfile, s.orgunit⟩] else [] : List Use) ++
        [⟨.access, join s.orgunit (nameOf data), s.orgunit⟩], Mediated root u := by
      intro u hu
      obtain hu | hu := List.mem_append.mp hu
      · exact hlogin u hu
      · obtain rfl := List.mem_singleton.mp hu
        exact mediated_join hbase hdata _
    dsimp only
    split
    · exact ⟨⟨hs.orun, hs.msg, hdata⟩, hlogin⟩
    · split
      · exact ⟨⟨hs.orun, by simp, hdata⟩, hseen⟩
      · refine ⟨⟨hs.orun, fun _ => ?_, hdata⟩, ?_⟩
        · exact (hpath _ .mkdir hfolder).1
        · intro u hu
          obtain hu | hu := List.mem_append.mp hu
          · exact hseen u hu
          · simp only [mkmsgdir, List.mem_cons, List.not_mem_nil, or_false] at hu
            obtain rfl | rfl | rfl := hu
            · exact hpath _ _ hfolder
            · rw [join_assoc]
              exact hpath _ _ (by decide)
            · rw [join_assoc]
              exact hpath _ _ (by decide)

theorem cpymsg_mediated {env : ImeEnv} {root : List Byte} {s : Ime} (hs : ImeInv root s)
    (hrdy : chkrdy s = true) (hmsg : ¬ msgtmpdir <:+: s.usrmsg) {usr : List Byte}
    (husr : Descends usr) :
    ∀ u ∈ cpymsg env s usr (mktmpath env.stamp s), Mediated root u := by
  simp only [chkrdy, Bool.and_eq_true] at hrdy
  have hbase := hs.orun hrdy.1.1
  have hblack : Mediated root ⟨.access, join (join (join s.orgunit usr) msgfolder)
      (join blacklist s.usrnam), s.orgunit⟩ := by
    rw [join_assoc, join_assoc]
    have hfolder : Descends msgfolder := by decide
    have hlist : Descends blacklist := by decide
    exact mediated_join hbase (husr.join (hfolder.join (hlist.join hs.nam))) _
  intro u hu
  unfold cpymsg at hu
  dsimp only at hu
  split at hu
  · obtain rfl := List.mem_singleton.mp hu
    exact hblack
  · simp only [List.mem_cons, List.not_mem_nil, or_false] at hu
    obtain rfl | rfl | rfl := hu
    · exact hblack
    · have htmp : Descends msgtmpdir := by decide
      exact mediated_join (hs.msg hrdy.1.2) (htmp.join (tmpName_descends _ hs.nam)) _
    -- the name behind `msgtmp` in the temporary path; `hmsg` makes it the right occurrence
    · rw [join_assoc, join_assoc]
      exact mediated_join hbase (msgFile_descends hs.nam hmsg husr) _

theorem opcSndmsg_mediated {env : ImeEnv} {root : List Byte} {s : Ime} (hs : ImeInv root s)
    {data : List Byte} (hrcpt : ∀ r ∈ recipients data, Descends r)
    (hmsg : ¬ msgtmpdir <:+: s.usrmsg) :
    ∀ u ∈ opcSndmsg env s data, Mediated root u := by
  intro u hu
  unfold opcSndmsg at hu
  split at hu
  · simp at hu
  · split at hu
    · simp at hu
    · rename_i hrdy
      have hrdy' : chkrdy s = true := by simpa using hrdy
      -- the temporary file is opened before the recipients and removed after them
      have hfile : ∀ call, Mediated root ⟨call, mktmpath env.stamp s, s.usrmsg⟩ := by
        intro call
        have htmp : Descends msgtmpdir := by decide
        simp only [chkrdy, Bool.and_eq_true] at hrdy'
        exact mediated_join (hs.msg hrdy'.1.2) (htmp.join (tmpName_descends _ hs.nam)) _
      split at hu
      · simp at hu
      · split at hu
        · simp at hu
        · dsimp only at hu
          obtain hu | hu := List.mem_append.mp hu
          · obtain rfl | hu := List.mem_cons.mp hu
            · exact hfile _
            · obtain ⟨usr, husr, hu⟩ := List.mem_flatMap.mp hu
              exact cpymsg_mediated hs hrdy' hmsg (hrcpt usr husr) u hu
          · obtain rfl := List.mem_singleton.mp hu
            exact hfile _

theorem imeStep_dbdir (env : ImeEnv) (j : Jail) (s : Ime) (op : ImeOp) :
    (imeStep env j s op).2.1.dbdir = j.dbdir := by
  cases op with
  | unit data =>
    simp only [imeStep, opcOrgunit]
    split
    · rfl
    · rw [jaildir_jail]
  | setup unusr => rfl
  | usr data => rfl
  | sndmsg data => rfl

/-- **An opcode whose names do not climb keeps the invariant, and all paths it
uses stay inside.** -/
theorem imeStep_mediated (env : ImeEnv) {j : Jail} {s : Ime} (hroot : Closed j.dbdir)
    (hs : ImeInv j.dbdir s) {op : ImeOp} (hop : op.Ok j.dbdir s) :
    ImeInv j.dbdir (imeStep env j s op).1 ∧
      ∀ u ∈ (imeStep env j s op).2.2, Mediated j.dbdir u := by
  cases op with
  | setup unusr => exact ⟨⟨hs.orun, hs.msg, hs.nam⟩, by simp [imeStep]⟩
  | unit data => exact opcOrgunit_mediated hroot hs hop
  | usr data => exact opcUsr_mediated hs hop.1 hop.2
  | sndmsg data => exact ⟨hs, opcSndmsg_mediated hs hop.1 hop.2⟩

end TFProtocol
