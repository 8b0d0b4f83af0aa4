import TFProtocol.CipherModes
import TFProtocol.DirLock
import TFProtocol.FaiKeys

/-!
# What a failed command leaves behind

A command that answers `FAILED` should not have configured anything: the lock name, the root
and its flags, the identity for the permissions, the login, the time zone, the token flag and
the keys of both ciphers stay, but for what the frame and the reply themselves move.

Most handlers assign none of this.  Those that do check first, or put back what they found
(`INJAIL`), except for three: `LOCK` stores the name and then looks at it, `DATEFTZ` leaves
without restoring the time zone, and `GOAES` has overwritten both structures of the block
cipher by the time a context cannot be made.

## Main definitions

* `Ctl`, `CmdEnv` — the globals of a session, and what a command finds around it.
* `respondRun`, `respond` — `cmd_parse` on a received frame, with the reply.
* `Settings` — what a failed command has to leave.
* `FailedKeeps` — it does.
* `FailedClear` — the three handlers find their branches harmless.

## Main results

* `failed_keeps_iff` — **a command that answers `FAILED` leaves the settings exactly when it
  is clear**, in every state and for every frame.
-/

namespace TFProtocol

open Bytes CStr

/-! ### The state -/

/-- The globals of a session. -/
structure Ctl where
  srv : Srv
  tree : FileTree
  lcknam : List Byte
  /-- `comm.faiuse`. -/
  faiuse : Bool
  /-- The list of `ntfy.c`. -/
  ntfy : List Watch
  /-- `getenv("TZ")`, which the server sets before it listens. -/
  tz : List Byte

/-- The part of it that decides about files. -/
def Ctl.core (u : Ctl) : CoreSt := ⟨u.tree, u.srv.roots, u.lcknam, u.faiuse, u.ntfy⟩

/-- The state with another such part. -/
def Ctl.withCore (u : Ctl) (c : CoreSt) : Ctl :=
  { u with
    srv := { u.srv with roots := c.roots }
    tree := c.tree
    lcknam := c.lcknam
    faiuse := c.faiuse
    ntfy := c.ntfy }

/-- The state with another session. -/
def Ctl.withSess (u : Ctl) (s : Sess) : Ctl := { u with srv := { u.srv with sess := s } }

/-- What a command finds around it. -/
structure CmdEnv where
  cfg : Config
  world : World
  files : CoreEnv
  /-- What `localtime` and `strftime` make of the time in a time zone, if it is
  representable there. -/
  date : List Byte → Option (List Byte)
  /-- The three calls of `malloc` in `cmd_nigma`. -/
  mallocRx : Bool
  mallocTx : Bool
  mallocCp : Bool
  /-- `randent`: a key of some length. -/
  randent : ℤ → List Byte
  /-- `uuidgen`. -/
  uuid : List Byte
  /-- `tfproto.faitok_mq`. -/
  faitokMq : BitVec 64
  time : BitVec 64
  /-- `genkey`. -/
  genkey : Option (List Byte)
  /-- `base64en` finds memory. -/
  base64 : Bool
  /-- `savefai` writes all of its line. -/
  saved : Bool
  /-- The transfers of any other handler ahead of its last reply, and that reply. -/
  traffic : List BlkOp
  reply : Option (List Byte)
  /-- What such a handler takes from its request and its transfers. -/
  checks : List (Site × List Byte)
  path : List Byte
  text : List Byte
  content : Option (List Byte)
  flag : Bool
  io : MetaIo
  /-- The answers to the notifications. -/
  answers : List (List (List Byte))

/-- What became of a frame: the last reply, if there is one, the state, and the session as the
transfers of the command and the reply alone leave it. -/
structure Response where
  reply : Option (List Byte)
  next : Ctl
  moved : Sess

/-! ### The handlers of the files -/

/-- A handler that reads or changes files, as a command of `coreStep`; `mem` is the memory
behind the name.  The handlers that are not listed change no file, and at most check paths. -/
def coreCmd (env : CmdEnv) (arg mem : List Byte) : Handler → CoreCmd
  | .mkdir => .mkdir arg
  | .rmkdir => .rmkdir arg
  | .ls => .ls arg env.text
  | .lsr => .lsr arg env.text
  | .sendfile => .sendfile arg env.flag
  | .rcvfile => .rcvfile arg env.text env.flag
  | .del => .del arg
  | .rmdir => .rmdir arg
  | .rmsecdir => .rmsecdir arg
  | .copy => .copy arg
  | .cpdir => .cpdir arg
  | .xcopy => .xcopy arg
  | .xcpdir => .xcpdir arg
  | .xdel => .xdel arg
  | .xrmdir => .xrmdir arg
  | .touch => .touch arg
  | .tasfs => .tasfs arg
  | .renam => .renam arg
  | .put => .put env.path env.content env.flag
  | .putcan => .putcan env.path env.content env.flag
  | .sup => .sup env.path env.text env.flag
  | .intwrite => .intwrite env.path env.content
  | .netmutacqtry => .netmutacqtry env.path env.content
  | .netmutrel => .netmutrel env.path env.content
  | .lsv2 => .lsv2 arg env.text env.flag
  | .lsrv2 => .lsrv2 arg env.text env.flag
  | .setfsperm => .setfsperm env.io arg
  | .remfsperm => .remfsperm env.io arg
  | .runbash => .runbash arg
  | .addntfy => .addntfy mem env.flag
  | .startntfy => .startntfy env.answers
  | _ => .look env.checks

/-! ### The handlers that configure -/

/-- `SPM`. -/
def spm : BitVec 64 := 60

/-- When the token of `cmd_faitok` expires: the minutes asked for are compared unsigned, so a
negative number counts as too many. -/
def faitokExp (env : CmdEnv) (arg : List Byte) : BitVec 64 :=
  let exp := BitVec.ofInt 64 (strtol arg)
  let exp := if env.faitokMq < exp ∨ exp = 0 then env.faitokMq else exp
  env.time + exp * spm

/-- `CMD_EFAITOK`. -/
def cmdEfaitok : List Byte := lit "67 : Failed initializing FAI interface."

/-- The text of the reply of `cmd_faitok`. -/
def faitokText (exp : ℕ) (uuid key : List Byte) : List Byte :=
  cmdOkText ++ [blank] ++ udec exp ++ [blank] ++ uuid ++ [blank] ++ Base64.en key

/-- `CMD_EINVLCK`. -/
def cmdEinvlck : List Byte := lit "28 : Invalid characters in lock token."

/-- `CMD_EBADDATE`. -/
def cmdEbaddate : List Byte := lit "26 : Date is not representable."

/-- `CMD_ENIMGA`. -/
def cmdEnimga : List Byte := lit "46 : Failed to swap the session key."

/-- `NIGMA_MIN`. -/
def nigmaMin : ℤ := 8

/-- The command that `cmd_faitok` stores its token with, unless it fails before. -/
def faitokStore (env : CmdEnv) (u : Ctl) (arg : List Byte) : Option CoreCmd :=
  if u.faiuse then none
  else
    match env.genkey with
    | none => none
    | some key =>
      if env.base64 then
        some (.faitok env.uuid (tokenLine (faitokExp env arg).toNat key) env.saved)
      else none

section Layer

variable (o : Endian) (aes : Aes)

/-- The session after the last reply, if there is one. -/
def replied (s : Sess) : Option (List Byte) → Sess
  | some text => sendReply o aes s text
  | none => s

/-- The session after some transfers. -/
def transferred (s : Sess) (ops : List BlkOp) : Sess :=
  ops.foldl (fun s op => match op with
    | .send m => (writebufEx o aes s m).sess
    | .recv len => (readbufEx o aes s len).sess) s

/-- A state that a command leaves before its one reply. -/
def saying (u : Ctl) (text : List Byte) (u' : Ctl) : Response :=
  ⟨some text, u'.withSess (sendReply o aes u'.srv.sess text), sendReply o aes u.srv.sess text⟩

/-- `cmd_lock`: the name is stored before it is looked at. -/
def Ctl.cmdLock (env : CmdEnv) (u : Ctl) (arg : List Byte) : Response :=
  let u' := u.withCore (coreStep u.core env.files (.lock arg))
  if lockAccepted arg then saying o aes u cmdOkText u'
  else saying o aes u (cmdFailText cmdEinvlck) u'

/-- `cmd_setfsid`. -/
def Ctl.cmdSetfsid (env : CmdEnv) (u : Ctl) (arg : List Byte) : Response :=
  saying o aes u cmdOkText (u.withCore (coreStep u.core env.files (.setfsid arg)))

/-- `cmd_gettz`. -/
def Ctl.cmdGettz (u : Ctl) : Response := saying o aes u (cmdOkText ++ [blank] ++ u.tz) u

/-- `cmd_settz`. -/
def Ctl.cmdSettz (u : Ctl) (arg : List Byte) : Response :=
  saying o aes u cmdOkText { u with tz := arg }

/-- `cmd_localtime`. -/
def Ctl.cmdLocaltime (env : CmdEnv) (u : Ctl) : Response :=
  match env.date u.tz with
  | some date => saying o aes u (cmdOkText ++ [blank] ++ date) u
  | none => saying o aes u (cmdFailText cmdEbaddate) u

/-- `cmd_dateftz`: the old time zone comes back on the way that ends in `OK`. -/
def Ctl.cmdDateftz (env : CmdEnv) (u : Ctl) (arg : List Byte) : Response :=
  let oldtz := u.tz
  let u' := { u with tz := arg }
  match env.date u'.tz with
  | some date => saying o aes u (cmdOkText ++ [blank] ++ date) { u' with tz := oldtz }
  | none => saying o aes u (cmdFailText cmdEbaddate) u'

/-- A write whose failure ends the session. -/
def writeOrEnd (s : Sess) (m : List Byte) : Sess :=
  let w := writebufEx o aes s m
  { w.sess with loop := if w.ret = -1 then false else w.sess.loop }

/-- `cmd_nigma`: the new key follows the reply, and is swapped in behind it. -/
def Ctl.cmdNigma (env : CmdEnv) (u : Ctl) (arg : List Byte) : Response :=
  let keylen := atoi arg
  if keylen < nigmaMin then saying o aes u (cmdFailText cmdEnimga) u
  else if !env.mallocRx || !env.mallocTx || !env.mallocCp then
    saying o aes u (cmdFailText cmdEnimga) u
  else
    let key := env.randent keylen
    let s := cmdOk o aes u.srv.sess
    let s := writeOrEnd o aes s (hdrsetsz o keylen)
    let s := writeOrEnd o aes s key
    let s := { s with
      crypRx := swapkey s.crypRx key keylen.toNat
      crypTx := swapkey s.crypTx key keylen.toNat }
    ⟨some cmdOkText, u.withSess s, cmdOk o aes u.srv.sess⟩

/-- `cmd_tfpcrypto`. -/
def Ctl.cmdTfpcrypto (u : Ctl) : Response :=
  ⟨some cmdOkText, u.withSess (TFProtocol.cmdTfpcrypto o aes u.srv.sess), cmdOk o aes u.srv.sess⟩

/-- `cmd_faitok`. -/
def Ctl.cmdFaitok (env : CmdEnv) (u : Ctl) (arg : List Byte) : Response :=
  match faitokStore env u arg with
  | none => saying o aes u (cmdFailText cmdEfaitok) u
  | some cmd =>
    let u' := u.withCore (coreStep u.core env.files cmd)
    if u'.faiuse then
      saying o aes u (faitokText (faitokExp env arg).toNat env.uuid (env.genkey.getD [])) u'
    else saying o aes u (cmdFailText cmdEfaitok) u'

/-- `cmd_ciaon`. -/
def Ctl.cmdCiaon (env : CmdEnv) (u : Ctl) : Response :=
  saying o aes u (cmdOkText ++ [blank] ++ env.uuid)
    (u.withSess { u.srv.sess with cia := env.uuid, ciaSt := true })

/-- `cmd_ciaoff`. -/
def Ctl.cmdCiaoff (u : Ctl) : Response :=
  saying o aes u cmdOkText (u.withSess { u.srv.sess with ciaSt := false })

/-! ### Frames -/

/-- The last reply of the handlers that `runHandler` has. -/
def serverReply (env : CmdEnv) (s : Srv) : Handler → Option (List Byte)
  | .login => some (cmdLogin env.world.login s.logged
      (s.sess.buf.drop ((lit "LOGIN").length + 1))).reply
  | .keepalive =>
    let toks := keepaliveToks (cstr (s.sess.buf.drop ((lit "KEEPALIVE").length + 1)))
    some (if !toks.2 then cmdFailText (lit "16 : Missing parameter from command.")
      else if env.world.sockopts toks.1 then cmdOkText
      else cmdFailText (lit "32 : Failed to set TCP keepalive parameters."))
  | .prockey =>
    some (if env.cfg.srvid = [] then cmdFailText (lit "33 : Process without unique key.")
      else cmdOkText ++ [blank] ++ env.cfg.srvid)
  | .injail => some (cmdInjail env.world.fs s.roots (argOf (lit "INJAIL") s)
      env.world.beyond).reply
  | .locksys => some (cmdLocksys env.world.fs s.roots (argOf (lit "LOCKSYS") s)).reply
  | .flycontext => some (cmdFlycontext env.world.fs env.world.fs' s.roots
      (argOf (lit "FLYCONTEXT") s) env.world.beyond).reply
  | .goaes => (cmdGoaes o aes s.sess).1
  | _ => none

/-- The session as the transfers of such a handler leave it.  Only `GOAES` has some: what they
store in `cipher_tx` is not counted to them. -/
def serverMoved (s : Sess) : Handler → Sess
  | .goaes => { goaesVectored o aes s with cipherTx := s.cipherTx }
  | _ => s

/-- A handler of `runHandler`. -/
def Ctl.runServer (env : CmdEnv) (u : Ctl) (h : Handler) : Response :=
  let reply := serverReply o aes env u.srv h
  let tree := match h with
    | .flycontext => (cmdFlycontextTree env.files u.core (argOf (lit "FLYCONTEXT") u.srv)).tree
    | _ => u.tree
  ⟨reply, { u with srv := (runHandler o aes env.cfg env.world u.srv h).1, tree := tree },
    replied o aes (serverMoved o aes u.srv.sess h) reply⟩

/-- Any other handler: it assigns to nothing but the files, the flags of the jail and the list
of notifications. -/
def Ctl.runOther (env : CmdEnv) (u : Ctl) (arg mem : List Byte) (h : Handler) : Response :=
  let s := replied o aes (transferred o aes u.srv.sess env.traffic) env.reply
  ⟨env.reply, (u.withCore (coreStep u.core env.files (coreCmd env arg mem h))).withSess s, s⟩

/-- A handler, on a frame with a name. -/
def respondRun (env : CmdEnv) (u : Ctl) (name : List Byte) (h : Handler) : Response :=
  let arg := argOf name u.srv
  match h with
  | .endcomm | .login | .keepalive | .prockey | .injail | .locksys | .flycontext | .goaes =>
    u.runServer o aes env h
  | .lock => u.cmdLock o aes env arg
  | .setfsid => u.cmdSetfsid o aes env arg
  | .gettz => u.cmdGettz o aes
  | .settz => u.cmdSettz o aes arg
  | .localtime => u.cmdLocaltime o aes env
  | .dateftz => u.cmdDateftz o aes env arg
  | .nigma => u.cmdNigma o aes env arg
  | .tfpcrypto => u.cmdTfpcrypto o aes
  | .faitok => u.cmdFaitok o aes env arg
  | .ciaon => u.cmdCiaon o aes env
  | .ciaoff => u.cmdCiaoff o aes
  | _ => u.runOther o aes env arg (u.srv.sess.buf.drop (name.length + 1)) h

/-- What `cmd_parse` decides for the frame in `comm.buf`. -/
def Ctl.action (u : Ctl) : Action := cmdParse u.srv.gates (cmdtoupper (excmd u.srv.sess.buf))

/-- `cmd_parse` on the frame in `comm.buf`. -/
def respond (env : CmdEnv) (u : Ctl) : Response :=
  match u.action with
  | .run h => respondRun o aes env u (excmd u.srv.sess.buf) h
  | .fail arg => saying o aes u (cmdFailText arg) u
  | .unknown => saying o aes u (lit "UNKNOWN") u

end Layer

/-! ### Settings -/

/-- An array of which the first bytes were stored; the rest is zero from the start. -/
def arrayOf (n : ℕ) (l : List Byte) : List Byte := (l ++ List.replicate n 0).take n

/-- The key and the vector of `struct blkcipher`, and those its context captured. -/
structure BlkKeys where
  key : List Byte
  iv : List Byte
  captured : Option (List Byte × List Byte)
  deriving DecidableEq, Repr

/-- The keys of a block cipher. -/
def blkKeys (l : Ossl) (c : BlkCipher) : BlkKeys :=
  ⟨arrayOf blkKeysz c.key, arrayOf blkIvsz c.iv, l.boundTo c.ctx⟩

/-- The keys and seeds of a session: those of the stream cipher, which move with every byte,
and those of the block cipher. -/
@[ext]
structure CipherKeys where
  rx : Crypto
  tx : Crypto
  blkRx : BlkKeys
  blkTx : BlkKeys
  deriving DecidableEq, Repr

/-- The keys a session holds. -/
def Sess.keys (s : Sess) : CipherKeys :=
  ⟨s.crypRx, s.crypTx, blkKeys s.ossl s.cipherRx, blkKeys s.ossl s.cipherTx⟩

/-- The configuration of a session. -/
@[ext]
structure Settings where
  lcknam : List Byte
  dbdir : List Byte
  injail : Bool
  locksys : Bool
  flycontext : Bool
  logged : Bool
  fsid : List Byte
  faiuse : Bool
  tz : List Byte
  keys : CipherKeys
  deriving DecidableEq, Repr

/-- The configuration a state holds. -/
def Ctl.settings (u : Ctl) : Settings where
  lcknam := u.lcknam
  dbdir := u.srv.roots.jail.dbdir
  injail := u.srv.roots.injail
  locksys := u.srv.roots.locksys
  flycontext := u.srv.roots.flycontext
  logged := u.srv.logged
  fsid := u.srv.roots.jail.fsid
  faiuse := u.faiuse
  tz := u.tz
  keys := u.srv.sess.keys

/-- The commands of `cmd.c`; the others are those of modules. -/
def Action.isCore : Action → Bool
  | .run h =>
    match h with
    | .xs1 | .xsime | .xsNtmex | .xsSqlite | .xsAce | .xsMysql | .xsPostgresql | .xsGateway
    | .xsRpcproxy => false
    | _ => true
  | _ => true

/-- A reply that reports a failure. -/
def IsFailed (text : List Byte) : Prop := lit "FAILED" <+: text

instance (text : List Byte) : Decidable (IsFailed text) :=
  inferInstanceAs (Decidable (_ <+: _))

/-- If the reply reports a failure, the settings are those from before, but for what the
transfers and the reply moved. -/
def Response.Keeps (r : Response) (u : Ctl) : Prop :=
  ∀ text ∈ r.reply, IsFailed text → r.next.settings = (u.withSess r.moved).settings

section Layer

variable (o : Endian) (aes : Aes)

/-- **A command of `cmd.c` that answers `FAILED` leaves the settings.** -/
def FailedKeeps (env : CmdEnv) (u : Ctl) : Prop :=
  u.action.isCore → (respond o aes env u).Keeps u

/-! ### The condition -/

/-- The keys of a block cipher that is not in use. -/
def noKeys : BlkKeys := ⟨List.replicate blkKeysz 0, List.replicate blkIvsz 0, none⟩

/-- `GOAES` does no harm: a read fails, and nothing is answered; or the four calls that make
the two contexts succeed; or there is nothing to lose.  The structure for sending is wiped in any
case, the one for receiving when the first context is there, and before that it holds what the
client sent. -/
def GoaesClear (s : Sess) : Prop :=
  (readbufEx o aes s blkKeysz).ret = -1 ∨
    (readbufEx o aes (goaesKeyed o aes s) blkIvsz).ret = -1 ∨
    false ∉ (goaesLoaded o aes s).ossl.fates.take 4 ∨
    s.keys.blkTx = noKeys ∧
      (false ∈ (goaesLoaded o aes s).ossl.fates.take 2 →
        (goaesLoaded o aes s).keys.blkRx = s.keys.blkRx) ∧
      (false ∉ (goaesLoaded o aes s).ossl.fates.take 2 → s.keys.blkRx = noKeys)

/-- The frames that leave the settings when they fail.  A name that `LOCK` refuses has to be the
old one, and so has a time zone in which the date is not representable. -/
def FailedClear (env : CmdEnv) (u : Ctl) : Prop :=
  let arg := argOf (excmd u.srv.sess.buf) u.srv
  match u.action with
  | .run .lock => lockAccepted arg = true ∨ arg = u.lcknam
  | .run .dateftz => (env.date arg).isSome = true ∨ arg = u.tz
  | .run .goaes => GoaesClear o aes u.srv.sess
  | _ => True

end Layer

/-! ### Replies -/

theorem isFailed_fail (arg : List Byte) : IsFailed (cmdFailText arg) :=
  (List.prefix_append _ _).trans (List.prefix_append _ _)

theorem not_isFailed_ok (rest : List Byte) : ¬ IsFailed (cmdOkText ++ rest) := by
  rintro ⟨t, ht⟩
  have hhead := congrArg List.head? ht
  simp [cmdOkText, lit, ofChar] at hhead

theorem not_isFailed_cmdOk : ¬ IsFailed cmdOkText := by decide

/-! ### What a reply moves -/

section Layer

variable {o : Endian} {aes : Aes}

/-- Two sessions that send alike in stream mode. -/
structure SameWire (s t : Sess) : Prop where
  mode : s.blkstatus = t.blkstatus
  tx : s.crypTx = t.crypTx
  sched : s.wsched = t.wsched

/-- In block mode the stream cipher rests. -/
theorem crypTx_sndbuf_blk {s : Sess} (h : s.blkstatus = true) (m : List Byte) (enc : Bool) :
    (sndbuf o aes s m enc).sess.crypTx = s.crypTx := by
  unfold sndbuf
  rw [if_pos h]
  simp only [blkSndbuf]
  split
  · rfl
  · split
    · rfl
    · split <;> rfl

theorem SameWire.sndbuf {s t : Sess} (h : SameWire s t) (hmode : s.blkstatus = false)
    (m : List Byte) (enc : Bool) :
    (sndbuf o aes s m enc).ret = (sndbuf o aes t m enc).ret ∧
      SameWire (sndbuf o aes s m enc).sess (sndbuf o aes t m enc).sess ∧
      (sndbuf o aes s m enc).sess.blkstatus = false := by
  have hmode' : t.blkstatus = false := h.mode ▸ hmode
  simp only [TFProtocol.sndbuf, hmode, hmode', h.tx, Bool.false_eq_true, if_false]
  split
  · refine ⟨?_, ⟨?_, ?_, ?_⟩, ?_⟩ <;> simp [wrfd, h.sched]
  · refine ⟨by simp [wrfd, h.sched], ⟨h.mode, h.tx, by simp [wrfd, h.sched]⟩, hmode⟩

/-- A reply moves the stream cipher of the sending side alike in two such sessions. -/
theorem SameWire.sendReply {s t : Sess} (h : SameWire s t) (text : List Byte) :
    (sendReply o aes s text).crypTx = (sendReply o aes t text).crypTx := by
  have hbuf : SameWire { s with buf := overlay s.buf (text ++ [0]) }
      { t with buf := overlay t.buf (text ++ [0]) } := ⟨h.mode, h.tx, h.sched⟩
  cases hmode : s.blkstatus with
  | true =>
    -- neither the header nor the text goes through the stream cipher
    have hblk : ∀ v : Sess, v.blkstatus = true → ∀ m,
        (writebuf o aes v m).sess.crypTx = v.crypTx := by
      intro v hv m
      have hhdr := @crypTx_sndbuf_blk o aes v hv (hdrsetsz o m.length) true
      have hmode := (@sndbuf_transfers o aes v (hdrsetsz o m.length) true).mode.trans hv
      simp only [writebuf]
      split
      · exact hhdr
      · exact (crypTx_sndbuf_blk hmode m true).trans hhdr
    have hs := hblk { s with buf := overlay s.buf (text ++ [0]) } hmode text
    have ht := hblk { t with buf := overlay t.buf (text ++ [0]) } (h.mode ▸ hmode) text
    exact hs.trans (h.tx.trans ht.symm)
  | false =>
    obtain ⟨hret, hwire, hmode'⟩ :=
      @SameWire.sndbuf o aes _ _ hbuf hmode (hdrsetsz o text.length) true
    simp only [TFProtocol.sendReply, writebuf, hret]
    split
    · exact hwire.tx
    · exact (hwire.sndbuf hmode' text true).2.1.tx

theorem crypRx_sendReply (s : Sess) (text : List Byte) :
    (sendReply o aes s text).crypRx = s.crypRx := by
  have hsnd : ∀ (v : Sess) m enc, (sndbuf o aes v m enc).sess.crypRx = v.crypRx := by
    intro v m enc
    simp only [sndbuf, blkSndbuf]
    repeat' split
    all_goals rfl
  simp only [sendReply, writebuf]
  split
  · exact hsnd _ _ _
  · exact (hsnd _ _ _).trans (hsnd _ _ _)

theorem blkKeys_congr {s t : Sess} (h : SameCiphers s t) :
    t.keys.blkRx = s.keys.blkRx ∧ t.keys.blkTx = s.keys.blkTx := by
  simp only [Sess.keys, blkKeys, h.tx, h.rx, Ossl.boundTo_congr h.ctxs, and_self]

/-- A reply leaves all keys but the one of the sending side. -/
theorem keys_sendReply (s : Sess) (text : List Byte) :
    (sendReply o aes s text).keys
      = { s.keys with tx := (sendReply o aes s text).crypTx } := by
  obtain ⟨hrx, htx⟩ := blkKeys_congr (sendReply_sameCiphers o aes s text)
  exact CipherKeys.ext (crypRx_sendReply s text) rfl hrx htx

/-- Whether two sessions hold the same keys does not change with a reply. -/
theorem keys_sendReply_iff {s t : Sess} (h : SameWire s t) (text : List Byte) :
    (sendReply o aes s text).keys = (sendReply o aes t text).keys ↔ s.keys = t.keys := by
  have htx : s.keys.tx = t.keys.tx := h.tx
  rw [keys_sendReply, keys_sendReply, h.sendReply]
  constructor
  · intro heq
    obtain ⟨hrx, -, hblkRx, hblkTx⟩ := CipherKeys.mk.inj heq
    exact CipherKeys.ext hrx htx hblkRx hblkTx
  · intro heq
    rw [heq]

end Layer

/-! ### Handlers that assign nothing -/

/-- The settings of a root. -/
def Roots.settings (r : Roots) : List Byte × List Byte × Bool × Bool × Bool :=
  (r.jail.dbdir, r.jail.fsid, r.injail, r.locksys, r.flycontext)

/-- The settings among the globals that decide about files. -/
def CoreSt.settings (s : CoreSt) : List Byte × Bool × List Byte × List Byte × Bool × Bool × Bool :=
  (s.lcknam, s.faiuse, s.roots.settings)

/-- The commands that assign to one of them. -/
def CoreCmd.assigns : CoreCmd → Bool
  | .lock _ | .setfsid _ | .injail _ | .locksys _ | .flycontext _ | .faitok _ _ _ => true
  | _ => false

theorem coreCmd_assigns (env : CmdEnv) (arg mem : List Byte) (h : Handler) :
    (coreCmd env arg mem h).assigns = false := by
  cases h <;> rfl

/-- The files are no part of the settings. -/
@[simp]
theorem settings_tree (s : CoreSt) (t : FileTree) :
    CoreSt.settings ⟨t, s.roots, s.lcknam, s.faiuse, s.ntfy⟩ = s.settings :=
  rfl

/-- Neither is the list of notifications. -/
@[simp]
theorem settings_ntfy (s : CoreSt) (ws : List Watch) :
    CoreSt.settings ⟨s.tree, s.roots, s.lcknam, s.faiuse, ws⟩ = s.settings :=
  rfl

/-- A check of a path is not remembered in the settings. -/
@[simp]
theorem settings_after (w : CoreEnv) (s : CoreSt) (site : Site) (p : List Byte) :
    (s.after (check w s site p)).settings = s.settings := by
  have hjail : (check w s site p).jail.dbdir = s.jail.dbdir ∧
      (check w s site p).jail.fsid = s.jail.fsid := by
    rw [check, jaildir_jail]
    exact ⟨rfl, rfl⟩
  simp only [CoreSt.settings, Roots.settings, CoreSt.after, hjail]
  rfl

theorem settings_looks (w : CoreEnv) (s : CoreSt) (checks : List (Site × List Byte)) :
    (looks w s checks).settings = s.settings := by
  induction checks with
  | nil => rfl
  | cons x xs ih => rw [looks, settings_after, ih]

theorem settings_coreStep (w : CoreEnv) (s : CoreSt) {cmd : CoreCmd} (h : cmd.assigns = false) :
    (coreStep s w cmd).settings = s.settings := by
  cases cmd with
  | look checks => exact settings_looks w s checks
  | lock | setfsid | injail | locksys | flycontext | faitok => cases h
  | _ =>
    simp only [coreStep, cmdMkdir, cmdRmkdir, cmdDel, cmdTouch, cmdTasfs, cmdRmdir, cmdLs, cmdLsr,
      lsTmp, cmdPut, cmdPutcan, cmdSup, cmdIntwrite, cmdNetmutacqtryTree, cmdNetmutrelTree, storeAt,
      cmdRunbash, cmdSendfile, cmdRcvfile, cmdRmsecdir, cmdCopy, cmdCpdir, cmdXcopyTree,
      cmdXcpdirTree, crossTree, cmdXdel, cmdXrmdir, crossRemove, cmdRenam, cmdLsrv2,
      cmdSetfspermTree, cmdRemfspermTree, cmdAddntfyTree, cmdStartntfyTree]
    repeat' split
    all_goals simp only [settings_tree, settings_ntfy, settings_after]

/-! ### Handlers that check first -/

/-- `cmd_injail` as it assigns: the new root is in place while the token file is read, and the
old one is put back on both ways that fail. -/
def cmdInjailSwap (fs : Fs) (r : Roots) (arg beyond : List Byte) : RootRes :=
  if !r.injail then ⟨cmdFailText (lit "51 : The process is already in-jailed."), r⟩
  else
    match strstr multipSeps arg with
    | none => ⟨cmdFailText (lit "16 : Missing parameter from command."), r⟩
    | some (sectok, dstp) =>
      let c := jaildir fs r.jail dstp beyond
      let r := { r with jail := c.jail }
      if !c.ok then ⟨cmdFailText (lit "1 : Access denied to location."), r⟩
      else
        let path := c.dst ++ [slash]
        let old := r.jail.dbdir
        let r := { r with jail := { r.jail with dbdir := path } }
        match fs.read (path ++ jailFile) with
        | none =>
          ⟨cmdFailText (lit "48 : Failed to open ACL file in jail directory."),
            { r with jail := { r.jail with dbdir := old } }⟩
        | some file =>
          if tokenListed sectok file then ⟨cmdOkText, { r with injail := false }⟩
          else
            ⟨cmdFailText (lit "49 : Invalid security token in jail directory."),
              { r with jail := { r.jail with dbdir := old } }⟩

theorem cmdInjail_eq_swap (fs : Fs) (r : Roots) (arg beyond : List Byte) :
    cmdInjail fs r arg beyond = cmdInjailSwap fs r arg beyond :=
  rfl

/-- A check of a path by one of the commands that move the root. -/
theorem Roots.settings_jaildir (fs : Fs) (r : Roots) (src beyond : List Byte) :
    Roots.settings { r with jail := (jaildir fs r.jail src beyond).jail } = r.settings := by
  rw [jaildir_jail]
  rfl

/-- **A root command that fails leaves the root and the flags.** -/
theorem rootStep_failed (r : Roots) (cmd : RootCmd) (h : IsFailed (rootStep r cmd).reply) :
    (rootStep r cmd).roots.settings = r.settings := by
  cases cmd with
  | injail fs arg beyond =>
    simp only [rootStep, cmdInjail_eq_swap, cmdInjailSwap] at h ⊢
    split at h
    · next hin => rw [if_pos hin]
    · next hin =>
      rw [if_neg hin]
      split at h
      · rfl
      · next sectok dstp _ =>
        have hjail := r.settings_jaildir fs dstp beyond
        split at h
        · next hok => rw [if_pos hok, hjail]
        · next hok =>
          rw [if_neg hok]
          split at h
          · exact hjail
          · split at h
            · exact absurd h not_isFailed_cmdOk
            · next htok => rw [if_neg htok, hjail]
  | locksys fs arg =>
    simp only [rootStep, cmdLocksys] at h ⊢
    split at h
    · next hdb => rw [if_pos hdb]
    · next hdb =>
      rw [if_neg hdb]
      split at h
      · next hdir => rw [if_pos hdir]
      · exact absurd h not_isFailed_cmdOk
  | flycontext fs fs' arg beyond =>
    have hjail := r.settings_jaildir fs arg beyond
    simp only [rootStep, cmdFlycontext] at h ⊢
    split at h
    · next hok => rw [if_pos hok, hjail]
    · next hok =>
      rw [if_neg hok]
      split at h
      · next hdir => rw [if_pos hdir, hjail]
      · exact absurd h not_isFailed_cmdOk

theorem cmdLogin_failed (env : LoginEnv) (logged : Bool) (mem : List Byte)
    (h : IsFailed (cmdLogin env logged mem).reply) : (cmdLogin env logged mem).logged = logged := by
  simp only [cmdLogin] at h ⊢
  split at h
  · next hlog => rw [if_pos hlog, hlog]
  · next hlog =>
    have hlog' : logged = false := Bool.eq_false_of_not_eq_true hlog
    rw [if_neg hlog]
    split at h
    · exact hlog'.symm
    · split at h
      · exact hlog'.symm
      · split at h
        · exact hlog'.symm
        · split at h
          · exact absurd h not_isFailed_cmdOk
          · next hpwd => rw [if_neg hpwd, hlog']

/-! ### One handler -/

theorem Ctl.settings_congr {u v : Ctl} (hcore : u.core.settings = v.core.settings)
    (hlogged : u.srv.logged = v.srv.logged) (htz : u.tz = v.tz)
    (hkeys : u.srv.sess.keys = v.srv.sess.keys) : u.settings = v.settings := by
  simp only [CoreSt.settings, Roots.settings, Ctl.core, Prod.mk.injEq] at hcore
  obtain ⟨hlck, hfai, hdb, hfsid, hin, hlock, hfly⟩ := hcore
  exact Settings.ext hlck hdb hin hlock hfly hlogged hfsid hfai htz hkeys

section Layer

variable {o : Endian} {aes : Aes}

theorem keeps_of_not_failed {r : Response} {text : List Byte} (hr : r.reply = some text)
    (h : ¬ IsFailed text) (u : Ctl) : r.Keeps u := by
  intro text' htext hfail
  rw [hr, Option.mem_some_iff] at htext
  exact absurd (htext ▸ hfail) h

/-- A handler that leaves the session to the reply. -/
theorem keeps_saying_iff {u u' : Ctl} (hsess : u'.srv.sess = u.srv.sess) (text : List Byte) :
    (saying o aes u text u').Keeps u ↔ (IsFailed text → u'.settings = u.settings) := by
  have hiff : (u'.withSess (sendReply o aes u'.srv.sess text)).settings
      = (u.withSess (sendReply o aes u.srv.sess text)).settings ↔ u'.settings = u.settings := by
    simp only [Settings.ext_iff, Ctl.settings, Ctl.withSess, hsess]
  constructor
  · intro h hfail
    exact hiff.mp (h text rfl hfail)
  · intro h text' htext hfail
    obtain rfl : text = text' := Option.some.inj htext
    exact hiff.mpr (h hfail)

theorem keeps_saying (u : Ctl) (text : List Byte) : (saying o aes u text u).Keeps u :=
  (keeps_saying_iff rfl text).mpr fun _ => rfl

theorem lock_keeps_iff (env : CmdEnv) (u : Ctl) (arg : List Byte) :
    (u.cmdLock o aes env arg).Keeps u ↔ lockAccepted arg = true ∨ arg = u.lcknam := by
  unfold Ctl.cmdLock
  dsimp only
  split
  · next hacc =>
    exact iff_of_true (keeps_of_not_failed rfl not_isFailed_cmdOk u) (.inl hacc)
  · next hacc =>
    refine (keeps_saying_iff (by rfl) _).trans ?_
    constructor
    · intro h
      exact .inr (congrArg Settings.lcknam (h (isFailed_fail _)))
    · rintro (h | rfl) _
      · exact absurd h hacc
      · rfl

theorem dateftz_keeps_iff (env : CmdEnv) (u : Ctl) (arg : List Byte) :
    (u.cmdDateftz o aes env arg).Keeps u ↔ (env.date arg).isSome = true ∨ arg = u.tz := by
  unfold Ctl.cmdDateftz
  dsimp only
  split
  · next date hdate =>
    refine iff_of_true (keeps_of_not_failed rfl ?_ u) (.inl (by rw [hdate]; rfl))
    rw [List.append_assoc]
    exact not_isFailed_ok _
  · next hdate =>
    refine (keeps_saying_iff (by rfl) _).trans ?_
    constructor
    · intro h
      exact .inr (congrArg Settings.tz (h (isFailed_fail _)))
    · rintro (h | rfl) _
      · rw [hdate] at h
        cases h
      · rfl

theorem localtime_keeps (env : CmdEnv) (u : Ctl) : (u.cmdLocaltime o aes env).Keeps u := by
  unfold Ctl.cmdLocaltime
  split <;> exact keeps_saying u _

theorem nigma_keeps (env : CmdEnv) (u : Ctl) (arg : List Byte) :
    (u.cmdNigma o aes env arg).Keeps u := by
  unfold Ctl.cmdNigma
  dsimp only
  split
  · exact keeps_saying u _
  · split
    · exact keeps_saying u _
    · exact keeps_of_not_failed rfl not_isFailed_cmdOk u

/-- What `FAITOK` stores its token with, the flag being down. -/
theorem faitokStore_some {env : CmdEnv} {u : Ctl} {arg : List Byte} {cmd : CoreCmd}
    (h : faitokStore env u arg = some cmd) :
    u.faiuse = false ∧ ∃ line, cmd = .faitok env.uuid line env.saved := by
  simp only [faitokStore] at h
  split at h
  · cases h
  · next huse =>
    split at h
    · cases h
    · split at h
      · exact ⟨Bool.eq_false_of_not_eq_true huse, _, (Option.some.inj h).symm⟩
      · cases h

/-- A token that could not be stored leaves the flag down. -/
theorem faitok_keeps (env : CmdEnv) (u : Ctl) (arg : List Byte) :
    (u.cmdFaitok o aes env arg).Keeps u := by
  unfold Ctl.cmdFaitok
  split
  · exact keeps_saying u _
  · next cmd hcmd =>
    obtain ⟨huse, line, rfl⟩ := faitokStore_some hcmd
    dsimp only
    split
    · refine keeps_of_not_failed rfl ?_ u
      simp only [faitokText, List.append_assoc]
      exact not_isFailed_ok _
    · next hnot =>
      refine (keeps_saying_iff (by rfl) _).mpr fun _ => Ctl.settings_congr ?_ rfl rfl rfl
      -- the flag was down and is down, and nothing else is assigned
      have hflag : (coreStep u.core env.files (.faitok env.uuid line env.saved)).faiuse
          = u.core.faiuse := (Bool.eq_false_of_not_eq_true hnot).trans huse.symm
      have hrest : (coreStep u.core env.files (.faitok env.uuid line env.saved)).settings
          = (u.lcknam, (coreStep u.core env.files (.faitok env.uuid line env.saved)).faiuse,
            u.srv.roots.settings) := by
        simp only [coreStep, cmdFaitok]
        split <;> rfl
      rw [hflag] at hrest
      exact hrest

/-- A handler without a setting to assign. -/
theorem other_keeps (env : CmdEnv) (u : Ctl) (arg mem : List Byte) (h : Handler) :
    (u.runOther o aes env arg mem h).Keeps u := by
  intro text _ _
  refine Ctl.settings_congr ?_ rfl rfl rfl
  exact settings_coreStep env.files u.core (coreCmd_assigns env arg mem h)

/-- A handler of `runHandler` that answers at once: the terminators it stores in `comm.buf` are
no part of the keys. -/
theorem server_settings {u : Ctl} {srv : Srv} {tree : FileTree} {cuts : List ℕ}
    {text : List Byte} (hsess : srv.sess = sendReply o aes (cutAt cuts u.srv.sess) text)
    (hroots : srv.roots.settings = u.srv.roots.settings) (hlogged : srv.logged = u.srv.logged) :
    Ctl.settings { u with srv := srv, tree := tree }
      = (u.withSess (sendReply o aes u.srv.sess text)).settings := by
  refine Ctl.settings_congr ?_ hlogged rfl ?_
  · show (u.lcknam, u.faiuse, srv.roots.settings) = _
    rw [hroots]
    rfl
  · show srv.sess.keys = _
    have hwire : SameWire (cutAt cuts u.srv.sess) u.srv.sess := ⟨rfl, rfl, rfl⟩
    rw [hsess]
    exact (keys_sendReply_iff hwire text).mpr rfl

theorem login_keeps (env : CmdEnv) (u : Ctl) : (u.runServer o aes env .login).Keeps u := by
  intro text htext hfail
  obtain rfl := Option.some.inj htext
  exact server_settings rfl rfl (cmdLogin_failed _ _ _ hfail)

theorem prockey_keeps (env : CmdEnv) (u : Ctl) : (u.runServer o aes env .prockey).Keeps u := by
  intro text htext _
  obtain rfl := Option.some.inj htext
  refine @server_settings o aes u _ _ [] _ ?_ rfl rfl
  simp only [runHandler, cmdProckey, cmdFail]
  split <;> rfl

theorem keepalive_keeps (env : CmdEnv) (u : Ctl) : (u.runServer o aes env .keepalive).Keeps u := by
  intro text htext _
  obtain rfl := Option.some.inj htext
  refine @server_settings o aes u _ _ (keepaliveCuts ((lit "KEEPALIVE").length + 1)
    (keepaliveToks (cstr (u.srv.sess.buf.drop ((lit "KEEPALIVE").length + 1)))).1) _ ?_ rfl rfl
  simp only [runHandler, cmdKeepalive, cmdFail, cmdOk]
  split
  · rfl
  · split <;> rfl

/-- The three commands that move the root. -/
theorem root_keeps (env : CmdEnv) (u : Ctl) {h : Handler}
    (hh : h = .injail ∨ h = .locksys ∨ h = .flycontext) : (u.runServer o aes env h).Keeps u := by
  intro text htext hfail
  rcases hh with rfl | rfl | rfl
  · obtain rfl := Option.some.inj htext
    exact server_settings rfl
      (rootStep_failed u.srv.roots (.injail env.world.fs _ env.world.beyond) hfail) rfl
  · obtain rfl := Option.some.inj htext
    exact @server_settings o aes u _ _ [] _ rfl
      (rootStep_failed u.srv.roots (.locksys env.world.fs _) hfail) rfl
  · obtain rfl := Option.some.inj htext
    exact @server_settings o aes u _ _ [] _ rfl
      (rootStep_failed u.srv.roots
        (.flycontext env.world.fs env.world.fs' _ env.world.beyond) hfail) rfl

end Layer

/-! ### Contexts that could not be made -/

/-- A context without a cipher is as good as none. -/
theorem Ossl.boundTo_unbound {l l' : Ossl} (h : l'.ctxs = l.ctxs ++ [⟨none, false⟩])
    (ctx : Option ℕ) : l'.boundTo ctx = l.boundTo ctx := by
  cases ctx with
  | none => rfl
  | some i =>
    simp only [boundTo, live, Option.bind_some, h]
    rcases lt_trichotomy i l.ctxs.length with hi | rfl | hi
    · rw [List.getElem?_append_left hi]
    · simp [Option.filter_some]
    · rw [List.getElem?_eq_none (by simp; omega), List.getElem?_eq_none (by omega)]

/-- A freed or missing context stands for nothing. -/
theorem Ossl.boundTo_of_live {l : Ossl} {ctx : Option ℕ} (h : l.live ctx = none) :
    l.boundTo ctx = none := by
  rw [boundTo, h, Option.bind_none]

/-- What a pointer stands for after the context of another pointer, or its own, was freed. -/
theorem Ossl.boundTo_set_freed (l : Ossl) {i : ℕ} {c : EvpCtx} (j : ℕ) :
    Ossl.boundTo { l with ctxs := l.ctxs.set i { c with freed := true } } (some j)
      = if i = j then none else l.boundTo (some j) := by
  simp only [boundTo, live, Option.bind_some, List.getElem?_set]
  split
  · split <;> simp [Option.filter_some]
  · rfl

/-- What was freed stands for nothing. -/
theorem Ossl.boundTo_ctxFree_self (l : Ossl) (ctx : Option ℕ) :
    (l.ctxFree ctx).boundTo ctx = none := by
  unfold ctxFree
  split
  · rfl
  · next i c hlive => rw [boundTo_set_freed, if_pos rfl]
  · next i hdead => exact boundTo_of_live hdead

/-- Freeing a context binds none. -/
theorem Ossl.boundTo_ctxFree {l : Ossl} {ctx : Option ℕ} (h : l.boundTo ctx = none)
    (ctx' : Option ℕ) : (l.ctxFree ctx').boundTo ctx = none := by
  unfold ctxFree
  split
  · exact h
  · next i c hlive =>
    cases ctx with
    | none => rfl
    | some j =>
      rw [boundTo_set_freed]
      split
      · rfl
      · exact h
  · exact h

/-- A wiped structure whose context is not bound holds no key. -/
theorem blkKeys_eq_noKeys {l : Ossl} {c : BlkCipher} (hkey : c.key = List.replicate blkKeysz 0)
    (hiv : c.iv = List.replicate blkIvsz 0) (hctx : l.boundTo c.ctx = none) :
    blkKeys l c = noKeys := by
  rw [blkKeys, hkey, hiv, hctx]
  rfl

theorem blkinit_key (d : EvpDir) (l : Ossl) (c : BlkCipher) :
    (blkinit d l c).2.2.key = List.replicate blkKeysz 0 ∧
      (blkinit d l c).2.2.iv = List.replicate blkIvsz 0 := by
  simp only [blkinit]
  split <;> exact ⟨rfl, rfl⟩

/-- A context that could not be made: its pointer stands for nothing, and what the other
pointers stand for stays. -/
theorem blkinit_failed {d : EvpDir} {l : Ossl} {c : BlkCipher} (h : (blkinit d l c).1 = false) :
    (blkinit d l c).2.1.boundTo (blkinit d l c).2.2.ctx = none ∧
      ∀ ctx, (blkinit d l c).2.1.boundTo ctx = l.boundTo ctx := by
  cases hnew : l.fate with
  | false =>
    rw [blkinit_of_no_ctx hnew]
    exact ⟨rfl, fun ctx => Ossl.boundTo_congr rfl ctx⟩
  | true =>
    rw [blkinit_of_ctx hnew] at h ⊢
    dsimp only at h ⊢
    have hold : ∀ ctx, Ossl.boundTo ⟨if l.fates.tail.headD true then
          l.ctxs ++ [⟨some (d, List.replicate blkKeysz 0, List.replicate blkIvsz 0), false⟩]
        else l.ctxs ++ [⟨none, false⟩], l.fates.tail.tail, l.misuse⟩ ctx = l.boundTo ctx := by
      intro ctx
      apply Ossl.boundTo_unbound
      rw [h]
      rfl
    refine ⟨?_, hold⟩
    rw [hold]
    apply Ossl.boundTo_of_live
    simp [Ossl.live]

/-- `setblkon` that fails: the structure for sending holds no key any more, and the one for
receiving holds none either once the first context was made. -/
theorem setblkon_failed {s : Sess} (h : (setblkon s).1 = false) :
    (setblkon s).2.keys.blkTx = noKeys ∧
      (false ∈ s.ossl.fates.take 2 → (setblkon s).2.keys.blkRx = s.keys.blkRx) ∧
      (false ∉ s.ossl.fates.take 2 → (setblkon s).2.keys.blkRx = noKeys) := by
  obtain ⟨hkey, hiv⟩ := blkinit_key .encrypt s.ossl s.cipherTx
  have hiff := blkinit_ok_iff .encrypt s.ossl s.cipherTx
  cases hen : (blkinitEn s.ossl s.cipherTx).1 with
  | false =>
    obtain ⟨hnone, hold⟩ := blkinit_failed hen
    have hmem : false ∈ s.ossl.fates.take 2 := by
      by_contra hnot
      exact Bool.false_ne_true (hen.symm.trans (hiff.mpr hnot))
    simp only [setblkon, hen, Bool.false_eq_true, if_false]
    refine ⟨blkKeys_eq_noKeys hkey hiv hnone, fun _ => ?_, fun hnot => absurd hmem hnot⟩
    show blkKeys _ s.cipherRx = blkKeys _ s.cipherRx
    rw [blkKeys, blkKeys]
    exact congrArg _ (hold _)
  | true =>
    have hnot : false ∉ s.ossl.fates.take 2 := hiff.mp hen
    cases hde : (blkinitDe (blkinitEn s.ossl s.cipherTx).2.1 s.cipherRx).1 with
    | true => simp [setblkon, hen, hde] at h
    | false =>
      obtain ⟨hkey', hiv'⟩ := blkinit_key .decrypt (blkinitEn s.ossl s.cipherTx).2.1 s.cipherRx
      obtain ⟨hnone, -⟩ := blkinit_failed hde
      simp only [setblkon, hen, hde, Bool.false_eq_true, if_false, if_true]
      refine ⟨blkKeys_eq_noKeys hkey hiv (Ossl.boundTo_ctxFree_self _ _),
        fun hmem => absurd hmem hnot, fun _ => ?_⟩
      exact blkKeys_eq_noKeys hkey' hiv' (Ossl.boundTo_ctxFree hnone _)

/-! ### `GOAES` -/

section Layer

variable {o : Endian} {aes : Aes}

/-- The two reads of `cmd_goaes` leave the contexts, and everything but the structure they store
into. -/
theorem goaesVectored_keeps (s : Sess) :
    (goaesVectored o aes s).ossl.ctxs = s.ossl.ctxs ∧
      (goaesVectored o aes s).cipherRx = s.cipherRx := by
  have hkey := rcvbuf_sameCiphers o aes s blkKeysz true
  have hiv := rcvbuf_sameCiphers o aes (goaesKeyed o aes s) blkIvsz true
  exact ⟨hiv.ctxs.trans hkey.ctxs, hiv.rx.trans hkey.rx⟩

/-- `setblkon` is about the block cipher only. -/
theorem setblkon_frame (s : Sess) :
    (setblkon s).2.crypRx = s.crypRx ∧ SameWire (setblkon s).2 s := by
  simp only [setblkon]
  split
  · split <;> exact ⟨rfl, rfl, rfl, rfl⟩
  · exact ⟨rfl, rfl, rfl, rfl⟩

/-- Contexts that cannot be made leave the keys if there were none to lose. -/
theorem keys_setblkon_iff {s : Sess} (h : (setblkon (goaesLoaded o aes s)).1 = false) :
    (setblkon (goaesLoaded o aes s)).2.keys = (serverMoved o aes s .goaes).keys ↔
      s.keys.blkTx = noKeys ∧
        (false ∈ (goaesLoaded o aes s).ossl.fates.take 2 →
          (goaesLoaded o aes s).keys.blkRx = s.keys.blkRx) ∧
        (false ∉ (goaesLoaded o aes s).ossl.fates.take 2 → s.keys.blkRx = noKeys) := by
  obtain ⟨hblkTx, hearly, hlate⟩ := setblkon_failed h
  obtain ⟨hrx, hwire⟩ := setblkon_frame (goaesLoaded o aes s)
  obtain ⟨hctxs, hcipher⟩ := @goaesVectored_keeps o aes s
  have hsame : SameCiphers s (serverMoved o aes s .goaes) := ⟨hctxs, rfl, hcipher⟩
  obtain ⟨hmovedRx, hmovedTx⟩ := blkKeys_congr hsame
  rw [CipherKeys.ext_iff, hmovedRx, hmovedTx, hblkTx]
  constructor
  · rintro ⟨-, -, hblk, htx⟩
    exact ⟨htx.symm, fun hmem => (hearly hmem).symm.trans hblk,
      fun hnot => hblk.symm.trans (hlate hnot)⟩
  · rintro ⟨htx, hload, hnone⟩
    refine ⟨hrx, hwire.tx, ?_, htx.symm⟩
    by_cases hmem : false ∈ (goaesLoaded o aes s).ossl.fates.take 2
    · exact (hearly hmem).trans (hload hmem)
    · exact (hlate hmem).trans (hnone hmem).symm

/-- **When a `GOAES` leaves the keys.** -/
theorem goaes_keeps_iff (env : CmdEnv) (u : Ctl) :
    (u.runServer o aes env .goaes).Keeps u ↔ GoaesClear o aes u.srv.sess := by
  have hreply : (u.runServer o aes env .goaes).reply = (cmdGoaes o aes u.srv.sess).1 := rfl
  have hquiet : (cmdGoaes o aes u.srv.sess).1 = none → (u.runServer o aes env .goaes).Keeps u := by
    intro hnone text htext
    rw [hreply, hnone] at htext
    cases htext
  rcases cmdGoaes_cases o aes u.srv.sess with
    ⟨hkey, heq⟩ | ⟨-, hiv, heq⟩ | ⟨hkey, hiv, ⟨hon, heq⟩ | ⟨hoff, heq⟩⟩
  · exact iff_of_true (hquiet (by rw [heq])) (.inl hkey)
  · exact iff_of_true (hquiet (by rw [heq])) (.inr (.inl hiv))
  · refine iff_of_true (keeps_of_not_failed (hreply.trans (by rw [heq])) not_isFailed_cmdOk u) ?_
    exact .inr (.inr (.inl ((setblkon_ok_iff _).mp hon)))
  · have hmem : ¬ false ∉ (goaesLoaded o aes u.srv.sess).ossl.fates.take 4 :=
      fun hnot => Bool.false_ne_true (hoff.symm.trans ((setblkon_ok_iff _).mpr hnot))
    -- what is left of the condition is about the keys, and so is the equality of the settings
    have hclear : GoaesClear o aes u.srv.sess ↔ _ :=
      (or_iff_right hkey).trans ((or_iff_right hiv).trans (or_iff_right hmem))
    rw [hclear, ← keys_setblkon_iff hoff]
    have hframe := (setblkon_frame (goaesLoaded o aes u.srv.sess)).2
    have hwire : SameWire (setblkon (goaesLoaded o aes u.srv.sess)).2
        (serverMoved o aes u.srv.sess .goaes) := ⟨hframe.mode, hframe.tx, hframe.sched⟩
    rw [← keys_sendReply_iff hwire (cmdFailText cmdEaes)]
    have hreply' : (u.runServer o aes env .goaes).reply = some (cmdFailText cmdEaes) := by
      rw [hreply, heq]
    have hnext : (u.runServer o aes env .goaes).next.srv.sess
        = sendReply o aes (setblkon (goaesLoaded o aes u.srv.sess)).2 (cmdFailText cmdEaes) := by
      show (cmdGoaes o aes u.srv.sess).2 = _
      rw [heq]
      rfl
    have hmoved : (u.runServer o aes env .goaes).moved
        = sendReply o aes (serverMoved o aes u.srv.sess .goaes) (cmdFailText cmdEaes) := by
      show replied o aes _ (cmdGoaes o aes u.srv.sess).1 = _
      rw [heq]
      rfl
    constructor
    · intro hkeeps
      have hset := hkeeps _ hreply' (isFailed_fail _)
      have hkeys : (u.runServer o aes env .goaes).next.srv.sess.keys
          = (u.runServer o aes env .goaes).moved.keys := congrArg Settings.keys hset
      rwa [hnext, hmoved] at hkeys
    · intro hkeys text _ _
      refine Ctl.settings_congr rfl rfl rfl ?_
      show (u.runServer o aes env .goaes).next.srv.sess.keys
        = (u.runServer o aes env .goaes).moved.keys
      rw [hnext, hmoved]
      exact hkeys

/-! ### Every frame -/

/-- The handlers other than the three. -/
theorem respondRun_keeps (env : CmdEnv) (u : Ctl) (name : List Byte) {h : Handler}
    (hlock : h ≠ .lock) (hdate : h ≠ .dateftz) (hgoaes : h ≠ .goaes) :
    (respondRun o aes env u name h).Keeps u := by
  have hok : ∀ (text : List Byte) (u' : Ctl),
      (saying o aes u (cmdOkText ++ text) u').Keeps u :=
    fun text u' => keeps_of_not_failed rfl (not_isFailed_ok text) u
  cases h with
  | lock => exact absurd rfl hlock
  | dateftz => exact absurd rfl hdate
  | goaes => exact absurd rfl hgoaes
  | endcomm =>
    intro text htext
    cases htext
  | login => exact login_keeps env u
  | keepalive => exact keepalive_keeps env u
  | prockey => exact prockey_keeps env u
  | injail => exact root_keeps env u (.inl rfl)
  | locksys => exact root_keeps env u (.inr (.inl rfl))
  | flycontext => exact root_keeps env u (.inr (.inr rfl))
  | localtime => exact localtime_keeps env u
  | nigma => exact nigma_keeps env u _
  | faitok => exact faitok_keeps env u _
  | setfsid | settz | ciaoff | tfpcrypto => exact keeps_of_not_failed rfl not_isFailed_cmdOk u
  | gettz => exact hok _ _
  | ciaon => exact hok _ _
  | _ => exact other_keeps env u _ _ _

/-- **A command that answers `FAILED` leaves the settings exactly when it is clear**, whatever
state the session is in, whatever the frame holds and whatever the command finds around it. -/
theorem failed_keeps_iff (env : CmdEnv) (u : Ctl) :
    FailedKeeps o aes env u ↔ FailedClear o aes env u := by
  unfold FailedKeeps FailedClear respond
  cases u.action with
  | fail arg => exact iff_of_true (fun _ => keeps_saying u _) trivial
  | unknown => exact iff_of_true (fun _ => keeps_saying u _) trivial
  | run h =>
    cases h with
    | lock => exact (imp_iff_right rfl).trans (lock_keeps_iff env u _)
    | dateftz => exact (imp_iff_right rfl).trans (dateftz_keeps_iff env u _)
    | goaes => exact (imp_iff_right rfl).trans (goaes_keeps_iff env u)
    | _ =>
      exact iff_of_true (fun _ => respondRun_keeps env u _ (by decide) (by decide) (by decide))
        trivial

end Layer

/-! ### A name that is refused -/

/-- A session that has logged in and received a frame. -/
def exampleCtl (frame : List Byte) : Ctl where
  srv :=
    { (default : Srv) with
      logged := true
      phase := .loop
      sess := { (default : Sess) with buf := frame ++ [0], loop := true } }
  tree := exampleTree
  lcknam := lit "mine"
  faiuse := false
  ntfy := []
  tz := lit "UTC"

/-- Surroundings in which every call succeeds. -/
def exampleCmdEnv : CmdEnv where
  cfg := exampleConfig
  world := exampleWorld
  files := idleEnv
  date := fun _ => some (lit "2024-01-01 00:00:00 UTC")
  mallocRx := true
  mallocTx := true
  mallocCp := true
  randent := fun n => List.replicate n.toNat 7
  uuid := lit "9570a411-7512-422b-a260-2f608aa5ef91"
  faitokMq := 60
  time := 0
  genkey := some (faiKey 1)
  base64 := true
  saved := true
  traffic := []
  reply := some cmdOkText
  checks := []
  path := []
  text := []
  content := none
  flag := false
  io := ⟨true, true, true, true, true⟩
  answers := []

/-- `LOCK a.b` is refused, and `a.b` is the lock name from then on. -/
theorem refused_name_stored :
    ¬ ∀ env u, FailedKeeps .little Aes.sample env u := by
  intro h
  have hact : (exampleCtl (lit "LOCK a.b")).action = .run .lock := by decide +kernel
  have hreply : (respond .little Aes.sample exampleCmdEnv (exampleCtl (lit "LOCK a.b"))).reply
      = some (cmdFailText cmdEinvlck) := by decide +kernel
  have hset := h exampleCmdEnv (exampleCtl (lit "LOCK a.b")) (by rw [hact]; rfl) _ hreply
    (isFailed_fail _)
  have hname : (respond .little Aes.sample exampleCmdEnv (exampleCtl (lit "LOCK a.b"))).next.lcknam
      = lit "mine" := congrArg Settings.lcknam hset
  exact absurd hname (by decide +kernel)

end TFProtocol
