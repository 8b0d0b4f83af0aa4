import TFProtocol.Goaes
import TFProtocol.Login

/-!
# One connection, from the version on

`mainloop` takes a connection through the version, the session key and the hash,
or, when the first frame names a valid FAI token, straight to the command loop.
`cmdifce` then reads one command after the other and `cmd_parse` dispatches them
behind four gates: the login, and the three flags of the configuration.

A step of the model is one frame.  What the code finds outside itself in that step
(files, users, memory, OpenSSL) is a `World`; the handlers that are not modelled
leave any session and any jail behind, since no other function of the source
assigns `logged` or one of the flags.

## Main definitions

* `Config`, `World` — the configuration, and what one step finds outside.
* `Event` — bytes stored into an array, a passed step of the handshake, and a
  handler entered.
* `chkproto`, `getkey`, `chkhash`, `mainloopFai` — the handshake.
* `excmd`, `cmdParse`, `runXmods` — the dispatcher.
* `cmdKeepalive`, `cmdProckey` — the handlers open before the login.
* `srvStep`, `srvRun` — one frame, and a session.
-/

namespace TFProtocol

open Bytes CStr

/-! ### Handlers -/

/-- The handlers `cmd_parse` and `run_xmods` call. -/
inductive Handler
  | endcomm | login | keepalive | prockey | injail | locksys | flycontext
  | echo | mkdir | ls | addntfy | startntfy | sendfile | rcvfile | del | rmdir | lsr
  | copy | cpdir | xcopy | xcpdir | xdel | xrmdir | lock | touch | date | datef | dtof | ftod
  | fstat | fupd | renam | put | get | freesp | putcan | getcan | chmod | chown | udate | ndate
  | sha256 | nigma | rmsecdir | tlb | sdown | sup | fsize | fsizels | lsv2 | lsrv2
  | ftype | ftypels | fstatls | intread | intwrite | netlock | netunlock | netlocktry
  | netmutacqtry | netmutrel | setfsid | setfsperm | remfsperm | getfsperm | issecfs | tasfs
  | rmkdir | gettz | settz | localtime | dateftz | lsv2down | lsrv2down | runbash | goaes
  | genuuid | tfpcrypto | faitok | faimq | ciaon | ciaoff
  | xs1 | xsime | xsNtmex | xsSqlite | xsAce | xsMysql | xsPostgresql | xsGateway | xsRpcproxy
  deriving DecidableEq, Repr, Inhabited

/-- The flags the gates of `cmd_parse` look at. -/
structure Gates where
  logged : Bool
  injail : Bool
  locksys : Bool
  flycontext : Bool
  deriving DecidableEq, Repr, Inhabited

/-- What `cmd_parse` decides for a command name. -/
inductive Action
  | run (h : Handler)
  | fail (arg : List Byte)
  | unknown
  deriving DecidableEq, Repr

/-- The chain of comparisons at the end of `cmd_parse`, in its order. -/
def cmdTable : List (List Byte × Handler) :=
  [(lit "ECHO", .echo), (lit "MKDIR", .mkdir), (lit "LS", .ls), (lit "ADDNTFY", .addntfy),
   (lit "STARTNTFY", .startntfy), (lit "RCVFILE", .sendfile), (lit "SNDFILE", .rcvfile),
   (lit "DEL", .del), (lit "RMDIR", .rmdir), (lit "LSR", .lsr), (lit "COPY", .copy),
   (lit "CPDIR", .cpdir), (lit "XCOPY", .xcopy), (lit "XCPDIR", .xcpdir), (lit "XDEL", .xdel),
   (lit "XRMDIR", .xrmdir), (lit "LOCK", .lock), (lit "TOUCH", .touch), (lit "DATE", .date),
   (lit "DATEF", .datef), (lit "DTOF", .dtof), (lit "FTOD", .ftod), (lit "FSTAT", .fstat),
   (lit "FUPD", .fupd), (lit "RENAM", .renam), (lit "KEEPALIVE", .keepalive),
   (lit "PROCKEY", .prockey), (lit "PUT", .put), (lit "GET", .get), (lit "FREESP", .freesp),
   (lit "PUTCAN", .putcan), (lit "GETCAN", .getcan), (lit "LOGIN", .login),
   (lit "CHMOD", .chmod), (lit "CHOWN", .chown), (lit "UDATE", .udate), (lit "NDATE", .ndate),
   (lit "SHA256", .sha256), (lit "NIGMA", .nigma), (lit "RMSECDIR", .rmsecdir),
   (lit "INJAIL", .injail), (lit "TLB", .tlb), (lit "SDOWN", .sdown), (lit "SUP", .sup),
   (lit "FSIZE", .fsize), (lit "FSIZELS", .fsizels), (lit "LSV2", .lsv2), (lit "LSRV2", .lsrv2),
   (lit "FTYPE", .ftype), (lit "FTYPELS", .ftypels), (lit "FSTATLS", .fstatls),
   (lit "INTREAD", .intread), (lit "INTWRITE", .intwrite), (lit "NETLOCK", .netlock),
   (lit "NETUNLOCK", .netunlock), (lit "NETLOCK_TRY", .netlocktry),
   (lit "NETMUTACQ_TRY", .netmutacqtry), (lit "NETMUTREL", .netmutrel),
   (lit "SETFSID", .setfsid), (lit "SETFSPERM", .setfsperm), (lit "REMFSPERM", .remfsperm),
   (lit "GETFSPERM", .getfsperm), (lit "ISSECFS", .issecfs), (lit "TASFS", .tasfs),
   (lit "RMKDIR", .rmkdir), (lit "GETTZ", .gettz), (lit "SETTZ", .settz),
   (lit "LOCALTIME", .localtime), (lit "DATEFTZ", .dateftz), (lit "LSV2DOWN", .lsv2down),
   (lit "LSRV2DOWN", .lsrv2down), (lit "RUNBASH", .runbash), (lit "FLYCONTEXT", .flycontext),
   (lit "GOAES", .goaes), (lit "GENUUID", .genuuid), (lit "TFPCRYPTO", .tfpcrypto),
   (lit "FAITOK", .faitok), (lit "FAIMQ", .faimq), (lit "CIAON", .ciaon),
   (lit "CIAOFF", .ciaoff)]

/-- `run_xmods(cmd)`, with the modules of `xmods.h` compiled in.  Only `XS_MYSQL`
has to be the whole name. -/
def runXmods (cmd : List Byte) : Action :=
  let has (name : List Byte) : Bool := (strstr name cmd).isSome
  if has (lit "XS1_") then .run .xs1
  else if has (lit "XSIME_START") then .run .xsime
  else if has (lit "XS_NTMEX") then .run .xsNtmex
  else if has (lit "XS_SQLITE") then .run .xsSqlite
  else if has (lit "XS_ACE") then .run .xsAce
  else if cmd = lit "XS_MYSQL" then .run .xsMysql
  else if has (lit "XS_POSTGRESQL") then .run .xsPostgresql
  else if has (lit "XS_GATEWAY") then .run .xsGateway
  else if has (lit "XS_RPCPROXY") then .run .xsRpcproxy
  else .unknown

/-- `cmd_parse`, on the command name in upper case. -/
def cmdParse (g : Gates) (cmd : List Byte) : Action :=
  if !g.logged then
    if cmd = lit "END" then .run .endcomm
    else if cmd = lit "LOGIN" then .run .login
    else if cmd = lit "KEEPALIVE" then .run .keepalive
    else if cmd = lit "PROCKEY" then .run .prockey
    else .fail (lit "38 : Invalid command before login.")
  else if cmd = lit "END" then .run .endcomm
  else if g.injail then
    if cmd = lit "INJAIL" then .run .injail
    else .fail (lit "50 : Invalid command before in-jail.")
  else if g.locksys then
    if cmd = lit "LOCKSYS" then .run .locksys
    else .fail (lit "61 : Unable to use Folder Locking System.")
  else if g.flycontext then
    if cmd = lit "FLYCONTEXT" then .run .flycontext
    else .fail (lit "65 : Unable to use the FlyContext System.")
  else
    match cmdTable.lookup cmd with
    | some h => .run h
    | none => if (strstr (lit "XS") cmd).isSome then runXmods cmd else .unknown

/-- `CMD_NAMELEN`. -/
def cmdNamelen : ℕ := 32

/-- `excmd`: the command name at the start of the memory. -/
def excmd (mem : List Byte) : List Byte := ((cstr mem).takeWhile (· ≠ blank)).take (cmdNamelen - 1)

/-- `toupper` in the C locale. -/
def toupper (b : Byte) : Byte := if 97 ≤ b.toNat ∧ b.toNat ≤ 122 then b - 32 else b

/-- `cmdtoupper`. -/
def cmdtoupper (cmd : List Byte) : List Byte := cmd.map toupper

/-! ### Events -/

/-- The arrays that bytes of the client are stored into before the login. -/
inductive Arr
  | rxhdr | commBuf | enkey | faifile | cmd | usr | pwd | alive | idle | intvl | cnt
  deriving DecidableEq, Repr

/-- `RSA_KEYLEN`. -/
def rsaKeylen : ℕ := 256

/-- `INTDIGITS`. -/
def intdigits : ℕ := 12

/-- The sizes of the arrays. -/
def Arr.size : Arr → ℕ
  | .rxhdr => 4
  | .commBuf => commbuflen
  | .enkey => rsaKeylen
  | .faifile => pathMax
  | .cmd => cmdNamelen
  | .usr => pathMax
  | .pwd => pathMax
  | .alive => intdigits
  | .idle => intdigits
  | .intvl => intdigits
  | .cnt => intdigits

/-- The steps that lead to the command loop. -/
inductive Gate
  | version | key | hash | fai
  deriving DecidableEq, Repr

/-- What happens in a step. -/
inductive Event
  /-- The first `n` bytes of an array are the ones stored into. -/
  | store (a : Arr) (n : ℕ)
  /-- A step of the handshake succeeded. -/
  | passed (g : Gate)
  /-- A handler is entered while the flags are as given. -/
  | enter (h : Handler) (g : Gates)
  deriving DecidableEq, Repr

/-! ### State -/

/-- The configuration, and the name of the process. -/
structure Config where
  proto : List Byte
  hash : List Byte
  faipath : List Byte
  dbdir : List Byte
  injail : Bool
  locksys : Bool
  flycontext : Bool
  /-- `comm.srvid`. -/
  srvid : List Byte

/-- What a step finds outside the code. -/
structure World where
  fs : Fs
  /-- The file system after `cmd_flycontext` created its directories. -/
  fs' : Fs
  /-- What lies in memory behind a path buffer. -/
  beyond : List Byte
  time : ℤ
  /-- The bytes `EVP_DecodeBlock` makes of a text, if it can. -/
  base64dec : List Byte → Option (List Byte)
  /-- What `EVP_PKEY_decrypt` recovers with the private key of the server. -/
  decrypt : List Byte → Option (List Byte)
  /-- `malloc` succeeds for the two copies of the cipher state. -/
  dupTx : Bool
  dupOrg : Bool
  /-- The new token `renewfaikey` wrote to its file, if it could. -/
  renew : Option (List Byte)
  /-- `getpwnam(tfproto.defusr)`, `setgid` and `setuid` succeed. -/
  defusr : Bool
  login : LoginEnv
  /-- Every `setsockopt` of `cmd_keepalive` succeeds on these parameters. -/
  sockopts : List (List Byte) → Bool
  /-- The session and the jail that a handler outside the model leaves. -/
  other : Sess × Jail

/-- Where `mainloop` stands. -/
inductive Phase
  | version | key | hash | loop | closed
  deriving DecidableEq, Repr, Inhabited

/-- The state of the server process of one connection. -/
structure Srv where
  sess : Sess
  /-- `cryp_rx.enkey`. -/
  enkey : List Byte
  logged : Bool
  roots : Roots
  phase : Phase
  deriving DecidableEq, Repr, Inhabited

/-- The flags of a state. -/
def Srv.gates (s : Srv) : Gates :=
  ⟨s.logged, s.roots.injail, s.roots.locksys, s.roots.flycontext⟩

/-- The result of a function of the source: its value, the session, and what
happened. -/
structure Out (α : Type) where
  val : α
  sess : Sess
  events : List Event

section Layer

variable (o : Endian) (aes : Aes)

/-! ### Receiving -/

/-- The length the header of the next frame announces. -/
def announced (s : Sess) : ℤ := hdrgetsz o (readHdr o aes s).sess.rxhdr

/-- What `readbuf` stores: the header, the terminator and the body. -/
def readbufStores (s : Sess) : List Event :=
  let h := readHdr o aes s
  -- the length the caller passed is lost here
  let len := announced o aes s
  Event.store .rxhdr h.got.length ::
    if h.ret = -1 then []
    else
      (if 0 ≤ len ∧ len < commbuflen then [.store .commBuf (len.toNat + 1)] else []) ++
        [.store .commBuf (readBody o aes h.sess len).got.length]

/-! ### The handshake -/

/-- `KEYMIN`. -/
def keymin : ℕ := 16

/-- `FAIACCESS_TOK`. -/
def faiaccessTok : List Byte := lit "FAI://"

/-- `chkfaitok`, on the name of the token file: the key, if it returns `0`. -/
def chkfaitok (w : World) (faifile : List Byte) : Option (List Byte) :=
  match (w.fs.read faifile).map (lines newline lineMax) with
  | some (line :: _) =>
    match strchr blank (cstr line) with
    | some (texp, key) => if strtol texp ≤ w.time then none else w.base64dec (chop key)
    | none => none
  | _ => none

/-- What `chkproto` returns. -/
inductive ProtoRc
  | failed
  | okproto
  | granted (faikey : List Byte)
  | denied
  deriving DecidableEq, Repr

/-- `chkproto`. -/
def chkproto (cfg : Config) (w : World) (s : Sess) : Out ProtoRc :=
  let r := readbuf o aes s
  let stores := readbufStores o aes s
  if r.ret = -1 then ⟨.failed, r.sess, stores⟩
  else
    let ver := cstr r.sess.buf
    if ver = cfg.proto then ⟨.okproto, r.sess, stores⟩
    else if (strstr faiaccessTok ver).isSome then
      -- `FAI://` may stand anywhere; the path starts behind the first six characters
      let faifile := cfg.faipath ++ ver.drop faiaccessTok.length
      let stores := stores ++ [.store .faifile (faifile.length + 1)]
      match chkfaitok w faifile with
      | some key => ⟨.granted key, r.sess, stores⟩
      | none => ⟨.denied, r.sess, stores⟩
    else ⟨.denied, r.sess, stores⟩

/-- `getkey`: the content of `enkey` afterwards, if it returns `1`. -/
def getkey (s : Sess) (enkey : List Byte) : Out (Option (List Byte)) :=
  let r := readbuf o aes s
  let stores := readbufStores o aes s
  if r.ret = -1 then ⟨none, r.sess, stores⟩
  else
    let rb := r.ret.toNat
    -- `memcpy` of all that was received
    ⟨some (overlay enkey (r.sess.buf.take rb)), r.sess, stores ++ [.store .enkey rb]⟩

/-- `chkhash`. -/
def chkhash (cfg : Config) (s : Sess) : Out Bool :=
  let r := readbuf o aes s
  ⟨r.ret ≠ -1 && cstr r.sess.buf = cfg.hash, r.sess, readbufStores o aes s⟩

/-- `derankey`: the state of the cipher, if it does not return `-1`. -/
def derankey (w : World) (c : Crypto) (enkey : List Byte) : Option Crypto :=
  match w.decrypt (enkey.take rsaKeylen) with
  | none => none
  | some key =>
    let block := overlay c.rndkey key
    if keymin ≤ key.length then
      some { c with rndkey := block, rndlen := key.length, seed := keySeed o block }
    else none

/-- `dup_crypt`: the copy has a block of its own, or none when `malloc` failed. -/
def dupCrypt (ok : Bool) (c : Crypto) : Crypto :=
  { c with rndkey := if ok then c.rndkey.take c.rndlen else [] }

/-- Both directions encrypt from here on. -/
def cryptOn (s : Sess) : Sess :=
  { s with
    crypRx := { s.crypRx with st := .on, pack := .unpack }
    crypTx := { s.crypTx with st := .on, pack := .pack } }

/-- The two calls of `dup_crypt` and the reply that both main loops make once the
key is known: whether they succeed, and the session. -/
def agreeKey (w : World) (s : Sess) (err : List Byte) : Bool × Sess :=
  let s := { s with crypTx := dupCrypt w.dupTx s.crypRx }
  if w.dupTx && w.dupOrg then (true, cryptOn (cmdOk o aes s)) else (false, cmdFail o aes s err)

/-- `renewfaikey`: whether it returns `0`, and the session. -/
def renewfaikey (w : World) (s : Sess) : Bool × Sess :=
  match w.renew with
  | none => (false, s)
  | some b64 =>
    let r := writebuf o aes { s with buf := overlay s.buf (b64 ++ [0]) } b64
    (r.ret ≠ -1, { r.sess with buf := overlay r.sess.buf r.buf })

/-- The end of both main loops: the default user, and the command loop. -/
def enterLoop (w : World) (s : Srv) : Srv :=
  { s with logged := s.logged || w.defusr, phase := .loop }

/-- The process ends. -/
def Srv.close (s : Srv) (sess : Sess) : Srv := { s with sess := sess, phase := .closed }

/-- `mainloop_fai`, up to its loop. -/
def mainloopFai (w : World) (s : Srv) (faikey : List Byte) : Srv :=
  let rx := { s.sess.crypRx with rndlen := faikey.length, rndkey := faikey }
  let err := lit "69 : FAI key is invalid."
  if faikey.length < keymin then s.close (cmdFail o aes { s.sess with crypRx := rx } err)
  else
    let a := agreeKey o aes w { s.sess with crypRx := { rx with seed := keySeed o faikey } } err
    if a.1 then
      let r := renewfaikey o aes w a.2
      if r.1 then enterLoop w { s with sess := r.2 } else s.close r.2
    else s.close a.2

/-- `mainloop`, up to the reply to the version. -/
def stepVersion (cfg : Config) (w : World) (s : Srv) : Srv × List Event :=
  let c := chkproto o aes cfg w s.sess
  match c.val with
  | .okproto =>
    ({ s with sess := cmdOk o aes c.sess, phase := .key }, c.events ++ [.passed .version])
  | .granted faikey =>
    (mainloopFai o aes w { s with sess := c.sess } faikey, c.events ++ [.passed .fai])
  | .denied =>
    (s.close (cmdFail o aes c.sess (lit "68 : Token expired for FAI access.")), c.events)
  | .failed => (s.close (cmdFail o aes c.sess (lit "2 : Incompatible protocol.")), c.events)

/-- `mainloop`, up to the reply to the key. -/
def stepKey (w : World) (s : Srv) : Srv × List Event :=
  let err := lit "25 : Bad public rsa encryption key."
  let k := getkey o aes s.sess s.enkey
  match k.val with
  | none => (s.close (cmdFail o aes k.sess err), k.events)
  | some enkey =>
    let s := { s with enkey := enkey }
    match derankey o w k.sess.crypRx enkey with
    | none => (s.close (cmdFail o aes k.sess err), k.events)
    | some rx =>
      let a := agreeKey o aes w { k.sess with crypRx := rx } err
      if a.1 then ({ s with sess := a.2, phase := .hash }, k.events ++ [.passed .key])
      else (s.close a.2, k.events)

/-- `mainloop`, up to its loop. -/
def stepHash (cfg : Config) (w : World) (s : Srv) : Srv × List Event :=
  let c := chkhash o aes cfg s.sess
  if c.val then
    (enterLoop w { s with sess := cmdOk o aes c.sess }, c.events ++ [.passed .hash])
  else (s.close (cmdFail o aes c.sess (lit "3 : Invalid hash string.")), c.events)

/-! ### Handlers of the model -/

/-- `comm.buf` after a NUL was stored at some offsets. -/
def cutAt (offs : List ℕ) (s : Sess) : Sess :=
  { s with buf := offs.foldl (fun buf i => buf.set i 0) s.buf }

/-- The stores of the terminators in `comm.buf`. -/
def cutStores (offs : List ℕ) : List Event := offs.map fun i => .store .commBuf (i + 1)

/-- The tokens `cmd_keepalive` copies, as far as it gets, and whether it finds
them all. -/
def keepaliveToks (arg : List Byte) : List (List Byte) × Bool :=
  match strstr [blank] arg with
  | none => ([], false)
  | some (alive, rest) =>
    match strstr multipSeps rest with
    | none => ([alive], false)
    | some (idle, rest) =>
      match strstr multipSeps rest with
      | none => ([alive, idle], false)
      | some (intvl, cnt) => ([alive, idle, intvl, cnt], true)

/-- Where `cmd_keepalive` ends its tokens, from the offset of the first one: the
last token ends where the request ends. -/
def keepaliveCuts (off : ℕ) : List (List Byte) → List ℕ
  | alive :: idle :: intvl :: _ :: _ =>
    [off + alive.length, off + alive.length + 1 + idle.length,
      off + alive.length + 1 + idle.length + 3 + intvl.length]
  | [alive, idle] => [off + alive.length, off + alive.length + 1 + idle.length]
  | alive :: _ => [off + alive.length]
  | [] => []

/-- `cmd_keepalive`. -/
def cmdKeepalive (w : World) (s : Sess) : Out Unit :=
  let off := (lit "KEEPALIVE").length + 1
  -- each token is copied before the search for the next one
  let toks := keepaliveToks (cstr (s.buf.drop off))
  let cuts := keepaliveCuts off toks.1
  let s := cutAt cuts s
  let stores := cutStores cuts ++
    List.zipWith (fun a t => .store a (t.length + 1)) [Arr.alive, .idle, .intvl, .cnt] toks.1
  if !toks.2 then ⟨(), cmdFail o aes s (lit "16 : Missing parameter from command."), stores⟩
  else if w.sockopts toks.1 then ⟨(), cmdOk o aes s, stores⟩
  else ⟨(), cmdFail o aes s (lit "32 : Failed to set TCP keepalive parameters."), stores⟩

/-- `cmd_prockey`. -/
def cmdProckey (cfg : Config) (s : Sess) : Sess :=
  if cfg.srvid = [] then cmdFail o aes s (lit "33 : Process without unique key.")
  else sendReply o aes s (cmdOkText ++ [blank] ++ cfg.srvid)

/-- Where `cmd_login` stores a terminator in `comm.buf`: behind the name, and, when
the database has no line and the pointer still points into the request, at the newline
it finds there. -/
def loginCuts (env : LoginEnv) (off : ℕ) (mem : List Byte) : List ℕ :=
  match strchr blank (cstr mem) with
  | none => []
  | some (u, _) =>
    (off + u.length) ::
      if env.userdb = some [] then
        match strchr newline (cstr (mem.drop (2 * (u.length + 1)))) with
        | some (text, _) => [off + 2 * (u.length + 1) + text.length]
        | none => []
      else []

/-- What `cmd_login` copies: the name with the separator behind it, and the
password. -/
def loginCopies (mem : List Byte) : List Event :=
  match strchr blank (cstr mem) with
  | none => []
  | some (u, pwd) => [.store .usr (u.length + 2), .store .pwd (pwd.length + 1)]

/-- `cmd_login`, with the reply. -/
def runLogin (w : World) (s : Srv) : Srv × List Event :=
  let off := (lit "LOGIN").length + 1
  let mem := s.sess.buf.drop off
  let r := cmdLogin w.login s.logged mem
  let cuts := if s.logged then [] else loginCuts w.login off mem
  ({ s with sess := sendReply o aes (cutAt cuts s.sess) r.reply, logged := r.logged },
    cutStores cuts ++ if s.logged then [] else loginCopies mem)

/-- One of the commands that move the root, with the reply. -/
def runRoot (s : Srv) (r : RootRes) : Srv :=
  { s with sess := sendReply o aes s.sess r.reply, roots := r.roots }

/-- The text behind the name of a command. -/
def argOf (name : List Byte) (s : Srv) : List Byte := cstr (s.sess.buf.drop (name.length + 1))

/-- `cmd_injail`, with the reply: a token it finds is ended in `comm.buf`. -/
def runInjail (w : World) (s : Srv) : Srv :=
  let arg := argOf (lit "INJAIL") s
  let cuts := match strstr multipSeps arg with
    | some (sectok, _) => if s.roots.injail then [(lit "INJAIL").length + 1 + sectok.length] else []
    | none => []
  runRoot o aes { s with sess := cutAt cuts s.sess } (cmdInjail w.fs s.roots arg w.beyond)

/-- A handler. -/
def runHandler (cfg : Config) (w : World) (s : Srv) : Handler → Srv × List Event
  | .endcomm => ({ s with sess := { s.sess with loop := false } }, [])
  | .login => runLogin o aes w s
  | .keepalive =>
    let r := cmdKeepalive o aes w s.sess
    ({ s with sess := r.sess }, r.events)
  | .prockey => ({ s with sess := cmdProckey o aes cfg s.sess }, [])
  | .injail => (runInjail o aes w s, [])
  | .locksys => (runRoot o aes s (cmdLocksys w.fs s.roots (argOf (lit "LOCKSYS") s)), [])
  | .flycontext =>
    (runRoot o aes s
      (cmdFlycontext w.fs w.fs' s.roots (argOf (lit "FLYCONTEXT") s) w.beyond), [])
  | .goaes => ({ s with sess := (cmdGoaes o aes s.sess).2 }, [])
  | _ => ({ s with sess := w.other.1, roots := { s.roots with jail := w.other.2 } }, [])

/-! ### The command loop -/

/-- `cmd_unknown`. -/
def cmdUnknown (s : Sess) : Sess := sendReply o aes s (lit "UNKNOWN")

/-- `comm.buf` once a frame was received: the last byte is a terminator, and in
block mode so is the byte behind the frame. -/
def terminate (s : Sess) (buflen : ℕ) : Sess :=
  let buf := s.buf.set (commbuflen - 1) 0
  { s with buf := if s.blkstatus then buf.set (min buflen (commbuflen - 1)) 0 else buf }

/-- `cmd_parse` on a received frame. -/
def dispatch (cfg : Config) (w : World) (s : Srv) : Srv × List Event :=
  let name := excmd s.sess.buf
  let stored := [Event.store .commBuf commbuflen, .store .cmd (name.length + 1)]
  match cmdParse s.gates (cmdtoupper name) with
  | .run h =>
    let r := runHandler o aes cfg w s h
    (r.1, stored ++ .enter h s.gates :: r.2)
  | .fail arg => ({ s with sess := cmdFail o aes s.sess arg }, stored)
  | .unknown => ({ s with sess := cmdUnknown o aes s.sess }, stored)

/-- `cmdifce`. -/
def cmdifce (cfg : Config) (w : World) (s : Srv) : Srv × List Event :=
  let r := readbuf o aes s.sess
  let stores := readbufStores o aes s.sess
  if r.ret = -1 then ({ s with sess := { r.sess with loop := false } }, stores)
  else
    let d := dispatch o aes cfg w { s with sess := terminate r.sess r.ret.toNat }
    (d.1, stores ++ d.2)

/-- One frame. -/
def srvStep (cfg : Config) (s : Srv) (w : World) : Srv × List Event :=
  match s.phase with
  | .version => stepVersion o aes cfg w s
  | .key => stepKey o aes w s
  | .hash => stepHash o aes cfg w s
  -- a reply that cannot be sent clears the loop condition, which only the loop tests
  | .loop => if s.sess.loop then cmdifce o aes cfg w s else ({ s with phase := .closed }, [])
  | .closed => (s, [])

end Layer

/-! ### Sessions -/

/-- What the kernel and OpenSSL bring to a connection. -/
structure Net where
  /-- Everything the client sends before it closes. -/
  inp : List Byte
  rsched : List SysRes
  wsched : List SysRes
  ossl : Ossl

/-- The cipher state before the key is known: all zeros, with the function set by
`initcrypto` on the receiving side. -/
def crypto0 (hasEncrypt : Bool) : Crypto := ⟨hasEncrypt, [], 0, .off, 0, .pack⟩

/-- The state in which `begincomm` enters `mainloop`. -/
def connect (cfg : Config) (net : Net) : Srv where
  sess :=
    { crypRx := crypto0 true
      crypTx := crypto0 false
      cipherRx := default
      cipherTx := default
      blkstatus := false
      ciaSt := false
      cia := []
      ciaSend := false
      inp := net.inp
      out := []
      rsched := net.rsched
      wsched := net.wsched
      ossl := net.ossl
      rxhdr := List.replicate 4 0
      buf := List.replicate commbuflen 0
      act := 0
      loop := true }
  enkey := List.replicate rsaKeylen 0
  logged := false
  roots := ⟨⟨cfg.dbdir, [], 0, 0⟩, cfg.injail, cfg.locksys, cfg.flycontext⟩
  phase := .version

/-- The state after a number of frames, and what happened in each. -/
def srvRun (o : Endian) (aes : Aes) (cfg : Config) (s : Srv) (ws : List World) :
    Srv × List (List Event) :=
  Mealy.run (srvStep o aes cfg) s ws

/-! ### A session -/

/-- A server with no gate but the login. -/
def exampleConfig : Config :=
  ⟨lit "0.0", lit "h", lit "/fai/", lit "/srv/", false, false, false, lit "/id"⟩

/-- A connection on which every read and write goes through at once. -/
def exampleNet (inp : List Byte) : Net := ⟨inp, [], [], default⟩

/-- The session key of the examples. -/
def exampleKey : List Byte := lit "0123456789abcdef"

/-- A world in which everything succeeds. -/
def exampleWorld : World where
  fs := ⟨fun _ => true, fun _ => true, fun _ => some (lit "9 token\n")⟩
  fs' := ⟨fun _ => true, fun _ => true, fun _ => none⟩
  beyond := []
  time := 0
  base64dec := fun _ => some exampleKey
  decrypt := fun _ => some exampleKey
  dupTx := true
  dupOrg := true
  renew := some (lit "token")
  defusr := true
  login := exampleLogin []
  sockopts := fun _ => true
  other := (default, default)

/-- A frame in clear. -/
def clearFrame (m : List Byte) : List Byte := hdrsetsz .little m.length ++ m

/-- What a client that holds the session key writes. -/
def sealedFrames (ms : List (List Byte)) : List Byte :=
  let tx := { crypto0 true with
    rndkey := exampleKey, rndlen := exampleKey.length, st := .on,
    seed := keySeed .little exampleKey }
  (sendAll .little Aes.sample { (connect exampleConfig (exampleNet [])).sess with crypTx := tx }
    (ms.map .msg)).out

end TFProtocol
