import TFProtocol.ImePackets

/-!
# The threads of the instant messaging subsystem

`xsime_start` starts a thread that writes messages and a thread that reads packets, answers
`OK` and waits for both to end.  A handler leaves its reply in `opcsnd`, which holds one, and
the reading thread writes it to the client under `exmut`; the writing thread sends the messages
of a pass under the same mutex.  Behind `OPC_EXIT`, or when the client is gone, the reading
thread has the other one cancelled under the mutex and sends `OPC_EXIT` itself.

When a reply cannot be written, the reading thread leaves its loop with the mutex locked, and
locks it again.

The system is the two threads and the one that waits for them, with one access to the shared
variables or one call a step, in any order.  A cancelled thread may move on before it ends.

## Main definitions

* `rdReply`, `served` — what the handlers answer, and the replies to the packets of a client.
* `ImeSys`, `imeNext` — where the threads stand, and their steps.
* `ImeWire` — what holds between the replies, the messages and what was sent.
* `ImeSys.pending` — the replies that are due.

## Main results

* `ime_wire` — the client receives whole packets, and these are the replies and the messages,
  each in their order.
-/

namespace TFProtocol

open Bytes

/-! ### Replies -/

/-- A reply: the opcode and the size of a header. -/
structure ImeReply where
  opcode : Byte
  sz : ℤ
  deriving DecidableEq, Repr

/-- `OPC_SUCCESS` and `OPC_FAILED`. -/
def opcSuccess : ℤ := 0

@[inherit_doc opcSuccess]
def opcFailed : ℤ := -1

/-- The reply behind `OPC_EXIT`. -/
def exitReply : ImeReply := ⟨opcodeExit, opcSuccess⟩

/-- What `opc_orgunit` answers, if the body arrives. -/
def orgunitReply (e : ImeEnv) (s : ImeRd) (sz : ℤ) : Option ImeReply :=
  if !(s.fill sz).1 then none
  else if s.refuses then some ⟨opcodeUnit, opcFailed⟩
  else some ⟨opcodeUnit, if (rdOrgunit e s sz).ime.orun then opcSuccess else opcFailed⟩

/-- What `opc_usr` answers, if the body arrives. -/
def usrReply (e : ImeEnv) (s : ImeRd) (sz : ℤ) : Option ImeReply :=
  let r := s.fill sz
  let usrpath := join s.ime.orgunit (nameOf (r.2.inbuf.take sz.toNat))
  if !r.1 then none
  else if s.refuses then some ⟨opcodeUsr, opcFailed⟩
  -- `islogin`
  else if s.ime.unusr && e.lockTaken (join usrpath lckfile) then some ⟨opcodeUsr, opcFailed⟩
  else some ⟨opcodeUsr, if (rdUsr e s sz).ime.usr then opcSuccess else opcFailed⟩

/-- What `opc_sndmsg` answers: nothing, unless the session is not ready. -/
def sndmsgReply (s : ImeRd) (sz : ℤ) : Option ImeReply :=
  if imeBuflen ≤ (BitVec.ofInt 64 (sz + imeHdrlen)).toNat then none
  else if (s.fill sz).1 && !chkrdy s.ime then some ⟨opcodeSndmsg, opcFailed⟩
  else none

/-- What the handler of a packet passes to `sendopc`. -/
def rdReply (o : Endian) (e : ImeEnv) (s : ImeRd) : Option ImeReply :=
  let sz := hdrgetsz o s.inp.tail
  let body := { s with inp := s.inp.drop 5 }
  if s.inp.head? = some opcodeUnit then orgunitReply e body sz
  else if s.inp.head? = some opcodeUsr then usrReply e body sz
  else if s.inp.head? = some opcodeSndmsg then sndmsgReply body sz
  else none

/-- The reading thread and the replies so far, one packet on. -/
def serveOne (o : Endian) (x : ImeRd × List ImeReply) (a : ImeEnv × List Byte) :
    ImeRd × List ImeReply :=
  match rdthread o a.1 a.2 x.1 with
  | some rd => (rd, x.2 ++ (rdReply o a.1 x.1).toList)
  | none => x

/-- The reading thread and the replies, when each packet is served in turn. -/
def served (o : Endian) (rd : ImeRd) (as : List (ImeEnv × List Byte)) : ImeRd × List ImeReply :=
  as.foldl (serveOne o) (rd, [])

/-! ### The system -/

/-- Where `xsime_start` stands. -/
inductive ImeMain
  /-- In `cmd_ok`, with both threads started. -/
  | okHdr
  | okBody
  /-- At `pthread_join`. -/
  | joining
  | cleaned
  deriving DecidableEq, Repr

/-- Where `rdthread` stands. -/
inductive ImeReader
  | reading
  /-- In `sendopc`. -/
  | sending (r : ImeReply)
  | locking
  | writing
  | unlocking
  /-- Behind the loop, at `pthread_mutex_lock`. -/
  | leaving
  | cancelling
  | sendingExit
  | writingExit
  | unlockingExit
  | done
  deriving DecidableEq, Repr

/-- Where `wrthread` stands. -/
inductive ImeWriter
  | sleeping
  | locking
  | scanning
  /-- In `opc_sndmsg2`, with the contents of the files it has still to send. -/
  | passing (todo : List (List Byte))
  /-- In `writemsg`, behind the header. -/
  | body (m : List Byte) (todo : List (List Byte))
  deriving DecidableEq, Repr

/-- The two that take `exmut`. -/
inductive ImeSide
  | rd
  | wr
  deriving DecidableEq, Repr

/-- The shared variables and the threads. -/
structure ImeSys where
  main : ImeMain
  /-- The variables of the reading thread and what the client still sends. -/
  rd : ImeRd
  reader : ImeReader
  writer : ImeWriter
  /-- The writing thread was cancelled. -/
  cancelled : Bool
  /-- And it has ended. -/
  dead : Bool
  /-- `opcsnd.hdr`, if `opcsnd.send` is set. -/
  opcsnd : Option ImeReply
  /-- The holder of `exmut`. -/
  exmut : Option ImeSide
  /-- The connection broke. -/
  broken : Bool
  /-- What was sent, one block for a call. -/
  out : List (List Byte)

/-- A step of one of the threads, or of the connection. -/
inductive ImeAct
  | okHdr
  | okBody
  | join
  | read (e : ImeEnv) (behind : List Byte)
  /-- `readbuf_ex` returns `-1`. -/
  | lose
  | sendopc
  | lockRd
  | writeopc
  | unlockRd
  | cancel
  | wake
  | lockWr
  /-- `scandir`, with the contents of the files that are later than `tmstmp`. -/
  | scan (files : List (List Byte))
  | msgHdr
  | msgBody
  | unlockWr
  | die
  | hangup

/-- What was sent after a call of `writebuf_ex`. -/
def ImeSys.sent (s : ImeSys) (b : List Byte) : List (List Byte) :=
  if s.broken then s.out else s.out ++ [b]

section

variable (o : Endian)

/-- The block of a reply. -/
def ImeReply.block (r : ImeReply) : List Byte := r.opcode :: hdrsetsz o r.sz

/-- The header of a message. -/
def msgHeader (m : List Byte) : List Byte := opcodeSndmsg :: hdrsetsz o m.length

/-- A step of `xsime_start`, or of the connection. -/
def imeMainNext (s : ImeSys) : ImeAct → Option ImeSys
  | .okHdr =>
    if s.main = .okHdr then
      some { s with main := .okBody, out := s.sent (hdrsetsz o cmdOkText.length) }
    else none
  | .okBody =>
    if s.main = .okBody then some { s with main := .joining, out := s.sent cmdOkText } else none
  | .join =>
    if s.main = .joining ∧ s.reader = .done ∧ s.dead = true then some { s with main := .cleaned }
    else none
  | .hangup => some { s with broken := true }
  | _ => none

/-- A step of `rdthread`. -/
def imeRdNext (s : ImeSys) : ImeAct → Option ImeSys
  | .read e behind =>
    if s.reader = .reading then
      some (match rdthread o e behind s.rd with
        | some rd => { s with rd := rd, reader := (rdReply o e s.rd).elim .locking .sending }
        | none => { s with reader := .leaving })
    else none
  | .lose => if s.reader = .reading ∧ s.broken = true then some { s with reader := .leaving } else none
  | .sendopc =>
    match s.reader with
    -- it tries again while the last one was not sent
    | .sending r =>
      some (if s.opcsnd = none then { s with opcsnd := some r, reader := .locking } else s)
    | .sendingExit =>
      some (if s.opcsnd = none then { s with opcsnd := some exitReply, reader := .writingExit }
        else s)
    | _ => none
  | .lockRd =>
    if s.exmut = none then
      match s.reader with
      | .locking => some { s with exmut := some .rd, reader := .writing }
      | .leaving => some { s with exmut := some .rd, reader := .cancelling }
      | _ => none
    else none
  | .writeopc =>
    match s.reader with
    | .writing =>
      some (match s.opcsnd with
        | none => { s with reader := .unlocking }
        | some r =>
          if s.broken then { s with reader := .leaving }
          else { s with opcsnd := none, reader := .unlocking, out := s.out ++ [r.block o] })
    | .writingExit =>
      some (match s.opcsnd with
        | none => { s with reader := .unlockingExit }
        | some r =>
          if s.broken then { s with reader := .unlockingExit }
          else { s with opcsnd := none, reader := .unlockingExit, out := s.out ++ [r.block o] })
    | _ => none
  | .unlockRd =>
    match s.reader with
    | .unlocking => some { s with exmut := none, reader := .reading }
    | .unlockingExit => some { s with exmut := none, reader := .done }
    | _ => none
  | .cancel =>
    if s.reader = .cancelling then some { s with cancelled := true, reader := .sendingExit } else none
  | _ => none

/-- A step of `wrthread`. -/
def imeWrNext (s : ImeSys) : ImeAct → Option ImeSys
  | .wake =>
    if s.writer = .sleeping then
      some { s with writer := if chkrdy s.rd.ime then .locking else .sleeping }
    else none
  | .lockWr =>
    if s.writer = .locking ∧ s.exmut = none then
      some { s with exmut := some .wr, writer := .scanning }
    else none
  | .scan files =>
    if s.writer = .scanning then
      some { s with writer := .passing (files.map (·.take imeBuflen)) }
    else none
  | .msgHdr =>
    match s.writer with
    | .passing (m :: todo) =>
      -- it goes on with the next file where the header cannot be sent
      some (if s.broken then { s with writer := .passing todo }
        else { s with writer := .body m todo, out := s.out ++ [msgHeader o m] })
    | _ => none
  | .msgBody =>
    match s.writer with
    | .body m todo => some { s with writer := .passing todo, out := s.sent m }
    | _ => none
  | .unlockWr =>
    if s.writer = .passing [] then some { s with exmut := none, writer := .sleeping } else none
  | .die => if s.cancelled then some { s with dead := true } else none
  | _ => none

/-- One step; a thread that has ended takes none. -/
def imeNext (s : ImeSys) (a : ImeAct) : Option ImeSys :=
  imeMainNext o s a <|> imeRdNext o s a <|> if s.dead then none else imeWrNext o s a

end

/-- Both threads were started. -/
def ImeSys.start (rd : ImeRd) : ImeSys where
  main := .okHdr
  rd := rd
  reader := .reading
  writer := .sleeping
  cancelled := false
  dead := false
  opcsnd := none
  exmut := none
  broken := false
  out := []

variable {o : Endian} {rd : ImeRd} {s t : ImeSys}

/-- What a step can do. -/
inductive ImeStep (o : Endian) (s : ImeSys) : ImeAct → ImeSys → Prop
  | okHdr (hm : s.main = .okHdr) :
      ImeStep o s .okHdr { s with main := .okBody, out := s.sent (hdrsetsz o cmdOkText.length) }
  | okBody (hm : s.main = .okBody) :
      ImeStep o s .okBody { s with main := .joining, out := s.sent cmdOkText }
  | join (hm : s.main = .joining) (hr : s.reader = .done) (hd : s.dead = true) :
      ImeStep o s .join { s with main := .cleaned }
  | hangup : ImeStep o s .hangup { s with broken := true }
  | read (e : ImeEnv) (behind : List Byte) (rd : ImeRd) (hr : s.reader = .reading)
      (h : rdthread o e behind s.rd = some rd) :
      ImeStep o s (.read e behind)
        { s with rd := rd, reader := (rdReply o e s.rd).elim .locking .sending }
  | leave (e : ImeEnv) (behind : List Byte) (hr : s.reader = .reading)
      (h : rdthread o e behind s.rd = none) :
      ImeStep o s (.read e behind) { s with reader := .leaving }
  | lose (hr : s.reader = .reading) (hb : s.broken = true) :
      ImeStep o s .lose { s with reader := .leaving }
  | fill (r : ImeReply) (hr : s.reader = .sending r) (hs : s.opcsnd = none) :
      ImeStep o s .sendopc { s with opcsnd := some r, reader := .locking }
  | fillExit (hr : s.reader = .sendingExit) (hs : s.opcsnd = none) :
      ImeStep o s .sendopc { s with opcsnd := some exitReply, reader := .writingExit }
  | spin (hs : s.opcsnd ≠ none) : ImeStep o s .sendopc s
  | lock (hr : s.reader = .locking) (hx : s.exmut = none) :
      ImeStep o s .lockRd { s with exmut := some .rd, reader := .writing }
  | lockExit (hr : s.reader = .leaving) (hx : s.exmut = none) :
      ImeStep o s .lockRd { s with exmut := some .rd, reader := .cancelling }
  | silent (hr : s.reader = .writing) (hs : s.opcsnd = none) :
      ImeStep o s .writeopc { s with reader := .unlocking }
  | reply (r : ImeReply) (hr : s.reader = .writing) (hs : s.opcsnd = some r)
      (hb : s.broken = false) :
      ImeStep o s .writeopc
        { s with opcsnd := none, reader := .unlocking, out := s.out ++ [r.block o] }
  | fail (r : ImeReply) (hr : s.reader = .writing) (hs : s.opcsnd = some r)
      (hb : s.broken = true) : ImeStep o s .writeopc { s with reader := .leaving }
  | silentExit (hr : s.reader = .writingExit) (hs : s.opcsnd = none) :
      ImeStep o s .writeopc { s with reader := .unlockingExit }
  | replyExit (r : ImeReply) (hr : s.reader = .writingExit) (hs : s.opcsnd = some r)
      (hb : s.broken = false) :
      ImeStep o s .writeopc
        { s with opcsnd := none, reader := .unlockingExit, out := s.out ++ [r.block o] }
  | failExit (r : ImeReply) (hr : s.reader = .writingExit) (hs : s.opcsnd = some r)
      (hb : s.broken = true) : ImeStep o s .writeopc { s with reader := .unlockingExit }
  | unlock (hr : s.reader = .unlocking) :
      ImeStep o s .unlockRd { s with exmut := none, reader := .reading }
  | unlockExit (hr : s.reader = .unlockingExit) :
      ImeStep o s .unlockRd { s with exmut := none, reader := .done }
  | cancel (hr : s.reader = .cancelling) :
      ImeStep o s .cancel { s with cancelled := true, reader := .sendingExit }
  | wake (hw : s.writer = .sleeping) :
      ImeStep o s .wake { s with writer := if chkrdy s.rd.ime then .locking else .sleeping }
  | lockWr (hw : s.writer = .locking) (hx : s.exmut = none) :
      ImeStep o s .lockWr { s with exmut := some .wr, writer := .scanning }
  | scan (files : List (List Byte)) (hw : s.writer = .scanning) :
      ImeStep o s (.scan files) { s with writer := .passing (files.map (·.take imeBuflen)) }
  | header (m : List Byte) (todo : List (List Byte)) (hw : s.writer = .passing (m :: todo))
      (hb : s.broken = false) :
      ImeStep o s .msgHdr { s with writer := .body m todo, out := s.out ++ [msgHeader o m] }
  | next (m : List Byte) (todo : List (List Byte)) (hw : s.writer = .passing (m :: todo))
      (hb : s.broken = true) : ImeStep o s .msgHdr { s with writer := .passing todo }
  | body (m : List Byte) (todo : List (List Byte)) (hw : s.writer = .body m todo) :
      ImeStep o s .msgBody { s with writer := .passing todo, out := s.sent m }
  | unlockWr (hw : s.writer = .passing []) :
      ImeStep o s .unlockWr { s with exmut := none, writer := .sleeping }
  | die (hc : s.cancelled = true) : ImeStep o s .die { s with dead := true }

theorem imeMainNext_step {a : ImeAct} (h : imeMainNext o s a = some t) : ImeStep o s a t := by
  cases a with
  | okHdr =>
    rw [imeMainNext] at h
    split at h
    · next hm => exact Option.some.inj h ▸ .okHdr hm
    · cases h
  | okBody =>
    rw [imeMainNext] at h
    split at h
    · next hm => exact Option.some.inj h ▸ .okBody hm
    · cases h
  | join =>
    rw [imeMainNext] at h
    split at h
    · next hm => exact Option.some.inj h ▸ .join hm.1 hm.2.1 hm.2.2
    · cases h
  | hangup => exact Option.some.inj h ▸ .hangup
  | _ => cases h

theorem imeRdNext_step {a : ImeAct} (h : imeRdNext o s a = some t) : ImeStep o s a t := by
  cases a with
  | read e behind =>
    rw [imeRdNext] at h
    split at h
    · next hr =>
      obtain rfl := Option.some.inj h
      split
      · next rd hrd => exact .read e behind rd hr hrd
      · next hrd => exact .leave e behind hr hrd
    · cases h
  | lose =>
    rw [imeRdNext] at h
    split at h
    · next hr => exact Option.some.inj h ▸ .lose hr.1 hr.2
    · cases h
  | sendopc =>
    rw [imeRdNext] at h
    split at h
    · next r hr =>
      obtain rfl := Option.some.inj h
      split
      · next hs => exact .fill r hr hs
      · next hs => exact .spin hs
    · next hr =>
      obtain rfl := Option.some.inj h
      split
      · next hs => exact .fillExit hr hs
      · next hs => exact .spin hs
    · cases h
  | lockRd =>
    rw [imeRdNext] at h
    split at h
    · next hx =>
      split at h
      · next hr => exact Option.some.inj h ▸ .lock hr hx
      · next hr => exact Option.some.inj h ▸ .lockExit hr hx
      · cases h
    · cases h
  | writeopc =>
    rw [imeRdNext] at h
    split at h
    · next hr =>
      obtain rfl := Option.some.inj h
      split
      · next hs => exact .silent hr hs
      · next r hs =>
        split
        · next hb => exact .fail r hr hs hb
        · next hb => exact .reply r hr hs (by simpa using hb)
    · next hr =>
      obtain rfl := Option.some.inj h
      split
      · next hs => exact .silentExit hr hs
      · next r hs =>
        split
        · next hb => exact .failExit r hr hs hb
        · next hb => exact .replyExit r hr hs (by simpa using hb)
    · cases h
  | unlockRd =>
    rw [imeRdNext] at h
    split at h
    · next hr => exact Option.some.inj h ▸ .unlock hr
    · next hr => exact Option.some.inj h ▸ .unlockExit hr
    · cases h
  | cancel =>
    rw [imeRdNext] at h
    split at h
    · next hr => exact Option.some.inj h ▸ .cancel hr
    · cases h
  | _ => cases h

theorem imeWrNext_step {a : ImeAct} (h : imeWrNext o s a = some t) : ImeStep o s a t := by
  cases a with
  | wake =>
    rw [imeWrNext] at h
    split at h
    · next hw => exact Option.some.inj h ▸ .wake hw
    · cases h
  | lockWr =>
    rw [imeWrNext] at h
    split at h
    · next hw => exact Option.some.inj h ▸ .lockWr hw.1 hw.2
    · cases h
  | scan files =>
    rw [imeWrNext] at h
    split at h
    · next hw => exact Option.some.inj h ▸ .scan files hw
    · cases h
  | msgHdr =>
    rw [imeWrNext] at h
    split at h
    · next m todo hw =>
      obtain rfl := Option.some.inj h
      split
      · next hb => exact .next m todo hw hb
      · next hb => exact .header m todo hw (by simpa using hb)
    · cases h
  | msgBody =>
    rw [imeWrNext] at h
    split at h
    · next m todo hw => exact Option.some.inj h ▸ .body m todo hw
    · cases h
  | unlockWr =>
    rw [imeWrNext] at h
    split at h
    · next hw => exact Option.some.inj h ▸ .unlockWr hw
    · cases h
  | die =>
    rw [imeWrNext] at h
    split at h
    · next hc => exact Option.some.inj h ▸ .die hc
    · cases h
  | _ => cases h

theorem imeNext_step {a : ImeAct} (h : imeNext o s a = some t) : ImeStep o s a t := by
  rcases (Option.orElse_eq_some _ _ _).mp h with h | ⟨-, h⟩
  · exact imeMainNext_step h
  · rcases (Option.orElse_eq_some _ _ _).mp h with h | ⟨-, h⟩
    · exact imeRdNext_step h
    · split at h
      · cases h
      · exact imeWrNext_step h

/-! ### The lock and the reply -/

/-- The reading thread holds `exmut`. -/
def ImeReader.Holds : ImeReader → Prop
  | .writing => True
  | .unlocking => True
  | .cancelling => True
  | .sendingExit => True
  | .writingExit => True
  | .unlockingExit => True
  | _ => False

/-- The writing thread holds `exmut`. -/
def ImeWriter.Holds : ImeWriter → Prop
  | .scanning => True
  | .passing _ => True
  | .body _ _ => True
  | _ => False

/-- The reading thread is where `opcsnd` may hold a reply. -/
def ImeReader.Filled : ImeReader → Prop
  | .locking => True
  | .writing => True
  | .leaving => True
  | .writingExit => True
  | .unlockingExit => True
  | .done => True
  | _ => False

/-- The reading thread has had the other one cancelled. -/
def ImeReader.Late : ImeReader → Prop
  | .sendingExit => True
  | .writingExit => True
  | .unlockingExit => True
  | .done => True
  | _ => False

/-- What holds of the lock and the reply in every run. -/
structure ImeLocks (s : ImeSys) : Prop where
  /-- Behind the loop the reading thread holds the lock if it failed to write a reply. -/
  rd : s.exmut = some .rd ↔ s.reader.Holds ∨ s.reader = .leaving ∧ s.opcsnd ≠ none
  wr : s.exmut = some .wr ↔ s.writer.Holds
  filled : s.opcsnd ≠ none → s.reader.Filled
  lost : s.opcsnd ≠ none → s.reader = .leaving ∨ s.reader = .unlockingExit ∨ s.reader = .done →
    s.broken = true
  late : s.cancelled = true ↔ s.reader.Late
  dead : s.dead = true → s.cancelled = true
  cleaned : s.main = .cleaned → s.reader = .done

theorem imeLocks_start (rd : ImeRd) : ImeLocks (.start rd) := by
  constructor <;> simp [ImeSys.start, ImeReader.Holds, ImeWriter.Holds, ImeReader.Late]

theorem ImeStep.locks {a : ImeAct} (hs : ImeLocks s) (h : ImeStep o s a t) : ImeLocks t := by
  obtain ⟨hrd, hwr, hfilled, hlost, hlate, hdead, hcleaned⟩ := hs
  cases h with
  | okHdr hm => exact ⟨hrd, hwr, hfilled, hlost, hlate, hdead, nofun⟩
  | okBody hm => exact ⟨hrd, hwr, hfilled, hlost, hlate, hdead, nofun⟩
  | join hm hr hd => exact ⟨hrd, hwr, hfilled, hlost, hlate, hdead, fun _ => hr⟩
  | hangup => exact ⟨hrd, hwr, hfilled, fun _ _ => rfl, hlate, hdead, hcleaned⟩
  | read e behind rd hr h =>
    cases hrep : rdReply o e s.rd <;> constructor <;>
      simp_all [ImeReader.Holds, ImeReader.Filled, ImeReader.Late]
  | spin hs => exact ⟨hrd, hwr, hfilled, hlost, hlate, hdead, hcleaned⟩
  | wake hw =>
    cases hc : chkrdy s.rd.ime <;> constructor <;> simp_all [ImeWriter.Holds]
  | _ => constructor <;> simp_all [ImeReader.Holds, ImeWriter.Holds, ImeReader.Filled, ImeReader.Late]

/-! ### What the client receives -/

/-- A packet of the server. -/
inductive ImePacket
  | reply (r : ImeReply)
  | msg (m : List Byte)
  deriving DecidableEq, Repr

/-- The blocks of a packet. -/
def ImePacket.blocks (o : Endian) : ImePacket → List (List Byte)
  | reply r => [r.block o]
  | msg m => [msgHeader o m, m]

/-- The reply, if the packet is one. -/
def ImePacket.reply? : ImePacket → Option ImeReply
  | reply r => some r
  | msg _ => none

/-- The message, if the packet is one. -/
def ImePacket.msg? : ImePacket → Option (List Byte)
  | reply _ => none
  | msg m => some m

/-- What `cmd_ok` has sent. -/
def ImeMain.sent (o : Endian) : ImeMain → List (List Byte)
  | okHdr => []
  | okBody => [hdrsetsz o cmdOkText.length]
  | _ => [hdrsetsz o cmdOkText.length, cmdOkText]

/-- The beginning of a message that was sent. -/
def ImeWriter.part (o : Endian) : ImeWriter → List (List Byte)
  | body m _ => [msgHeader o m]
  | _ => []

/-- The messages that are still to be sent in this pass. -/
def ImeWriter.todo : ImeWriter → List (List Byte)
  | passing todo => todo
  | body m todo => m :: todo
  | _ => []

/-- The reply that is passed to `sendopc`. -/
def ImeReader.asked : ImeReader → List ImeReply
  | sending r => [r]
  | sendingExit => [exitReply]
  | _ => []

/-- The reply behind `OPC_EXIT`, once the other thread was cancelled. -/
def ImeReader.exits : ImeReader → List ImeReply
  | sendingExit => [exitReply]
  | writingExit => [exitReply]
  | unlockingExit => [exitReply]
  | done => [exitReply]
  | _ => []

/-- The replies that are due. -/
def ImeSys.pending (s : ImeSys) : List ImeReply := s.opcsnd.toList ++ s.reader.asked

/-- What a packet of the client finds, if the step reads one. -/
def ImeAct.arrival : ImeAct → Option (ImeEnv × List Byte)
  | read e behind => some (e, behind)
  | _ => none

/-- The messages of a pass, as `read` cuts them. -/
def ImeAct.files : ImeAct → List (List Byte)
  | scan files => files.map (·.take imeBuflen)
  | _ => []

/-- The client sends nothing before it was answered `OK`. -/
def ImeWaits (s : ImeSys) (a : ImeAct) : Prop := a.arrival.isSome = true → s.main = .joining

instance (s : ImeSys) (a : ImeAct) : Decidable (ImeWaits s a) :=
  inferInstanceAs (Decidable (_ → _))

/-- Nothing has happened yet. -/
structure ImeEarly (acts : List ImeAct) (s : ImeSys) : Prop where
  arrivals : acts.filterMap ImeAct.arrival = []
  files : acts.flatMap ImeAct.files = []
  reader : s.reader = .reading
  writer : s.writer = .sleeping
  idle : chkrdy s.rd.ime = false

/-- What holds between the steps so far and what was sent, while the connection stands. -/
structure ImeWire (o : Endian) (rd : ImeRd) (acts : List ImeAct) (s : ImeSys) : Prop where
  thread : s.rd = (served o rd (acts.filterMap ImeAct.arrival)).1
  early : s.main = .okHdr ∨ s.main = .okBody → ImeEarly acts s
  wire : ∃ ps : List ImePacket,
    s.out = s.main.sent o ++ ps.flatMap (ImePacket.blocks o) ++ s.writer.part o ∧
    ps.filterMap ImePacket.reply? ++ s.pending
      = (served o rd (acts.filterMap ImeAct.arrival)).2 ++ s.reader.exits ∧
    ps.filterMap ImePacket.msg? ++ s.writer.todo = acts.flatMap ImeAct.files

theorem imeWire_start (hidle : chkrdy rd.ime = false) : ImeWire o rd [] (.start rd) where
  thread := rfl
  early := fun _ => ⟨rfl, rfl, rfl, rfl, hidle⟩
  wire := ⟨[], rfl, rfl, rfl⟩

/-- A broken connection does not come back. -/
theorem ImeStep.broken {a : ImeAct} (h : ImeStep o s a t) (ht : t.broken = false) :
    s.broken = false := by
  cases h with
  | hangup => cases ht
  | _ => exact ht

theorem ImeEarly.concat {acts : List ImeAct} {a : ImeAct} (h : ImeEarly acts s)
    (ha : a.arrival = none) (hf : a.files = []) (hr : t.reader = s.reader)
    (hw : t.writer = s.writer) (hrd : t.rd = s.rd) : ImeEarly (acts ++ [a]) t where
  arrivals := by simp [h.arrivals, ha]
  files := by simp [h.files, hf]
  reader := hr ▸ h.reader
  writer := hw ▸ h.writer
  idle := hrd ▸ h.idle

theorem ImeStep.early {acts : List ImeAct} {a : ImeAct} (h : ImeStep o s a t)
    (hwait : ImeWaits s a) (hb : t.broken = false)
    (hs : s.main = .okHdr ∨ s.main = .okBody → ImeEarly acts s)
    (ht : t.main = .okHdr ∨ t.main = .okBody) : ImeEarly (acts ++ [a]) t := by
  cases h with
  | okHdr hm => exact (hs (.inl hm)).concat rfl rfl rfl rfl rfl
  | okBody hm => simp at ht
  | join hm hr hd => simp at ht
  | hangup => cases hb
  | read e behind rd hr h =>
    have hmain : s.main = .joining := hwait rfl
    simp [hmain] at ht
  | leave e behind hr h =>
    have hmain : s.main = .joining := hwait rfl
    simp [hmain] at ht
  | lose hr hbroken =>
    have hfine : s.broken = false := hb
    rw [hfine] at hbroken
    cases hbroken
  | spin hfull => exact (hs ht).concat rfl rfl rfl rfl rfl
  | wake hw =>
    have hidle := (hs ht).idle
    refine (hs ht).concat rfl rfl rfl ?_ rfl
    simp [hidle, hw]
  | die hc => exact (hs ht).concat rfl rfl rfl rfl rfl
  -- no other step is possible for a thread that reads, or for one that sleeps
  | _ =>
    obtain ⟨-, -, hreader, hwriter, -⟩ := hs ht
    simp_all

/-- One packet more is served. -/
theorem served_read (o : Endian) (rd : ImeRd) (acts : List ImeAct) (e : ImeEnv)
    (behind : List Byte) :
    served o rd ((acts ++ [ImeAct.read e behind]).filterMap ImeAct.arrival)
      = serveOne o (served o rd (acts.filterMap ImeAct.arrival)) (e, behind) := by
  simp [served, ImeAct.arrival]

/-- No message is half sent while the reading thread holds the lock. -/
theorem ImeLocks.part_eq_nil (h : ImeLocks s) (hr : s.reader.Holds) : s.writer.part o = [] := by
  have hheld := h.rd.mpr (.inl hr)
  cases hw : s.writer with
  | body m todo =>
    have hwr := h.wr.mpr (by simp [hw, ImeWriter.Holds])
    rw [hheld] at hwr
    cases hwr
  | _ => rfl

/-- Nothing was sent before `OK`. -/
theorem ImeEarly.packets_eq_nil {acts : List ImeAct} (h : ImeEarly acts s) {ps : List ImePacket}
    (hreplies : ps.filterMap ImePacket.reply? ++ s.pending
      = (served o rd (acts.filterMap ImeAct.arrival)).2 ++ s.reader.exits)
    (hmsgs : ps.filterMap ImePacket.msg? ++ s.writer.todo = acts.flatMap ImeAct.files) : ps = [] := by
  rw [h.arrivals, h.reader] at hreplies
  rw [h.files, h.writer] at hmsgs
  have hr := (List.append_eq_nil_iff.mp hreplies).1
  have hm := (List.append_eq_nil_iff.mp hmsgs).1
  cases ps with
  | nil => rfl
  | cons p ps => cases p <;> simp [ImePacket.reply?, ImePacket.msg?] at hr hm

theorem ImeStep.wire {acts : List ImeAct} {a : ImeAct} (hl : ImeLocks s)
    (hs : s.broken = false → ImeWire o rd acts s) (hwait : ImeWaits s a) (h : ImeStep o s a t)
    (hb : t.broken = false) : ImeWire o rd (acts ++ [a]) t := by
  have hfine := h.broken hb
  obtain ⟨hthread, hearly, ps, hout, hreplies, hmsgs⟩ := hs hfine
  have hearly' := h.early hwait hb hearly
  -- a step that reads no packet; `qs` are the packets behind it
  have quiet : ∀ (qs : List ImePacket) (xs : List ImeReply), a.arrival = none → t.rd = s.rd →
      t.out = t.main.sent o ++ qs.flatMap (ImePacket.blocks o) ++ t.writer.part o →
      qs.filterMap ImePacket.reply? ++ t.pending
        = ps.filterMap ImePacket.reply? ++ s.pending ++ xs →
      t.reader.exits = s.reader.exits ++ xs →
      qs.filterMap ImePacket.msg? ++ t.writer.todo
        = ps.filterMap ImePacket.msg? ++ s.writer.todo ++ a.files →
      ImeWire o rd (acts ++ [a]) t := by
    intro qs xs ha hrd hout' hreplies' hexits hmsgs'
    have harr : (acts ++ [a]).filterMap ImeAct.arrival = acts.filterMap ImeAct.arrival := by
      simp [ha]
    refine ⟨by rw [harr, hrd, hthread], hearly', qs, hout', ?_, ?_⟩
    · rw [harr, hreplies', hreplies, hexits, List.append_assoc]
    · rw [hmsgs', hmsgs]
      simp
  have hnone : t.writer = s.writer → a.files = [] →
      ps.filterMap ImePacket.msg? ++ t.writer.todo
        = ps.filterMap ImePacket.msg? ++ s.writer.todo ++ a.files := fun hw hf => by
    rw [hw, hf, List.append_nil]
  cases h with
  | okHdr hm =>
    have he := hearly (.inl hm)
    obtain rfl := he.packets_eq_nil hreplies hmsgs
    refine quiet [] [] rfl rfl ?_ (by simp [ImeSys.pending]) (by simp) (hnone rfl rfl)
    simp [ImeSys.sent, hfine, hout, hm, he.writer, ImeMain.sent, ImeWriter.part]
  | okBody hm =>
    have he := hearly (.inr hm)
    obtain rfl := he.packets_eq_nil hreplies hmsgs
    refine quiet [] [] rfl rfl ?_ (by simp [ImeSys.pending]) (by simp) (hnone rfl rfl)
    simp [ImeSys.sent, hfine, hout, hm, he.writer, ImeMain.sent, ImeWriter.part]
  | join hm hr hd =>
    refine quiet ps [] rfl rfl ?_ (by simp [ImeSys.pending]) (by simp) (hnone rfl rfl)
    rw [hout, hm]
    rfl
  | hangup => cases hb
  | read e behind rd' hr h =>
    have hserved : served o rd ((acts ++ [ImeAct.read e behind]).filterMap ImeAct.arrival)
        = (rd', (served o rd (acts.filterMap ImeAct.arrival)).2 ++ (rdReply o e s.rd).toList) := by
      simp only [served_read, serveOne, ← hthread, h]
    have hempty : s.opcsnd = none := by
      by_contra hfull
      simpa [hr, ImeReader.Filled] using hl.filled hfull
    refine ⟨by rw [hserved], hearly', ps, hout, ?_, ?_⟩
    · rw [hserved]
      simp only [ImeSys.pending, hr, hempty, ImeReader.asked, ImeReader.exits] at hreplies ⊢
      cases rdReply o e s.rd with
      | none => simpa [ImeReader.asked, ImeReader.exits] using hreplies
      | some r => simpa [ImeReader.asked, ImeReader.exits] using hreplies
    · simpa [ImeAct.files] using hmsgs
  | leave e behind hr h =>
    have hserved : served o rd ((acts ++ [ImeAct.read e behind]).filterMap ImeAct.arrival)
        = served o rd (acts.filterMap ImeAct.arrival) := by
      simp only [served_read, serveOne, ← hthread, h]
    refine ⟨by rw [hserved, hthread], hearly', ps, hout, ?_, ?_⟩
    · rw [hserved]
      simpa [ImeSys.pending, hr, ImeReader.asked, ImeReader.exits] using hreplies
    · simpa [ImeAct.files] using hmsgs
  | lose hr hbroken =>
    rw [hfine] at hbroken
    cases hbroken
  | fill r hr hempty =>
    exact quiet ps [] rfl rfl hout (by simp [ImeSys.pending, hr, hempty, ImeReader.asked])
      (by simp [hr, ImeReader.exits]) (hnone rfl rfl)
  | fillExit hr hempty =>
    exact quiet ps [] rfl rfl hout (by simp [ImeSys.pending, hr, hempty, ImeReader.asked])
      (by simp [hr, ImeReader.exits]) (hnone rfl rfl)
  | spin hfull => exact quiet ps [] rfl rfl hout (by simp) (by simp) (hnone rfl rfl)
  | lock hr hx =>
    exact quiet ps [] rfl rfl hout (by simp [ImeSys.pending, hr, ImeReader.asked])
      (by simp [hr, ImeReader.exits]) (hnone rfl rfl)
  | lockExit hr hx =>
    exact quiet ps [] rfl rfl hout (by simp [ImeSys.pending, hr, ImeReader.asked])
      (by simp [hr, ImeReader.exits]) (hnone rfl rfl)
  | silent hr hempty =>
    exact quiet ps [] rfl rfl hout (by simp [ImeSys.pending, hr, ImeReader.asked])
      (by simp [hr, ImeReader.exits]) (hnone rfl rfl)
  | reply r hr hfull hbroken =>
    -- the other thread does not hold the lock, so no message is half sent
    have hpart := hl.part_eq_nil (o := o) (by simp [hr, ImeReader.Holds])
    refine quiet (ps ++ [.reply r]) [] rfl rfl ?_ ?_ (by simp [hr, ImeReader.exits]) ?_
    · simp [hout, hpart, ImePacket.blocks]
    · simp [ImeSys.pending, hr, hfull, ImeReader.asked, ImePacket.reply?]
    · simp [ImePacket.msg?, ImeAct.files]
  | fail r hr hfull hbroken =>
    rw [hfine] at hbroken
    cases hbroken
  | silentExit hr hempty =>
    exact quiet ps [] rfl rfl hout (by simp [ImeSys.pending, hr, ImeReader.asked])
      (by simp [hr, ImeReader.exits]) (hnone rfl rfl)
  | replyExit r hr hfull hbroken =>
    have hpart := hl.part_eq_nil (o := o) (by simp [hr, ImeReader.Holds])
    refine quiet (ps ++ [.reply r]) [] rfl rfl ?_ ?_ (by simp [hr, ImeReader.exits]) ?_
    · simp [hout, hpart, ImePacket.blocks]
    · simp [ImeSys.pending, hr, hfull, ImeReader.asked, ImePacket.reply?]
    · simp [ImePacket.msg?, ImeAct.files]
  | failExit r hr hfull hbroken =>
    rw [hfine] at hbroken
    cases hbroken
  | unlock hr =>
    exact quiet ps [] rfl rfl hout (by simp [ImeSys.pending, hr, ImeReader.asked])
      (by simp [hr, ImeReader.exits]) (hnone rfl rfl)
  | unlockExit hr =>
    exact quiet ps [] rfl rfl hout (by simp [ImeSys.pending, hr, ImeReader.asked])
      (by simp [hr, ImeReader.exits]) (hnone rfl rfl)
  | cancel hr =>
    exact quiet ps [exitReply] rfl rfl hout (by simp [ImeSys.pending, hr, ImeReader.asked])
      (by simp [hr, ImeReader.exits]) (hnone rfl rfl)
  | wake hw =>
    have htodo : ∀ b : Bool, (if b then ImeWriter.locking else .sleeping).todo = [] := by decide
    have hpart : ∀ b : Bool, (if b then ImeWriter.locking else .sleeping).part o = [] := by
      intro b
      cases b <;> rfl
    refine quiet ps [] rfl rfl ?_ (by simp [ImeSys.pending]) (by simp) ?_
    · rw [hpart, hout, hw]
      rfl
    · rw [htodo, hw]
      simp [ImeWriter.todo, ImeAct.files]
  | lockWr hw hx =>
    refine quiet ps [] rfl rfl ?_ (by simp [ImeSys.pending]) (by simp) ?_
    · rw [hout, hw]
      rfl
    · simp [hw, ImeWriter.todo, ImeAct.files]
  | scan files hw =>
    refine quiet ps [] rfl rfl ?_ (by simp [ImeSys.pending]) (by simp) ?_
    · rw [hout, hw]
      rfl
    · simp [hw, ImeWriter.todo, ImeAct.files]
  | header m todo hw hbroken =>
    refine quiet ps [] rfl rfl ?_ (by simp [ImeSys.pending]) (by simp) ?_
    · simp [hout, hw, ImeWriter.part]
    · simp [hw, ImeWriter.todo, ImeAct.files]
  | next m todo hw hbroken =>
    rw [hfine] at hbroken
    cases hbroken
  | body m todo hw =>
    refine quiet (ps ++ [.msg m]) [] rfl rfl ?_ ?_ (by simp) ?_
    · simp [ImeSys.sent, hfine, hout, hw, ImeWriter.part, ImePacket.blocks]
    · simp [ImePacket.reply?, ImeSys.pending]
    · simp [hw, ImeWriter.todo, ImePacket.msg?, ImeAct.files]
  | unlockWr hw =>
    refine quiet ps [] rfl rfl ?_ (by simp [ImeSys.pending]) (by simp) ?_
    · rw [hout, hw]
      rfl
    · simp [hw, ImeWriter.todo, ImeAct.files]
  | die hc => exact quiet ps [] rfl rfl hout (by simp [ImeSys.pending]) (by simp) (hnone rfl rfl)

/-- The lock is right, and while the connection stands, so is what was sent. -/
structure ImeHistory (o : Endian) (rd : ImeRd) (acts : List ImeAct) (s : ImeSys) : Prop where
  locks : ImeLocks s
  wire : s.broken = false → ImeWire o rd acts s

theorem imeNext_history {acts : List ImeAct} {a : ImeAct} (h : ImeHistory o rd acts s)
    (hwait : ImeWaits s a) (hnext : imeNext o s a = some t) : ImeHistory o rd (acts ++ [a]) t :=
  ⟨(imeNext_step hnext).locks h.locks, (imeNext_step hnext).wire h.locks h.wire hwait⟩

theorem run_history (hidle : chkrdy rd.ime = false) {acts : List ImeAct}
    (hwaits : Runs.Meets (imeNext o) ImeWaits (.start rd) acts)
    (hrun : Runs.run (imeNext o) (.start rd) acts = some t) : ImeHistory o rd acts t := by
  have hstart : ImeHistory o rd [] (.start rd) := ⟨imeLocks_start rd, fun _ => imeWire_start hidle⟩
  exact Runs.inv_of_history (fun _ _ _ _ h hwait hnext => imeNext_history h hwait hnext)
    hstart hwaits hrun

/-- **The client receives whole packets.**  In every run, as long as the connection stands and if
the client sends nothing before it was answered `OK`, what it receives is `OK` and then whole
packets, except for the beginning of the message that is being sent.  The replies among them,
with what is due, are those of its packets served one by one, and `OPC_EXIT` at the end; the
messages, with what is left of a pass, are those of the passes.  Each are in their order, none is
lost and none is sent twice. -/
theorem ime_wire (hidle : chkrdy rd.ime = false) {acts : List ImeAct}
    (hwaits : Runs.Meets (imeNext o) ImeWaits (.start rd) acts)
    (hrun : Runs.run (imeNext o) (.start rd) acts = some t) (hb : t.broken = false) :
    ∃ ps : List ImePacket,
      t.out = t.main.sent o ++ ps.flatMap (ImePacket.blocks o) ++ t.writer.part o ∧
      ps.filterMap ImePacket.reply? ++ t.pending
        = (served o rd (acts.filterMap ImeAct.arrival)).2 ++ t.reader.exits ∧
      ps.filterMap ImePacket.msg? ++ t.writer.todo = acts.flatMap ImeAct.files := by
  exact ((run_history hidle hwaits hrun).wire hb).wire

/-- A client that sets up, names a unit and a user, and leaves. -/
def exampleImeRd : ImeRd where
  ime := default
  jail := exampleJail
  inbuf := []
  inp := [opcodeSetup, 0, 0, 0, 0] ++ List.replicate 8 0 ++ [opcodeUnit, 0, 0, 0, 1] ++ lit "u" ++
    [opcodeUsr, 0, 0, 0, 1] ++ lit "a" ++ [opcodeExit, 0, 0, 0, 0]
  stray := false
  used := []

/-- A message is sent before the user is answered, who is ready by then. -/
def exampleImeActs : List ImeAct :=
  [.okHdr, .okBody, .read imeHost [], .lockRd, .writeopc, .unlockRd, .read imeHost [], .sendopc,
    .lockRd, .writeopc, .unlockRd, .read imeHost [], .wake, .lockWr, .sendopc, .scan [lit "1:b:hi"],
    .msgHdr, .msgBody, .unlockWr, .lockRd, .writeopc, .unlockRd]

theorem ime_wire_example : ∃ t : ImeSys,
    Runs.run (imeNext .little) (.start exampleImeRd) exampleImeActs = some t ∧
    ∃ ps : List ImePacket,
      t.out = t.main.sent .little ++ ps.flatMap (ImePacket.blocks .little)
        ++ t.writer.part .little ∧
      ps.filterMap ImePacket.reply? ++ t.pending
        = (served .little exampleImeRd (exampleImeActs.filterMap ImeAct.arrival)).2
          ++ t.reader.exits ∧
      ps.filterMap ImePacket.msg? ++ t.writer.todo = exampleImeActs.flatMap ImeAct.files := by
  obtain ⟨t, hrun⟩ := Option.isSome_iff_exists.mp
    (show (Runs.run (imeNext .little) (.start exampleImeRd) exampleImeActs).isSome = true from rfl)
  have hb : (Runs.run (imeNext .little) (.start exampleImeRd) exampleImeActs).map ImeSys.broken
      = some false := rfl
  rw [hrun] at hb
  exact ⟨t, hrun, ime_wire rfl (by decide) hrun (Option.some.inj hb)⟩

/-- A client that does not wait finds a reply in the middle of `OK`. -/
example :
    (Runs.run (imeNext .little)
        (.start { exampleImeRd with inp := [opcodeUnit, 0, 0, 0, 1] ++ lit "u" })
        [.okHdr, .read imeHost [], .sendopc, .lockRd, .writeopc, .okBody]).map ImeSys.out
      = some [[0, 0, 0, 2], [opcodeUnit, 255, 255, 255, 255], lit "OK"] := rfl

end TFProtocol
