import TFProtocol.Session

/-!
# The session-layer round trip

A sender and a receiver in stream mode exchange messages (`writebuf` with
`readbuf`), raw blocks of a length both know (`writebuf_ex` with `readbuf_ex`), and
now and then swap in a new key, as `cmd_nigma` does.  The cipher state moves with
every byte and the key index restarts at every call, so header and body are two
separate cipher calls on either side.

The sender may run ahead: what it writes waits on the descriptor, and the receiver
works through it later, in pieces of any size.

## Main definitions

* `Xop` — one operation of an exchange.
* `sendAll`, `recvAll` — the two ends working through a list of operations.
* `Linked` — the invariant: the two cipher states agree and both ends are in
  stream mode with error-free schedules.

## Main results

* `rcvbuf_of_sndbuf` — one buffer arrives as it was sent.
* `recvOp_of_sendOp` — one operation keeps the two ends linked.
* `session_round_trip` — every message of every sequence arrives, and the cipher
  states agree after every operation.
-/

namespace TFProtocol

open Bytes CStr

/-- One operation of an exchange. -/
inductive Xop
  /-- A `writebuf` matched by a `readbuf`. -/
  | msg (m : List Byte)
  /-- A `writebuf_ex` matched by a `readbuf_ex` of the same length. -/
  | raw (m : List Byte)
  /-- A `swapkey` of the same new key on both sides. -/
  | swap (key : List Byte)
  deriving DecidableEq, Repr

namespace Xop

/-- What the receiver is to obtain. -/
def payload : Xop → List Byte
  | .msg m => m
  | .raw m => m
  | .swap _ => []

/-- The operations that occur: messages that fit the communication buffer, raw
blocks with an `int` length, keys of at least `NIGMA_MIN` bytes. -/
def Admitted : Xop → Prop
  | .msg m => m.length < commbuflen
  | .raw m => m.length < 2 ^ 31
  | .swap key => 8 ≤ key.length

end Xop

section

variable (o : Endian) (aes : Aes)

/-- The sender's half of an operation. -/
def sendOp (s : Sess) : Xop → Sess
  | .msg m => (writebuf o aes s m).sess
  | .raw m => (writebufEx o aes s m).sess
  | .swap key => { s with crypTx := swapkey s.crypTx key key.length }

/-- The receiver's half of an operation. -/
def recvOp (s : Sess) : Xop → Rcv
  | .msg _ => readbuf o aes s
  | .raw m => readbufEx o aes s m.length
  | .swap key => ⟨0, [], { s with crypRx := swapkey s.crypRx key key.length }⟩

/-- The sender after a list of operations. -/
def sendAll (s : Sess) (ops : List Xop) : Sess := ops.foldl (sendOp o aes) s

/-- The receiver after a list of operations, with the value returned and the
bytes delivered by each. -/
def recvAll (s : Sess) (ops : List Xop) : Sess × List (ℤ × List Byte) :=
  Mealy.run (fun s op => ((recvOp o aes s op).sess, (recvOp o aes s op).ret, (recvOp o aes s op).got))
    s ops

end

/-- The two ends of an exchange agree. -/
structure Linked (tx rx : Sess) : Prop where
  keys : Paired tx.crypTx rx.crypRx
  txMode : tx.blkstatus = false
  rxMode : rx.blkstatus = false
  rxCia : rx.ciaSt = false
  txQuiet : Quiet tx.wsched
  rxQuiet : Quiet rx.rsched

/-- A sender in stream mode whose writes meet no errors. -/
structure TxReady (s : Sess) : Prop where
  mode : s.blkstatus = false
  set : s.crypTx.hasEncrypt = true
  quiet : Quiet s.wsched

theorem Linked.txReady {tx rx : Sess} (h : Linked tx rx) : TxReady tx :=
  ⟨h.txMode, h.keys.txSet, h.txQuiet⟩

/-! ### One buffer -/

/-- The bytes one `sndbuf` puts on the descriptor. -/
def sealed (o : Endian) (s : Sess) (data : List Byte) : List Byte :=
  (encrypt o s.crypTx data data.length).2

@[simp] theorem length_sealed (o : Endian) (s : Sess) (data : List Byte) :
    (sealed o s data).length = data.length := length_encrypt ..

/-- Sending in stream mode: the whole buffer is encrypted and written. -/
theorem sndbuf_stream (o : Endian) (aes : Aes) {s : Sess} (h : TxReady s) {data : List Byte}
    (hlen : data.length < 2 ^ 31) :
    (sndbuf o aes s data true).ret = data.length ∧
      (sndbuf o aes s data true).sess.out = s.out ++ sealed o s data ∧
      (sndbuf o aes s data true).sess.crypTx = (encrypt o s.crypTx data data.length).1 ∧
      TxReady (sndbuf o aes s data true).sess := by
  obtain ⟨hok, hbytes, hsched⟩ := wrLoop_all s.wsched (sealed o s data) h.quiet
  obtain ⟨-, -, -, hset, -⟩ := encrypt_frame o s.crypTx data data.length
  unfold sealed at hok hbytes hsched
  have hw : sndbuf o aes s data true = ⟨data.length, sealed o s data,
      (wrfd { s with crypTx := (encrypt o s.crypTx data data.length).1 } (sealed o s data)).2⟩ := by
    simp only [sndbuf, h.mode, h.set, wrfd, sealed, Bool.and_self, if_true, Bool.false_eq_true,
      if_false, hok, length_encrypt, cint_of_lt hlen]
  rw [hw]
  simp only [wrfd, sealed, hbytes, true_and]
  exact ⟨h.mode, hset.trans h.set, hsched⟩

/-- Receiving in stream mode: the bytes wanted are read and decrypted. -/
theorem rcvbuf_stream (o : Endian) (aes : Aes) {s : Sess} (hmode : s.blkstatus = false)
    (hcia : s.ciaSt = false) (hset : s.crypRx.hasEncrypt = true) (hq : Quiet s.rsched)
    {ct rest : List Byte} (hinp : s.inp = ct ++ rest) (hlen : ct.length < 2 ^ 31) :
    (rcvbuf o aes s ct.length true).ret = ct.length ∧
      (rcvbuf o aes s ct.length true).got = (encrypt o s.crypRx ct ct.length).2 ∧
      (rcvbuf o aes s ct.length true).sess.inp = rest ∧
      (rcvbuf o aes s ct.length true).sess.crypRx = (encrypt o s.crypRx ct ct.length).1 ∧
      (rcvbuf o aes s ct.length true).sess.blkstatus = false ∧
      (rcvbuf o aes s ct.length true).sess.ciaSt = false ∧
      Quiet (rcvbuf o aes s ct.length true).sess.rsched := by
  obtain ⟨hok, hbytes, hrest, hsched⟩ := rdLoop_all s.rsched ct.length s.inp hq (by simp [hinp])
  rw [hinp] at hbytes hrest
  simp only [List.take_left, List.drop_left] at hbytes hrest
  rw [← hinp] at hbytes hrest
  have hne : ¬ (ct.length : ℤ) = -1 := by omega
  simp only [rcvbuf, streamRead, rdfd, hmode, hcia, hset, Bool.and_self, if_true,
    Bool.false_eq_true, if_false, Int.toNat_natCast, hok, hbytes, hrest, cint_of_lt hlen, hne,
    true_and]
  exact hsched

/-- **One buffer arrives as it was sent**, and the ends stay linked. -/
theorem rcvbuf_of_sndbuf (o : Endian) (aes : Aes) {tx rx : Sess} (h : Linked tx rx)
    {data rest : List Byte} (hlen : data.length < 2 ^ 31)
    (hinp : rx.inp = sealed o tx data ++ rest) :
    (rcvbuf o aes rx data.length true).ret = data.length ∧
      (rcvbuf o aes rx data.length true).got = data ∧
      (rcvbuf o aes rx data.length true).sess.inp = rest ∧
      Linked (sndbuf o aes tx data true).sess (rcvbuf o aes rx data.length true).sess := by
  obtain ⟨-, -, htx, hready⟩ := sndbuf_stream o aes h.txReady hlen
  obtain ⟨hret, hgot, hrest, hrx, hmode, hcia, hq⟩ :=
    rcvbuf_stream o aes h.rxMode h.rxCia h.keys.rxSet h.rxQuiet hinp (by simpa using hlen)
  rw [length_sealed] at hret hgot hrest hrx hmode hcia hq
  obtain ⟨hdata, hpaired⟩ := encrypt_undo (o := o) h.keys hlen
  refine ⟨hret, hgot.trans hdata, hrest, ⟨?_, hready.mode, hmode, hcia, hready.quiet, hq⟩⟩
  rw [htx, hrx]
  exact hpaired

/-! ### One message -/

/-- The bytes of a message on the descriptor: the header is one cipher call, the
body another. -/
def sealedMsg (o : Endian) (aes : Aes) (s : Sess) (m : List Byte) : List Byte :=
  sealed o s (hdrsetsz o m.length) ++
    sealed o (sndbuf o aes s (hdrsetsz o m.length) true).sess m

/-- `writebuf` in stream mode is a send of the header and a send of the body. -/
theorem writebuf_stream (o : Endian) (aes : Aes) {s : Sess} (h : TxReady s) {m : List Byte}
    (hlen : m.length < 2 ^ 31) :
    writebuf o aes s m = sndbuf o aes (sndbuf o aes s (hdrsetsz o m.length) true).sess m true ∧
      (writebuf o aes s m).sess.out = s.out ++ sealedMsg o aes s m ∧
      TxReady (writebuf o aes s m).sess := by
  have hhdr : (hdrsetsz o m.length).length < 2 ^ 31 := by simp
  obtain ⟨hret, hout, -, hready⟩ := sndbuf_stream o aes h hhdr
  obtain ⟨-, hout', -, hready'⟩ := sndbuf_stream o aes hready hlen
  have hne : ¬ (sndbuf o aes s (hdrsetsz o m.length) true).ret = -1 := by rw [hret]; simp
  have hw : writebuf o aes s m
      = sndbuf o aes (sndbuf o aes s (hdrsetsz o m.length) true).sess m true := by
    simp only [writebuf, hne, if_false]
  refine ⟨hw, ?_, by rw [hw]; exact hready'⟩
  rw [hw, hout', hout, sealedMsg, List.append_assoc]

/-- The receiver's header and communication buffer play no part in the link. -/
theorem Linked.congr_mem {tx rx : Sess} (h : Linked tx rx) (hdr buf : List Byte) :
    Linked tx { rx with rxhdr := hdr, buf := buf } :=
  ⟨h.keys, h.txMode, h.rxMode, h.rxCia, h.txQuiet, h.rxQuiet⟩

/-- The body of a message arrives as it was sent, once its length is known. -/
theorem readBody_of_sndbuf {o : Endian} {aes : Aes} {tx rx : Sess} (h : Linked tx rx)
    {m rest : List Byte} (hm : m.length < commbuflen)
    (hinp : rx.inp = sealed o tx m ++ rest) :
    (readBody o aes rx m.length).ret = m.length ∧ (readBody o aes rx m.length).got = m ∧
      (readBody o aes rx m.length).sess.inp = rest ∧
      Linked (sndbuf o aes tx m true).sess (readBody o aes rx m.length).sess := by
  have hlen : m.length < 2 ^ 31 := by unfold commbuflen at hm; omega
  have hin : (0 : ℤ) ≤ m.length ∧ (m.length : ℤ) < commbuflen := by omega
  obtain ⟨hret, hgot, hrest, hlink⟩ := rcvbuf_of_sndbuf o aes
    (h.congr_mem rx.rxhdr (rx.buf.set m.length 0)) hlen hinp
  simp only [readBody, hin, and_self, if_true, Int.toNat_natCast]
  exact ⟨hret, hgot, hrest, hlink.congr_mem _ _⟩

/-- **A message arrives as it was sent**: the receiver learns its length from
the header. -/
theorem readbuf_of_writebuf {o : Endian} {aes : Aes} {tx rx : Sess} (h : Linked tx rx)
    {m rest : List Byte} (hm : m.length < commbuflen)
    (hinp : rx.inp = sealedMsg o aes tx m ++ rest) :
    (readbuf o aes rx).ret = m.length ∧ (readbuf o aes rx).got = m ∧
      (readbuf o aes rx).sess.inp = rest ∧
      Linked (writebuf o aes tx m).sess (readbuf o aes rx).sess := by
  have hlen : m.length < 2 ^ 31 := by unfold commbuflen at hm; omega
  obtain ⟨hw, -, -⟩ := writebuf_stream o aes h.txReady hlen
  rw [sealedMsg, List.append_assoc] at hinp
  have hhdr : (hdrsetsz o m.length).length < 2 ^ 31 := by simp
  obtain ⟨hret, hgot, hrest, hlink⟩ := rcvbuf_of_sndbuf o aes h hhdr hinp
  rw [length_hdrsetsz, Nat.cast_ofNat] at hret hgot hrest hlink
  -- the receiver asks for as many bytes as the header it decrypted says
  have hsz : hdrgetsz o (readHdr o aes rx).sess.rxhdr = m.length := by
    simp only [readHdr, hgot, overlay]
    exact hdrgetsz_hdrsetsz o _ hlen
  have hne : ¬ (readHdr o aes rx).ret = -1 := by
    simp only [readHdr, hret]
    decide
  have hr : readbuf o aes rx = readBody o aes (readHdr o aes rx).sess m.length := by
    simp only [readbuf, hne, if_false, hsz]
  have hlink' : Linked (sndbuf o aes tx (hdrsetsz o m.length) true).sess
      (readHdr o aes rx).sess :=
    hlink.congr_mem (readHdr o aes rx).sess.rxhdr (rcvbuf o aes rx 4 true).sess.buf
  rw [hr, hw]
  exact readBody_of_sndbuf hlink' hm hrest

/-! ### One operation -/

/-- The bytes an operation puts on the descriptor. -/
def wireOf (o : Endian) (aes : Aes) (s : Sess) : Xop → List Byte
  | .msg m => sealedMsg o aes s m
  | .raw m => sealed o s m
  | .swap _ => []

/-- The sender's half of an operation: what it writes, and that it stays ready. -/
theorem sendOp_out (o : Endian) (aes : Aes) {s : Sess} (h : TxReady s) {op : Xop}
    (hop : op.Admitted) :
    (sendOp o aes s op).out = s.out ++ wireOf o aes s op ∧ TxReady (sendOp o aes s op) := by
  cases op with
  | msg m =>
    have hlen : m.length < 2 ^ 31 := by
      simp only [Xop.Admitted, commbuflen] at hop
      omega
    exact (writebuf_stream o aes h hlen).2
  | raw m =>
    have hlen : m.length < 2 ^ 31 := hop
    obtain ⟨-, hout, -, hready⟩ := sndbuf_stream o aes h hlen
    exact ⟨hout, hready⟩
  | swap key => exact ⟨by simp [sendOp, wireOf], ⟨h.mode, h.set, h.quiet⟩⟩

/-- The same new key on both sides keeps two cipher states paired. -/
theorem Paired.swapkey {tx rx : Crypto} (h : Paired tx rx) {key : List Byte}
    (hkey : 8 ≤ key.length) :
    Paired (swapkey tx key key.length) (swapkey rx key key.length) :=
  ⟨h.same.swapkey key key.length, ⟨hkey, le_rfl⟩, ⟨hkey, le_rfl⟩, h.txPack, h.rxPack, h.txOn,
    h.rxOn, h.txSet, h.rxSet⟩

/-- **One operation delivers its payload and keeps the two ends linked.** -/
theorem recvOp_of_sendOp {o : Endian} {aes : Aes} {tx rx : Sess} (h : Linked tx rx) {op : Xop}
    (hop : op.Admitted) {rest : List Byte} (hinp : rx.inp = wireOf o aes tx op ++ rest) :
    (recvOp o aes rx op).ret = op.payload.length ∧ (recvOp o aes rx op).got = op.payload ∧
      (recvOp o aes rx op).sess.inp = rest ∧
      Linked (sendOp o aes tx op) (recvOp o aes rx op).sess := by
  cases op with
  | msg m => exact readbuf_of_writebuf h hop hinp
  | raw m => exact rcvbuf_of_sndbuf o aes h hop hinp
  | swap key =>
    exact ⟨rfl, rfl, hinp, ⟨h.keys.swapkey hop, h.txMode, h.rxMode, h.rxCia, h.txQuiet, h.rxQuiet⟩⟩

/-! ### Sequences -/

/-- The bytes a sequence of operations puts on the descriptor. -/
def wireAll (o : Endian) (aes : Aes) : Sess → List Xop → List Byte
  | _, [] => []
  | s, op :: ops => wireOf o aes s op ++ wireAll o aes (sendOp o aes s op) ops

theorem sendAll_out (o : Endian) (aes : Aes) : ∀ (ops : List Xop) (s : Sess), TxReady s →
    (∀ op ∈ ops, op.Admitted) → (sendAll o aes s ops).out = s.out ++ wireAll o aes s ops := by
  intro ops
  induction ops with
  | nil => intro s _ _; simp [sendAll, wireAll]
  | cons op ops ih =>
    intro s h hops
    obtain ⟨hout, hready⟩ := sendOp_out o aes h (hops op List.mem_cons_self)
    have htail := ih (sendOp o aes s op) hready fun p hp => hops p (List.mem_cons_of_mem _ hp)
    change (sendAll o aes (sendOp o aes s op) ops).out = _
    rw [htail, hout, wireAll, List.append_assoc]

/-- What a receiver must deliver for a list of operations. -/
def deliveries (ops : List Xop) : List (ℤ × List Byte) :=
  ops.map fun op => ((op.payload.length : ℤ), op.payload)

/-- The receiver works through what the sender wrote, with more bytes of any
origin behind it. -/
theorem recvAll_of_wireAll {o : Endian} {aes : Aes} : ∀ (ops : List Xop) (tx rx : Sess)
    (rest : List Byte), Linked tx rx → (∀ op ∈ ops, op.Admitted) →
    rx.inp = wireAll o aes tx ops ++ rest →
    (recvAll o aes rx ops).2 = deliveries ops ∧ (recvAll o aes rx ops).1.inp = rest ∧
      Linked (sendAll o aes tx ops) (recvAll o aes rx ops).1 := by
  intro ops
  induction ops with
  | nil => intro tx rx rest h _ hinp; exact ⟨rfl, hinp, h⟩
  | cons op ops ih =>
    intro tx rx rest h hops hinp
    rw [wireAll, List.append_assoc] at hinp
    obtain ⟨hret, hgot, hrest, hlink⟩ := recvOp_of_sendOp h (hops op List.mem_cons_self) hinp
    -- the link is the invariant: the ends agree again before the next operation
    obtain ⟨hdel, hinp', hlink'⟩ := ih _ _ rest hlink
      (fun p hp => hops p (List.mem_cons_of_mem _ hp)) hrest
    refine ⟨?_, hinp', hlink'⟩
    simp only [recvAll, Mealy.run_cons, deliveries, List.map_cons] at hdel ⊢
    rw [hdel, hret, hgot]

theorem wireAll_append (o : Endian) (aes : Aes) : ∀ (ops later : List Xop) (s : Sess),
    wireAll o aes s (ops ++ later)
      = wireAll o aes s ops ++ wireAll o aes (sendAll o aes s ops) later := by
  intro ops
  induction ops with
  | nil => intro later s; rfl
  | cons op ops ih =>
    intro later s
    rw [List.cons_append, wireAll, wireAll, ih, List.append_assoc]
    rfl

/-- **The session-layer round trip.**  The sender works through `ops` and possibly
further operations `later`; the receiver finds its bytes on the descriptor, with
anything behind them.  After the operations `ops` the receiver has obtained
exactly the payload of each, in order, and the seed, key length and key bytes of
the two ends are the same.  Taking `ops` shorter or longer, this holds after every
operation of every exchange. -/
theorem session_round_trip (o : Endian) (aes : Aes) {tx rx : Sess} (h : Linked tx rx)
    {ops later : List Xop} (hops : ∀ op ∈ ops ++ later, op.Admitted) {tail : List Byte}
    (hwire : tx.out ++ rx.inp = (sendAll o aes tx (ops ++ later)).out ++ tail) :
    (recvAll o aes rx ops).2 = deliveries ops ∧
      SameKey (sendAll o aes tx ops).crypTx (recvAll o aes rx ops).1.crypRx := by
  rw [sendAll_out o aes (ops ++ later) tx h.txReady hops, wireAll_append, List.append_assoc,
    List.append_cancel_left_eq, List.append_assoc] at hwire
  obtain ⟨hdel, -, hlink⟩ := recvAll_of_wireAll ops tx rx _ h
    (fun p hp => hops p (List.mem_append_left _ hp)) hwire
  exact ⟨hdel, hlink.keys.same⟩

/-- A cipher state with an eight-byte key. -/
def exampleCrypto (mode : Pack) : Crypto :=
  ⟨true, [3, 1, 4, 1, 5, 9, 2, 6], 8, .on, 0x0102030405060708, mode⟩

/-- A sender whose first writes are interrupted and cut short. -/
def exampleTx : Sess :=
  { (default : Sess) with crypTx := exampleCrypto .pack, wsched := [.eintr, .cnt 0, .cnt 2] }

/-- A message, a new key, an empty message and a raw block. -/
def exampleOps : List Xop :=
  [.msg (lit "PROCKEY"), .swap (lit "0123456789"), .msg [], .raw [0, 255]]

/-- The receiver of `exampleOps`. -/
def exampleRx : Sess :=
  { (default : Sess) with
    crypRx := exampleCrypto .unpack
    rsched := [.cnt 0, .eintr]
    inp := (sendAll .little Aes.sample exampleTx exampleOps).out }

theorem session_round_trip_example :
    (recvAll .little Aes.sample exampleRx exampleOps).2 = deliveries exampleOps ∧
      SameKey (sendAll .little Aes.sample exampleTx exampleOps).crypTx
        (recvAll .little Aes.sample exampleRx exampleOps).1.crypRx := by
  have hkeyed : ∀ mode, (exampleCrypto mode).Keyed := fun _ => ⟨le_rfl, le_rfl⟩
  have hlinked : Linked exampleTx exampleRx :=
    ⟨⟨⟨rfl, rfl, rfl⟩, hkeyed _, hkeyed _, rfl, rfl, rfl, rfl, rfl, rfl⟩, rfl, rfl, rfl,
      by unfold Quiet; decide, by unfold Quiet; decide⟩
  have hadmitted : ∀ op ∈ exampleOps ++ [], op.Admitted := by
    simp only [exampleOps, List.append_nil, List.mem_cons, List.not_mem_nil, or_false,
      forall_eq_or_imp, forall_eq, Xop.Admitted, commbuflen]
    decide
  have hout : exampleTx.out = [] := rfl
  have hwire : exampleTx.out ++ exampleRx.inp
      = (sendAll .little Aes.sample exampleTx (exampleOps ++ [])).out ++ [] := by
    rw [hout, List.append_nil, List.append_nil, List.nil_append]
    rfl
  exact session_round_trip .little Aes.sample hlinked hadmitted hwire

end TFProtocol
