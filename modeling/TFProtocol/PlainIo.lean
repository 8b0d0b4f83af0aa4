import TFProtocol.BlkBounds

/-!
# Plain transfers between two sessions

The gateway hands a message from one session to another over a unix socket.  Both ends use
`writebuf_exfd` and `readbuf_exfd` with `enc` cleared, so that the bytes on the socket are
the bytes of the message.  The two functions honour the flag in stream mode.  In block mode
they do not look at it, and a receive asks for the impersonation token in either mode.

A session works on another descriptor with the same cipher states, so a transfer there is
the transfer of the session layer with the descriptor exchanged.

## Main definitions

* `Fd`, `Sess.onFd` — another descriptor.
* `writebufExfd`, `readbufExfd` — the functions of `tfproto.c`.
* `startNet`, `uxcomm` — the two halves of the gateway that a message passes.
* `PlainWrite`, `PlainRead`, `Relays` — what the flag is there for.

## Main results

* `plain_relay_iff` — **plain transfers are plain, and the relay delivers, exactly when both
  sessions are in stream mode and the receiving one asks for no token.**
-/

namespace TFProtocol

open Bytes CStr

/-- A descriptor: what arrives on it, what was written to it, and the answers of the kernel. -/
structure Fd where
  inp : List Byte
  out : List Byte
  rsched : List SysRes
  wsched : List SysRes
  deriving DecidableEq, Repr

/-- The session working on another descriptor. -/
def Sess.onFd (s : Sess) (fd : Fd) : Sess :=
  { s with inp := fd.inp, out := fd.out, rsched := fd.rsched, wsched := fd.wsched }

/-- The descriptor a session works on. -/
def Sess.fd (s : Sess) : Fd := ⟨s.inp, s.out, s.rsched, s.wsched⟩

/-- The cipher states of two sessions are the same. -/
structure SameCipherState (s t : Sess) : Prop where
  crypRx : t.crypRx = s.crypRx
  crypTx : t.crypTx = s.crypTx
  cipherRx : t.cipherRx = s.cipherRx
  cipherTx : t.cipherTx = s.cipherTx
  ossl : t.ossl = s.ossl
  ciaSend : t.ciaSend = s.ciaSend

/-- What `uxcomm` finds in memory: the buffer of the gateway and its local `hdr`. -/
structure GwMem where
  buf : List Byte
  hdr : List Byte
  deriving DecidableEq, Repr

section

variable (o : Endian) (aes : Aes)

/-- `writebuf_exfd`. -/
def writebufExfd (s : Sess) (fd : Fd) (buf : List Byte) (enc : Bool) : Snd :=
  sndbuf o aes (s.onFd fd) buf enc

/-- `readbuf_exfd`. -/
def readbufExfd (s : Sess) (fd : Fd) (len : ℤ) (enc : Bool) : Rcv :=
  rcvbuf o aes (s.onFd fd) len enc

/-- The end of a turn of `start_net`: the length in the byte order of the host and the message
go to the socket, whatever the two calls return. -/
def startNet (s : Sess) (fd : Fd) (m : List Byte) : Sess :=
  let h := writebufExfd o aes s fd (memBytes o 4 (BitVec.ofInt 32 m.length).toNat) false
  (writebufExfd o aes h.sess h.sess.fd m false).sess

/-- `uxcomm`, with the socket on `fd` and the session's own descriptor in `s`: the session
afterwards. -/
def uxcomm (s : Sess) (g : GwMem) (fd : Fd) : Sess :=
  let h := readbufExfd o aes s fd 4 false
  if h.ret = -1 then h.sess.onFd s.fd
  else
    let hdr := (BitVec.ofNat 32 (ofMem o ((overlay g.hdr h.got).take 4))).toInt
    let r := readbufExfd o aes h.sess h.sess.fd hdr false
    if r.ret = -1 then r.sess.onFd s.fd
    else
      let w := writebufExfd o aes r.sess s.fd (hdrsetsz o hdr) true
      if w.ret = -1 then w.sess
      else (writebufExfd o aes w.sess w.sess.fd ((overlay g.buf r.got).take hdr.toNat) true).sess

/-- A write with the flag cleared puts the bytes of the buffer on the descriptor. -/
def PlainWrite (s : Sess) : Prop :=
  ∀ fd buf, Quiet fd.wsched →
    (writebufExfd o aes s fd buf false).sess.out = fd.out ++ buf ∧
      SameCipherState s (writebufExfd o aes s fd buf false).sess

/-- A read with the flag cleared delivers the next bytes of the descriptor. -/
def PlainRead (s : Sess) : Prop :=
  ∀ fd (n : ℕ), Quiet fd.rsched → n ≤ fd.inp.length →
    (readbufExfd o aes s fd n false).got = fd.inp.take n ∧
      (readbufExfd o aes s fd n false).sess.inp = fd.inp.drop n ∧
      SameCipherState s (readbufExfd o aes s fd n false).sess

/-- Every message that fits the buffers passes from `s` to `t`: the session `t` sends it to its
client as it sends any message of its own. -/
def Relays (s t : Sess) : Prop :=
  ∀ (g : GwMem) (fd fd' : Fd) (m : List Byte), m.length ≤ commbuflen →
    Quiet fd.wsched → fd.out = [] → Quiet fd'.rsched → fd'.inp = (startNet o aes s fd m).out →
    ∃ u, SameCipherState t u ∧ u.fd = t.fd ∧ uxcomm o aes t g fd' = (writebuf o aes u m).sess

/-- What the flag is there for, from the session `s` to the session `t`. -/
structure PlainRelay (s t : Sess) : Prop where
  write : PlainWrite o aes s
  read : PlainRead o aes t
  relay : Relays o aes s t

end

section

variable {o : Endian} {aes : Aes} {s : Sess}

/-! ### Stream mode -/

/-- A plain write in stream mode. -/
theorem writebufExfd_stream (hs : s.blkstatus = false) (fd : Fd) (buf : List Byte) :
    writebufExfd o aes s fd buf false =
      ⟨(wrfd (s.onFd fd) buf).1, buf, (wrfd (s.onFd fd) buf).2⟩ := by
  have hmode : (s.onFd fd).blkstatus = false := hs
  simp only [writebufExfd, sndbuf, hmode, Bool.false_and, Bool.false_eq_true, if_false]

theorem plainWrite_of_stream (hs : s.blkstatus = false) : PlainWrite o aes s := by
  intro fd buf hq
  obtain ⟨-, hbytes, -⟩ := wrLoop_all fd.wsched buf hq
  rw [writebufExfd_stream hs]
  refine ⟨?_, ⟨rfl, rfl, rfl, rfl, rfl, rfl⟩⟩
  show fd.out ++ (wrLoop fd.wsched buf).bytes = _
  rw [hbytes]

/-- A plain read in stream mode without a token. -/
theorem readbufExfd_stream (hs : s.blkstatus = false) (hcia : s.ciaSt = false) (fd : Fd) (n : ℤ) :
    readbufExfd o aes s fd n false = rdfd (s.onFd fd) n := by
  have hmode : (s.onFd fd).blkstatus = false := hs
  have htok : (s.onFd fd).ciaSt = false := hcia
  simp only [readbufExfd, rcvbuf, hmode, htok, streamRead, Bool.false_and, Bool.false_eq_true,
    if_false, ite_self]

theorem plainRead_of_stream (hs : s.blkstatus = false) (hcia : s.ciaSt = false) :
    PlainRead o aes s := by
  intro fd n hq hn
  obtain ⟨-, hbytes, hrest, -⟩ := rdLoop_all fd.rsched n fd.inp hq hn
  rw [readbufExfd_stream hs hcia]
  refine ⟨?_, ?_, ⟨rfl, rfl, rfl, rfl, rfl, rfl⟩⟩
  · show (rdLoop fd.rsched (n : ℤ).toNat fd.inp).bytes = _
    rw [Int.toNat_natCast, hbytes]
  · show (rdLoop fd.rsched (n : ℤ).toNat fd.inp).rest = _
    rw [Int.toNat_natCast, hrest]

/-- What a reader of the socket finds when both writes were plain. -/
theorem startNet_out (hs : s.blkstatus = false) {fd : Fd} (hq : Quiet fd.wsched) (hout : fd.out = [])
    (m : List Byte) :
    (startNet o aes s fd m).out = memBytes o 4 (BitVec.ofInt 32 m.length).toNat ++ m := by
  have hsched := (wrLoop_all fd.wsched (memBytes o 4 (BitVec.ofInt 32 m.length).toNat) hq).2.2
  obtain ⟨hhdr, -⟩ := @plainWrite_of_stream o aes s hs fd
    (memBytes o 4 (BitVec.ofInt 32 m.length).toNat) hq
  unfold startNet
  dsimp only
  rw [writebufExfd_stream hs] at hhdr ⊢
  obtain ⟨hbody, -⟩ := @plainWrite_of_stream o aes
    (wrfd (s.onFd fd) (memBytes o 4 (BitVec.ofInt 32 m.length).toNat)).2 hs
    (wrfd (s.onFd fd) (memBytes o 4 (BitVec.ofInt 32 m.length).toNat)).2.fd m hsched
  rw [hbody]
  show (wrfd (s.onFd fd) _).2.out ++ m = _
  rw [hhdr, hout, List.nil_append]

/-- The length on the socket is in the byte order of the host. -/
theorem ofMem_length (o : Endian) {n : ℕ} (hn : n < 2 ^ 31) (stale : List Byte) :
    (BitVec.ofNat 32 (ofMem o ((overlay stale (memBytes o 4 (BitVec.ofInt 32 n).toNat)).take 4))).toInt
      = n := by
  have hfour : (memBytes o 4 (BitVec.ofInt 32 n).toNat).length = 4 := length_memBytes ..
  have htake : (overlay stale (memBytes o 4 (BitVec.ofInt 32 n).toNat)).take 4 =
      memBytes o 4 (BitVec.ofInt 32 n).toNat := by
    rw [overlay, List.take_append_of_le_length hfour.ge, List.take_of_length_le hfour.le]
  rw [htake, ofMem_memBytes o (BitVec.isLt _), BitVec.ofNat_toNat, BitVec.setWidth_eq]
  exact cint_of_lt hn

/-- A plain read of the next `x`, and the session it leaves. -/
theorem readbufExfd_next (hs : s.blkstatus = false) (hcia : s.ciaSt = false) {fd : Fd}
    (hq : Quiet fd.rsched) {x rest : List Byte} (hx : x.length < 2 ^ 31)
    (hinp : fd.inp = x ++ rest) :
    ∃ t, readbufExfd o aes s fd x.length false = ⟨x.length, x, t⟩ ∧ t.inp = rest ∧
      Quiet t.rsched ∧ SameCipherState s t ∧ t.blkstatus = false ∧ t.ciaSt = false := by
  obtain ⟨hok, hbytes, hrest, hsched⟩ := rdLoop_all fd.rsched x.length fd.inp hq
    (by rw [hinp, List.length_append]; omega)
  rw [hinp, List.take_left, ← hinp] at hbytes
  rw [hinp, List.drop_left, ← hinp] at hrest
  refine ⟨(rdfd (s.onFd fd) x.length).sess, ?_, hrest, hsched, ⟨rfl, rfl, rfl, rfl, rfl, rfl⟩,
    hs, hcia⟩
  have hret : (rdfd (s.onFd fd) x.length).ret = x.length := by
    show (if (rdLoop fd.rsched (x.length : ℤ).toNat fd.inp).ok = true then _ else _) = _
    rw [Int.toNat_natCast, if_pos hok, cint_of_lt hx]
  have hgot : (rdfd (s.onFd fd) x.length).got = x := hbytes
  rw [readbufExfd_stream hs hcia]
  calc rdfd (s.onFd fd) x.length
      = ⟨(rdfd (s.onFd fd) x.length).ret, (rdfd (s.onFd fd) x.length).got,
          (rdfd (s.onFd fd) x.length).sess⟩ := rfl
    _ = _ := by rw [hret, hgot]

theorem SameCipherState.trans {s t u : Sess} (h : SameCipherState s t) (h' : SameCipherState t u) :
    SameCipherState s u :=
  ⟨h'.crypRx.trans h.crypRx, h'.crypTx.trans h.crypTx, h'.cipherRx.trans h.cipherRx,
    h'.cipherTx.trans h.cipherTx, h'.ossl.trans h.ossl, h'.ciaSend.trans h.ciaSend⟩

/-- The session `t` forwards what it finds on the socket. -/
theorem uxcomm_of_plain {t : Sess} (hs : t.blkstatus = false) (hcia : t.ciaSt = false) (g : GwMem)
    {fd : Fd} (hq : Quiet fd.rsched) {m : List Byte} (hm : m.length < 2 ^ 31)
    (hinp : fd.inp = memBytes o 4 (BitVec.ofInt 32 m.length).toNat ++ m) :
    ∃ u, SameCipherState t u ∧ u.fd = t.fd ∧ uxcomm o aes t g fd = (writebuf o aes u m).sess := by
  have hfour : (memBytes o 4 (BitVec.ofInt 32 m.length).toNat).length = 4 := length_memBytes ..
  obtain ⟨t1, hhdr, hinp1, hq1, hsame1, hs1, hcia1⟩ :=
    @readbufExfd_next o aes t hs hcia fd hq _ m (by rw [hfour]; decide) hinp
  obtain ⟨t2, hbody, -, -, hsame2, -, -⟩ :=
    @readbufExfd_next o aes t1 hs1 hcia1 t1.fd hq1 m [] hm (by rw [List.append_nil]; exact hinp1)
  rw [hfour] at hhdr
  have htake : (overlay g.buf m).take m.length = m := by rw [overlay, List.take_left]
  refine ⟨t2.onFd t.fd, ?_, rfl, ?_⟩
  · obtain ⟨h1, h2, h3, h4, h5, h6⟩ := hsame1.trans hsame2
    exact ⟨h1, h2, h3, h4, h5, h6⟩
  · have hne : ¬ ((4 : ℕ) : ℤ) = -1 := by omega
    have hne' : ¬ (m.length : ℤ) = -1 := by omega
    unfold uxcomm
    dsimp only
    rw [show (4 : ℤ) = ((4 : ℕ) : ℤ) from rfl, hhdr]
    dsimp only
    rw [if_neg hne, ofMem_length o hm, hbody]
    dsimp only
    rw [if_neg hne', Int.toNat_natCast, htake]
    unfold writebuf writebufExfd
    dsimp only
    split <;> rfl

theorem relays_of_stream {t : Sess} (hs : s.blkstatus = false) (ht : t.blkstatus = false)
    (hcia : t.ciaSt = false) : Relays o aes s t := by
  intro g fd fd' m hm hq hout hq' hinp
  rw [startNet_out hs hq hout] at hinp
  refine uxcomm_of_plain ht hcia g hq' ?_ hinp
  unfold commbuflen at hm
  omega

/-! ### The other modes -/

/-- A descriptor on which one byte arrives. -/
def oneByteFd : Fd := ⟨[0], [], [], []⟩

/-- In block mode one byte becomes a block, or nothing is written. -/
theorem not_plainWrite (hs : s.blkstatus = true) : ¬ PlainWrite o aes s := by
  intro h
  have hout := congrArg List.length (h oneByteFd [0] (by simp [Quiet, oneByteFd])).1
  have hblk : writebufExfd o aes s oneByteFd [0] false = blkSndbuf aes (s.onFd oneByteFd) [0] := by
    exact if_pos hs
  rw [hblk, blkSndbuf, if_neg (by simp)] at hout
  dsimp only at hout
  split at hout
  · simp [Sess.onFd, oneByteFd] at hout
  next ct _ =>
    have hlong : 16 ≤ (overlay (List.replicate (aesLen [(0 : Byte)].length) 0) ct).length := by
      rw [overlay, List.length_append, List.length_drop, List.length_replicate]
      simp only [aesLen, blkSize, List.length_singleton]
      omega
    obtain ⟨-, hbytes, -⟩ := wrLoop_all oneByteFd.wsched
      (overlay (List.replicate (aesLen [(0 : Byte)].length) 0) ct) (by simp [Quiet, oneByteFd])
    have hlen : (wrfd { s.onFd oneByteFd with
        ossl := (blkencrypt aes (s.onFd oneByteFd).ossl (s.onFd oneByteFd).cipherTx [0] (cint 1)).2 }
        (overlay (List.replicate (aesLen [(0 : Byte)].length) 0) ct)).2.out.length ≠ 1 := by
      show ([] ++ (wrLoop oneByteFd.wsched _).bytes).length ≠ 1
      rw [hbytes, List.nil_append]
      omega
    split at hout
    · exact hlen hout
    · exact hlen hout

/-- One byte is neither a block nor a token. -/
theorem not_plainRead (hs : s.blkstatus = true ∨ s.ciaSt = true) : ¬ PlainRead o aes s := by
  intro h
  have hgot := (h oneByteFd 1 (by simp [Quiet, oneByteFd]) (by decide)).1
  -- every read that is longer than what arrives fails
  have hlost : ∀ {len : ℕ}, 1 < len → (rdLoop oneByteFd.rsched len oneByteFd.inp).ok = false := by
    intro len hlen
    cases hok : (rdLoop oneByteFd.rsched len oneByteFd.inp).ok with
    | false => rfl
    | true =>
      have := (rdLoop_of_ok _ _ _ hok).1
      simp only [oneByteFd, List.length_singleton] at this
      omega
  have hblk : ∀ (b : Bool) (n : ℕ), (blkRead aes { s.onFd oneByteFd with ciaSend := b } n).ret = -1 ∧
      (blkRead aes { s.onFd oneByteFd with ciaSend := b } n).got = [] := by
    intro b n
    refine blkRead_of_lost (hlost ?_)
    simp only [aesLen, blkSize]
    omega
  have hnone : (readbufExfd o aes s oneByteFd (1 : ℕ) false).got = [] := by
    unfold readbufExfd rcvbuf
    split
    next hmode =>
      by_cases hdue : (s.onFd oneByteFd).ciaSt = true ∧ (s.onFd oneByteFd).ciaSend = false
      · have htok := (hblk false 36).1
        rw [← hdue.2] at htok
        rw [blkRcvbuf_token aes hdue.1 hdue.2 Nat.one_pos, if_pos htok]
      · obtain ⟨b, hb⟩ := @blkRcvbuf_direct aes (s.onFd oneByteFd) 1 Nat.one_pos hdue
        rw [hb]
        exact (hblk b 1).2
    next hmode =>
      have hcia : (s.onFd oneByteFd).ciaSt = true := hs.resolve_left hmode
      have htok : (streamRead o (s.onFd oneByteFd) 36 false).ret = -1 := by
        have hrd : (rdfd (s.onFd oneByteFd) 36).ret = -1 := by
          show (if (rdLoop oneByteFd.rsched 36 oneByteFd.inp).ok = true then cint (36 : ℕ) else -1) = -1
          rw [hlost (by decide), if_neg Bool.false_ne_true]
        rw [streamRead, if_pos hrd, hrd]
      rw [if_pos hcia]
      dsimp only
      rw [if_pos htok]
  rw [hnone] at hgot
  cases hgot

/-- **When plain transfers are plain.**  From the session `s` to the session `t`, writes put
the bytes of the buffer on the descriptor, reads deliver the next bytes and the gateway hands
on every message unchanged, with all cipher states left alone, exactly when both sessions are
in stream mode and `t` asks for no token. -/
theorem plain_relay_iff (o : Endian) (aes : Aes) (s t : Sess) :
    PlainRelay o aes s t ↔ s.blkstatus = false ∧ t.blkstatus = false ∧ t.ciaSt = false := by
  constructor
  · rintro ⟨hw, hr, -⟩
    refine ⟨?_, ?_, ?_⟩
    · exact Bool.eq_false_of_not_eq_true fun hs => not_plainWrite hs hw
    · exact Bool.eq_false_of_not_eq_true fun ht => not_plainRead (.inl ht) hr
    · exact Bool.eq_false_of_not_eq_true fun ht => not_plainRead (.inr ht) hr
  · rintro ⟨hs, ht, hcia⟩
    exact ⟨plainWrite_of_stream hs, plainRead_of_stream ht hcia, relays_of_stream hs ht hcia⟩

/-- A session in block mode under the zero key. -/
def exampleBlkTx : Sess :=
  { (default : Sess) with
    blkstatus := true
    cipherTx := ⟨zeroKey, zeroIv, some 0⟩
    ossl := ⟨[⟨some (.encrypt, zeroKey, zeroIv), false⟩], [], false⟩ }

/-- A session in block mode writes the byte `2a` to the socket as sixteen bytes of ciphertext. -/
theorem plain_byte_encrypted :
    ¬ ∀ (o : Endian) (aes : Aes) (s t : Sess), PlainRelay o aes s t := by
  intro h
  have hw := (h .little Aes.sample exampleBlkTx default).write oneByteFd [0x2a]
    (by simp [Quiet, oneByteFd])
  have hout : (writebufExfd .little Aes.sample exampleBlkTx oneByteFd [0x2a] false).sess.out =
      sampleBlock zeroKey := by
    decide +kernel
  rw [hout] at hw
  exact absurd hw.1 (by decide +kernel)

end

end TFProtocol
