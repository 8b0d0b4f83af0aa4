import Mathlib.Tactic.IntervalCases
import TFProtocol.BlkCipher
import TFProtocol.Lib.CStr

/-!
# The session layer

`tfproto.c` moves every byte of a session through `sndbuf` and `rcvbuf`: they
apply the stream cipher or the block cipher in force, and hand the bytes to
`wrfd` and `rdfd`, which repeat `write` and `read` until everything is
transferred.  `writebuf` and `readbuf` put a 4-byte big-endian length in front of
a message.

The kernel decides how a transfer is cut up.  `SysRes` is the answer to one system
call, and a session carries the answers to its coming reads and writes; calls past
the end of the list transfer all they were asked for.

## Main definitions

* `SysRes`, `wrfd`, `rdfd`, `writechunk` — the transfer loops under a schedule of answers.
* `Sess` — the globals of `tfproto.c` that the session layer reads and writes.
* `sndbuf`, `rcvbuf`, `blkSndbuf`, `blkRcvbuf` — one buffer, in both modes.
* `writebuf`, `readbuf`, `writebufEx`, `readbufEx` — messages and raw transfers.
* `cmdOk`, `cmdFail` — the replies of a command.

## Main results

* `wrLoop_all`, `rdLoop_all` — short counts and interruptions lose nothing.
* `hdrgetsz_hdrsetsz` — the length header survives, on either kind of host.
-/

namespace TFProtocol

open Bytes CStr

/-- Communication buffer length, `COMMBUFLEN`. -/
def commbuflen : ℕ := 512 * 1024

/-! ### System calls -/

/-- The answer to one `read` or `write` call. -/
inductive SysRes
  /-- `-1` with `errno == EINTR`. -/
  | eintr
  /-- `-1` with any other error. -/
  | err
  /-- `n + 1` bytes were transferred, or as many as there were. -/
  | cnt (n : ℕ)
  deriving DecidableEq, Repr, Inhabited

/-- A schedule without errors: interruptions and positive short counts only. -/
def Quiet (sched : List SysRes) : Prop := .err ∉ sched

/-- The outcome of a transfer loop. -/
structure Xfer where
  ok : Bool
  /-- The bytes that went through. -/
  bytes : List Byte
  /-- What is left of the source: unsent bytes, or bytes not yet read. -/
  rest : List Byte
  sched : List SysRes
  /-- The number of system calls made. -/
  calls : ℕ
  deriving DecidableEq, Repr

/-- A call that went through, in front of the rest of the loop. -/
def Xfer.after (bs : List Byte) (x : Xfer) : Xfer :=
  { x with bytes := bs ++ x.bytes, calls := x.calls + 1 }

/-- The loop of `wrfd` on the bytes still to be written. -/
def wrLoop : List SysRes → List Byte → Xfer
  | sched, [] => ⟨true, [], [], sched, 0⟩
  | [], buf => ⟨true, buf, [], [], 1⟩
  | .eintr :: sched, buf => (wrLoop sched buf).after []
  | .err :: sched, buf => ⟨false, [], buf, sched, 1⟩
  | .cnt n :: sched, buf => (wrLoop sched (buf.drop (n + 1))).after (buf.take (n + 1))

/-- The loop of `rdfd`: `len` bytes are wanted from the bytes `inp` that arrive
before the peer closes.  A read that finds nothing is the end of file. -/
def rdLoop : List SysRes → ℕ → List Byte → Xfer
  | sched, 0, inp => ⟨true, [], inp, sched, 0⟩
  | [], len + 1, inp =>
    if len + 1 ≤ inp.length then ⟨true, inp.take (len + 1), inp.drop (len + 1), [], 1⟩
    else if inp = [] then ⟨false, [], [], [], 1⟩
    else ⟨false, inp, [], [], 2⟩
  | .eintr :: sched, len + 1, inp => (rdLoop sched (len + 1) inp).after []
  | .err :: sched, _ + 1, inp => ⟨false, [], inp, sched, 1⟩
  | .cnt n :: sched, len + 1, inp =>
    if inp = [] then ⟨false, [], [], sched, 1⟩
    else
      let k := min (n + 1) (min (len + 1) inp.length)
      (rdLoop sched (len + 1 - k) (inp.drop k)).after (inp.take k)

/-- `writechunk` of `util.c` on a file: the value returned, which is the count of the last
call, and the bytes stored. -/
def writechunk : List SysRes → List Byte → ℤ × List Byte
  | [], buf => (buf.length, buf)
  | .eintr :: sched, buf => writechunk sched buf
  | .err :: _, _ => (-1, [])
  | .cnt n :: sched, buf =>
    if buf.length ≤ n + 1 then (buf.length, buf)
    else
      let r := writechunk sched (buf.drop (n + 1))
      (r.1, buf.take (n + 1) ++ r.2)

@[simp] theorem Xfer.after_ok (bs : List Byte) (x : Xfer) : (x.after bs).ok = x.ok := rfl

@[simp] theorem Xfer.after_bytes (bs : List Byte) (x : Xfer) :
    (x.after bs).bytes = bs ++ x.bytes := rfl

@[simp] theorem Xfer.after_rest (bs : List Byte) (x : Xfer) : (x.after bs).rest = x.rest := rfl

@[simp] theorem Xfer.after_sched (bs : List Byte) (x : Xfer) : (x.after bs).sched = x.sched := rfl

/-- What `writechunk` stores is the start of the buffer, and all of it unless it returns
`-1`. -/
theorem writechunk_spec : ∀ (sched : List SysRes) (buf : List Byte),
    (writechunk sched buf).2 <+: buf ∧
      ((writechunk sched buf).1 ≠ -1 → (writechunk sched buf).2 = buf) := by
  intro sched
  induction sched with
  | nil => intro buf; exact ⟨List.prefix_rfl, fun _ => rfl⟩
  | cons r sched ih =>
    intro buf
    cases r with
    | eintr => exact ih buf
    | err => exact ⟨List.nil_prefix, fun h => absurd rfl h⟩
    | cnt n =>
      rw [writechunk]
      split
      · exact ⟨List.prefix_rfl, fun _ => rfl⟩
      · obtain ⟨hpre, hall⟩ := ih (buf.drop (n + 1))
        have htake : buf.take (n + 1) ++ buf.drop (n + 1) = buf := List.take_append_drop ..
        refine ⟨?_, fun h => ?_⟩
        · show buf.take (n + 1) ++ _ <+: buf
          conv_rhs => rw [← htake]
          exact (List.prefix_append_right_inj _).mpr hpre
        · show buf.take (n + 1) ++ _ = buf
          rw [hall h, htake]

/-- **Every schedule without errors writes the whole buffer**, in order. -/
theorem wrLoop_all : ∀ (sched : List SysRes) (buf : List Byte), Quiet sched →
    (wrLoop sched buf).ok = true ∧ (wrLoop sched buf).bytes = buf ∧
      Quiet (wrLoop sched buf).sched := by
  intro sched
  induction sched with
  | nil =>
    intro buf _
    cases buf <;> simp [wrLoop, Quiet]
  | cons r sched ih =>
    intro buf hq
    have hq' : Quiet sched := fun h => hq (List.mem_cons_of_mem _ h)
    cases buf with
    | nil => exact ⟨rfl, rfl, hq⟩
    | cons b buf =>
      cases r with
      | eintr => simpa [wrLoop] using ih (b :: buf) hq'
      | err => exact absurd List.mem_cons_self hq
      | cnt n =>
        obtain ⟨hok, hbytes, hsched⟩ := ih ((b :: buf).drop (n + 1)) hq'
        refine ⟨by simpa [wrLoop] using hok, ?_, by simpa [wrLoop] using hsched⟩
        rw [wrLoop, Xfer.after_bytes, hbytes, List.take_append_drop]
        simp

/-- **Every schedule without errors reads the bytes asked for**, in order, and
leaves the ones behind them. -/
theorem rdLoop_all : ∀ (sched : List SysRes) (len : ℕ) (inp : List Byte), Quiet sched →
    len ≤ inp.length →
    (rdLoop sched len inp).ok = true ∧ (rdLoop sched len inp).bytes = inp.take len ∧
      (rdLoop sched len inp).rest = inp.drop len ∧ Quiet (rdLoop sched len inp).sched := by
  intro sched
  induction sched with
  | nil =>
    intro len inp _ hlen
    cases len with
    | zero => simp [rdLoop, Quiet]
    | succ len => simp [rdLoop, hlen, Quiet]
  | cons r sched ih =>
    intro len inp hq hlen
    have hq' : Quiet sched := fun h => hq (List.mem_cons_of_mem _ h)
    cases len with
    | zero => exact ⟨rfl, rfl, rfl, hq⟩
    | succ len =>
      cases r with
      | eintr => simpa [rdLoop] using ih (len + 1) inp hq' hlen
      | err => exact absurd List.mem_cons_self hq
      | cnt n =>
        have hne : inp ≠ [] := by rintro rfl; simp at hlen
        have hk : min (n + 1) (min (len + 1) inp.length) = min (n + 1) (len + 1) := by
          rw [Nat.min_eq_left hlen]
        obtain ⟨hok, hbytes, hrest, hsched⟩ :=
          ih (len + 1 - min (n + 1) (len + 1)) (inp.drop (min (n + 1) (len + 1))) hq'
            (by rw [List.length_drop]; omega)
        -- what this call delivered and what is left to ask for
        have hsplit : min (n + 1) (len + 1) + (len + 1 - min (n + 1) (len + 1)) = len + 1 := by
          omega
        simp only [rdLoop, hne, if_false, hk, Xfer.after_ok, Xfer.after_bytes, Xfer.after_rest,
          Xfer.after_sched]
        refine ⟨hok, ?_, ?_, hsched⟩
        · rw [hbytes, ← List.take_add, hsplit]
        · rw [hrest, List.drop_drop, hsplit]

/-- No read stores more than was asked for, or more than there is. -/
theorem rdLoop_le (sched : List SysRes) (len : ℕ) (inp : List Byte) :
    (rdLoop sched len inp).bytes.length ≤ min len inp.length := by
  fun_induction rdLoop sched len inp with
  | case1 => exact Nat.zero_le _
  | case2 len inp hle => simp [hle]
  | case3 => exact Nat.zero_le _
  | case4 len inp hle hnil =>
    show inp.length ≤ min (len + 1) inp.length
    omega
  | case5 inp sched len ih => exact ih
  | case6 => exact Nat.zero_le _
  | case7 => exact Nat.zero_le _
  | case8 n sched len inp hnil k ih =>
    -- `k` bytes are delivered by this call, the rest by the others
    rw [Xfer.after_bytes, List.length_append, List.length_take]
    rw [List.length_drop] at ih
    omega

/-- **A read that reports success has delivered the bytes asked for**, under every
schedule, and leaves the ones behind them. -/
theorem rdLoop_of_ok (sched : List SysRes) (len : ℕ) (inp : List Byte)
    (hok : (rdLoop sched len inp).ok = true) :
    len ≤ inp.length ∧ (rdLoop sched len inp).bytes = inp.take len ∧
      (rdLoop sched len inp).rest = inp.drop len := by
  fun_induction rdLoop sched len inp with
  | case1 => exact ⟨Nat.zero_le _, by simp, by simp⟩
  | case2 len inp hle => exact ⟨hle, rfl, rfl⟩
  | case3 => cases hok
  | case4 => cases hok
  | case5 inp sched len ih => exact ih hok
  | case6 => cases hok
  | case7 => cases hok
  | case8 n sched len inp hnil k ih =>
    obtain ⟨hle, hbytes, hrest⟩ := ih hok
    rw [List.length_drop] at hle
    have hsplit : k + (len + 1 - k) = len + 1 := by omega
    rw [Xfer.after_bytes, Xfer.after_rest, hbytes, hrest, ← List.take_add, List.drop_drop, hsplit]
    exact ⟨by omega, rfl, rfl⟩

/-! ### The session state -/

/-- The state of one end of a session: the globals of `tfproto.c`, the two
directions of its descriptor and the answers of the kernel and of OpenSSL. -/
structure Sess where
  crypRx : Crypto
  crypTx : Crypto
  cipherRx : BlkCipher
  cipherTx : BlkCipher
  blkstatus : Bool
  /-- Client impersonation avoidance is on. -/
  ciaSt : Bool
  /-- The token every receive must start with, without its terminator. -/
  cia : List Byte
  /-- The static toggle `cia_send` of `blk_rcvbuf`. -/
  ciaSend : Bool
  /-- The bytes that arrive on the descriptor before the peer closes. -/
  inp : List Byte
  /-- The bytes written to the descriptor so far. -/
  out : List Byte
  rsched : List SysRes
  wsched : List SysRes
  ossl : Ossl
  /-- `rxhdr` in memory. -/
  rxhdr : List Byte
  /-- `comm.buf`. -/
  buf : List Byte
  /-- The activity counter `comm.act`, a `char`. -/
  act : BitVec 8
  /-- The condition of the main loop; `endcomm` clears it. -/
  loop : Bool
  deriving DecidableEq, Repr, Inhabited

/-- The result of a receive: the value returned, the bytes stored from the start
of the caller's buffer on, and the session afterwards. -/
structure Rcv where
  ret : ℤ
  got : List Byte
  sess : Sess
  deriving DecidableEq, Repr

/-- The result of a send: the value returned, the caller's buffer, which is
encrypted in place, and the session afterwards. -/
structure Snd where
  ret : ℤ
  buf : List Byte
  sess : Sess
  deriving DecidableEq, Repr

/-! ### Descriptors -/

/-- `wrfd(fd, buf, len)` with `len` the length of `buf`; the count returned goes
through an `int`. -/
def wrfd (s : Sess) (buf : List Byte) : ℤ × Sess :=
  let x := wrLoop s.wsched buf
  (if x.ok then cint buf.length else -1,
    { s with out := s.out ++ x.bytes, wsched := x.sched, act := s.act + BitVec.ofNat 8 x.calls })

/-- `rdfd(fd, buf, len)`. -/
def rdfd (s : Sess) (len : ℤ) : Rcv :=
  let x := rdLoop s.rsched len.toNat s.inp
  ⟨if x.ok then cint len.toNat else -1, x.bytes,
    { s with inp := x.rest, rsched := x.sched, act := s.act + BitVec.ofNat 8 x.calls }⟩

section Layer

variable (o : Endian) (aes : Aes)

/-! ### Block mode -/

/-- `blk_sndbuf`: the ciphertext is built in a buffer of its own. -/
def blkSndbuf (s : Sess) (buf : List Byte) : Snd :=
  if buf = [] then ⟨0, buf, s⟩
  else
    let c := blkencrypt aes s.ossl s.cipherTx buf (cint buf.length)
    match c.1 with
    | none => ⟨-1, buf, { s with ossl := c.2 }⟩
    | some ct =>
      let w := wrfd { s with ossl := c.2 } (overlay (List.replicate (aesLen buf.length) 0) ct)
      if w.1 = -1 then ⟨-1, buf, w.2⟩ else ⟨cint buf.length, buf, w.2⟩

/-- The part of `blk_rcvbuf` behind the token check: one ciphertext is read and
decrypted into the caller's buffer. -/
def blkRead (s : Sess) (len : ℕ) : Rcv :=
  let r := rdfd s (aesLen len)
  if r.ret = -1 then ⟨-1, [], r.sess⟩
  else
    let d := blkdecrypt aes r.sess.ossl r.sess.cipherRx r.got (cint (aesLen len))
    ⟨if d.1.2 then cint len else -1, d.1.1, { r.sess with ossl := d.2 }⟩

/-- `blk_rcvbuf`.  With `cia_st` set, the first call raises the static toggle
and calls itself for the token; the inner call finds the toggle up, lowers it and
reads the token. -/
def blkRcvbuf (s : Sess) (len : ℤ) : Rcv :=
  if len ≤ 0 then ⟨0, [], s⟩
  else if s.ciaSt then
    if s.ciaSend then blkRead aes { s with ciaSend := false } len.toNat
    else
      let tok := blkRead aes { s with ciaSend := false } 36
      if tok.ret = -1 then ⟨-1, [], tok.sess⟩
      else if s.cia = cstr (overlay (List.replicate 37 0) tok.got) then
        blkRead aes tok.sess len.toNat
      else ⟨-1, [], tok.sess⟩
  else blkRead aes s len.toNat

/-! ### Both modes -/

/-- `sndbuf(fd, buf, len, enc)` with `len` the length of `buf`. -/
def sndbuf (s : Sess) (buf : List Byte) (enc : Bool) : Snd :=
  if s.blkstatus then blkSndbuf aes s buf
  else if enc && s.crypTx.hasEncrypt then
    let c := encrypt o s.crypTx buf buf.length
    let w := wrfd { s with crypTx := c.1 } c.2
    ⟨w.1, c.2, w.2⟩
  else
    let w := wrfd s buf
    ⟨w.1, buf, w.2⟩

/-- The last part of `rcvbuf` in stream mode: the payload is read and decrypted
in place. -/
def streamRead (s : Sess) (len : ℤ) (enc : Bool) : Rcv :=
  let r := rdfd s len
  if r.ret = -1 then r
  else if enc && r.sess.crypRx.hasEncrypt then
    let c := encrypt o r.sess.crypRx r.got r.ret
    ⟨r.ret, c.2, { r.sess with crypRx := c.1 }⟩
  else r

/-- `rcvbuf(fd, buf, len, enc)`. -/
def rcvbuf (s : Sess) (len : ℤ) (enc : Bool) : Rcv :=
  if s.blkstatus then blkRcvbuf aes s len
  else if s.ciaSt then
    let tok := streamRead o s 36 enc
    if tok.ret = -1 then ⟨-1, [], tok.sess⟩
    else if s.cia = cstr tok.got then streamRead o tok.sess len enc
    else ⟨-1, [], tok.sess⟩
  else streamRead o s len enc

/-! ### Messages -/

/-- `swapbo32`. -/
def swapbo32 (v : BitVec 32) : BitVec 32 :=
  (v.sshiftRight 24 &&& 0xFF) ||| (v.sshiftRight 16 &&& 0xFF) <<< 8 |||
    (v.sshiftRight 8 &&& 0xFF) <<< 16 ||| (v &&& 0xFF) <<< 24

/-- `isbigendian`, for a host with byte order `o`. -/
def isbigendian : Bool := o = .big

/-- `hdrsetsz(sz, hdr)`: the bytes of the header in memory. -/
def hdrsetsz (sz : ℤ) : List Byte :=
  let v := BitVec.ofInt 32 sz
  memBytes o 4 (if isbigendian o then v else swapbo32 v).toNat

/-- `hdrgetsz(hdr)`. -/
def hdrgetsz (hdr : List Byte) : ℤ :=
  let v := BitVec.ofNat 32 (ofMem o (hdr.take 4))
  (if isbigendian o then v else swapbo32 v).toInt

/-- `writebuf(buf, len)`. -/
def writebuf (s : Sess) (buf : List Byte) : Snd :=
  let h := sndbuf o aes s (hdrsetsz o buf.length) true
  if h.ret = -1 then ⟨-1, buf, h.sess⟩ else sndbuf o aes h.sess buf true

/-- `writebuf_ex(buf, len)`. -/
def writebufEx (s : Sess) (buf : List Byte) : Snd := sndbuf o aes s buf true

/-- The first half of `readbuf`: the header is received into `rxhdr`. -/
def readHdr (s : Sess) : Rcv :=
  let h := rcvbuf o aes s 4 true
  { h with sess := { h.sess with rxhdr := overlay h.sess.rxhdr h.got } }

/-- The second half of `readbuf`: a terminator is stored behind the announced
length and the body is received into `comm.buf`.  The comparison with
`sizeof comm.buf` is unsigned, so a negative length stores no terminator. -/
def readBody (s : Sess) (len : ℤ) : Rcv :=
  let s := if 0 ≤ len ∧ len < commbuflen then { s with buf := s.buf.set len.toNat 0 } else s
  let r := rcvbuf o aes s len true
  { r with sess := { r.sess with buf := overlay r.sess.buf r.got } }

/-- `readbuf(comm.buf, sizeof comm.buf)`, as every caller uses it: the announced
length replaces the argument. -/
def readbuf (s : Sess) : Rcv :=
  let h := readHdr o aes s
  if h.ret = -1 then ⟨-1, [], h.sess⟩ else readBody o aes h.sess (hdrgetsz o h.sess.rxhdr)

/-- `readbuf_ex(buf, len)`. -/
def readbufEx (s : Sess) (len : ℤ) : Rcv := rcvbuf o aes s len true

/-! ### Replies -/

/-- What `cmd_ok`, `cmd_fail` and `cmd_unknown` share: the text is built in
`comm.buf`, which the cipher then overwrites, and a failed write ends the session. -/
def sendReply (s : Sess) (text : List Byte) : Sess :=
  let s := { s with buf := overlay s.buf (text ++ [0]) }
  let w := writebuf o aes s text
  { w.sess with
    buf := overlay w.sess.buf w.buf
    loop := if w.ret = -1 then false else w.sess.loop }

/-- `CMD_OK`. -/
def cmdOkText : List Byte := lit "OK"

/-- `CMD_FAILED CMD_SEPSTR arg`. -/
def cmdFailText (arg : List Byte) : List Byte := lit "FAILED" ++ lit " " ++ arg

theorem cmdFailText_ne_ok (arg : List Byte) : cmdFailText arg ≠ cmdOkText := by
  intro h
  have hhead := congrArg List.head? h
  simp [cmdFailText, cmdOkText, lit, ofChar] at hhead

/-- `cmd_ok`. -/
def cmdOk (s : Sess) : Sess := sendReply o aes s cmdOkText

/-- `cmd_fail(arg)`. -/
def cmdFail (s : Sess) (arg : List Byte) : Sess := sendReply o aes s (cmdFailText arg)

end Layer

/-! ### The header -/

theorem getLsbD_swapbo32 (v : BitVec 32) {i : ℕ} (hi : i < 32) :
    (swapbo32 v).getLsbD i = v.getLsbD (8 * (3 - i / 8) + i % 8) := by
  unfold swapbo32
  interval_cases i <;> simp [BitVec.getElem_sshiftRight]

/-- Swapping the byte order twice is the identity. -/
theorem swapbo32_swapbo32 (v : BitVec 32) : swapbo32 (swapbo32 v) = v := by
  apply BitVec.eq_of_getLsbD_eq
  intro i hi
  rw [getLsbD_swapbo32 _ hi, getLsbD_swapbo32 _ (by omega)]
  congr 1
  omega

@[simp] theorem length_hdrsetsz (o : Endian) (sz : ℤ) : (hdrsetsz o sz).length = 4 := by
  simp [hdrsetsz]

theorem extractLsb'_swapbo32 (v : BitVec 32) {i : ℕ} (hi : i < 4) :
    (swapbo32 v).extractLsb' (8 * i) 8 = v.extractLsb' (8 * (3 - i)) 8 := by
  apply BitVec.eq_of_getLsbD_eq
  intro j hj
  rw [BitVec.getLsbD_extractLsb', BitVec.getLsbD_extractLsb', getLsbD_swapbo32 _ (by omega)]
  congr 2
  omega

/-- **Sizes travel in big-endian order**, whatever the host. -/
theorem hdrsetsz_eq (o : Endian) (sz : ℤ) :
    hdrsetsz o sz = memBytes .big 4 (BitVec.ofInt 32 sz).toNat := by
  cases o with
  | big => rfl
  | little =>
    show leBytes 4 (swapbo32 (BitVec.ofInt 32 sz)).toNat
      = (leBytes 4 (BitVec.ofInt 32 sz).toNat).reverse
    rw [leBytes_eq_map, leBytes_eq_map]
    simp only [List.range, List.range.loop, List.map, List.reverse_cons, List.reverse_nil,
      List.nil_append, List.cons_append]
    simp only [extractLsb'_swapbo32 _ (show 0 < 4 by decide),
      extractLsb'_swapbo32 _ (show 1 < 4 by decide), extractLsb'_swapbo32 _ (show 2 < 4 by decide),
      extractLsb'_swapbo32 _ (show 3 < 4 by decide)]

/-- **A size survives**, whatever the byte orders of the two hosts. -/
theorem hdrgetsz_hdrsetsz_toInt (o o' : Endian) (sz : BitVec 32) (rest : List Byte) :
    hdrgetsz o' (hdrsetsz o sz.toInt ++ rest) = sz.toInt := by
  have hwire : hdrsetsz o sz.toInt = hdrsetsz o' sz.toInt := by
    rw [hdrsetsz_eq, hdrsetsz_eq o']
  have htake : (hdrsetsz o' sz.toInt ++ rest).take 4 = hdrsetsz o' sz.toInt := by
    rw [List.take_append_of_le_length (by simp), List.take_of_length_le (by simp)]
  have hback : ∀ b : BitVec 32, BitVec.ofNat 32 (ofMem o' (memBytes o' 4 b.toNat)) = b := by
    intro b
    rw [ofMem_memBytes o' (by have := b.isLt; omega), BitVec.ofNat_toNat, BitVec.setWidth_eq]
  rw [hwire]
  unfold hdrgetsz
  rw [htake]
  simp only [hdrsetsz, hback, BitVec.ofInt_toInt]
  cases isbigendian o' with
  | true => rfl
  | false => simp [swapbo32_swapbo32]

/-- A header read on a host of the same byte order gives the length back. -/
theorem hdrgetsz_hdrsetsz (o : Endian) (rest : List Byte) {n : ℕ} (hn : n < 2 ^ 31) :
    hdrgetsz o (hdrsetsz o n ++ rest) = n := by
  have hcint : (BitVec.ofInt 32 (n : ℤ)).toInt = n := cint_of_lt hn
  have h := hdrgetsz_hdrsetsz_toInt o o (BitVec.ofInt 32 n) rest
  rwa [hcint] at h

end TFProtocol
