import TFProtocol.Server
import TFProtocol.RoundTrip
import TFProtocol.StaleBuffer

/-!
# The handshake

A client that knows the version string, the public key of the server and the hash sends
three messages and waits for the reply to each.  The first two pass in the clear; with the
reply to the second both ends turn their ciphers on, in both directions, and the third is
already encrypted.  A client with a FAI token sends one message instead, and finds behind
the reply, encrypted, the token it is to use the next time.

## Main definitions

* `Bare` — a direction that is not encrypted yet.
* `ask` — a message of the client, a step of the server, and the reply.
* `withKey` — the client with the key it chose.
* `Opening`, `Joined` — what holds before the key is agreed on, and after it.

## Main results

* `handshake_links` — the three replies are `OK`, and the two ends are linked in both
  directions.
* `handshake_fai` — the same for a FAI token, with the new token delivered.
* `ask_hash` — a joined client reads the verdict on its hash, whichever it is.
-/

namespace TFProtocol

open Bytes CStr

/-! ### A direction in the clear -/

/-- A direction that is not encrypted yet, in stream mode and without errors. -/
structure Bare (tx rx : Sess) : Prop where
  txOff : tx.crypTx.st = .off
  rxOff : rx.crypRx.st = .off
  txMode : tx.blkstatus = false
  rxMode : rx.blkstatus = false
  rxCia : rx.ciaSt = false
  txQuiet : Quiet tx.wsched
  rxQuiet : Quiet rx.rsched

/-- What a transfer in one direction leaves alone of the receiving side. -/
structure RxKept (s t : Sess) : Prop where
  crypRx : t.crypRx = s.crypRx
  inp : t.inp = s.inp
  rsched : t.rsched = s.rsched
  mode : t.blkstatus = s.blkstatus
  cia : t.ciaSt = s.ciaSt

/-- What a transfer in one direction leaves alone of the sending side. -/
structure TxKept (s t : Sess) : Prop where
  crypTx : t.crypTx = s.crypTx
  out : t.out = s.out
  wsched : t.wsched = s.wsched
  mode : t.blkstatus = s.blkstatus

theorem RxKept.trans {s t u : Sess} (h : RxKept s t) (h' : RxKept t u) : RxKept s u :=
  ⟨h'.crypRx.trans h.crypRx, h'.inp.trans h.inp, h'.rsched.trans h.rsched, h'.mode.trans h.mode,
    h'.cia.trans h.cia⟩

theorem TxKept.trans {s t u : Sess} (h : TxKept s t) (h' : TxKept t u) : TxKept s u :=
  ⟨h'.crypTx.trans h.crypTx, h'.out.trans h.out, h'.wsched.trans h.wsched, h'.mode.trans h.mode⟩

theorem Bare.congr {tx tx' rx rx' : Sess} (h : Bare tx rx) (ht : TxKept tx tx')
    (hr : rx'.crypRx = rx.crypRx) (hq : rx'.rsched = rx.rsched) (hm : rx'.blkstatus = rx.blkstatus)
    (hc : rx'.ciaSt = rx.ciaSt) : Bare tx' rx' :=
  ⟨ht.crypTx ▸ h.txOff, hr ▸ h.rxOff, ht.mode.trans h.txMode, hm.trans h.rxMode,
    hc.trans h.rxCia, ht.wsched ▸ h.txQuiet, hq ▸ h.rxQuiet⟩

theorem Linked.congr {tx tx' rx rx' : Sess} (h : Linked tx rx) (ht : TxKept tx tx')
    (hr : rx'.crypRx = rx.crypRx) (hq : rx'.rsched = rx.rsched) (hm : rx'.blkstatus = rx.blkstatus)
    (hc : rx'.ciaSt = rx.ciaSt) : Linked tx' rx' :=
  ⟨by rw [ht.crypTx, hr]; exact h.keys, ht.mode.trans h.txMode, hm.trans h.rxMode,
    hc.trans h.rxCia, ht.wsched ▸ h.txQuiet, hq ▸ h.rxQuiet⟩

variable {o : Endian} {aes : Aes}

theorem sndbuf_rxKept (s : Sess) (m : List Byte) (enc : Bool) (hmode : s.blkstatus = false) :
    RxKept s (sndbuf o aes s m enc).sess := by
  have hblk : ¬ s.blkstatus = true := by simp [hmode]
  simp only [sndbuf, if_neg hblk]
  split <;> exact ⟨rfl, rfl, rfl, rfl, rfl⟩

theorem writebuf_rxKept (s : Sess) (m : List Byte) (hmode : s.blkstatus = false) :
    RxKept s (writebuf o aes s m).sess := by
  have hhdr := @sndbuf_rxKept o aes s (hdrsetsz o m.length) true hmode
  simp only [writebuf]
  split
  · exact hhdr
  · exact hhdr.trans (sndbuf_rxKept _ _ _ (hhdr.mode.trans hmode))

theorem sendReply_rxKept (s : Sess) (text : List Byte) (hmode : s.blkstatus = false) :
    RxKept s (sendReply o aes s text) := by
  obtain ⟨h1, h2, h3, h4, h5⟩ :=
    @writebuf_rxKept o aes { s with buf := overlay s.buf (text ++ [0]) } text hmode
  exact ⟨h1, h2, h3, h4, h5⟩

theorem streamRead_txKept (s : Sess) (len : ℤ) (enc : Bool) :
    TxKept s (streamRead o s len enc).sess := by
  simp only [streamRead]
  split
  · exact ⟨rfl, rfl, rfl, rfl⟩
  · split <;> exact ⟨rfl, rfl, rfl, rfl⟩

theorem rcvbuf_txKept (s : Sess) (len : ℤ) (enc : Bool) (hmode : s.blkstatus = false) :
    TxKept s (rcvbuf o aes s len enc).sess := by
  simp only [rcvbuf, hmode, Bool.false_eq_true, if_false]
  split
  · split
    · exact streamRead_txKept s _ _
    · split
      · exact (streamRead_txKept s _ _).trans (streamRead_txKept _ _ _)
      · exact streamRead_txKept s _ _
  · exact streamRead_txKept s _ _

theorem readbuf_txKept (s : Sess) (hmode : s.blkstatus = false) :
    TxKept s (readbuf o aes s).sess := by
  have hhdr : TxKept s (readHdr o aes s).sess := by
    obtain ⟨h1, h2, h3, h4⟩ := @rcvbuf_txKept o aes s 4 true hmode
    exact ⟨h1, h2, h3, h4⟩
  have hbody : ∀ (t : Sess) (len : ℤ), t.blkstatus = false →
      TxKept t (readBody o aes t len).sess := by
    intro t len ht
    simp only [readBody]
    split
    · obtain ⟨h1, h2, h3, h4⟩ :=
        @rcvbuf_txKept o aes { t with buf := t.buf.set len.toNat 0 } len true ht
      exact ⟨h1, h2, h3, h4⟩
    · obtain ⟨h1, h2, h3, h4⟩ := @rcvbuf_txKept o aes t len true ht
      exact ⟨h1, h2, h3, h4⟩
  simp only [readbuf]
  split
  · exact hhdr
  · exact hhdr.trans (hbody _ _ (hhdr.mode.trans hmode))

/-- The cipher that is off leaves every buffer as it is. -/
theorem encrypt_off {c : Crypto} (h : c.st = .off) (data : List Byte) (len : ℤ) :
    encrypt o c data len = (c, data) := by
  simp only [encrypt, h]

/-- A buffer sent in the clear. -/
theorem sndbuf_bare {s : Sess} (hmode : s.blkstatus = false) (hoff : s.crypTx.st = .off)
    (hq : Quiet s.wsched) {data : List Byte} (hlen : data.length < 2 ^ 31) :
    (sndbuf o aes s data true).ret = data.length ∧
      (sndbuf o aes s data true).sess.out = s.out ++ data ∧
      (sndbuf o aes s data true).sess.crypTx = s.crypTx ∧
      (sndbuf o aes s data true).sess.blkstatus = false ∧
      Quiet (sndbuf o aes s data true).sess.wsched := by
  obtain ⟨hok, hbytes, hsched⟩ := wrLoop_all s.wsched data hq
  simp only [sndbuf, hmode, Bool.false_eq_true, if_false, encrypt_off hoff, wrfd, ite_self, hok,
    if_true, cint_of_lt hlen, hbytes]
  exact ⟨trivial, trivial, trivial, trivial, hsched⟩

/-- A message sent in the clear. -/
theorem writebuf_bare {s : Sess} (hmode : s.blkstatus = false) (hoff : s.crypTx.st = .off)
    (hq : Quiet s.wsched) {m : List Byte} (hlen : m.length < 2 ^ 31) :
    (writebuf o aes s m).ret = m.length ∧
      (writebuf o aes s m).sess.out = s.out ++ (hdrsetsz o m.length ++ m) ∧
      (writebuf o aes s m).sess.crypTx = s.crypTx ∧
      (writebuf o aes s m).sess.blkstatus = false ∧ Quiet (writebuf o aes s m).sess.wsched := by
  have hhdr : (hdrsetsz o m.length).length < 2 ^ 31 := by simp
  obtain ⟨hret, hout, hcryp, hmode', hq'⟩ := @sndbuf_bare o aes s hmode hoff hq _ hhdr
  obtain ⟨hret', hout', hcryp', hmode'', hq''⟩ :=
    @sndbuf_bare o aes _ hmode' (hcryp ▸ hoff) hq' _ hlen
  have hne : ¬ (sndbuf o aes s (hdrsetsz o m.length) true).ret = -1 := by rw [hret]; simp
  simp only [writebuf, hne, if_false]
  refine ⟨hret', ?_, hcryp'.trans hcryp, hmode'', hq''⟩
  rw [hout', hout, List.append_assoc]

/-- A buffer received in the clear. -/
theorem rcvbuf_bare {s : Sess} (hmode : s.blkstatus = false) (hcia : s.ciaSt = false)
    (hoff : s.crypRx.st = .off) (hq : Quiet s.rsched) {data rest : List Byte}
    (hinp : s.inp = data ++ rest) (hlen : data.length < 2 ^ 31) :
    (rcvbuf o aes s data.length true).ret = data.length ∧
      (rcvbuf o aes s data.length true).got = data ∧
      (rcvbuf o aes s data.length true).sess.inp = rest ∧
      (rcvbuf o aes s data.length true).sess.crypRx = s.crypRx ∧
      (rcvbuf o aes s data.length true).sess.ciaSt = false ∧
      Quiet (rcvbuf o aes s data.length true).sess.rsched := by
  obtain ⟨hok, hbytes, hrest, hsched⟩ := rdLoop_all s.rsched data.length s.inp hq (by simp [hinp])
  rw [hinp] at hbytes hrest
  simp only [List.take_left, List.drop_left] at hbytes hrest
  rw [← hinp] at hbytes hrest
  have hne : ¬ (data.length : ℤ) = -1 := by omega
  simp only [rcvbuf, streamRead, rdfd, hmode, hcia, Bool.false_eq_true, if_false,
    Int.toNat_natCast, hok, if_true, hbytes, hrest, cint_of_lt hlen, hne, encrypt_off hoff, ite_self]
  exact ⟨trivial, trivial, trivial, trivial, trivial, hsched⟩

/-! ### A message that arrives -/

/-- What `readbuf` does with a message that is next on the descriptor. -/
structure Arrives (o : Endian) (aes : Aes) (s : Sess) (m rest : List Byte) : Prop where
  ret : (readbuf o aes s).ret = m.length
  got : (readbuf o aes s).got = m
  inp : (readbuf o aes s).sess.inp = rest
  buf : (readbuf o aes s).sess.buf = overlay (s.buf.set m.length 0) m

theorem announced_of_got {s : Sess} {n : ℕ} (h : (rcvbuf o aes s 4 true).got = hdrsetsz o n)
    (hn : n < 2 ^ 31) : announced o aes s = n := by
  simp only [announced, readHdr, h, overlay]
  exact hdrgetsz_hdrsetsz o _ hn

/-- The buffer behind a message. -/
theorem readbuf_buf {s : Sess} {m : List Byte} (hm : m.length < commbuflen)
    (hann : announced o aes s = m.length) (hret : (readbuf o aes s).ret = m.length)
    (hgot : (readbuf o aes s).got = m) :
    (readbuf o aes s).sess.buf = overlay (s.buf.set m.length 0) m := by
  obtain ⟨buf, hover, hbuf⟩ := @readbuf_over o aes s s.buf
  have hne : (readbuf o aes s).ret ≠ -1 := by rw [hret]; omega
  have hin : (0 : ℤ) ≤ m.length ∧ (m.length : ℤ) < commbuflen := by omega
  have hsame : (readbuf o aes s).sess.buf = buf := by
    conv_lhs => rw [show s = { s with buf := s.buf } from rfl, hover]
    rfl
  rw [hsame, hbuf hne, hann, if_pos hin, Int.toNat_natCast, hgot]

/-- A message in the clear arrives. -/
theorem arrives_bare {s : Sess} (hmode : s.blkstatus = false) (hcia : s.ciaSt = false)
    (hoff : s.crypRx.st = .off) (hq : Quiet s.rsched) {m rest : List Byte}
    (hm : m.length < commbuflen) (hinp : s.inp = hdrsetsz o m.length ++ (m ++ rest)) :
    Arrives o aes s m rest ∧ (readbuf o aes s).sess.crypRx = s.crypRx ∧
      (readbuf o aes s).sess.ciaSt = false ∧ Quiet (readbuf o aes s).sess.rsched := by
  have hlen : m.length < 2 ^ 31 := by unfold commbuflen at hm; omega
  have hhdr : (hdrsetsz o m.length).length < 2 ^ 31 := by simp
  obtain ⟨hret, hgot, hrest, hcryp, hcia', hq'⟩ :=
    @rcvbuf_bare o aes s hmode hcia hoff hq _ _ hinp hhdr
  rw [length_hdrsetsz, Nat.cast_ofNat] at hret hgot hrest hcryp hcia' hq'
  have hann := announced_of_got hgot hlen
  have hmode' := (@rcvbuf_txKept o aes s 4 true hmode).mode.trans hmode
  have hin : (0 : ℤ) ≤ m.length ∧ (m.length : ℤ) < commbuflen := by omega
  have hne : ¬ (readHdr o aes s).ret = -1 := by
    simp only [readHdr, hret]
    decide
  have hr : readbuf o aes s = readBody o aes (readHdr o aes s).sess m.length := by
    unfold announced at hann
    simp only [readbuf, hne, if_false, hann]
  obtain ⟨hbret, hbgot, hbrest, hbcryp, hbcia, hbq⟩ := @rcvbuf_bare o aes
    { (readHdr o aes s).sess with buf := (readHdr o aes s).sess.buf.set m.length 0 }
    hmode' hcia' (by rw [← hoff]; exact congrArg Crypto.st hcryp) hq' m rest hrest hlen
  have hbody : (readbuf o aes s).ret = m.length ∧ (readbuf o aes s).got = m ∧
      (readbuf o aes s).sess.inp = rest ∧
      (readbuf o aes s).sess.crypRx = (readHdr o aes s).sess.crypRx ∧
      (readbuf o aes s).sess.ciaSt = false ∧ Quiet (readbuf o aes s).sess.rsched := by
    rw [hr]
    simp only [readBody, if_pos hin, Int.toNat_natCast]
    exact ⟨hbret, hbgot, hbrest, hbcryp, hbcia, hbq⟩
  obtain ⟨h1, h2, h3, h4, h5, h6⟩ := hbody
  exact ⟨⟨h1, h2, h3, readbuf_buf hm hann h1 h2⟩, h4.trans hcryp, h5, h6⟩

/-- A message between linked ends arrives. -/
theorem arrives_linked {tx rx : Sess} (h : Linked tx rx) {m rest : List Byte}
    (hm : m.length < commbuflen) (hinp : rx.inp = sealedMsg o aes tx m ++ rest) :
    Arrives o aes rx m rest ∧ Linked (writebuf o aes tx m).sess (readbuf o aes rx).sess := by
  have hlen : m.length < 2 ^ 31 := by unfold commbuflen at hm; omega
  obtain ⟨hret, hgot, hrest, hlink⟩ := readbuf_of_writebuf h hm hinp
  have hhdr : (hdrsetsz o m.length).length < 2 ^ 31 := by simp
  rw [sealedMsg, List.append_assoc] at hinp
  obtain ⟨-, hgot', -, -⟩ := rcvbuf_of_sndbuf o aes h hhdr hinp
  rw [length_hdrsetsz, Nat.cast_ofNat] at hgot'
  exact ⟨⟨hret, hgot, hrest, readbuf_buf hm (announced_of_got hgot' hlen) hret hgot⟩, hlink⟩

/-- The text a message leaves in `comm.buf`. -/
theorem cstr_overlay {buf m : List Byte} (hm : 0 ∉ m) (hlen : m.length < buf.length) :
    cstr (overlay (buf.set m.length 0) m) = m := by
  have hdrop : (buf.set m.length 0).drop m.length = 0 :: buf.drop (m.length + 1) := by
    rw [List.drop_eq_getElem_cons (by simpa using hlen), List.getElem_set_self,
      List.drop_set_of_lt (by omega)]
  rw [overlay, hdrop, cstr_of_not_mem hm]

/-! ### A reply -/

theorem length_overlay (mem stored : List Byte) :
    (overlay mem stored).length = max mem.length stored.length := by
  rw [overlay, List.length_append, List.length_drop]
  omega

theorem sndbuf_buf (s : Sess) (m : List Byte) (hmode : s.blkstatus = false) :
    (sndbuf o aes s m true).sess.buf = s.buf ∧ (sndbuf o aes s m true).buf.length = m.length := by
  have hblk : ¬ s.blkstatus = true := by simp [hmode]
  simp only [sndbuf, if_neg hblk]
  split
  · exact ⟨rfl, length_encrypt ..⟩
  · exact ⟨rfl, rfl⟩

theorem writebuf_buf (s : Sess) (m : List Byte) (hmode : s.blkstatus = false) :
    (writebuf o aes s m).sess.buf = s.buf ∧ (writebuf o aes s m).buf.length = m.length := by
  obtain ⟨hbuf, -⟩ := @sndbuf_buf o aes s (hdrsetsz o m.length) hmode
  obtain ⟨hbuf', hlen⟩ := @sndbuf_buf o aes _ m
    ((@sndbuf_rxKept o aes s (hdrsetsz o m.length) true hmode).mode.trans hmode)
  simp only [writebuf]
  split
  · exact ⟨hbuf, rfl⟩
  · exact ⟨hbuf'.trans hbuf, hlen⟩

/-- A reply keeps the length of `comm.buf`. -/
theorem sendReply_length {s : Sess} {text : List Byte} (hmode : s.blkstatus = false)
    (htext : text.length < s.buf.length) :
    (sendReply o aes s text).buf.length = s.buf.length := by
  obtain ⟨hbuf, hlen⟩ :=
    @writebuf_buf o aes { s with buf := overlay s.buf (text ++ [0]) } text hmode
  simp only [sendReply]
  rw [length_overlay, hbuf, hlen, length_overlay, List.length_append, List.length_singleton]
  omega

/-- A reply in the clear. -/
theorem sendReply_bare {s : Sess} (hmode : s.blkstatus = false) (hoff : s.crypTx.st = .off)
    (hq : Quiet s.wsched) {text : List Byte} (hlen : text.length < 2 ^ 31) :
    (sendReply o aes s text).out = s.out ++ (hdrsetsz o text.length ++ text) ∧
      (sendReply o aes s text).crypTx = s.crypTx ∧ (sendReply o aes s text).blkstatus = false ∧
      Quiet (sendReply o aes s text).wsched := by
  obtain ⟨-, hout, hcryp, hmode', hq'⟩ :=
    @writebuf_bare o aes { s with buf := overlay s.buf (text ++ [0]) } hmode hoff hq _ hlen
  exact ⟨hout, hcryp, hmode', hq'⟩

/-- What the client finds on its descriptor behind what it has read. -/
def Sess.fed (c : Sess) (bytes : List Byte) : Sess := { c with inp := c.inp ++ bytes }

/-- A reply in the clear, with more behind it, is read. -/
theorem arrives_reply_bare {s c : Sess} (h : Bare s c) (hc : c.inp = []) {text rest : List Byte}
    (htext : text.length < commbuflen) :
    Arrives o aes (c.fed (hdrsetsz o text.length ++ (text ++ rest))) text rest ∧
      (readbuf o aes (c.fed (hdrsetsz o text.length ++ (text ++ rest)))).sess.crypRx = c.crypRx ∧
      (readbuf o aes (c.fed (hdrsetsz o text.length ++ (text ++ rest)))).sess.ciaSt = false ∧
      Quiet (readbuf o aes (c.fed (hdrsetsz o text.length ++ (text ++ rest)))).sess.rsched := by
  have hinp : (c.fed (hdrsetsz o text.length ++ (text ++ rest))).inp
      = hdrsetsz o text.length ++ (text ++ rest) := by rw [Sess.fed, hc, List.nil_append]
  exact arrives_bare (s := c.fed _) h.rxMode h.rxCia h.rxOff h.rxQuiet htext hinp

/-- A reply between linked ends is read, and they stay linked. -/
theorem arrives_reply_linked {s c : Sess} (h : Linked s c) (hc : c.inp = []) {text : List Byte}
    (htext : text.length < commbuflen) :
    Arrives o aes (c.fed ((sendReply o aes s text).out.drop s.out.length)) text [] ∧
      Linked (sendReply o aes s text)
        (readbuf o aes (c.fed ((sendReply o aes s text).out.drop s.out.length))).sess := by
  have hlen : text.length < 2 ^ 31 := by unfold commbuflen at htext; omega
  have h' : Linked { s with buf := overlay s.buf (text ++ [0]) } c :=
    h.congr ⟨rfl, rfl, rfl, rfl⟩ rfl rfl rfl rfl
  obtain ⟨-, hout, -⟩ := writebuf_stream o aes h'.txReady hlen
  have hwire : (sendReply o aes s text).out.drop s.out.length
      = sealedMsg o aes { s with buf := overlay s.buf (text ++ [0]) } text := by
    show (writebuf o aes { s with buf := overlay s.buf (text ++ [0]) } text).sess.out.drop _ = _
    rw [hout, List.drop_left]
  rw [hwire]
  have h'' : Linked { s with buf := overlay s.buf (text ++ [0]) }
      (c.fed (sealedMsg o aes { s with buf := overlay s.buf (text ++ [0]) } text)) :=
    h'.congr ⟨rfl, rfl, rfl, rfl⟩ rfl rfl rfl rfl
  have hinp : (c.fed (sealedMsg o aes { s with buf := overlay s.buf (text ++ [0]) } text)).inp
      = sealedMsg o aes { s with buf := overlay s.buf (text ++ [0]) } text ++ [] := by
    rw [Sess.fed, hc, List.nil_append, List.append_nil]
  obtain ⟨harr, hlink⟩ := arrives_linked h'' htext hinp
  exact ⟨harr, hlink.congr ⟨rfl, rfl, rfl, rfl⟩ rfl rfl rfl rfl⟩

/-! ### The two ends -/

/-- Both directions are in the clear, and nothing is under way. -/
structure Opening (c s : Sess) : Prop where
  up : Bare c s
  down : Bare s c
  cInp : c.inp = []
  sInp : s.inp = []
  set : s.crypRx.hasEncrypt = true
  buf : s.buf.length = commbuflen

/-- The ends are linked in both directions, and nothing is under way. -/
structure Joined (c s : Sess) : Prop where
  up : Linked c s
  down : Linked s c
  cInp : c.inp = []
  sInp : s.inp = []
  buf : s.buf.length = commbuflen

/-- A direction with the key the client chose. -/
def keyed (o : Endian) (key : List Byte) (mode : Pack) : Crypto :=
  ⟨true, key, key.length, .on, keySeed o key, mode⟩

/-- The client turns its ciphers on. -/
def withKey (o : Endian) (key : List Byte) (c : Sess) : Sess :=
  { c with crypTx := keyed o key .pack, crypRx := keyed o key .unpack }

/-- The client sends a message, the server makes a step, and the client reads the reply. -/
def ask (o : Endian) (aes : Aes) (cfg : Config) (w : World) (c : Sess) (s : Srv)
    (m : List Byte) : Rcv × Srv :=
  let sent := (writebuf o aes c m).sess
  let srv := (srvStep o aes cfg { s with sess := s.sess.fed (sent.out.drop c.out.length) } w).1
  (readbuf o aes (sent.fed (srv.sess.out.drop s.sess.out.length)), srv)

/-- A request in the clear, as the server finds it. -/
theorem request_bare {c : Sess} {s : Srv} (h : Opening c s.sess) {m : List Byte}
    (hm : m.length < commbuflen) :
    let req := s.sess.fed ((writebuf o aes c m).sess.out.drop c.out.length)
    Arrives o aes req m [] ∧ Bare (readbuf o aes req).sess (writebuf o aes c m).sess ∧
      Bare (writebuf o aes c m).sess (readbuf o aes req).sess ∧
      (readbuf o aes req).sess.crypRx = s.sess.crypRx ∧
      (readbuf o aes req).sess.crypTx = s.sess.crypTx ∧
      (readbuf o aes req).sess.out = s.sess.out ∧ (writebuf o aes c m).sess.inp = [] := by
  intro req
  have hlen : m.length < 2 ^ 31 := by unfold commbuflen at hm; omega
  obtain ⟨-, hout, hcryp, hmode, hq⟩ :=
    @writebuf_bare o aes c h.up.txMode h.up.txOff h.up.txQuiet _ hlen
  have hkept := @writebuf_rxKept o aes c m h.up.txMode
  have hreq : req.inp = hdrsetsz o m.length ++ (m ++ []) := by
    show s.sess.inp ++ (writebuf o aes c m).sess.out.drop c.out.length = _
    rw [h.sInp, hout, List.drop_left, List.nil_append, List.append_nil]
  obtain ⟨harr, hrx, hcia, hrq⟩ :=
    @arrives_bare o aes req h.up.rxMode h.up.rxCia h.up.rxOff h.up.rxQuiet _ _ hm hreq
  have htx := @readbuf_txKept o aes req h.up.rxMode
  refine ⟨harr, ?_, ?_, hrx, htx.crypTx, htx.out, hkept.inp.trans h.cInp⟩
  · exact h.down.congr ⟨htx.crypTx, htx.out, htx.wsched, htx.mode⟩ hkept.crypRx hkept.rsched
      hkept.mode hkept.cia
  · exact ⟨hcryp ▸ h.up.txOff, hrx ▸ h.up.rxOff, hmode, htx.mode.trans h.up.rxMode, hcia, hq, hrq⟩

/-- The buffer of the server behind a request. -/
theorem Arrives.text {s : Sess} {m rest : List Byte} (h : Arrives o aes s m rest)
    (hbuf : s.buf.length = commbuflen) (hm : m.length < commbuflen) :
    (readbuf o aes s).sess.buf.length = commbuflen ∧
      (readbuf o aes s).sess.buf.take m.length = m ∧
      (0 ∉ m → cstr (readbuf o aes s).sess.buf = m) := by
  refine ⟨?_, ?_, fun h0 => ?_⟩
  · rw [h.buf, length_overlay, List.length_set, hbuf]
    omega
  · rw [h.buf, overlay, List.take_left]
  · rw [h.buf, cstr_overlay h0 (by omega)]

/-- A reply in the clear, as the client finds it, with more behind it. -/
theorem reply_bare {c s : Sess} (hup : Bare c s) (hdown : Bare s c) (hc : c.inp = [])
    {text : List Byte} (htext : text.length < commbuflen) (more : List Byte) :
    let r := readbuf o aes (c.fed ((sendReply o aes s text).out.drop s.out.length ++ more))
    r.got = text ∧ r.sess.inp = more ∧ Bare r.sess (sendReply o aes s text) ∧
      Bare (sendReply o aes s text) r.sess := by
  intro r
  have hlen : text.length < 2 ^ 31 := by unfold commbuflen at htext; omega
  obtain ⟨hout, hcryp, hmode, hq⟩ :=
    @sendReply_bare o aes s hdown.txMode hdown.txOff hdown.txQuiet _ hlen
  have hkept := @sendReply_rxKept o aes s text hdown.txMode
  have hr : r = readbuf o aes (c.fed (hdrsetsz o text.length ++ (text ++ more))) := by
    show readbuf o aes (c.fed ((sendReply o aes s text).out.drop s.out.length ++ more)) = _
    rw [hout, List.drop_left, List.append_assoc]
  obtain ⟨harr, hrx, hcia, hrq⟩ := @arrives_reply_bare o aes s c hdown hc text more htext
  have htx : TxKept c r.sess := by
    rw [hr]
    obtain ⟨h1, h2, h3, h4⟩ := @readbuf_txKept o aes
      (c.fed (hdrsetsz o text.length ++ (text ++ more))) hup.txMode
    exact ⟨h1, h2, h3, h4⟩
  rw [← hr] at hrx hcia hrq
  have hgot := harr.got
  have hinp := harr.inp
  rw [← hr] at hgot hinp
  refine ⟨hgot, hinp, ?_, ?_⟩
  · exact hup.congr htx hkept.crypRx hkept.rsched hkept.mode hkept.cia
  · exact ⟨hcryp ▸ hdown.txOff, hrx ▸ hdown.rxOff, hmode, htx.mode.trans hup.txMode, hcia, hq, hrq⟩

/-! ### The messages of the handshake -/

/-- The version of the server is answered with `OK`. -/
theorem ask_version {cfg : Config} (w : World) {c : Sess} {s : Srv} (h : Opening c s.sess)
    (hphase : s.phase = .version) (h0 : 0 ∉ cfg.proto) (hlen : cfg.proto.length < commbuflen) :
    (ask o aes cfg w c s cfg.proto).1.got = cmdOkText ∧
      Opening (ask o aes cfg w c s cfg.proto).1.sess (ask o aes cfg w c s cfg.proto).2.sess ∧
      (ask o aes cfg w c s cfg.proto).2.phase = .key ∧
      (ask o aes cfg w c s cfg.proto).2.logged = s.logged := by
  obtain ⟨harr, hdown, hup, hrx, -, hout, hinp⟩ := @request_bare o aes c s h _ hlen
  set req := s.sess.fed ((writebuf o aes c cfg.proto).sess.out.drop c.out.length)
  obtain ⟨hbuf, -, htext⟩ := harr.text (h.buf) hlen
  have hne : ¬ (readbuf o aes req).ret = -1 := by rw [harr.ret]; omega
  have hstep : (srvStep o aes cfg { s with sess := req } w).1
      = { s with sess := cmdOk o aes (readbuf o aes req).sess, phase := .key } := by
    simp only [srvStep, hphase, stepVersion, chkproto, if_neg hne, htext h0, if_true]
  have hok : cmdOkText.length < commbuflen := by decide
  obtain ⟨hgot, hcinp, hup', hdown'⟩ := @reply_bare o aes _ _ hup hdown hinp cmdOkText hok []
  have hkept := @sendReply_rxKept o aes (readbuf o aes req).sess cmdOkText hdown.txMode
  rw [List.append_nil, hout] at hgot hcinp hup' hdown'
  unfold ask
  dsimp only
  rw [hstep]
  refine ⟨hgot, ⟨hup', hdown', hcinp, hkept.inp.trans harr.inp, ?_, ?_⟩, rfl, rfl⟩
  · show (sendReply o aes (readbuf o aes req).sess cmdOkText).crypRx.hasEncrypt = true
    rw [hkept.crypRx, hrx, h.set]
  · exact (sendReply_length hdown.txMode (by rw [hbuf]; exact hok)).trans hbuf

/-- The server has the key of the client, and its cipher is still off. -/
structure HasKey (o : Endian) (key : List Byte) (rx : Crypto) : Prop where
  off : rx.st = .off
  set : rx.hasEncrypt = true
  rndlen : rx.rndlen = key.length
  block : rx.rndkey.take key.length = key
  seed : rx.seed = keySeed o key

/-- `derankey` recovers the key the client encrypted. -/
theorem derankey_hasKey {w : World} {c : Crypto} (hoff : c.st = .off) (hset : c.hasEncrypt = true)
    {enkey ekey key : List Byte} (hlen : ekey.length = rsaKeylen)
    (hdec : w.decrypt ekey = some key) (hkey : keymin ≤ key.length) :
    ∃ rx, derankey o w c (overlay enkey ekey) = some rx ∧ HasKey o key rx := by
  have hrsa : (overlay enkey ekey).take rsaKeylen = ekey := by rw [overlay, ← hlen, List.take_left]
  have htake : (overlay c.rndkey key).take key.length = key := by rw [overlay, List.take_left]
  have hmin : 8 ≤ key.length := le_trans (by decide) hkey
  refine ⟨{ c with
    rndkey := overlay c.rndkey key, rndlen := key.length, seed := keySeed o (overlay c.rndkey key) },
    ?_, ⟨hoff, hset, rfl, htake, ?_⟩⟩
  · simp only [derankey, hrsa, hdec, if_pos hkey]
  · exact keySeed_eq_of_take hmin (by rw [htake, List.take_length])

/-- With both ciphers on, the key of the client and that of the server agree. -/
theorem HasKey.paired {rx : Crypto} {key : List Byte} (h : HasKey o key rx)
    (hkey : keymin ≤ key.length) :
    Paired (keyed o key .pack) { rx with st := .on, pack := .unpack } ∧
      Paired { dupCrypt true rx with st := .on, pack := .pack } (keyed o key .unpack) := by
  have hmin : 8 ≤ key.length := le_trans (by decide) hkey
  have hblock : key.length ≤ rx.rndkey.length := by
    have := congrArg List.length h.block
    rw [List.length_take] at this
    omega
  have hdup : rx.rndkey.take rx.rndlen = key := by rw [h.rndlen, h.block]
  refine ⟨⟨⟨h.seed.symm, h.rndlen.symm, ?_⟩, ⟨hmin, le_rfl⟩, ⟨?_, ?_⟩, rfl, rfl, rfl, rfl, rfl, h.set⟩,
    ⟨⟨h.seed, h.rndlen, ?_⟩, ⟨?_, ?_⟩, ⟨hmin, le_rfl⟩, rfl, rfl, rfl, rfl, h.set, rfl⟩⟩
  · show key.take key.length = rx.rndkey.take rx.rndlen
    rw [List.take_length, hdup]
  · exact hmin.trans h.rndlen.ge
  · exact h.rndlen.le.trans hblock
  · show (rx.rndkey.take rx.rndlen).take rx.rndlen = key.take key.length
    rw [hdup, h.rndlen]
  · exact hmin.trans h.rndlen.ge
  · show rx.rndlen ≤ (rx.rndkey.take rx.rndlen).length
    rw [hdup, h.rndlen]

/-- **The key is agreed on**: the client reads `OK`, and both directions are linked. -/
theorem agreeKey_bare {w : World} {c r : Sess} (hup : Bare c r) (hdown : Bare r c)
    (hc : c.inp = []) (hbuf : r.buf.length = commbuflen) {key : List Byte}
    (hkey : keymin ≤ key.length) {rx : Crypto} (hrx : HasKey o key rx) (hdup : w.dupTx = true)
    (horg : w.dupOrg = true) (err more : List Byte) :
    (agreeKey o aes w { r with crypRx := rx } err).1 = true ∧
    let q := (agreeKey o aes w { r with crypRx := rx } err).2
    let rd := readbuf o aes (c.fed (q.out.drop r.out.length ++ more))
    rd.got = cmdOkText ∧ rd.sess.inp = more ∧ Linked (withKey o key rd.sess) q ∧
      Linked q (withKey o key rd.sess) ∧ q.inp = r.inp ∧ q.buf.length = commbuflen ∧
      r.out <+: q.out := by
  have hok : cmdOkText.length < commbuflen := by decide
  have hup' : Bare c { r with crypRx := rx, crypTx := dupCrypt true rx } :=
    ⟨hup.txOff, hrx.off, hup.txMode, hup.rxMode, hup.rxCia, hup.txQuiet, hup.rxQuiet⟩
  have hdown' : Bare { r with crypRx := rx, crypTx := dupCrypt true rx } c :=
    ⟨hrx.off, hdown.rxOff, hdown.txMode, hdown.rxMode, hdown.rxCia, hdown.txQuiet, hdown.rxQuiet⟩
  obtain ⟨hgot, hinp, hup'', hdown''⟩ := @reply_bare o aes _ _ hup' hdown' hc cmdOkText hok more
  have hkept := @sendReply_rxKept o aes
    { r with crypRx := rx, crypTx := dupCrypt true rx } cmdOkText hdown.txMode
  have hlen : cmdOkText.length < 2 ^ 31 := by decide
  obtain ⟨hout, htx, -, -⟩ := @sendReply_bare o aes
    { r with crypRx := rx, crypTx := dupCrypt true rx } hdown.txMode hrx.off hdown.txQuiet _ hlen
  obtain ⟨hpair, hpair'⟩ := hrx.paired hkey
  have hagree : agreeKey o aes w { r with crypRx := rx } err
      = (true, cryptOn (cmdOk o aes { r with crypRx := rx, crypTx := dupCrypt true rx })) := by
    simp only [agreeKey, hdup, horg, Bool.and_self, if_true]
  rw [hagree]
  refine ⟨rfl, hgot, hinp, ⟨?_, hup''.txMode, hup''.rxMode, hup''.rxCia, hup''.txQuiet, hup''.rxQuiet⟩,
    ⟨?_, hdown''.txMode, hdown''.rxMode, hdown''.rxCia, hdown''.txQuiet, hdown''.rxQuiet⟩,
    hkept.inp, ?_, ?_⟩
  · show Paired (keyed o key .pack)
      { (sendReply o aes _ cmdOkText).crypRx with st := .on, pack := .unpack }
    rw [hkept.crypRx]
    exact hpair
  · show Paired { (sendReply o aes _ cmdOkText).crypTx with st := .on, pack := .pack }
      (keyed o key .unpack)
    rw [htx]
    exact hpair'
  · have hlen := @sendReply_length o aes { r with crypRx := rx, crypTx := dupCrypt true rx }
      cmdOkText hdown.txMode (hok.trans_eq hbuf.symm)
    exact hlen.trans hbuf
  · exact ⟨_, hout.symm⟩

/-- The key of the client is answered with `OK`, and both ends turn their ciphers on. -/
theorem ask_key {cfg : Config} {w : World} {c : Sess} {s : Srv} (h : Opening c s.sess)
    (hphase : s.phase = .key) {ekey key : List Byte} (hlen : ekey.length = rsaKeylen)
    (hdec : w.decrypt ekey = some key) (hkey : keymin ≤ key.length) (hdup : w.dupTx = true)
    (horg : w.dupOrg = true) :
    (ask o aes cfg w c s ekey).1.got = cmdOkText ∧
      Joined (withKey o key (ask o aes cfg w c s ekey).1.sess) (ask o aes cfg w c s ekey).2.sess ∧
      (ask o aes cfg w c s ekey).2.phase = .hash ∧
      (ask o aes cfg w c s ekey).2.logged = s.logged := by
  have hm : ekey.length < commbuflen := by rw [hlen]; decide
  obtain ⟨harr, hdown, hup, hrx, -, hout, hinp⟩ := @request_bare o aes c s h _ hm
  set req := s.sess.fed ((writebuf o aes c ekey).sess.out.drop c.out.length)
  obtain ⟨hbuf, htake, -⟩ := harr.text (h.buf) hm
  have hne : ¬ (ekey.length : ℤ) = -1 := by omega
  obtain ⟨rx, hder, hkeyrx⟩ := @derankey_hasKey o w (readbuf o aes req).sess.crypRx
    (hrx ▸ h.up.rxOff) (hrx ▸ h.set) s.enkey _ _ hlen hdec hkey
  obtain ⟨hone, hgot, hcinp, hjup, hjdown, hqinp, hqbuf, -⟩ :=
    @agreeKey_bare o aes w _ _ hup hdown hinp hbuf key hkey _ hkeyrx hdup horg
      (lit "25 : Bad public rsa encryption key.") []
  have hstep : (srvStep o aes cfg { s with sess := req } w).1
      = { s with
          enkey := overlay s.enkey ekey
          sess := (agreeKey o aes w { (readbuf o aes req).sess with crypRx := rx }
            (lit "25 : Bad public rsa encryption key.")).2
          phase := .hash } := by
    simp only [srvStep, hphase, stepKey, getkey, harr.ret, if_neg hne, Int.toNat_natCast, htake,
      hder, hone, if_true]
  rw [List.append_nil] at hgot hcinp hjup hjdown
  unfold ask
  dsimp only
  rw [hstep, ← hout]
  exact ⟨hgot, ⟨hjup, hjdown, hcinp, hqinp.trans harr.inp, hqbuf⟩, rfl, rfl⟩

/-- A request between linked ends, as the server finds it. -/
theorem request_linked {c : Sess} {s : Srv} (h : Joined c s.sess) {m : List Byte}
    (hm : m.length < commbuflen) :
    let req := s.sess.fed ((writebuf o aes c m).sess.out.drop c.out.length)
    Arrives o aes req m [] ∧ Linked (writebuf o aes c m).sess (readbuf o aes req).sess ∧
      Linked (readbuf o aes req).sess (writebuf o aes c m).sess ∧
      (readbuf o aes req).sess.out = s.sess.out ∧ (writebuf o aes c m).sess.inp = [] := by
  intro req
  have hlen : m.length < 2 ^ 31 := by unfold commbuflen at hm; omega
  obtain ⟨-, hout, -⟩ := writebuf_stream o aes h.up.txReady hlen
  have hkept := @writebuf_rxKept o aes c m h.up.txMode
  have hlink : Linked c req := h.up.congr ⟨rfl, rfl, rfl, rfl⟩ rfl rfl rfl rfl
  have hreq : req.inp = sealedMsg o aes c m ++ [] := by
    show s.sess.inp ++ (writebuf o aes c m).sess.out.drop c.out.length = _
    rw [h.sInp, hout, List.drop_left, List.nil_append, List.append_nil]
  obtain ⟨harr, hup⟩ := arrives_linked hlink hm hreq
  have htx := @readbuf_txKept o aes req h.up.rxMode
  refine ⟨harr, hup, ?_, htx.out, hkept.inp.trans h.cInp⟩
  exact h.down.congr ⟨htx.crypTx, htx.out, htx.wsched, htx.mode⟩ hkept.crypRx hkept.rsched
    hkept.mode hkept.cia

/-- A reply between linked ends, as the client finds it. -/
theorem reply_linked {c s : Sess} (hup : Linked c s) (hdown : Linked s c) (hc : c.inp = [])
    (hs : s.inp = []) (hbuf : s.buf.length = commbuflen) {text : List Byte}
    (htext : text.length < commbuflen) :
    (readbuf o aes (c.fed ((sendReply o aes s text).out.drop s.out.length))).got = text ∧
      Joined (readbuf o aes (c.fed ((sendReply o aes s text).out.drop s.out.length))).sess
        (sendReply o aes s text) := by
  obtain ⟨harr, hlink⟩ := @arrives_reply_linked o aes s c hdown hc text htext
  have hkept := @sendReply_rxKept o aes s text hdown.txMode
  have htx := @readbuf_txKept o aes (c.fed ((sendReply o aes s text).out.drop s.out.length)) hup.txMode
  refine ⟨harr.got, ⟨?_, hlink, harr.inp, hkept.inp.trans hs, ?_⟩⟩
  · exact hup.congr ⟨htx.crypTx, htx.out, htx.wsched, htx.mode⟩ hkept.crypRx hkept.rsched hkept.mode
      hkept.cia
  · exact (sendReply_length hdown.txMode (htext.trans_eq hbuf.symm)).trans hbuf

/-- The reply to a hash. -/
def hashReply (cfg : Config) (hash : List Byte) : List Byte :=
  if hash = cfg.hash then cmdOkText else cmdFailText (lit "3 : Invalid hash string.")

/-- The hash is answered, and the ends stay linked whatever the answer is. -/
theorem ask_hash {cfg : Config} (w : World) {c : Sess} {s : Srv} (h : Joined c s.sess)
    (hphase : s.phase = .hash) {hash : List Byte} (h0 : 0 ∉ hash) (hlen : hash.length < commbuflen) :
    (ask o aes cfg w c s hash).1.got = hashReply cfg hash ∧
      Joined (ask o aes cfg w c s hash).1.sess (ask o aes cfg w c s hash).2.sess ∧
      (ask o aes cfg w c s hash).2.phase = (if hash = cfg.hash then .loop else .closed) ∧
      (ask o aes cfg w c s hash).2.logged = (s.logged || (hash = cfg.hash && w.defusr)) := by
  obtain ⟨harr, hup, hdown, hout, hinp⟩ := @request_linked o aes c s h _ hlen
  set req := s.sess.fed ((writebuf o aes c hash).sess.out.drop c.out.length)
  obtain ⟨hbuf, -, htext⟩ := harr.text (h.buf) hlen
  have hreply : (hashReply cfg hash).length < commbuflen := by
    unfold hashReply
    split <;> decide
  obtain ⟨hgot, hjoin⟩ := @reply_linked o aes _ _ hup hdown hinp harr.inp hbuf _ hreply
  have hstep : (srvStep o aes cfg { s with sess := req } w).1
      = { s with
          sess := sendReply o aes (readbuf o aes req).sess (hashReply cfg hash)
          phase := if hash = cfg.hash then .loop else .closed
          logged := s.logged || (hash = cfg.hash && w.defusr) } := by
    by_cases heq : hash = cfg.hash
    · have hval : (chkhash o aes cfg req).val = true := by
        simp [chkhash, harr.ret, htext h0, heq]
      simp only [srvStep, hphase, stepHash, if_pos hval, heq, hashReply, if_true, decide_true,
        Bool.true_and]
      rfl
    · have hval : ¬ (chkhash o aes cfg req).val = true := by
        simp [chkhash, htext h0, heq]
      simp only [srvStep, hphase, stepHash, if_neg hval, heq, hashReply, if_false, decide_false,
        Bool.false_and, Bool.or_false]
      rfl
  unfold ask
  dsimp only
  rw [hstep, ← hout]
  exact ⟨hgot, hjoin, rfl, rfl⟩

/-- A connection that was just accepted, and a client that has sent nothing. -/
theorem opening_connect (cfg : Config) {net : Net} (hinp : net.inp = []) (hr : Quiet net.rsched)
    (hw : Quiet net.wsched) {c : Sess} (htx : c.crypTx.st = .off) (hrx : c.crypRx.st = .off)
    (hmode : c.blkstatus = false) (hcia : c.ciaSt = false) (hcr : Quiet c.rsched)
    (hcw : Quiet c.wsched) (hc : c.inp = []) : Opening c (connect cfg net).sess :=
  ⟨⟨htx, rfl, hmode, rfl, rfl, hcw, hr⟩, ⟨rfl, hrx, rfl, hmode, hcia, hw, hcr⟩, hc, hinp, rfl,
    List.length_replicate ..⟩

/-- A client whose reads and writes are interrupted and cut short. -/
def exampleClient : Sess :=
  { (default : Sess) with wsched := [.cnt 1, .eintr], rsched := [.cnt 0, .cnt 2] }

theorem exampleClient_opening : Opening exampleClient (connect exampleConfig (exampleNet [])).sess :=
  opening_connect exampleConfig rfl (by unfold Quiet; decide) (by unfold Quiet; decide) rfl rfl rfl
    rfl (by unfold Quiet; decide) (by unfold Quiet; decide) rfl

/-- **The handshake.**  A client that knows the version, the public key of the server and a hash
is answered with `OK` twice, both ends turn their ciphers on with the same key in both
directions, and the client reads, already encrypted, whether its hash is that of the server. -/
theorem handshake_links {cfg : Config} {w₁ w₂ w₃ : World} {c : Sess} {s : Srv}
    (h : Opening c s.sess) (hphase : s.phase = .version) (hproto : 0 ∉ cfg.proto)
    (hprotolen : cfg.proto.length < commbuflen) {ekey key hash : List Byte}
    (hekey : ekey.length = rsaKeylen) (hdec : w₂.decrypt ekey = some key)
    (hkey : keymin ≤ key.length) (hdup : w₂.dupTx = true) (horg : w₂.dupOrg = true)
    (hhash : 0 ∉ hash) (hhashlen : hash.length < commbuflen) :
    let version := ask o aes cfg w₁ c s cfg.proto
    let agreed := ask o aes cfg w₂ version.1.sess version.2 ekey
    let final := ask o aes cfg w₃ (withKey o key agreed.1.sess) agreed.2 hash
    version.1.got = cmdOkText ∧ agreed.1.got = cmdOkText ∧ final.1.got = hashReply cfg hash ∧
      Joined final.1.sess final.2.sess ∧
      final.2.phase = (if hash = cfg.hash then .loop else .closed) ∧
      final.2.logged = (s.logged || (hash = cfg.hash && w₃.defusr)) := by
  intro version agreed final
  obtain ⟨hgot₁, hopen, hphase₁, hlog₁⟩ := @ask_version o aes cfg w₁ c s h hphase hproto hprotolen
  obtain ⟨hgot₂, hjoin, hphase₂, hlog₂⟩ :=
    @ask_key o aes cfg w₂ _ _ hopen hphase₁ _ _ hekey hdec hkey hdup horg
  obtain ⟨hgot₃, hjoin', hphase₃, hlog₃⟩ :=
    @ask_hash o aes cfg w₃ _ _ hjoin hphase₂ _ hhash hhashlen
  refine ⟨hgot₁, hgot₂, hgot₃, hjoin', hphase₃, hlog₃.trans ?_⟩
  rw [hlog₂, hlog₁]

theorem handshake_links_example :
    let version := ask .little Aes.sample exampleConfig exampleWorld exampleClient
      (connect exampleConfig (exampleNet [])) exampleConfig.proto
    let agreed := ask .little Aes.sample exampleConfig exampleWorld version.1.sess version.2
      (List.replicate rsaKeylen 1)
    let final := ask .little Aes.sample exampleConfig exampleWorld
      (withKey .little exampleKey agreed.1.sess) agreed.2 (lit "h")
    version.1.got = cmdOkText ∧ agreed.1.got = cmdOkText ∧
      final.1.got = hashReply exampleConfig (lit "h") ∧ Joined final.1.sess final.2.sess ∧
      final.2.phase = (if lit "h" = exampleConfig.hash then .loop else .closed) ∧
      final.2.logged = (false || (lit "h" = exampleConfig.hash && exampleWorld.defusr)) :=
  handshake_links exampleClient_opening rfl (by decide) (by decide) (List.length_replicate ..) rfl
    (by decide) rfl rfl (by decide) (by decide)

/-! ### A token instead -/

/-- The new token goes out like a reply. -/
theorem renewfaikey_eq {w : World} {s c : Sess} (h : Linked s c) {b64 : List Byte}
    (hrenew : w.renew = some b64) (hlen : b64.length < 2 ^ 31) :
    renewfaikey o aes w s = (true, sendReply o aes s b64) := by
  have h' : Linked { s with buf := overlay s.buf (b64 ++ [0]) } c :=
    h.congr ⟨rfl, rfl, rfl, rfl⟩ rfl rfl rfl rfl
  obtain ⟨hw, -, -⟩ := writebuf_stream o aes h'.txReady hlen
  have hhdr : (hdrsetsz o b64.length).length < 2 ^ 31 := by simp
  obtain ⟨-, -, -, hready⟩ := sndbuf_stream o aes h'.txReady hhdr
  obtain ⟨hret, -, -, -⟩ := sndbuf_stream o aes hready hlen
  have hne : (writebuf o aes { s with buf := overlay s.buf (b64 ++ [0]) } b64).ret ≠ -1 := by
    rw [hw, hret]
    omega
  simp only [renewfaikey, hrenew, sendReply, decide_true, ne_eq, hne, not_false_eq_true]
  rfl

theorem sendReply_out {s c : Sess} (h : Linked s c) {text : List Byte} (hlen : text.length < 2 ^ 31) :
    s.out <+: (sendReply o aes s text).out := by
  have h' : Linked { s with buf := overlay s.buf (text ++ [0]) } c :=
    h.congr ⟨rfl, rfl, rfl, rfl⟩ rfl rfl rfl rfl
  obtain ⟨-, hout, -⟩ := writebuf_stream o aes h'.txReady hlen
  exact ⟨_, hout.symm⟩

/-- **A FAI token.**  A client with a token that the server accepts is answered with `OK`, both
ends turn their ciphers on with the key of the token, and the client reads, encrypted, the new
token. -/
theorem handshake_fai {cfg : Config} {w : World} {c : Sess} {s : Srv} (h : Opening c s.sess)
    (hphase : s.phase = .version) {tok key new : List Byte} (h0 : 0 ∉ tok)
    (hlen : tok.length < commbuflen) (hproto : tok ≠ cfg.proto)
    (hfai : (strstr faiaccessTok tok).isSome = true)
    (hchk : chkfaitok w (cfg.faipath ++ tok.drop faiaccessTok.length) = some key)
    (hkey : keymin ≤ key.length) (hdup : w.dupTx = true) (horg : w.dupOrg = true)
    (hrenew : w.renew = some new) (hnew : new.length < commbuflen) :
    let granted := ask o aes cfg w c s tok
    let renewed := readbuf o aes (withKey o key granted.1.sess)
    granted.1.got = cmdOkText ∧ renewed.got = new ∧ Joined renewed.sess granted.2.sess ∧
      granted.2.phase = .loop ∧ granted.2.logged = (s.logged || w.defusr) := by
  intro granted renewed
  obtain ⟨harr, hdown, hup, hrx, -, hout, hinp⟩ := @request_bare o aes c s h _ hlen
  set req := s.sess.fed ((writebuf o aes c tok).sess.out.drop c.out.length)
  obtain ⟨hbuf, -, htext⟩ := harr.text (h.buf) hlen
  have hne : ¬ (readbuf o aes req).ret = -1 := by rw [harr.ret]; omega
  have hkeyrx : HasKey o key { (readbuf o aes req).sess.crypRx with
      rndlen := key.length, rndkey := key, seed := keySeed o key } :=
    ⟨hrx ▸ h.up.rxOff, hrx ▸ h.set, rfl, List.take_length, rfl⟩
  set rx : Crypto := { (readbuf o aes req).sess.crypRx with
    rndlen := key.length, rndkey := key, seed := keySeed o key }
  have hagree := fun more => @agreeKey_bare o aes w _ _ hup hdown hinp hbuf key hkey rx hkeyrx hdup
    horg (lit "69 : FAI key is invalid.") more
  set q := (agreeKey o aes w { (readbuf o aes req).sess with crypRx := rx }
    (lit "69 : FAI key is invalid.")).2
  obtain ⟨hone, hgot, hcinp, hjup, hjdown, hqinp, hqbuf, hqout⟩ :=
    hagree ((sendReply o aes q new).out.drop q.out.length)
  have hnewlen : new.length < 2 ^ 31 := by unfold commbuflen at hnew; omega
  have hrenewed := @renewfaikey_eq o aes w q _ hjdown new hrenew hnewlen
  have hstep : (srvStep o aes cfg { s with sess := req } w).1
      = { s with sess := sendReply o aes q new, phase := .loop, logged := s.logged || w.defusr } := by
    have hlong : ¬ key.length < keymin := by omega
    simp only [srvStep, hphase, stepVersion, chkproto, if_neg hne, htext h0, if_neg hproto,
      if_pos hfai, hchk, mainloopFai, if_neg hlong]
    show (if (agreeKey o aes w { (readbuf o aes req).sess with crypRx := rx }
      (lit "69 : FAI key is invalid.")).1 = true then _ else _) = _
    rw [if_pos hone]
    show (if (renewfaikey o aes w q).1 = true then _ else _) = _
    rw [hrenewed, if_pos rfl]
    rfl
  have hgranted : granted = (readbuf o aes ((writebuf o aes c tok).sess.fed
      ((sendReply o aes q new).out.drop (readbuf o aes req).sess.out.length)),
      { s with sess := sendReply o aes q new, phase := .loop, logged := s.logged || w.defusr }) := by
    show ask o aes cfg w c s tok = _
    unfold ask
    dsimp only
    rw [hstep, ← hout]
  -- the reply and the token stand one behind the other on the descriptor
  have hdrop : (sendReply o aes q new).out.drop (readbuf o aes req).sess.out.length
      = q.out.drop (readbuf o aes req).sess.out.length
        ++ (sendReply o aes q new).out.drop q.out.length := by
    obtain ⟨x, hx⟩ := hqout
    obtain ⟨y, hy⟩ := @sendReply_out o aes _ _ hjdown new hnewlen
    rw [← hy, List.drop_left, ← hx, List.append_assoc, List.drop_left, List.drop_left]
  rw [hdrop] at hgranted
  set rd := readbuf o aes ((writebuf o aes c tok).sess.fed
    (q.out.drop (readbuf o aes req).sess.out.length
      ++ (sendReply o aes q new).out.drop q.out.length))
  have hempty : Linked (withKey o key { rd.sess with inp := [] }) q :=
    hjup.congr ⟨rfl, rfl, rfl, rfl⟩ rfl rfl rfl rfl
  have hempty' : Linked q (withKey o key { rd.sess with inp := [] }) :=
    hjdown.congr ⟨rfl, rfl, rfl, rfl⟩ rfl rfl rfl rfl
  obtain ⟨hnewgot, hjoin⟩ := @reply_linked o aes _ q hempty hempty' rfl (hqinp.trans harr.inp) hqbuf
    new hnew
  have hfed : (withKey o key { rd.sess with inp := [] }).fed
      ((sendReply o aes q new).out.drop q.out.length) = withKey o key rd.sess := by
    rw [← hcinp]
    rfl
  rw [hfed] at hnewgot hjoin
  simp only [renewed, hgranted]
  exact ⟨hgot, hnewgot, hjoin, trivial, trivial⟩

theorem handshake_fai_example :
    let granted := ask .little Aes.sample exampleConfig exampleWorld exampleClient
      (connect exampleConfig (exampleNet [])) (lit "FAI://tok")
    let renewed := readbuf .little Aes.sample (withKey .little exampleKey granted.1.sess)
    granted.1.got = cmdOkText ∧ renewed.got = lit "token" ∧
      Joined renewed.sess granted.2.sess ∧ granted.2.phase = .loop ∧
      granted.2.logged = (false || exampleWorld.defusr) :=
  handshake_fai exampleClient_opening rfl (by decide) (by decide) (by decide) (by decide) (by decide)
    (by decide) rfl rfl rfl (by decide)

end TFProtocol
