import TFProtocol.RoundTrip

/-!
# Switching to AES

`cmd_goaes` receives a key and a vector into `cipher_tx`, copies them to
`cipher_rx`, and creates the two contexts with `setblkon`.  From the reply on,
everything goes through `blk_sndbuf` and `blk_rcvbuf`, which only ever mention the
contexts.

The contexts are created by `blkinit_en` and `blkinit_de`, and these clear the
structure first.  The key the client sent is gone before OpenSSL sees it.

## Main definitions

* `setblkon`, `cmdGoaes` — the functions of the source.
* `goaesKey`, `goaesIv` — the key and the vector the client sends.
* `blkRun` — any sequence of transfers in block mode.
* `RunsUnder` — both directions work under a given key and vector.

## Main results

* `goaes_runs_under_iff` — after a successful `GOAES` the session runs under the
  key and vector the client sent exactly when these are all zeros.
-/

namespace TFProtocol

open Bytes CStr

section Layer

variable (o : Endian) (aes : Aes)

/-- `setblkon`: whether it returns `0`, and the session afterwards. -/
def setblkon (s : Sess) : Bool × Sess :=
  let tx := blkinitEn s.ossl s.cipherTx
  let s := { s with ossl := tx.2.1, cipherTx := tx.2.2 }
  if tx.1 then
    let rx := blkinitDe s.ossl s.cipherRx
    let s := { s with ossl := rx.2.1, cipherRx := rx.2.2 }
    if rx.1 then (true, s) else (false, { s with ossl := blkfin s.ossl s.cipherTx })
  else (false, s)

/-- `CMD_EAES`. -/
def cmdEaes : List Byte := lit "66 : Unable to start AES encryption system."

/-- The key as `readbuf_ex` delivers it. -/
def goaesKey (s : Sess) : List Byte := (readbufEx o aes s blkKeysz).got

/-- The session after the key was received into `cipher_tx.key`. -/
def goaesKeyed (s : Sess) : Sess :=
  let r := readbufEx o aes s blkKeysz
  { r.sess with
    cipherTx := { r.sess.cipherTx with key := overlay r.sess.cipherTx.key r.got } }

/-- The vector as `readbuf_ex` delivers it, behind the key. -/
def goaesIv (s : Sess) : List Byte := (readbufEx o aes (goaesKeyed o aes s) blkIvsz).got

/-- The session after the vector was received into `cipher_tx.iv`. -/
def goaesVectored (s : Sess) : Sess :=
  let r := readbufEx o aes (goaesKeyed o aes s) blkIvsz
  { r.sess with cipherTx := { r.sess.cipherTx with iv := overlay r.sess.cipherTx.iv r.got } }

/-- `cmd_goaes`: the reply it sends, if any, and the session afterwards. -/
def cmdGoaes (s : Sess) : Option (List Byte) × Sess :=
  if (readbufEx o aes s blkKeysz).ret = -1 then (none, goaesKeyed o aes s)
  else if (readbufEx o aes (goaesKeyed o aes s) blkIvsz).ret = -1 then (none, goaesVectored o aes s)
  else
    let s := goaesVectored o aes s
    let s := { s with
      cipherRx := { s.cipherRx with
        key := overlay s.cipherRx.key (s.cipherTx.key.take blkKeysz)
        iv := overlay s.cipherRx.iv (s.cipherTx.iv.take blkIvsz) } }
    let b := setblkon s
    if b.1 then (some cmdOkText, { cmdOk o aes b.2 with blkstatus := true })
    else (some (cmdFailText cmdEaes), cmdFail o aes b.2 cmdEaes)

/-- The session in which `cmd_goaes` calls `setblkon`: the key and the vector were copied to
`cipher_rx`. -/
def goaesLoaded (s : Sess) : Sess :=
  let s := goaesVectored o aes s
  { s with
    cipherRx := { s.cipherRx with
      key := overlay s.cipherRx.key (s.cipherTx.key.take blkKeysz)
      iv := overlay s.cipherRx.iv (s.cipherTx.iv.take blkIvsz) } }

/-- One transfer in block mode. -/
inductive BlkOp
  | send (m : List Byte)
  | recv (len : ℤ)
  deriving DecidableEq, Repr

/-- The session after one transfer. -/
def blkOp (s : Sess) : BlkOp → Sess
  | .send m => (blkSndbuf aes s m).sess
  | .recv len => (blkRcvbuf aes s len).sess

/-- The session after a sequence of transfers, whatever the peer and the kernel do. -/
def blkRun (s : Sess) (ops : List BlkOp) : Sess := ops.foldl (blkOp aes) s

/-- A session on whose descriptor the peer's encryption of `m` arrives, behind
the token when one is required. -/
def arriving (s : Sess) (k v m rest : List Byte) : Sess :=
  { s with inp := (if s.ciaSt then aes.enc k v s.cia else []) ++ (aes.enc k v m ++ rest) }

/-- The session works under the key `k` and the vector `v`, as the payload `m`
shows: both contexts captured them, `m` goes out as its encryption, and an
encryption of `m` that arrives is delivered as `m`. -/
structure RunsUnder (s : Sess) (k v m : List Byte) : Prop where
  tx : s.ossl.boundTo s.cipherTx.ctx = some (k, v)
  rx : s.ossl.boundTo s.cipherRx.ctx = some (k, v)
  sentAll : (blkSndbuf aes s m).ret = m.length
  sent : (blkSndbuf aes s m).sess.out = s.out ++ aes.enc k v m
  readAll : ∀ rest, (blkRcvbuf aes (arriving aes s k v m rest) m.length).ret = m.length
  read : ∀ rest, (blkRcvbuf aes (arriving aes s k v m rest) m.length).got = m

end Layer

/-! ### What transfers leave alone -/

/-- The contexts and the structures that refer to them are the same. -/
structure SameCiphers (s t : Sess) : Prop where
  ctxs : t.ossl.ctxs = s.ossl.ctxs
  tx : t.cipherTx = s.cipherTx
  rx : t.cipherRx = s.cipherRx

theorem SameCiphers.refl (s : Sess) : SameCiphers s s := ⟨rfl, rfl, rfl⟩

theorem SameCiphers.trans {s t u : Sess} (h : SameCiphers s t) (h' : SameCiphers t u) :
    SameCiphers s u :=
  ⟨h'.ctxs.trans h.ctxs, h'.tx.trans h.tx, h'.rx.trans h.rx⟩

theorem blkSndbuf_sameCiphers (aes : Aes) (s : Sess) (m : List Byte) :
    SameCiphers s (blkSndbuf aes s m).sess := by
  have henc : (blkencrypt aes s.ossl s.cipherTx m (cint m.length)).2.ctxs = s.ossl.ctxs := by
    simp only [blkencrypt]
    split
    · exact s.ossl.ctxs_reinit _
    · split <;> exact s.ossl.ctxs_reinit _
  simp only [blkSndbuf]
  split
  · exact SameCiphers.refl s
  · split
    · exact ⟨henc, rfl, rfl⟩
    · split <;> exact ⟨henc, rfl, rfl⟩

theorem blkRead_sameCiphers (aes : Aes) (s : Sess) (len : ℕ) :
    SameCiphers s (blkRead aes s len).sess := by
  have hdec : ∀ (l : Ossl) (c : BlkCipher) (ct : List Byte) (n : ℤ),
      (blkdecrypt aes l c ct n).2.ctxs = l.ctxs := by
    intro l c ct n
    simp only [blkdecrypt]
    split
    · exact l.ctxs_reinit _
    · split <;> exact l.ctxs_reinit _
  simp only [blkRead]
  split
  · exact ⟨rfl, rfl, rfl⟩
  · exact ⟨hdec _ _ _ _, rfl, rfl⟩

theorem blkRcvbuf_sameCiphers (aes : Aes) (s : Sess) (len : ℤ) :
    SameCiphers s (blkRcvbuf aes s len).sess := by
  have hread : ∀ n, SameCiphers s (blkRead aes { s with ciaSend := false } n).sess := by
    intro n
    obtain ⟨h1, h2, h3⟩ := blkRead_sameCiphers aes { s with ciaSend := false } n
    exact ⟨h1, h2, h3⟩
  simp only [blkRcvbuf]
  split
  · exact SameCiphers.refl s
  · split
    · split
      · exact hread _
      · split
        · exact hread _
        · split
          · exact (hread _).trans (blkRead_sameCiphers aes _ _)
          · exact hread _
    · exact blkRead_sameCiphers aes s _

theorem sndbuf_sameCiphers (o : Endian) (aes : Aes) (s : Sess) (m : List Byte) (enc : Bool) :
    SameCiphers s (sndbuf o aes s m enc).sess := by
  simp only [sndbuf]
  split
  · exact blkSndbuf_sameCiphers aes s m
  · split <;> exact ⟨rfl, rfl, rfl⟩

theorem sendReply_sameCiphers (o : Endian) (aes : Aes) (s : Sess) (text : List Byte) :
    SameCiphers s (sendReply o aes s text) := by
  have hwrite : ∀ (t : Sess) (m : List Byte), SameCiphers t (writebuf o aes t m).sess := by
    intro t m
    simp only [writebuf]
    split
    · exact sndbuf_sameCiphers o aes t _ _
    · exact (sndbuf_sameCiphers o aes t _ _).trans (sndbuf_sameCiphers o aes _ _ _)
  obtain ⟨h1, h2, h3⟩ := hwrite { s with buf := overlay s.buf (text ++ [0]) } text
  exact ⟨h1, h2, h3⟩

theorem cmdOk_sameCiphers (o : Endian) (aes : Aes) (s : Sess) :
    SameCiphers s (cmdOk o aes s) :=
  sendReply_sameCiphers o aes s cmdOkText

theorem rcvbuf_sameCiphers (o : Endian) (aes : Aes) (s : Sess) (len : ℤ) (enc : Bool) :
    SameCiphers s (rcvbuf o aes s len enc).sess := by
  have hstream : ∀ t n, SameCiphers t (streamRead o t n enc).sess := by
    intro t n
    simp only [streamRead]
    split
    · exact ⟨rfl, rfl, rfl⟩
    · split <;> exact ⟨rfl, rfl, rfl⟩
  simp only [rcvbuf]
  split
  · exact blkRcvbuf_sameCiphers aes s len
  · split
    · split
      · exact hstream s _
      · split
        · exact (hstream s _).trans (hstream _ _)
        · exact hstream s _
    · exact hstream s _

/-- No sequence of transfers touches the contexts. -/
theorem blkRun_sameCiphers (aes : Aes) : ∀ (ops : List BlkOp) (s : Sess),
    SameCiphers s (blkRun aes s ops) := by
  intro ops
  induction ops with
  | nil => exact SameCiphers.refl
  | cons op ops ih =>
    intro s
    have hstep : SameCiphers s (blkOp aes s op) := by
      cases op with
      | send m => exact blkSndbuf_sameCiphers aes s m
      | recv len => exact blkRcvbuf_sameCiphers aes s len
    exact hstep.trans (ih _)

/-! ### Transfers under a captured key -/

/-- Every later OpenSSL call succeeds. -/
def Ossl.Works (l : Ossl) : Prop := false ∉ l.fates

theorem Ossl.Works.fate {l : Ossl} (h : l.Works) : l.fate = true := by
  cases hl : l.fates with
  | nil => simp [Ossl.fate, hl]
  | cons b bs =>
    have hb : b = true := by
      have : false ∉ b :: bs := hl ▸ h
      cases b with
      | false => exact absurd List.mem_cons_self this
      | true => rfl
    simp [Ossl.fate, hl, hb]

theorem Ossl.Works.step {l : Ossl} (h : l.Works) : l.step.Works :=
  fun hmem => h (List.mem_of_mem_tail hmem)

/-- A context that captured a key and a vector starts over with them. -/
theorem Ossl.reinit_of_boundTo {l : Ossl} {ctx : Option ℕ} {kv : List Byte × List Byte}
    (hb : l.boundTo ctx = some kv) (hw : l.Works) : l.reinit ctx = (some kv, l.step) := by
  unfold boundTo at hb
  cases hlive : l.live ctx with
  | none => simp [hlive] at hb
  | some c =>
    rw [hlive, Option.bind_some] at hb
    simp only [reinit, hlive, hw.fate, if_true, hb]

/-- What a transfer needs from its surroundings: OpenSSL works, the descriptor
reports no errors, and a required token is a UUID whose check is not under way. -/
structure Undisturbed (s : Sess) : Prop where
  ossl : s.ossl.Works
  writes : Quiet s.wsched
  reads : Quiet s.rsched
  token : s.ciaSt = true → s.cia.length = 36 ∧ 0 ∉ s.cia
  toggle : s.ciaSend = false

theorem length_le_aesLen (n : ℕ) : n < aesLen n := by
  simp only [aesLen, blkSize]
  omega

/-- A length that is an `int`, whose ciphertext has a length that does not turn negative. -/
theorem aesLen_lt_of_cint {n : ℕ} (hn : cint n = n) (hnn : 0 ≤ cint (aesLen n)) :
    aesLen n < 2 ^ 31 := by
  by_contra hbig
  simp only [cint, aesLen, blkSize, BitVec.toInt_ofInt, Int.bmod_def] at hn hnn hbig
  norm_num at hn hnn hbig
  omega

/-- Sending under a captured key and vector. -/
theorem blkSndbuf_under (aes : Aes) {s : Sess} {k v m : List Byte}
    (hb : s.ossl.boundTo s.cipherTx.ctx = some (k, v)) (hs : Undisturbed s) (hm : m ≠ [])
    (hlen : aesLen m.length < 2 ^ 31) :
    (blkSndbuf aes s m).ret = m.length ∧
      (blkSndbuf aes s m).sess.out = s.out ++ aes.enc k v m := by
  have hlen' : m.length < 2 ^ 31 := (length_le_aesLen _).trans hlen
  have henc : blkencrypt aes s.ossl s.cipherTx m (cint m.length)
      = (some (aes.enc k v m), s.ossl.step) := by
    have hnn : ¬ (m.length : ℤ) < 0 := by omega
    simp only [blkencrypt, Ossl.reinit_of_boundTo hb hs.ossl, cint_of_lt hlen', hnn, if_false,
      Int.toNat_natCast, List.take_length]
  have hover : overlay (List.replicate (aesLen m.length) 0) (aes.enc k v m) = aes.enc k v m :=
    overlay_of_length_eq (by rw [aes.length_enc, List.length_replicate])
  obtain ⟨hok, hbytes, -⟩ := wrLoop_all s.wsched (aes.enc k v m) hs.writes
  have hne : ¬ cint (aes.enc k v m).length = -1 := by
    rw [aes.length_enc, cint_of_lt hlen]
    omega
  simp only [blkSndbuf, hm, if_false, henc, hover, wrfd, hok, if_true, hne, hbytes, and_true]
  exact cint_of_lt hlen'

/-- Receiving under a captured key and vector: one ciphertext is taken off the
descriptor, and the next transfer finds the same surroundings. -/
theorem blkRead_under (aes : Aes) {s : Sess} {k v m rest : List Byte}
    (hb : s.ossl.boundTo s.cipherRx.ctx = some (k, v)) (hs : Undisturbed s)
    (hlen : aesLen m.length < 2 ^ 31) (hinp : s.inp = aes.enc k v m ++ rest) :
    (blkRead aes s m.length).ret = m.length ∧ (blkRead aes s m.length).got = m ∧
      (blkRead aes s m.length).sess.inp = rest ∧ Undisturbed (blkRead aes s m.length).sess := by
  have hlen' : m.length < 2 ^ 31 := (length_le_aesLen _).trans hlen
  obtain ⟨hok, hbytes, hrest, hquiet⟩ :=
    rdLoop_all s.rsched (aesLen m.length) s.inp hs.reads
      (by rw [hinp, List.length_append, aes.length_enc]; omega)
  have hct : s.inp.take (aesLen m.length) = aes.enc k v m := by
    rw [hinp, ← aes.length_enc k v m, List.take_left]
  have htail : s.inp.drop (aesLen m.length) = rest := by
    rw [hinp, ← aes.length_enc k v m, List.drop_left]
  rw [hct] at hbytes
  rw [htail] at hrest
  have hne : ¬ (aesLen m.length : ℤ) = -1 := by omega
  have hnn : ¬ (aesLen m.length : ℤ) < 0 := by omega
  have hall : (aes.enc k v m).take (aesLen m.length) = aes.enc k v m :=
    List.take_of_length_le (by rw [aes.length_enc])
  simp only [blkRead, rdfd, Int.toNat_natCast, hok, if_true, cint_of_lt hlen, hne, if_false, hbytes,
    hrest, blkdecrypt, Ossl.reinit_of_boundTo hb hs.ossl, hnn, hall, aes.dec_enc, cint_of_lt hlen',
    true_and]
  exact ⟨hs.ossl.step, hs.writes, hquiet, hs.token, hs.toggle⟩

/-- `blk_rcvbuf` with a required token: the toggle is down again by the time the
token is read, so the two reads are of the same kind. -/
theorem blkRcvbuf_token (aes : Aes) {s : Sess} (hcia : s.ciaSt = true) (hsend : s.ciaSend = false)
    {n : ℕ} (hn : 0 < n) :
    blkRcvbuf aes s n =
      if (blkRead aes s 36).ret = -1 then ⟨-1, [], (blkRead aes s 36).sess⟩
      else if s.cia = cstr (overlay (List.replicate 37 0) (blkRead aes s 36).got) then
        blkRead aes (blkRead aes s 36).sess n
      else ⟨-1, [], (blkRead aes s 36).sess⟩ := by
  have hlow : { s with ciaSend := false } = s := by
    rw [← hsend]
  have hpos : ¬ (n : ℤ) ≤ 0 := by omega
  rw [blkRcvbuf, if_neg hpos, if_pos hcia, if_neg (by simp [hsend]), hlow, Int.toNat_natCast]

/-- `blk_rcvbuf` under a captured key and vector, with and without the token. -/
theorem blkRcvbuf_under {aes : Aes} {s : Sess} {k v m : List Byte}
    (hb : s.ossl.boundTo s.cipherRx.ctx = some (k, v)) (hs : Undisturbed s) (hm : m ≠ [])
    (hlen : aesLen m.length < 2 ^ 31) (rest : List Byte) :
    (blkRcvbuf aes (arriving aes s k v m rest) m.length).ret = m.length ∧
      (blkRcvbuf aes (arriving aes s k v m rest) m.length).got = m := by
  have hpos : ¬ (m.length : ℤ) ≤ 0 := by
    have := List.length_pos_of_ne_nil hm
    omega
  have harr : Undisturbed (arriving aes s k v m rest) :=
    ⟨hs.ossl, hs.writes, hs.reads, hs.token, hs.toggle⟩
  cases hcia : s.ciaSt with
  | false =>
    have hinp : (arriving aes s k v m rest).inp = aes.enc k v m ++ rest := by simp [arriving, hcia]
    obtain ⟨hret, hgot, -, -⟩ := blkRead_under aes (s := arriving aes s k v m rest) hb harr hlen hinp
    have heq : blkRcvbuf aes (arriving aes s k v m rest) m.length
        = blkRead aes (arriving aes s k v m rest) m.length := by
      simp [blkRcvbuf, arriving, hcia, hm]
    rw [heq]
    exact ⟨hret, hgot⟩
  | true =>
    obtain ⟨htok, hnul⟩ := hs.token hcia
    have hinp : (arriving aes s k v m rest).inp = aes.enc k v s.cia ++ (aes.enc k v m ++ rest) := by
      simp [arriving, hcia]
    obtain ⟨htret, htgot, htrest, htund⟩ :=
      blkRead_under aes (s := arriving aes s k v m rest) hb harr (by rw [htok]; decide) hinp
    -- the token is a read of its own, and the second read finds the same context
    have hsame := blkRead_sameCiphers aes (arriving aes s k v m rest) s.cia.length
    rw [htok] at htret htgot htrest htund hsame
    have hb' : (blkRead aes (arriving aes s k v m rest) 36).sess.ossl.boundTo
        (blkRead aes (arriving aes s k v m rest) 36).sess.cipherRx.ctx = some (k, v) := by
      rw [hsame.rx, Ossl.boundTo_congr hsame.ctxs]
      exact hb
    obtain ⟨hret, hgot, -, -⟩ := blkRead_under aes hb' htund hlen htrest
    -- the 37th byte of the buffer is the terminator the comparison relies on
    have hcheck : s.cia = cstr (overlay (List.replicate 37 0) s.cia) := by
      have hover : overlay (List.replicate 37 0) s.cia = s.cia ++ 0 :: [] := by
        rw [overlay, htok]
        rfl
      rw [hover, cstr_of_not_mem hnul]
    have heq : blkRcvbuf aes (arriving aes s k v m rest) m.length
        = blkRead aes (blkRead aes (arriving aes s k v m rest) 36).sess m.length := by
      have hne : ¬ ((36 : ℕ) : ℤ) = -1 := by omega
      have htok' : (arriving aes s k v m rest).cia = s.cia := rfl
      rw [blkRcvbuf_token aes (s := arriving aes s k v m rest) hcia hs.toggle
        (List.length_pos_of_ne_nil hm), htret, if_neg hne, htgot, htok', if_pos hcheck]
    rw [heq]
    exact ⟨hret, hgot⟩

/-- A receive that reports a length has decrypted a ciphertext with an `int`
length. -/
theorem blkRcvbuf_ret (aes : Aes) (s : Sess) {n : ℕ} (hn : n ≠ 0) :
    (blkRcvbuf aes s n).ret = -1 ∨
      ((blkRcvbuf aes s n).ret = cint n ∧ 0 ≤ cint (aesLen n)) := by
  have hread : ∀ t, (blkRead aes t n).ret = -1 ∨
      ((blkRead aes t n).ret = cint n ∧ 0 ≤ cint (aesLen n)) := by
    intro t
    -- a ciphertext length past `int` is negative, and `blkdecrypt` then fails
    by_cases hneg : cint (aesLen n) < 0
    · left
      simp only [blkRead, blkdecrypt, hneg, if_true]
      split
      · rfl
      · split <;> rfl
    · simp only [blkRead]
      split
      · exact .inl rfl
      · split
        · exact .inr ⟨rfl, by omega⟩
        · exact .inl rfl
  have hpos : ¬ (n : ℤ) ≤ 0 := by omega
  simp only [blkRcvbuf, hpos, if_false, Int.toNat_natCast]
  split
  · split
    · exact hread _
    · split
      · exact .inl rfl
      · split
        · exact hread _
        · exact .inl rfl
  · exact hread _

/-! ### After `GOAES` -/

/-- What `setblkon` leaves behind when it succeeds: two contexts under the
all-zero key and vector. -/
theorem setblkon_bound {s : Sess} (h : (setblkon s).1 = true) :
    (setblkon s).2.ossl.boundTo (setblkon s).2.cipherTx.ctx
        = some (List.replicate blkKeysz 0, List.replicate blkIvsz 0) ∧
      (setblkon s).2.ossl.boundTo (setblkon s).2.cipherRx.ctx
        = some (List.replicate blkKeysz 0, List.replicate blkIvsz 0) := by
  cases htx : (blkinitEn s.ossl s.cipherTx).1 with
  | false => simp [setblkon, htx] at h
  | true =>
    cases hrx : (blkinitDe (blkinitEn s.ossl s.cipherTx).2.1 s.cipherRx).1 with
    | false => simp [setblkon, htx, hrx] at h
    | true =>
      obtain ⟨htx0, -, i, hi, hlt⟩ := blkinit_bound htx
      obtain ⟨hrx0, hold, -⟩ := blkinit_bound hrx
      simp only [setblkon, htx, hrx, if_true]
      refine ⟨?_, hrx0⟩
      rw [← htx0]
      change (blkinit .decrypt (blkinit .encrypt s.ossl s.cipherTx).2.1 s.cipherRx).2.1.boundTo
        (blkinit .encrypt s.ossl s.cipherTx).2.2.ctx = _
      rw [hi]
      exact hold i hlt

/-- What `cmd_goaes` can do: a read fails and nothing is said, or the contexts are created, or
they are not. -/
theorem cmdGoaes_cases (o : Endian) (aes : Aes) (s : Sess) :
    ((readbufEx o aes s blkKeysz).ret = -1 ∧ cmdGoaes o aes s = (none, goaesKeyed o aes s)) ∨
    ((readbufEx o aes s blkKeysz).ret ≠ -1 ∧
      (readbufEx o aes (goaesKeyed o aes s) blkIvsz).ret = -1 ∧
      cmdGoaes o aes s = (none, goaesVectored o aes s)) ∨
    ((readbufEx o aes s blkKeysz).ret ≠ -1 ∧
      (readbufEx o aes (goaesKeyed o aes s) blkIvsz).ret ≠ -1 ∧
      (((setblkon (goaesLoaded o aes s)).1 = true ∧ cmdGoaes o aes s =
        (some cmdOkText, { cmdOk o aes (setblkon (goaesLoaded o aes s)).2 with blkstatus := true })) ∨
      ((setblkon (goaesLoaded o aes s)).1 = false ∧ cmdGoaes o aes s =
        (some (cmdFailText cmdEaes), cmdFail o aes (setblkon (goaesLoaded o aes s)).2 cmdEaes)))) := by
  unfold cmdGoaes
  split
  · next hkey => exact .inl ⟨hkey, rfl⟩
  · next hkey =>
    split
    · next hiv => exact .inr (.inl ⟨hkey, hiv, rfl⟩)
    · next hiv =>
      refine .inr (.inr ⟨hkey, hiv, ?_⟩)
      dsimp only
      split
      · next hon => exact .inl ⟨hon, rfl⟩
      · next hoff => exact .inr ⟨Bool.eq_false_of_not_eq_true hoff, rfl⟩

/-- **A successful `GOAES` leaves both directions under the all-zero key and
vector.** -/
theorem cmdGoaes_bound {o : Endian} {aes : Aes} {s : Sess}
    (h : (cmdGoaes o aes s).1 = some cmdOkText) :
    (cmdGoaes o aes s).2.ossl.boundTo (cmdGoaes o aes s).2.cipherTx.ctx
        = some (List.replicate blkKeysz 0, List.replicate blkIvsz 0) ∧
      (cmdGoaes o aes s).2.ossl.boundTo (cmdGoaes o aes s).2.cipherRx.ctx
        = some (List.replicate blkKeysz 0, List.replicate blkIvsz 0) := by
  rcases cmdGoaes_cases o aes s with
    ⟨-, heq⟩ | ⟨-, -, heq⟩ | ⟨-, -, ⟨hon, heq⟩ | ⟨-, heq⟩⟩ <;> rw [heq] at h ⊢
  · cases h
  · cases h
  · obtain ⟨htx, hrx⟩ := setblkon_bound hon
    have hsame := cmdOk_sameCiphers o aes (setblkon (goaesLoaded o aes s)).2
    dsimp only
    rw [hsame.tx, hsame.rx, Ossl.boundTo_congr hsame.ctxs, Ossl.boundTo_congr hsame.ctxs]
    exact ⟨htx, hrx⟩
  · exact absurd (Option.some.inj h) (cmdFailText_ne_ok _)

/-- The key and vector captured at `GOAES` stay in force through every sequence
of transfers. -/
theorem blkRun_bound (aes : Aes) {s : Sess} {kv : List Byte × List Byte}
    (htx : s.ossl.boundTo s.cipherTx.ctx = some kv) (hrx : s.ossl.boundTo s.cipherRx.ctx = some kv)
    (ops : List BlkOp) :
    (blkRun aes s ops).ossl.boundTo (blkRun aes s ops).cipherTx.ctx = some kv ∧
      (blkRun aes s ops).ossl.boundTo (blkRun aes s ops).cipherRx.ctx = some kv := by
  have hsame := blkRun_sameCiphers aes ops s
  rw [hsame.tx, hsame.rx, Ossl.boundTo_congr hsame.ctxs, Ossl.boundTo_congr hsame.ctxs]
  exact ⟨htx, hrx⟩

/-- A session whose contexts captured a key and a vector runs under these and no
others, and only for payloads whose ciphertext has an `int` length. -/
theorem runsUnder_iff {aes : Aes} {s : Sess} {k v k' v' m : List Byte}
    (htx : s.ossl.boundTo s.cipherTx.ctx = some (k, v))
    (hrx : s.ossl.boundTo s.cipherRx.ctx = some (k, v)) (hs : Undisturbed s) :
    RunsUnder aes s k' v' m ↔ k' = k ∧ v' = v ∧ m ≠ [] ∧ aesLen m.length < 2 ^ 31 := by
  constructor
  · intro h
    have hkv : k = k' ∧ v = v' := by
      have := htx.symm.trans h.tx
      simpa using this
    have hm : m ≠ [] := by
      rintro rfl
      -- nothing is written for an empty payload, but its ciphertext is one block
      have hlen := congrArg List.length h.sent
      simp [blkSndbuf, aes.length_enc, aesLen, blkSize] at hlen
    refine ⟨hkv.1.symm, hkv.2.symm, hm, ?_⟩
    have hret := h.readAll []
    obtain hneg | ⟨hcint, hnn⟩ := blkRcvbuf_ret aes (arriving aes s k' v' m []) (n := m.length)
      (by simpa using hm)
    · rw [hneg] at hret
      omega
    · exact aesLen_lt_of_cint (hcint.symm.trans hret) hnn
  · rintro ⟨rfl, rfl, hm, hlen⟩
    obtain ⟨hsret, hsout⟩ := blkSndbuf_under aes htx hs hm hlen
    exact ⟨htx, hrx, hsret, hsout, fun rest => (blkRcvbuf_under hrx hs hm hlen rest).1,
      fun rest => (blkRcvbuf_under hrx hs hm hlen rest).2⟩

/-- **When the key of `GOAES` is the key in use.**  Take any session in which
`cmd_goaes` replied `OK`, and any sequence of transfers after it.  A payload then
travels under the key and the vector the client sent exactly when both are all
zeros (and the payload is not empty and its ciphertext has an `int` length). -/
theorem goaes_runs_under_iff (o : Endian) (aes : Aes) {s : Sess}
    (hok : (cmdGoaes o aes s).1 = some cmdOkText) (ops : List BlkOp)
    (hs : Undisturbed (blkRun aes (cmdGoaes o aes s).2 ops)) (m : List Byte) :
    RunsUnder aes (blkRun aes (cmdGoaes o aes s).2 ops) (goaesKey o aes s) (goaesIv o aes s) m ↔
      goaesKey o aes s = List.replicate blkKeysz 0 ∧ goaesIv o aes s = List.replicate blkIvsz 0 ∧
        m ≠ [] ∧ aesLen m.length < 2 ^ 31 := by
  obtain ⟨htx, hrx⟩ := cmdGoaes_bound hok
  obtain ⟨htx', hrx'⟩ := blkRun_bound aes htx hrx ops
  exact runsUnder_iff htx' hrx' hs

/-- A server that finds a key and a vector behind the `GOAES` it just read. -/
def exampleGoaes (k v : List Byte) : Sess :=
  { (default : Sess) with
    crypRx := exampleCrypto .unpack
    crypTx := exampleCrypto .pack
    inp := (sendAll .little Aes.sample exampleTx [.raw k, .raw v]).out }

/-- The all-zero key and vector. -/
def zeroKey : List Byte := List.replicate blkKeysz 0

@[inherit_doc zeroKey]
def zeroIv : List Byte := List.replicate blkIvsz 0

theorem goaes_runs_under_iff_zero :
    RunsUnder Aes.sample (blkRun Aes.sample
        (cmdGoaes .little Aes.sample (exampleGoaes zeroKey zeroIv)).2 [.send [1, 2], .recv 4])
      (goaesKey .little Aes.sample (exampleGoaes zeroKey zeroIv))
      (goaesIv .little Aes.sample (exampleGoaes zeroKey zeroIv)) [0x2a] := by
  have hok : (cmdGoaes .little Aes.sample (exampleGoaes zeroKey zeroIv)).1 = some cmdOkText := by
    decide +kernel
  have hs : Undisturbed (blkRun Aes.sample
      (cmdGoaes .little Aes.sample (exampleGoaes zeroKey zeroIv)).2 [.send [1, 2], .recv 4]) :=
    ⟨by unfold Ossl.Works; decide +kernel, by unfold Quiet; decide +kernel,
      by unfold Quiet; decide +kernel, by decide +kernel, by decide +kernel⟩
  exact (goaes_runs_under_iff .little Aes.sample hok _ hs [0x2a]).mpr (by decide +kernel)

/-- A client that sends the key `01 00 … 00` gets an `OK`, and the byte `2a`
then goes out under the zero key, as it does for a client that sends zeros. -/
theorem goaes_key_ignored :
    let k : List Byte := 1 :: List.replicate 31 0
    let s := exampleGoaes k zeroIv
    let t := cmdGoaes .little Aes.sample s
    t.1 = some cmdOkText ∧ goaesKey .little Aes.sample s = k ∧
      goaesIv .little Aes.sample s = zeroIv ∧
      (blkSndbuf Aes.sample t.2 [0x2a]).sess.out
        = t.2.out ++ Aes.sample.enc zeroKey zeroIv [0x2a] ∧
      ¬ RunsUnder Aes.sample t.2 k zeroIv [0x2a] := by
  refine ⟨by decide +kernel, by decide +kernel, by decide +kernel, by decide +kernel, ?_⟩
  intro h
  exact absurd h.sent (by decide +kernel)

end TFProtocol
