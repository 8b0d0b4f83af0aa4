import TFProtocol.Goaes

/-!
# Switching back and forth

`GOAES` turns the block cipher on and `TFPCRYPTO` turns it off, in any order and any
number of times.  The contexts belong to the two global structures `cipher_tx` and
`cipher_rx`.  `setblkon` wipes the structures and creates new contexts, `setblkoff`
frees the contexts the structures point to, and neither looks at the mode it is called
in; a pointer to a freed context stays where it is.

## Main definitions

* `setblkoff`, `cmdTfpcrypto` — the functions of the source.
* `ModeOp`, `modeStep`, `modeRun` — a session of both commands and other traffic.
* `Allowed` — commands that meet no stale pointer and lose no context in use.
* `InPairs` — a condition on the commands and their replies.
* `StepOk` — what every step has to leave behind.

## Main results

* `modes_safe` — a session of allowed commands never misuses a context.
* `allAllowed_of_inPairs` — commands in pairs are allowed.
-/

namespace TFProtocol

open Bytes CStr

section Layer

variable (o : Endian) (aes : Aes)

/-- `setblkoff`. -/
def setblkoff (s : Sess) : Sess :=
  let s := { s with blkstatus := false }
  let s := { s with ossl := blkfin s.ossl s.cipherTx }
  { s with ossl := blkfin s.ossl s.cipherRx }

/-- `cmd_tfpcrypto`: the reply still goes out in the old mode. -/
def cmdTfpcrypto (s : Sess) : Sess := setblkoff (cmdOk o aes s)

/-- One of the two commands, or a transfer of another one. -/
inductive ModeOp
  | goaes
  | tfpcrypto
  | send (m : List Byte)
  | recv (len : ℤ)
  deriving DecidableEq, Repr

/-- One step of a session: for a command the frame that holds it is received first.  The
reply is the one sent, if any. -/
def modeStep (s : Sess) : ModeOp → Sess × Option (List Byte)
  | .goaes =>
    let r := readbuf o aes s
    if r.ret = -1 then ({ r.sess with loop := false }, none)
    else ((cmdGoaes o aes r.sess).2, (cmdGoaes o aes r.sess).1)
  | .tfpcrypto =>
    let r := readbuf o aes s
    if r.ret = -1 then ({ r.sess with loop := false }, none)
    else (cmdTfpcrypto o aes r.sess, some cmdOkText)
  | .send m => ((writebufEx o aes s m).sess, none)
  | .recv len => ((readbufEx o aes s len).sess, none)

/-- The session after a number of steps. -/
def modeRun (s : Sess) (ops : List ModeOp) : Sess := (Mealy.run (modeStep o aes) s ops).1

/-- A context pointer that refers to a live context. -/
def Ossl.Live (l : Ossl) (ctx : Option ℕ) : Prop := (l.live ctx).isSome = true

instance (l : Ossl) (ctx : Option ℕ) : Decidable (l.Live ctx) :=
  inferInstanceAs (Decidable (_ = _))

/-- The session in which `cmd_goaes` calls `setblkon`. -/
def goaesReady (s : Sess) : Sess :=
  let s := goaesVectored o aes (readbuf o aes s).sess
  { s with
    cipherRx := { s.cipherRx with
      key := overlay s.cipherRx.key (s.cipherTx.key.take blkKeysz)
      iv := overlay s.cipherRx.iv (s.cipherTx.iv.take blkIvsz) } }

/-- Steps that do no harm.  In block mode the four calls `GOAES` makes to create its
contexts have to succeed; and `TFPCRYPTO` must not find a pointer to a context that was
freed already. -/
def Allowed (s : Sess) : ModeOp → Prop
  | .goaes => s.blkstatus = true → false ∉ (goaesReady o aes s).ossl.fates.take 4
  | .tfpcrypto =>
    (s.cipherTx.ctx = none ∨ s.ossl.Live s.cipherTx.ctx) ∧
      (s.cipherRx.ctx = none ∨ s.ossl.Live s.cipherRx.ctx)
  | .send _ => True
  | .recv _ => True

/-- A session of such steps. -/
def AllAllowed (s : Sess) : List ModeOp → Prop
  | [] => True
  | op :: ops => Allowed o aes s op ∧ AllAllowed (modeStep o aes s op).1 ops

/-- The mode after a step with a given reply. -/
def modeAfter (mode : Bool) : ModeOp → Option (List Byte) → Bool
  | .goaes, reply => if reply = some cmdOkText then true else mode
  | .tfpcrypto, reply => if reply = some cmdOkText then false else mode
  | _, _ => mode

/-- Commands in pairs, seen in the replies alone: a `TFPCRYPTO` comes only while the block
cipher is on, and a `GOAES` that comes then is answered with success. -/
def InPairs : Bool → List (ModeOp × Option (List Byte)) → Prop
  | _, [] => True
  | mode, (op, reply) :: rest =>
    (op = .tfpcrypto → mode = true) ∧ (op = .goaes → mode = true → reply = some cmdOkText) ∧
      InPairs (modeAfter mode op reply) rest

/-- What a step has to leave behind: no context was freed twice, and none was used that
is null or freed; a `GOAES` that replies failure leaves the mode and the contexts in use;
and the block cipher is on exactly from a successful `GOAES` to the next `TFPCRYPTO`. -/
structure StepOk (s : Sess) (op : ModeOp) : Prop where
  sound : (modeStep o aes s op).1.ossl.misuse = false
  failed : op = .goaes → (modeStep o aes s op).2 = some (cmdFailText cmdEaes) →
    (modeStep o aes s op).1.blkstatus = s.blkstatus ∧
      (s.blkstatus = true →
        (modeStep o aes s op).1.cipherTx.ctx = s.cipherTx.ctx ∧
        (modeStep o aes s op).1.cipherRx.ctx = s.cipherRx.ctx)
  mode : (modeStep o aes s op).1.blkstatus = modeAfter s.blkstatus op (modeStep o aes s op).2

end Layer

/-! ### Transfers -/

/-- In block mode both pointers refer to live contexts. -/
def Ready (s : Sess) : Prop :=
  s.blkstatus = true → s.ossl.Live s.cipherTx.ctx ∧ s.ossl.Live s.cipherRx.ctx

/-- What transfers leave alone: the mode, the contexts and the pointers to them.  Where
the contexts in use are live, none is misused. -/
structure Transfers (s t : Sess) : Prop where
  ctxs : t.ossl.ctxs = s.ossl.ctxs
  tx : t.cipherTx.ctx = s.cipherTx.ctx
  rx : t.cipherRx.ctx = s.cipherRx.ctx
  mode : t.blkstatus = s.blkstatus
  sound : Ready s → t.ossl.misuse = s.ossl.misuse

theorem Ossl.live_congr {l l' : Ossl} (h : l.ctxs = l'.ctxs) (ctx : Option ℕ) :
    l.Live ctx ↔ l'.Live ctx := by
  unfold Live live
  rw [h]

theorem Transfers.refl (s : Sess) : Transfers s s := ⟨rfl, rfl, rfl, rfl, fun _ => rfl⟩

theorem Transfers.ready {s t : Sess} (h : Transfers s t) (hs : Ready s) : Ready t := by
  intro hmode
  rw [h.mode] at hmode
  rw [h.tx, h.rx, Ossl.live_congr h.ctxs, Ossl.live_congr h.ctxs]
  exact hs hmode

theorem Transfers.trans {s t u : Sess} (h : Transfers s t) (h' : Transfers t u) :
    Transfers s u :=
  ⟨h'.ctxs.trans h.ctxs, h'.tx.trans h.tx, h'.rx.trans h.rx, h'.mode.trans h.mode,
    fun hs => (h'.sound (h.ready hs)).trans (h.sound hs)⟩

/-- A live context can be started over. -/
theorem Ossl.misuse_reinit {l : Ossl} {ctx : Option ℕ} (h : l.Live ctx) :
    (l.reinit ctx).2.misuse = l.misuse := by
  obtain ⟨c, hc⟩ := Option.isSome_iff_exists.mp h
  simp only [reinit, hc]
  split <;> rfl

theorem blkencrypt_ossl (aes : Aes) (l : Ossl) (c : BlkCipher) (m : List Byte) (n : ℤ) :
    (blkencrypt aes l c m n).2 = (l.reinit c.ctx).2 := by
  simp only [blkencrypt]
  split
  · rfl
  · split <;> rfl

theorem blkdecrypt_ossl (aes : Aes) (l : Ossl) (c : BlkCipher) (m : List Byte) (n : ℤ) :
    (blkdecrypt aes l c m n).2 = (l.reinit c.ctx).2 := by
  simp only [blkdecrypt]
  split
  · rfl
  · split <;> rfl

variable {o : Endian} {aes : Aes}

theorem sndbuf_transfers (s : Sess) (m : List Byte) (enc : Bool) :
    Transfers s (sndbuf o aes s m enc).sess := by
  unfold sndbuf
  split
  · next hblk =>
    have hossl := blkencrypt_ossl aes s.ossl s.cipherTx m (cint m.length)
    have hsound : Ready s → (blkencrypt aes s.ossl s.cipherTx m (cint m.length)).2.misuse
        = s.ossl.misuse := by
      intro hs
      rw [hossl]
      exact Ossl.misuse_reinit (hs hblk).1
    have hctxs : (blkencrypt aes s.ossl s.cipherTx m (cint m.length)).2.ctxs = s.ossl.ctxs := by
      rw [hossl]
      exact s.ossl.ctxs_reinit _
    simp only [blkSndbuf]
    split
    · exact Transfers.refl s
    · split
      · exact ⟨hctxs, rfl, rfl, rfl, hsound⟩
      · split <;> exact ⟨hctxs, rfl, rfl, rfl, hsound⟩
  · split <;> exact ⟨rfl, rfl, rfl, rfl, fun _ => rfl⟩

theorem blkRead_transfers {s : Sess} (hblk : s.blkstatus = true) (n : ℕ) :
    Transfers s (blkRead aes s n).sess := by
  simp only [blkRead]
  split
  · exact ⟨rfl, rfl, rfl, rfl, fun _ => rfl⟩
  · refine ⟨?_, rfl, rfl, rfl, fun hs => ?_⟩
    · simp only [blkdecrypt_ossl]
      exact Ossl.ctxs_reinit _ _
    · simp only [blkdecrypt_ossl]
      exact Ossl.misuse_reinit (hs hblk).2

theorem blkRcvbuf_transfers {s : Sess} (hblk : s.blkstatus = true) (len : ℤ) :
    Transfers s (blkRcvbuf aes s len).sess := by
  have hlow : Transfers s { s with ciaSend := false } := ⟨rfl, rfl, rfl, rfl, fun _ => rfl⟩
  have hread : ∀ n, Transfers s (blkRead aes { s with ciaSend := false } n).sess :=
    fun n => hlow.trans (blkRead_transfers (s := { s with ciaSend := false }) hblk n)
  simp only [blkRcvbuf]
  split
  · exact Transfers.refl s
  · split
    · split
      · exact hread _
      · split
        · exact hread _
        · split
          · exact (hread 36).trans (blkRead_transfers ((hread 36).mode.trans hblk) _)
          · exact hread _
    · exact blkRead_transfers hblk _

theorem streamRead_transfers (s : Sess) (len : ℤ) (enc : Bool) :
    Transfers s (streamRead o s len enc).sess := by
  simp only [streamRead]
  split
  · exact ⟨rfl, rfl, rfl, rfl, fun _ => rfl⟩
  · split <;> exact ⟨rfl, rfl, rfl, rfl, fun _ => rfl⟩

theorem rcvbuf_transfers (s : Sess) (len : ℤ) (enc : Bool) :
    Transfers s (rcvbuf o aes s len enc).sess := by
  unfold rcvbuf
  split
  · next hblk => exact blkRcvbuf_transfers hblk len
  · dsimp only
    split
    · split
      · exact streamRead_transfers s _ _
      · split
        · exact (streamRead_transfers s _ _).trans (streamRead_transfers _ _ _)
        · exact streamRead_transfers s _ _
    · exact streamRead_transfers s _ _

theorem sendReply_transfers (s : Sess) (text : List Byte) :
    Transfers s (sendReply o aes s text) := by
  have hwrite : ∀ (t : Sess) (m : List Byte), Transfers t (writebuf o aes t m).sess := by
    intro t m
    simp only [writebuf]
    split
    · exact sndbuf_transfers t _ _
    · exact (sndbuf_transfers t _ _).trans (sndbuf_transfers _ _ _)
  obtain ⟨h1, h2, h3, h4, h5⟩ := hwrite { s with buf := overlay s.buf (text ++ [0]) } text
  exact ⟨h1, h2, h3, h4, fun hs => h5 hs⟩

theorem readbuf_transfers (s : Sess) : Transfers s (readbuf o aes s).sess := by
  have hhdr : Transfers s (readHdr o aes s).sess := by
    obtain ⟨h1, h2, h3, h4, h5⟩ := @rcvbuf_transfers o aes s 4 true
    exact ⟨h1, h2, h3, h4, h5⟩
  have hbody : ∀ (t : Sess) (len : ℤ), Transfers t (readBody o aes t len).sess := by
    intro t len
    have hset : Transfers t
        (if 0 ≤ len ∧ len < commbuflen then { t with buf := t.buf.set len.toNat 0 } else t) := by
      split
      · exact ⟨rfl, rfl, rfl, rfl, fun _ => rfl⟩
      · exact Transfers.refl t
    obtain ⟨h1, h2, h3, h4, h5⟩ := hset.trans (@rcvbuf_transfers o aes _ len true)
    exact ⟨h1, h2, h3, h4, h5⟩
  simp only [readbuf]
  split
  · exact hhdr
  · exact hhdr.trans (hbody _ _)

/-! ### Contexts -/

/-- Contexts that are created later do not disturb a live one. -/
theorem Ossl.Live.append {l l' : Ossl} {ctx : Option ℕ} (h : l.Live ctx) {new : List EvpCtx}
    (hctxs : l'.ctxs = l.ctxs ++ new) : l'.Live ctx := by
  obtain ⟨c, hc⟩ := Option.isSome_iff_exists.mp h
  unfold live at hc
  rw [Option.filter_eq_some_iff, Option.bind_eq_some_iff] at hc
  obtain ⟨⟨i, hi, hget⟩, hfreed⟩ := hc
  have hlt : i < l.ctxs.length := (List.getElem?_eq_some_iff.mp hget).1
  have hget' : l'.ctxs[i]? = some c := by rw [hctxs, List.getElem?_append_left hlt, hget]
  unfold Live live
  rw [hi, Option.bind_some, hget', Option.filter_some, if_pos hfreed]
  rfl

/-- The context created last is live. -/
theorem Ossl.live_last {l : Ossl} {cs : List EvpCtx} {c : EvpCtx} (h : l.ctxs = cs ++ [c])
    (hc : c.freed = false) : l.Live (some cs.length) := by
  simp [Live, live, h, Option.filter_some, hc]

/-- What creating and initialising a context can do. -/
structure BlkinitSpec (l : Ossl) (r : Bool × Ossl × BlkCipher) : Prop where
  sound : r.2.1.misuse = l.misuse
  grows : ∃ new, r.2.1.ctxs = l.ctxs ++ new ∧ (r.2.2.ctx = none → new = []) ∧
    (r.2.2.ctx ≠ none → r.2.2.ctx = some l.ctxs.length ∧ new.length = 1 ∧ r.2.1.Live r.2.2.ctx)
  ok : r.1 = true → r.2.2.ctx ≠ none
  works : false ∉ l.fates.take 2 → r.1 = true ∧ r.2.1.fates = l.fates.drop 2

theorem blkinit_spec (d : EvpDir) (l : Ossl) (c : BlkCipher) : BlkinitSpec l (blkinit d l c) := by
  have hworks := (blkinit_ok_iff d l c).mpr
  cases hnew : l.fate with
  | false =>
    rw [blkinit_of_no_ctx hnew] at hworks ⊢
    refine ⟨rfl, ⟨[], by simp [Ossl.step], fun _ => rfl, fun h => absurd rfl h⟩, ?_, ?_⟩
    · exact fun h => absurd h Bool.false_ne_true
    · exact fun hw => absurd (hworks hw) Bool.false_ne_true
  | true =>
    rw [blkinit_of_ctx hnew] at hworks ⊢
    have hsome : some l.ctxs.length ≠ none := Option.some_ne_none _
    refine ⟨rfl, ?_, fun _ => hsome, fun hw => ⟨hworks hw, ?_⟩⟩
    · cases l.fates.tail.headD true with
      | true =>
        exact ⟨_, rfl, fun h => absurd h hsome, fun _ => ⟨rfl, rfl, Ossl.live_last rfl rfl⟩⟩
      | false =>
        exact ⟨_, rfl, fun h => absurd h hsome, fun _ => ⟨rfl, rfl, Ossl.live_last rfl rfl⟩⟩
    · show l.fates.tail.tail = l.fates.drop 2
      rw [← List.drop_one, ← List.drop_one, List.drop_drop]

section

variable {l : Ossl} {r : Bool × Ossl × BlkCipher} (h : BlkinitSpec l r)

include h

theorem BlkinitSpec.length_le : l.ctxs.length ≤ r.2.1.ctxs.length := by
  obtain ⟨new, hctxs, -, -⟩ := h.grows
  rw [hctxs, List.length_append]
  omega

/-- The context is the one created last. -/
theorem BlkinitSpec.bound {i : ℕ} (hi : r.2.2.ctx = some i) :
    i = l.ctxs.length ∧ i < r.2.1.ctxs.length := by
  obtain ⟨new, hctxs, -, hsome⟩ := h.grows
  obtain ⟨hctx, hone, -⟩ := hsome (by rw [hi]; exact Option.some_ne_none i)
  obtain rfl : l.ctxs.length = i := by simpa [hi] using hctx.symm
  rw [hctxs, List.length_append, hone]
  exact ⟨rfl, by omega⟩

theorem BlkinitSpec.live (hok : r.1 = true) : r.2.1.Live r.2.2.ctx := by
  obtain ⟨new, -, -, hsome⟩ := h.grows
  exact (hsome (h.ok hok)).2.2

end

/-- Freeing a live context, or none. -/
theorem Ossl.ctxFree_spec {l : Ossl} {ctx : Option ℕ} (h : ctx = none ∨ l.Live ctx) :
    (l.ctxFree ctx).misuse = l.misuse ∧ (l.ctxFree ctx).ctxs.length = l.ctxs.length ∧
      ∀ j, ctx ≠ some j → l.Live (some j) → (l.ctxFree ctx).Live (some j) := by
  cases ctx with
  | none => exact ⟨rfl, rfl, fun _ _ hj => hj⟩
  | some i =>
    have hlive : l.Live (some i) := by simpa using h
    obtain ⟨c, hc⟩ := Option.isSome_iff_exists.mp hlive
    have hfree : l.ctxFree (some i) = { l with ctxs := l.ctxs.set i { c with freed := true } } := by
      simp [ctxFree, hc]
    rw [hfree]
    refine ⟨rfl, List.length_set, ?_⟩
    intro j hij hj
    have hne : i ≠ j := fun h => hij (h ▸ rfl)
    unfold Live live at hj ⊢
    simpa [List.getElem?_set_ne hne] using hj

/-! ### The invariant -/

/-- Nothing was misused, the contexts in use are live, and the two pointers never refer
to the same context. -/
structure ModeInv (s : Sess) : Prop where
  sound : s.ossl.misuse = false
  ready : Ready s
  txBound : ∀ i, s.cipherTx.ctx = some i → i < s.ossl.ctxs.length
  rxBound : ∀ i, s.cipherRx.ctx = some i → i < s.ossl.ctxs.length
  distinct : ∀ i, s.cipherTx.ctx = some i → s.cipherRx.ctx ≠ some i

theorem ModeInv.transfers {s t : Sess} (hs : ModeInv s) (h : Transfers s t) : ModeInv t where
  sound := (h.sound hs.ready).trans hs.sound
  ready := h.ready hs.ready
  txBound := by rw [h.tx, h.ctxs]; exact hs.txBound
  rxBound := by rw [h.rx, h.ctxs]; exact hs.rxBound
  distinct := by rw [h.tx, h.rx]; exact hs.distinct

/-- What `setblkon` does to the contexts, whether it succeeds or not. -/
structure SetblkonSpec (s : Sess) (r : Bool × Sess) : Prop where
  sound : r.2.ossl.misuse = s.ossl.misuse
  mode : r.2.blkstatus = s.blkstatus
  txBound : ∀ i, r.2.cipherTx.ctx = some i → i < r.2.ossl.ctxs.length
  rxBound : ∀ i, r.2.cipherRx.ctx = some i → i < r.2.ossl.ctxs.length
  distinct : ∀ i, r.2.cipherTx.ctx = some i → r.2.cipherRx.ctx ≠ some i
  live : r.1 = true → r.2.ossl.Live r.2.cipherTx.ctx ∧ r.2.ossl.Live r.2.cipherRx.ctx
  works : false ∉ s.ossl.fates.take 4 → r.1 = true

/-- The four calls that make both contexts. -/
theorem setblkon_ok_iff (s : Sess) : (setblkon s).1 = true ↔ false ∉ s.ossl.fates.take 4 := by
  have hsplit : s.ossl.fates.take (2 + 2) = s.ossl.fates.take 2 ++ (s.ossl.fates.drop 2).take 2 :=
    List.take_add
  have hen := blkinit_ok_iff .encrypt s.ossl s.cipherTx
  have hde := blkinit_ok_iff .decrypt (blkinitEn s.ossl s.cipherTx).2.1 s.cipherRx
  rw [hsplit, List.mem_append, not_or]
  cases hok : (blkinitEn s.ossl s.cipherTx).1 with
  | false =>
    have hmem : ¬ false ∉ s.ossl.fates.take 2 :=
      fun hnot => Bool.false_ne_true (hok.symm.trans (hen.mpr hnot))
    simp [setblkon, hok, not_not.mp hmem]
  | true =>
    have hnot := hen.mp hok
    have hfates : (blkinitEn s.ossl s.cipherTx).2.1.fates = s.ossl.fates.drop 2 :=
      ((blkinit_spec .encrypt s.ossl s.cipherTx).works hnot).2
    rw [hfates] at hde
    have hset : (setblkon s).1 = (blkinitDe (blkinitEn s.ossl s.cipherTx).2.1 s.cipherRx).1 := by
      simp only [setblkon, hok, if_true]
      split
      · next hrx => exact hrx.symm
      · next hrx => exact (Bool.eq_false_of_not_eq_true hrx).symm
    rw [hset]
    exact hde.trans (and_iff_right hnot).symm

theorem setblkon_spec {s : Sess} (hrx : ∀ i, s.cipherRx.ctx = some i → i < s.ossl.ctxs.length) :
    SetblkonSpec s (setblkon s) := by
  have htx := blkinit_spec .encrypt s.ossl s.cipherTx
  have hde := blkinit_spec .decrypt (blkinit .encrypt s.ossl s.cipherTx).2.1 s.cipherRx
  have hworks := (setblkon_ok_iff s).mpr
  cases hok : (blkinit .encrypt s.ossl s.cipherTx).1 with
  | false =>
    have hset : setblkon s = (false, { s with
        ossl := (blkinit .encrypt s.ossl s.cipherTx).2.1
        cipherTx := (blkinit .encrypt s.ossl s.cipherTx).2.2 }) := by
      simp [setblkon, blkinitEn, hok]
    rw [hset] at hworks ⊢
    refine ⟨htx.sound, rfl, fun i hi => (htx.bound hi).2, fun i hi => ?_, ?_, ?_, hworks⟩
    · exact lt_of_lt_of_le (hrx i hi) htx.length_le
    · intro i hi hi'
      have := hrx i hi'
      rw [(htx.bound hi).1] at this
      omega
    · exact fun h => absurd h Bool.false_ne_true
  | true =>
    have hlive : (blkinit .decrypt (blkinit .encrypt s.ossl s.cipherTx).2.1 s.cipherRx).2.1.Live
        (blkinit .encrypt s.ossl s.cipherTx).2.2.ctx := by
      obtain ⟨new, hctxs, -, -⟩ := hde.grows
      exact (htx.live hok).append hctxs
    have hdistinct : ∀ i, (blkinit .encrypt s.ossl s.cipherTx).2.2.ctx = some i →
        (blkinit .decrypt (blkinit .encrypt s.ossl s.cipherTx).2.1 s.cipherRx).2.2.ctx ≠
          some i := by
      intro i hi hi'
      have := (htx.bound hi).2
      rw [(hde.bound hi').1] at this
      omega
    cases hok' : (blkinit .decrypt (blkinit .encrypt s.ossl s.cipherTx).2.1 s.cipherRx).1 with
    | true =>
      have hset : setblkon s = (true, { s with
          ossl := (blkinit .decrypt (blkinit .encrypt s.ossl s.cipherTx).2.1 s.cipherRx).2.1
          cipherTx := (blkinit .encrypt s.ossl s.cipherTx).2.2
          cipherRx :=
            (blkinit .decrypt (blkinit .encrypt s.ossl s.cipherTx).2.1 s.cipherRx).2.2 }) := by
        simp [setblkon, blkinitEn, blkinitDe, hok, hok']
      rw [hset]
      refine ⟨hde.sound.trans htx.sound, rfl, fun i hi => ?_, fun i hi => (hde.bound hi).2,
        hdistinct, fun _ => ⟨hlive, hde.live hok'⟩, fun _ => rfl⟩
      exact lt_of_lt_of_le (htx.bound hi).2 hde.length_le
    | false =>
      have hset : setblkon s = (false, { s with
          ossl := ((blkinit .decrypt (blkinit .encrypt s.ossl s.cipherTx).2.1
            s.cipherRx).2.1).ctxFree (blkinit .encrypt s.ossl s.cipherTx).2.2.ctx
          cipherTx := (blkinit .encrypt s.ossl s.cipherTx).2.2
          cipherRx :=
            (blkinit .decrypt (blkinit .encrypt s.ossl s.cipherTx).2.1 s.cipherRx).2.2 }) := by
        simp [setblkon, blkinitEn, blkinitDe, blkfin, hok, hok']
      obtain ⟨hfree, hfreeLen, -⟩ := Ossl.ctxFree_spec (.inr hlive)
      rw [hset] at hworks ⊢
      refine ⟨hfree.trans (hde.sound.trans htx.sound), rfl, fun i hi => ?_, fun i hi => ?_,
        hdistinct, ?_, hworks⟩
      · show i < (Ossl.ctxFree _ _).ctxs.length
        rw [hfreeLen]
        exact lt_of_lt_of_le (htx.bound hi).2 hde.length_le
      · show i < (Ossl.ctxFree _ _).ctxs.length
        rw [hfreeLen]
        exact (hde.bound hi).2
      · exact fun h => absurd h Bool.false_ne_true

/-! ### One step -/

theorem goaesKeyed_transfers (s : Sess) : Transfers s (goaesKeyed o aes s) := by
  obtain ⟨h1, h2, h3, h4, h5⟩ := @rcvbuf_transfers o aes s blkKeysz true
  exact ⟨h1, h2, h3, h4, h5⟩

theorem goaesVectored_transfers (s : Sess) : Transfers s (goaesVectored o aes s) := by
  obtain ⟨h1, h2, h3, h4, h5⟩ := (goaesKeyed_transfers s).trans
    (@rcvbuf_transfers o aes (goaesKeyed o aes s) blkIvsz true)
  exact ⟨h1, h2, h3, h4, h5⟩

theorem goaesReady_transfers (s : Sess) : Transfers s (goaesReady o aes s) := by
  obtain ⟨h1, h2, h3, h4, h5⟩ := (@readbuf_transfers o aes s).trans
    (goaesVectored_transfers (readbuf o aes s).sess)
  exact ⟨h1, h2, h3, h4, h5⟩

/-- What a `GOAES` can do: nothing but receive, or try to create the contexts and
reply. -/
theorem modeStep_goaes (s : Sess) :
    (Transfers s (modeStep o aes s .goaes).1 ∧ (modeStep o aes s .goaes).2 = none) ∨
    ((setblkon (goaesReady o aes s)).1 = true ∧ modeStep o aes s .goaes =
      ({ cmdOk o aes (setblkon (goaesReady o aes s)).2 with blkstatus := true },
        some cmdOkText)) ∨
    ((setblkon (goaesReady o aes s)).1 = false ∧ modeStep o aes s .goaes =
      (cmdFail o aes (setblkon (goaesReady o aes s)).2 cmdEaes, some (cmdFailText cmdEaes))) := by
  have hread := @readbuf_transfers o aes s
  simp only [modeStep]
  split
  · left
    obtain ⟨h1, h2, h3, h4, h5⟩ := hread
    exact ⟨⟨h1, h2, h3, h4, h5⟩, rfl⟩
  · rcases cmdGoaes_cases o aes (readbuf o aes s).sess with
      ⟨-, heq⟩ | ⟨-, -, heq⟩ | ⟨-, -, ⟨hon, heq⟩ | ⟨hoff, heq⟩⟩ <;> rw [heq]
    · exact .inl ⟨hread.trans (goaesKeyed_transfers _), rfl⟩
    · exact .inl ⟨hread.trans (goaesVectored_transfers _), rfl⟩
    · exact .inr (.inl ⟨hon, rfl⟩)
    · exact .inr (.inr ⟨hoff, rfl⟩)

/-- The invariant with new contexts in place of the old ones. -/
theorem ModeInv.setblkon {s : Sess} (hs : ModeInv s)
    (hready : Ready (setblkon s).2) : ModeInv (setblkon s).2 := by
  have hspec := setblkon_spec hs.rxBound
  exact ⟨hspec.sound.trans hs.sound, hready, hspec.txBound, hspec.rxBound, hspec.distinct⟩

/-- **An allowed `GOAES` keeps the invariant.** -/
theorem goaes_ok {s : Sess} (hs : ModeInv s) (hop : Allowed o aes s .goaes) :
    StepOk o aes s .goaes ∧ ModeInv (modeStep o aes s .goaes).1 := by
  have hrdy := hs.transfers (@goaesReady_transfers o aes s)
  have hspec := setblkon_spec hrdy.rxBound
  have hne : some cmdOkText ≠ some (cmdFailText cmdEaes) := by decide
  rcases @modeStep_goaes o aes s with ⟨htr, hreply⟩ | ⟨hon, hstep⟩ | ⟨hoff, hstep⟩
  · have hinv := hs.transfers htr
    refine ⟨⟨hinv.sound, fun _ h => ?_, ?_⟩, hinv⟩
    · rw [hreply] at h
      cases h
    · rw [hreply]
      exact htr.mode
  · -- the reply of a second `GOAES` already uses the new contexts
    have hready : Ready (setblkon (goaesReady o aes s)).2 := fun _ => hspec.live hon
    have hok := @sendReply_transfers o aes (setblkon (goaesReady o aes s)).2 cmdOkText
    have hinv := (hrdy.setblkon hready).transfers hok
    have hinv' : ModeInv { cmdOk o aes (setblkon (goaesReady o aes s)).2 with
        blkstatus := true } := by
      refine ⟨hinv.sound, fun _ => ?_, hinv.txBound, hinv.rxBound, hinv.distinct⟩
      show (cmdOk o aes _).ossl.Live (cmdOk o aes _).cipherTx.ctx ∧
        (cmdOk o aes _).ossl.Live (cmdOk o aes _).cipherRx.ctx
      unfold cmdOk
      rw [hok.tx, hok.rx, Ossl.live_congr hok.ctxs, Ossl.live_congr hok.ctxs]
      exact hspec.live hon
    refine ⟨⟨?_, fun _ h => ?_, ?_⟩, ?_⟩
    · rw [hstep]
      exact hinv'.sound
    · rw [hstep] at h
      exact absurd h hne
    · rw [hstep]
      rfl
    · rw [hstep]
      exact hinv'
  · -- in block mode this cannot happen
    have hmode : s.blkstatus = false := by
      by_contra hblk
      have hw := hspec.works (hop (by simpa using hblk))
      rw [hoff] at hw
      cases hw
    have hsetmode : (setblkon (goaesReady o aes s)).2.blkstatus = false := by
      rw [hspec.mode, (goaesReady_transfers s).mode, hmode]
    have hready : Ready (setblkon (goaesReady o aes s)).2 := by
      intro hblk
      rw [hsetmode] at hblk
      cases hblk
    have hfail := @sendReply_transfers o aes (setblkon (goaesReady o aes s)).2
      (cmdFailText cmdEaes)
    have hinv := (hrdy.setblkon hready).transfers hfail
    have hmode' : (cmdFail o aes (setblkon (goaesReady o aes s)).2 cmdEaes).blkstatus
        = s.blkstatus := by
      rw [hmode]
      exact hfail.mode.trans hsetmode
    refine ⟨⟨?_, fun _ _ => ?_, ?_⟩, ?_⟩
    · rw [hstep]
      exact hinv.sound
    · rw [hstep]
      refine ⟨hmode', fun hblk => ?_⟩
      rw [hmode] at hblk
      cases hblk
    · rw [hstep]
      simp only [modeAfter, hne.symm, if_false]
      exact hmode'
    · rw [hstep]
      exact hinv

/-- Turning the block cipher off frees two live contexts, or none. -/
theorem ModeInv.setblkoff {s : Sess} (hs : ModeInv s)
    (htx : s.cipherTx.ctx = none ∨ s.ossl.Live s.cipherTx.ctx)
    (hrx : s.cipherRx.ctx = none ∨ s.ossl.Live s.cipherRx.ctx) : ModeInv (setblkoff s) := by
  obtain ⟨hsound, hlen, hothers⟩ := Ossl.ctxFree_spec htx
  have hrx' : s.cipherRx.ctx = none ∨ (s.ossl.ctxFree s.cipherTx.ctx).Live s.cipherRx.ctx := by
    rcases hrx with hnone | hlive
    · exact .inl hnone
    · cases hctx : s.cipherRx.ctx with
      | none => exact .inl rfl
      | some j =>
        rw [hctx] at hlive
        exact .inr (hothers j (fun htx => hs.distinct j htx hctx) hlive)
  obtain ⟨hsound', hlen', -⟩ := Ossl.ctxFree_spec hrx'
  refine ⟨hsound'.trans (hsound.trans hs.sound), nofun, ?_, ?_, hs.distinct⟩
  · intro i hi
    show i < (Ossl.ctxFree (Ossl.ctxFree _ _) _).ctxs.length
    rw [hlen', hlen]
    exact hs.txBound i hi
  · intro i hi
    show i < (Ossl.ctxFree (Ossl.ctxFree _ _) _).ctxs.length
    rw [hlen', hlen]
    exact hs.rxBound i hi

/-- **An allowed `TFPCRYPTO` keeps the invariant.** -/
theorem tfpcrypto_ok {s : Sess} (hs : ModeInv s) (hop : Allowed o aes s .tfpcrypto) :
    StepOk o aes s .tfpcrypto ∧ ModeInv (modeStep o aes s .tfpcrypto).1 := by
  have hread := @readbuf_transfers o aes s
  have htr := hread.trans (@sendReply_transfers o aes (readbuf o aes s).sess cmdOkText)
  obtain ⟨htx, hrx⟩ := hop
  rw [← htr.tx, ← Ossl.live_congr htr.ctxs] at htx
  rw [← htr.rx, ← Ossl.live_congr htr.ctxs] at hrx
  have hoff := (hs.transfers htr).setblkoff htx hrx
  by_cases hret : (readbuf o aes s).ret = -1
  · have hstep : modeStep o aes s .tfpcrypto
        = ({ (readbuf o aes s).sess with loop := false }, none) := by
      simp only [modeStep, hret, if_true]
    have hinv : ModeInv { (readbuf o aes s).sess with loop := false } := by
      obtain ⟨h1, h2, h3, h4, h5⟩ := hs.transfers hread
      exact ⟨h1, h2, h3, h4, h5⟩
    rw [hstep]
    refine ⟨⟨?_, nofun, ?_⟩, hinv⟩
    · rw [hstep]
      exact hinv.sound
    · rw [hstep]
      exact hread.mode
  · have hstep : modeStep o aes s .tfpcrypto
        = (cmdTfpcrypto o aes (readbuf o aes s).sess, some cmdOkText) := by
      simp only [modeStep, hret, if_false]
    rw [hstep]
    refine ⟨⟨?_, nofun, ?_⟩, hoff⟩
    · rw [hstep]
      exact hoff.sound
    · rw [hstep]
      rfl

/-- **One allowed step.** -/
theorem modeStep_ok {s : Sess} (hs : ModeInv s) {op : ModeOp} (hop : Allowed o aes s op) :
    StepOk o aes s op ∧ ModeInv (modeStep o aes s op).1 := by
  cases op with
  | goaes => exact goaes_ok hs hop
  | tfpcrypto => exact tfpcrypto_ok hs hop
  | send m =>
    have htr := @sndbuf_transfers o aes s m true
    exact ⟨⟨(hs.transfers htr).sound, nofun, htr.mode⟩, hs.transfers htr⟩
  | recv len =>
    have htr := @rcvbuf_transfers o aes s len true
    exact ⟨⟨(hs.transfers htr).sound, nofun, htr.mode⟩, hs.transfers htr⟩

/-! ### Sessions -/

/-- A session before the first switch. -/
structure NoCipher (s : Sess) : Prop where
  mode : s.blkstatus = false
  tx : s.cipherTx.ctx = none
  rx : s.cipherRx.ctx = none
  sound : s.ossl.misuse = false

theorem NoCipher.modeInv {s : Sess} (h : NoCipher s) : ModeInv s where
  sound := h.sound
  ready := fun hmode => by rw [h.mode] at hmode; cases hmode
  txBound := fun i hi => by rw [h.tx] at hi; cases hi
  rxBound := fun i hi => by rw [h.rx] at hi; cases hi
  distinct := fun i hi => by rw [h.tx] at hi; cases hi

theorem modeRun_inv : ∀ (ops : List ModeOp) (s : Sess), ModeInv s → AllAllowed o aes s ops →
    ∀ pre op post, ops = pre ++ op :: post →
      ModeInv (modeRun o aes s pre) ∧ Allowed o aes (modeRun o aes s pre) op := by
  intro ops
  induction ops with
  | nil =>
    intro s _ _ pre op post h
    exact absurd h (by simp)
  | cons op ops ih =>
    intro s hs hops pre op' post h
    obtain ⟨hop, hrest⟩ := hops
    cases pre with
    | nil =>
      obtain ⟨rfl, -⟩ := List.cons_eq_cons.mp h
      exact ⟨hs, hop⟩
    | cons op'' pre =>
      obtain ⟨rfl, htail⟩ := List.cons_eq_cons.mp h
      exact ih _ (modeStep_ok hs hop).2 hrest pre op' post htail

/-- A `GOAES` that is answered with success has created both contexts. -/
theorem allowed_goaes {s : Sess} (hreply : (modeStep o aes s .goaes).2 = some cmdOkText) :
    Allowed o aes s .goaes := by
  intro _
  have hne : some (cmdFailText cmdEaes) ≠ some cmdOkText := by decide
  rcases @modeStep_goaes o aes s with ⟨-, hnone⟩ | ⟨hon, -⟩ | ⟨-, hstep⟩
  · rw [hnone] at hreply
    cases hreply
  · exact (setblkon_ok_iff _).mp hon
  · rw [hstep] at hreply
    exact absurd hreply hne

/-- **Commands in pairs are allowed.**  While the block cipher is on, both contexts are live. -/
theorem allAllowed_of_inPairs : ∀ (ops : List ModeOp) (s : Sess), ModeInv s →
    InPairs s.blkstatus (ops.zip (Mealy.run (modeStep o aes) s ops).2) →
      AllAllowed o aes s ops := by
  intro ops
  induction ops with
  | nil =>
    intro s _ _
    trivial
  | cons op ops ih =>
    intro s hs hpaired
    obtain ⟨htfp, hgoaes, hrest⟩ := hpaired
    have hop : Allowed o aes s op := by
      cases op with
      | goaes =>
        by_cases hmode : s.blkstatus = true
        · exact allowed_goaes (hgoaes rfl hmode)
        · exact fun hon => absurd hon hmode
      | tfpcrypto =>
        obtain ⟨htx, hrx⟩ := hs.ready (htfp rfl)
        exact ⟨.inr htx, .inr hrx⟩
      | send m => trivial
      | recv len => trivial
    obtain ⟨hok, hinv⟩ := modeStep_ok hs hop
    refine ⟨hop, ih _ hinv ?_⟩
    rw [hok.mode]
    exact hrest

/-- **Switching is safe in every session of allowed commands.**  Whatever came before,
no step frees a context twice or uses one that is null or freed, a `GOAES` that replies
failure changes nothing in use, and the block cipher is on exactly from a successful
`GOAES` to the next `TFPCRYPTO`. -/
theorem modes_safe {s : Sess} (hs : NoCipher s) {ops : List ModeOp}
    (hops : AllAllowed o aes s ops) :
    ∀ pre op post, ops = pre ++ op :: post → StepOk o aes (modeRun o aes s pre) op := by
  intro pre op post hsplit
  obtain ⟨hinv, hop⟩ := modeRun_inv ops s hs.modeInv hops pre op post hsplit
  exact (modeStep_ok hinv hop).1

/-! ### Two sessions -/

/-- What a client writes that says `GOAES`, sends zeros for a key and a vector, says
`TFPCRYPTO` in block mode and says it again afterwards. -/
def switchBytes : List Byte :=
  let clear := sendAll .little Aes.sample exampleTx [.msg (lit "GOAES"), .raw zeroKey, .raw zeroIv]
  let again := sendAll .little Aes.sample { clear with out := [] } [.msg (lit "TFPCRYPTO")]
  clear.out ++ Aes.sample.enc zeroKey zeroIv (hdrsetsz .little 9) ++
    Aes.sample.enc zeroKey zeroIv (lit "TFPCRYPTO") ++ again.out

/-- A server in stream mode that is about to read these bytes, with the outcomes of the
coming calls of OpenSSL. -/
def exampleSwitch (fates : List Bool) : Sess :=
  { (default : Sess) with
    crypRx := exampleCrypto .unpack
    crypTx := exampleCrypto .pack
    ossl := { (default : Ossl) with fates := fates }
    inp := switchBytes }

theorem modes_safe_example :
    (modeRun .little Aes.sample (exampleSwitch []) [.goaes]).blkstatus = true ∧
      StepOk .little Aes.sample (modeRun .little Aes.sample (exampleSwitch []) [.goaes])
        .tfpcrypto := by
  have hs : NoCipher (exampleSwitch []) := ⟨rfl, rfl, rfl, rfl⟩
  have hgoaes : Allowed .little Aes.sample (exampleSwitch []) .goaes := fun h => nomatch h
  have htfp : Allowed .little Aes.sample (modeStep .little Aes.sample (exampleSwitch []) .goaes).1
      .tfpcrypto := by
    refine ⟨.inr ?_, .inr ?_⟩ <;> decide +kernel
  refine ⟨by decide +kernel, ?_⟩
  exact @modes_safe .little Aes.sample _ hs [.goaes, .tfpcrypto]
    ⟨hgoaes, htfp, trivial⟩ [.goaes] .tfpcrypto [] rfl

/-- The second `TFPCRYPTO` finds the two pointers the first one left and frees both
contexts again. -/
theorem modes_unsafe :
    let s := modeRun .little Aes.sample (exampleSwitch []) [.goaes, .tfpcrypto]
    NoCipher (exampleSwitch []) ∧ s.blkstatus = false ∧ s.ossl.misuse = false ∧
      (modeStep .little Aes.sample s .tfpcrypto).2 = some cmdOkText ∧
      ¬ StepOk .little Aes.sample s .tfpcrypto := by
  refine ⟨⟨rfl, rfl, rfl, rfl⟩, by decide +kernel, by decide +kernel, by decide +kernel, ?_⟩
  intro h
  exact absurd h.sound (by decide +kernel)

end TFProtocol
