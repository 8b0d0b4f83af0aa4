import TFProtocol.Cia
import TFProtocol.Server
import TFProtocol.Sup

/-!
# A payload for which there is no memory

`INTWRITE` and `XS1_WRITEV2` allocate a buffer for the payload they announce.  If that fails
they call `rdnull`, which reads from the descriptor until as many bytes have passed as were
announced, and then they send their error.  `rdnull` asks for the size of its own buffer each
time, whatever is left to read, it subtracts what `read` returns, the `-1` of a failure too,
and it knows nothing of tokens, of blocks or of the stream cipher.

## Main definitions

* `rdnull`, `NoMem.run` — the loop, with a bound on its turns, and the error paths.
* `wireTotal` — the bytes that a payload takes on the wire.
* `DiscardOk` — the session goes on as if the payload had been received.
* `PaidOff` — the calls of `read` that end the loop, by what they take and how they fail.

## Main results

* `rdnull_iff` — the loop returns if and only if some calls end it.
* `discard_iff` — the session goes on in step if and only if they end it in the right place.
-/

namespace TFProtocol

open Bytes CStr

/-! ### The loop -/

/-- `read(fd, buf, bufsz)`: what it returns, and the session. -/
def sysRead (bufsz : ℕ) (s : Sess) : ℤ × Sess :=
  match s.rsched with
  | .eintr :: sched => (-1, { s with rsched := sched })
  | .err :: sched => (-1, { s with rsched := sched })
  | .cnt n :: sched =>
    let k := min (n + 1) (min bufsz s.inp.length)
    (k, { s with inp := s.inp.drop k, rsched := sched })
  | [] =>
    let k := min bufsz s.inp.length
    (k, { s with inp := s.inp.drop k })

/-- `RDNULLBUF`, or the size of an `int64_t` if there is no memory for that either. -/
def rdnullBuf (mem : Bool) : ℕ := if mem then 64 * 1024 else 8

/-- `rdnull`: the session when it returns, if it does in that many turns.  What is left of the
size is an integer here: it grows by one for every call that fails, and no run is long enough
for an `int64_t` to overflow. -/
def rdnull (bufsz : ℕ) : ℕ → Sess → ℤ → Option Sess
  | 0, s, sz => if 0 < sz then none else some s
  | turns + 1, s, sz =>
    if 0 < sz then
      let r := sysRead bufsz s
      rdnull bufsz turns r.2 (sz - r.1)
    else some s

/-! ### The error paths -/

/-- A command that finds no memory, with the length in its header. -/
inductive NoMem
  | intwrite (byteslen : BitVec 32)
  /-- `errstr` is what an earlier error left in the array. -/
  | writev2 (bytes : BitVec 64) (errstr : List Byte)
  deriving DecidableEq, Repr

/-- The length that is announced; `INTWRITE` announces nothing with a negative one. -/
def NoMem.announced : NoMem → ℕ
  | .intwrite byteslen => byteslen.toInt.toNat
  | .writev2 bytes _ => bytes.toNat

/-- The length that `rdnull` is called with, an `int64_t`. -/
def NoMem.size : NoMem → ℤ
  | .intwrite byteslen => byteslen.toInt
  | .writev2 bytes _ => bytes.toInt

section

variable (o : Endian) (aes : Aes)

/-- The messages of the error: `-1`, and for `XS1_WRITEV2` the array with the text. -/
def NoMem.replies : NoMem → List (List Byte)
  | .intwrite _ => [rawHdr o (-1)]
  | .writev2 _ errstr =>
    [memBytes o 8 (BitVec.ofInt 64 (-1)).toNat,
      overlay errstr (lit "XS1 17 : Error allocating buffer." ++ [0])]

/-- Messages are sent, until one cannot be, which ends the session. -/
def sendMessages (s : Sess) : List (List Byte) → Sess
  | [] => s
  | m :: ms =>
    let w := writebufEx o aes s m
    if w.ret = -1 then { w.sess with loop := false } else sendMessages w.sess ms

/-- What follows when `malloc` returns `NULL`; `mem` if `rdnull` gets its buffer. -/
def NoMem.run (mem : Bool) (turns : ℕ) (s : Sess) (c : NoMem) : Option Sess :=
  (rdnull (rdnullBuf mem) turns s c.size).map fun s => sendMessages o aes s (c.replies o)

/-! ### What is wanted -/

/-- The bytes that a payload takes on the wire, with the impersonation token in front of it; no
token is asked for in front of nothing, in block mode. -/
def wireTotal (s : Sess) (n : ℕ) : ℕ :=
  if s.blkstatus && n = 0 then 0
  else (if s.ciaSt && !(s.blkstatus && s.ciaSend) then wireLen s ciaLen else 0) + wireLen s n

/-- The receive ciphers are in the same state. -/
structure SameRx (s t : Sess) : Prop where
  crypRx : t.crypRx = s.crypRx
  cipherRx : t.cipherRx = s.cipherRx
  ciaSend : t.ciaSend = s.ciaSend

/-- **The session goes on as if the payload had been received**: the error path comes to an
end, it takes the bytes of the payload off the wire and no others, if they are there, it
leaves the receive ciphers as receiving the payload would, and it sends its error. -/
def DiscardOk (mem : Bool) (s : Sess) (c : NoMem) : Prop :=
  ∃ turns t, c.run o aes mem turns s = some t ∧
    (wireTotal s c.announced ≤ s.inp.length → t.inp = s.inp.drop (wireTotal s c.announced)) ∧
    SameRx (readbufEx o aes s c.announced).sess t ∧
    t.out = (sendMessages o aes s (c.replies o)).out

end

/-! ### The condition -/

/-- `read` returns `-1`. -/
def SysRes.failed : SysRes → Bool
  | .eintr => true
  | .err => true
  | .cnt _ => false

/-- How many of the first calls fail. -/
def failures (sched : List SysRes) (j : ℕ) : ℕ := ((sched.take j).filter SysRes.failed).length

/-- How many bytes the first calls take, if each asks for `bufsz`. -/
def taken (bufsz : ℕ) : ℕ → List SysRes → List Byte → ℕ
  | 0, _, _ => 0
  | j + 1, .eintr :: sched, inp => taken bufsz j sched inp
  | j + 1, .err :: sched, inp => taken bufsz j sched inp
  | j + 1, .cnt n :: sched, inp =>
    let k := min (n + 1) (min bufsz inp.length)
    k + taken bufsz j sched (inp.drop k)
  | j + 1, [], inp =>
    let k := min bufsz inp.length
    k + taken bufsz j [] (inp.drop k)

/-- The first calls take as many bytes as the length says, and one more for each failure. -/
def PaidOff (bufsz : ℕ) (s : Sess) (sz : ℤ) (j : ℕ) : Prop :=
  sz + failures s.rsched j ≤ taken bufsz j s.rsched s.inp

/-- **The condition**: at some point the calls have paid off the length, the first time they
have they end right behind the payload, if all of it is there, and receiving it would leave
the ciphers alone. -/
def DiscardRoom (o : Endian) (aes : Aes) (mem : Bool) (s : Sess) (c : NoMem) : Prop :=
  (∃ j, PaidOff (rdnullBuf mem) s c.size j ∧ (∀ i < j, ¬ PaidOff (rdnullBuf mem) s c.size i) ∧
    (wireTotal s c.announced ≤ s.inp.length →
      taken (rdnullBuf mem) j s.rsched s.inp = wireTotal s c.announced)) ∧
    SameRx s (readbufEx o aes s c.announced).sess

/-! ### A payload on the wire -/

section

variable {o : Endian} {aes : Aes}

/-- One read that succeeds takes the bytes that carry what it was asked for. -/
theorem rawRead_takes {s : Sess} {n : ℕ} (h : (rawRead o aes s n true).ret ≠ -1) :
    wireLen s n ≤ s.inp.length ∧ (rawRead o aes s n true).sess.inp = s.inp.drop (wireLen s n) := by
  obtain ⟨raw, hinp, hlen, -⟩ := rawRead_carries h
  rw [Int.toNat_natCast] at hlen
  have hsplit := congrArg (List.drop (wireLen s n)) hinp
  rw [← hlen, List.drop_left] at hsplit
  rw [← hlen]
  exact ⟨by rw [hinp, List.length_append]; omega, hsplit.symm⟩

/-- Two reads, one behind the other. -/
theorem rawRead_takes_two {s : Sess} {n k : ℕ} (h : (rawRead o aes s k true).ret ≠ -1)
    (h' : (rawRead o aes (rawRead o aes s k true).sess n true).ret ≠ -1) :
    wireLen s k + wireLen s n ≤ s.inp.length ∧
      (rawRead o aes (rawRead o aes s k true).sess n true).sess.inp =
        s.inp.drop (wireLen s k + wireLen s n) := by
  have hlen : wireLen (rawRead o aes s k true).sess n = wireLen s n := by
    rw [wireLen, wireLen, rawRead_blkstatus]
  obtain ⟨hle, hinp⟩ := rawRead_takes h
  obtain ⟨hle', hinp'⟩ := rawRead_takes h'
  rw [hlen, hinp, List.length_drop] at hle'
  rw [hlen, hinp, List.drop_drop] at hinp'
  exact ⟨by omega, hinp'⟩

/-- In block mode, a receive that succeeds takes the blocks of the token and the payload. -/
theorem blkRcvbuf_takes {s : Sess} (hblk : s.blkstatus = true) {n : ℕ}
    (h : (blkRcvbuf aes s n).ret ≠ -1) :
    wireTotal s n ≤ s.inp.length ∧ (blkRcvbuf aes s n).sess.inp = s.inp.drop (wireTotal s n) := by
  -- the byte order of the host does not matter here
  have hraw : ∀ t : Sess, t.blkstatus = true → ∀ k : ℕ,
      blkRead aes t k = rawRead .little aes t k true := by
    intro t ht k
    simp [rawRead, ht]
  rw [blkRcvbuf] at h ⊢
  by_cases hzero : (n : ℤ) ≤ 0
  · have hn : n = 0 := by omega
    rw [if_pos hzero]
    simp [wireTotal, hblk, hn]
  have hn : n ≠ 0 := by omega
  rw [if_neg hzero, Int.toNat_natCast] at h ⊢
  by_cases hst : s.ciaSt = true
  case neg =>
    rw [if_neg hst, hraw s hblk] at h ⊢
    simpa [wireTotal, hblk, hst, hn] using rawRead_takes h
  case pos =>
    -- the toggle is lowered before anything is read
    obtain ⟨u, hu⟩ : ∃ u, u = { s with ciaSend := false } := ⟨_, rfl⟩
    have hublk : u.blkstatus = true := by rw [hu, ← hblk]
    have huinp : u.inp = s.inp := by rw [hu]
    have htok : blkRead aes u 36 = rawRead .little aes u ciaLen true := hraw u hublk ciaLen
    have hnext := hraw (rawRead .little aes u ciaLen true).sess (by rw [rawRead_blkstatus, hublk]) n
    rw [if_pos hst, ← hu] at h ⊢
    simp only [htok, hnext, hraw u hublk] at h ⊢
    by_cases hsend : s.ciaSend = true
    · rw [if_pos hsend] at h ⊢
      simpa [wireTotal, wireLen, hublk, huinp, hblk, hst, hsend, hn] using rawRead_takes h
    · rw [if_neg hsend] at h ⊢
      split at h
      · exact absurd rfl h
      · next hret =>
        split at h
        · next hcia =>
          rw [if_neg hret, if_pos hcia]
          simpa [wireTotal, wireLen, hublk, huinp, hblk, hst, hsend, hn] using
            rawRead_takes_two hret h
        · exact absurd rfl h

/-- **A receive that succeeds takes the payload off the wire**, token and padding and all. -/
theorem readbufEx_takes {s : Sess} {n : ℕ} (h : (readbufEx o aes s n).ret ≠ -1) :
    wireTotal s n ≤ s.inp.length ∧
      (readbufEx o aes s n).sess.inp = s.inp.drop (wireTotal s n) := by
  rw [readbufEx, rcvbuf] at h ⊢
  by_cases hblk : s.blkstatus = true
  · rw [if_pos hblk] at h ⊢
    exact blkRcvbuf_takes hblk h
  rw [if_neg hblk] at h ⊢
  rw [Bool.not_eq_true] at hblk
  have hraw : ∀ t : Sess, t.blkstatus = false → ∀ k : ℕ,
      streamRead o t k true = rawRead o aes t k true := by
    intro t ht k
    simp [rawRead, ht]
  by_cases hst : s.ciaSt = true
  · have htok : streamRead o s 36 true = rawRead o aes s ciaLen true := hraw s hblk ciaLen
    have hnext := hraw (rawRead o aes s ciaLen true).sess (by rw [rawRead_blkstatus, hblk]) n
    rw [if_pos hst] at h ⊢
    simp only [htok, hnext] at h ⊢
    split at h
    · exact absurd rfl h
    · next hret =>
      split at h
      · next hcia =>
        rw [if_neg hret, if_pos hcia]
        simpa [wireTotal, hblk, hst] using rawRead_takes_two hret h
      · exact absurd rfl h
  · rw [if_neg hst, hraw s hblk] at h ⊢
    simpa [wireTotal, hblk, hst] using rawRead_takes h

end

/-! ### The calls of `read` -/

/-- The session with another rest of the input, and other answers to come. -/
def Sess.onRx (s : Sess) (inp : List Byte) (sched : List SysRes) : Sess :=
  { s with inp := inp, rsched := sched }

section

variable (bufsz : ℕ)

/-- What the first calls return, in total. -/
def readTotal : ℕ → Sess → ℤ
  | 0, _ => 0
  | j + 1, s => (sysRead bufsz s).1 + readTotal j (sysRead bufsz s).2

/-- The session after the first calls. -/
def readOn : ℕ → Sess → Sess
  | 0, s => s
  | j + 1, s => readOn j (sysRead bufsz s).2

theorem failures_cons (r : SysRes) (sched : List SysRes) (j : ℕ) :
    failures (r :: sched) (j + 1) = failures sched j + if r.failed then 1 else 0 := by
  cases h : r.failed <;> simp [failures, h]

/-- The calls take what `taken` says, and each failure costs one. -/
theorem readOn_spec : ∀ (j : ℕ) (s : Sess),
    taken bufsz j s.rsched s.inp ≤ s.inp.length ∧
      readTotal bufsz j s = taken bufsz j s.rsched s.inp - failures s.rsched j ∧
      readOn bufsz j s =
        s.onRx (s.inp.drop (taken bufsz j s.rsched s.inp)) (s.rsched.drop j) := by
  intro j
  induction j with
  | zero =>
    intro s
    exact ⟨Nat.zero_le _, by simp [readTotal, taken, failures], by simp [readOn, taken, Sess.onRx]⟩
  | succ j ih =>
    intro s
    obtain ⟨hle, htotal, hon⟩ := ih (sysRead bufsz s).2
    cases hsched : s.rsched with
    | nil =>
      simp only [sysRead, hsched, List.length_drop] at hle htotal hon
      simp only [readTotal, readOn, taken, sysRead, hsched]
      refine ⟨by omega, ?_, ?_⟩
      · rw [htotal]
        simp [failures]
      · rw [hon]
        simp [Sess.onRx, List.drop_drop]
    | cons r sched =>
      cases r with
      | eintr | err =>
        simp only [sysRead, hsched] at hle htotal hon
        simp only [readTotal, readOn, taken, sysRead, hsched]
        refine ⟨hle, ?_, ?_⟩
        · rw [htotal, failures_cons]
          simp only [SysRes.failed, if_true]
          omega
        · rw [hon]
          rfl
      | cnt n =>
        simp only [sysRead, hsched, List.length_drop] at hle htotal hon
        simp only [readTotal, readOn, taken, sysRead, hsched]
        refine ⟨by omega, ?_, ?_⟩
        · rw [htotal, failures_cons]
          simp only [SysRes.failed, Bool.false_eq_true, if_false]
          omega
        · rw [hon]
          simp [Sess.onRx, List.drop_drop]

/-- **The loop returns** if and only if some calls return the size, or more, in total, and it
returns the first time they do. -/
theorem rdnull_iff {t : Sess} : ∀ {s : Sess} {sz : ℤ},
    (∃ turns, rdnull bufsz turns s sz = some t) ↔
      ∃ j, sz ≤ readTotal bufsz j s ∧ (∀ i < j, readTotal bufsz i s < sz) ∧
        readOn bufsz j s = t := by
  intro s sz
  constructor
  · rintro ⟨turns, h⟩
    induction turns generalizing s sz with
    | zero =>
      rw [rdnull] at h
      split at h
      · cases h
      · next hsz => exact ⟨0, not_lt.mp hsz, by simp, Option.some.inj h⟩
    | succ turns ih =>
      rw [rdnull] at h
      split at h
      · next hsz =>
        obtain ⟨j, hpaid, hfirst, ht⟩ := ih h
        refine ⟨j + 1, ?_, fun i hi => ?_, ht⟩
        · rw [readTotal]
          omega
        · cases i with
          | zero => exact hsz
          | succ i =>
            have := hfirst i (by omega)
            rw [readTotal]
            omega
      · next hsz => exact ⟨0, not_lt.mp hsz, by simp, Option.some.inj h⟩
  · rintro ⟨j, hpaid, hfirst, ht⟩
    induction j generalizing s sz with
    | zero =>
      have hsz : ¬ 0 < sz := not_lt.mpr hpaid
      exact ⟨0, by rw [rdnull, if_neg hsz]; exact congrArg some ht⟩
    | succ j ih =>
      have hsz : 0 < sz := hfirst 0 (Nat.succ_pos j)
      rw [readTotal] at hpaid
      have hrest : ∀ i < j, readTotal bufsz i (sysRead bufsz s).2 < sz - (sysRead bufsz s).1 := by
        intro i hi
        have := hfirst (i + 1) (by omega)
        rw [readTotal] at this
        omega
      obtain ⟨turns, hturns⟩ := @ih (sysRead bufsz s).2 (sz - (sysRead bufsz s).1) (by omega)
        hrest ht
      exact ⟨turns + 1, by rw [rdnull, if_pos hsz]; exact hturns⟩

/-- A peer that closes before the payload is there keeps the loop for ever. -/
theorem rdnull_of_short {s : Sess} {sz : ℤ} (h : (s.inp.length : ℤ) < sz) (turns : ℕ) :
    rdnull bufsz turns s sz = none := by
  rw [Option.eq_none_iff_forall_ne_some]
  intro t ht
  obtain ⟨j, hpaid, -, -⟩ := (rdnull_iff bufsz).mp ⟨turns, ht⟩
  obtain ⟨hle, htotal, -⟩ := readOn_spec bufsz j s
  omega

end

/-! ### What is sent -/

section

variable {o : Endian} {aes : Aes}

/-- A send in the session with another rest of the input, and other answers to come. -/
def Snd.onRx (w : Snd) (inp : List Byte) (sched : List SysRes) : Snd :=
  { w with sess := w.sess.onRx inp sched }

@[simp] theorem Snd.onRx_ret (w : Snd) (inp : List Byte) (sched : List SysRes) :
    (w.onRx inp sched).ret = w.ret := rfl

theorem blkSndbuf_onRx (s : Sess) (inp : List Byte) (sched : List SysRes) (m : List Byte) :
    blkSndbuf aes (s.onRx inp sched) m = (blkSndbuf aes s m).onRx inp sched := by
  have henc : blkencrypt aes (s.onRx inp sched).ossl (s.onRx inp sched).cipherTx m (cint m.length) =
      blkencrypt aes s.ossl s.cipherTx m (cint m.length) := rfl
  have hwrite : ∀ (l : Ossl) (b : List Byte), wrfd { s.onRx inp sched with ossl := l } b =
      ((wrfd { s with ossl := l } b).1, (wrfd { s with ossl := l } b).2.onRx inp sched) :=
    fun _ _ => rfl
  simp only [blkSndbuf, henc, hwrite]
  split
  · rfl
  · cases (blkencrypt aes s.ossl s.cipherTx m (cint m.length)).1 with
    | none => rfl
    | some ct =>
      simp only
      split <;> rfl

/-- What is sent has nothing to do with what is received. -/
theorem sndbuf_onRx (s : Sess) (inp : List Byte) (sched : List SysRes) (m : List Byte)
    (enc : Bool) :
    sndbuf o aes (s.onRx inp sched) m enc = (sndbuf o aes s m enc).onRx inp sched := by
  simp only [sndbuf, blkSndbuf_onRx]
  show (if s.blkstatus = true then _ else _) = _
  split
  · rfl
  · show (if (enc && s.crypTx.hasEncrypt) = true then _ else _) = _
    split <;> rfl

theorem sendMessages_onRx (inp : List Byte) (sched : List SysRes) : ∀ (ms : List (List Byte))
    (s : Sess), sendMessages o aes (s.onRx inp sched) ms =
      (sendMessages o aes s ms).onRx inp sched := by
  intro ms
  induction ms with
  | nil => intro s; rfl
  | cons m ms ih =>
    intro s
    by_cases hret : (sndbuf o aes s m true).ret = -1
    · simp only [sendMessages, writebufEx, sndbuf_onRx, Snd.onRx_ret, hret, if_true]
      rfl
    · simp only [sendMessages, writebufEx, sndbuf_onRx, Snd.onRx_ret, hret, if_false]
      exact ih _

theorem SameRx.refl (s : Sess) : SameRx s s := ⟨rfl, rfl, rfl⟩

theorem SameRx.symm {s t : Sess} (h : SameRx s t) : SameRx t s :=
  ⟨h.crypRx.symm, h.cipherRx.symm, h.ciaSend.symm⟩

theorem SameRx.trans {s t u : Sess} (h : SameRx s t) (h' : SameRx t u) : SameRx s u :=
  ⟨h'.crypRx.trans h.crypRx, h'.cipherRx.trans h.cipherRx, h'.ciaSend.trans h.ciaSend⟩

theorem sndbuf_sameRx (s : Sess) (m : List Byte) (enc : Bool) :
    SameRx s (sndbuf o aes s m enc).sess := by
  simp only [sndbuf]
  split
  · simp only [blkSndbuf]
    split
    · exact SameRx.refl s
    · split
      · exact ⟨rfl, rfl, rfl⟩
      · split <;> exact ⟨rfl, rfl, rfl⟩
  · split <;> exact ⟨rfl, rfl, rfl⟩

theorem sendMessages_sameRx : ∀ (ms : List (List Byte)) (s : Sess),
    SameRx s (sendMessages o aes s ms) := by
  intro ms
  induction ms with
  | nil => exact SameRx.refl
  | cons m ms ih =>
    intro s
    have hone : SameRx s (writebufEx o aes s m).sess := sndbuf_sameRx s m true
    simp only [sendMessages]
    split
    · exact ⟨hone.crypRx, hone.cipherRx, hone.ciaSend⟩
    · exact hone.trans (ih _)

/-! ### In step -/

/-- **An error path that ends** has taken what the calls take, and has sent its error. -/
theorem NoMem.run_iff {mem : Bool} {s t : Sess} {c : NoMem} :
    (∃ turns, c.run o aes mem turns s = some t) ↔
      ∃ j, PaidOff (rdnullBuf mem) s c.size j ∧ (∀ i < j, ¬ PaidOff (rdnullBuf mem) s c.size i) ∧
        t = (sendMessages o aes s (c.replies o)).onRx
          (s.inp.drop (taken (rdnullBuf mem) j s.rsched s.inp)) (s.rsched.drop j) := by
  have hpaid : ∀ j, PaidOff (rdnullBuf mem) s c.size j ↔
      c.size ≤ readTotal (rdnullBuf mem) j s := by
    intro j
    rw [PaidOff, (readOn_spec (rdnullBuf mem) j s).2.1]
    omega
  simp only [NoMem.run, Option.map_eq_some_iff]
  constructor
  · rintro ⟨turns, u, hu, rfl⟩
    obtain ⟨j, hj, hfirst, rfl⟩ := (rdnull_iff _).mp ⟨turns, hu⟩
    refine ⟨j, (hpaid j).mpr hj, fun i hi h => ?_, ?_⟩
    · exact absurd ((hpaid i).mp h) (not_le.mpr (hfirst i hi))
    · rw [(readOn_spec (rdnullBuf mem) j s).2.2, sendMessages_onRx]
  · rintro ⟨j, hj, hfirst, rfl⟩
    obtain ⟨turns, hu⟩ := (rdnull_iff (rdnullBuf mem)).mpr ⟨j, (hpaid j).mp hj, fun i hi =>
      not_le.mp fun h => hfirst i hi ((hpaid i).mpr h), rfl⟩
    refine ⟨turns, _, hu, ?_⟩
    rw [(readOn_spec (rdnullBuf mem) j s).2.2, sendMessages_onRx]

/-- **After a failed allocation the session stays in step** if and only if the calls of `read`
end right behind the payload, and receiving it would not have changed the ciphers. -/
theorem discard_iff (mem : Bool) (s : Sess) (c : NoMem) :
    DiscardOk o aes mem s c ↔ DiscardRoom o aes mem s c := by
  have hsent : SameRx s (sendMessages o aes s (c.replies o)) := sendMessages_sameRx _ s
  constructor
  · rintro ⟨turns, t, hrun, hinp, hrx, -⟩
    obtain ⟨j, hpaid, hfirst, rfl⟩ := NoMem.run_iff.mp ⟨turns, hrun⟩
    refine ⟨⟨j, hpaid, hfirst, fun hthere => ?_⟩, ?_⟩
    · -- what is left behind the calls is as long as what is left behind the payload
      have hle := (readOn_spec (rdnullBuf mem) j s).1
      have hlen := congrArg List.length (hinp hthere)
      simp only [Sess.onRx, List.length_drop] at hlen
      omega
    · exact hsent.trans (SameRx.symm ⟨hrx.crypRx, hrx.cipherRx, hrx.ciaSend⟩)
  · rintro ⟨⟨j, hpaid, hfirst, htaken⟩, hrx⟩
    obtain ⟨turns, hrun⟩ := NoMem.run_iff.mpr ⟨j, hpaid, hfirst, rfl⟩
    refine ⟨turns, _, hrun, fun hthere => ?_, ?_, rfl⟩
    · rw [← htaken hthere]
      rfl
    · have h := hrx.symm.trans hsent
      exact ⟨h.crypRx, h.cipherRx, h.ciaSend⟩

end

instance (bufsz : ℕ) (s : Sess) (sz : ℤ) (j : ℕ) : Decidable (PaidOff bufsz s sz j) :=
  inferInstanceAs (Decidable (_ ≤ _))

/-- A payload of three bytes, with the next frame behind it. -/
def exampleQueued : Sess := { (default : Sess) with inp := lit "abc" ++ clearFrame (lit "LS") }

/-- The peer closes after it has announced a terabyte, and the loop never ends; and the frame
behind a payload of three bytes is thrown away with it. -/
theorem discard_out_of_step :
    ¬ DiscardOk .little Aes.sample true default (.writev2 (BitVec.ofNat 64 (2 ^ 40)) []) ∧
      ¬ DiscardOk .little Aes.sample true exampleQueued (.intwrite 3) := by
  constructor
  · rintro ⟨turns, t, hrun, -⟩
    rw [NoMem.run, rdnull_of_short _ (by decide)] at hrun
    cases hrun
  · rintro ⟨turns, t, hrun, hinp, -⟩
    obtain ⟨j, hpaid, hfirst, rfl⟩ := NoMem.run_iff.mp ⟨turns, hrun⟩
    -- the first call takes everything
    obtain rfl : j = 1 := by
      rcases Nat.lt_trichotomy j 1 with hj | hj | hj
      · obtain rfl : j = 0 := by omega
        exact absurd hpaid (by decide)
      · exact hj
      · exact absurd (show PaidOff (rdnullBuf true) exampleQueued _ 1 by decide) (hfirst 1 hj)
    exact absurd (hinp (by decide)) (by decide)

end TFProtocol
