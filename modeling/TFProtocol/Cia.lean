import TFProtocol.Session

/-!
# Client impersonation avoidance

After `CIAON` everything a client sends has the 36 characters of a UUID in front of
it, and `rcvbuf` refuses a payload that arrives without them.  In stream mode the
token is read in line.  In block mode `blk_rcvbuf` calls itself for it, and the
static variable `cia_send` tells the inner call from the outer one: the outer call
raises it, the inner call lowers it before it does anything that can fail.

So the variable is down again after every call, whichever way the call ends, and the
next call is not taken for an inner one.

## Main definitions

* `rawRead` — one read of a payload, without a token, in the mode in force.
* `Carries` — the bytes on the descriptor that hold a payload.
* `RcvCall`, `entry` — a sequence of outermost calls, with anything in between.
* `Guarded` — what a call may do.

## Main results

* `blkRcvbuf_nested` — the definition of `blkRcvbuf` is the recursion of the source.
* `cia_guards_receives` — every call of every sequence is guarded.
-/

namespace TFProtocol

open Bytes CStr

/-- The length of the token, `UUIDCHAR_LEN - 1`. -/
def ciaLen : ℕ := 36

section Layer

variable (o : Endian) (aes : Aes)

/-- One read of `len` bytes of payload in the mode in force, without a token. -/
def rawRead (s : Sess) (len : ℤ) (enc : Bool) : Rcv :=
  if s.blkstatus then blkRead aes s len.toNat else streamRead o s len enc

/-- The number of bytes on the descriptor that carry `n` bytes of payload. -/
def wireLen (s : Sess) (n : ℕ) : ℕ := if s.blkstatus then aesLen n else n

/-- What the ciphers of the session make of the bytes `raw` of a payload of `n`
bytes. -/
def decodeWire (s : Sess) (n : ℕ) (enc : Bool) (raw : List Byte) : Option (List Byte) :=
  if s.blkstatus then
    let d := blkdecrypt aes s.ossl s.cipherRx raw (cint (aesLen n))
    if d.1.2 then some d.1.1 else none
  else if enc && s.crypRx.hasEncrypt then some (encrypt o s.crypRx raw (cint n)).2
  else some raw

/-- The bytes `raw` are the encoding of the payload `bytes`, asked for with length
`n`. -/
def Carries (s : Sess) (n : ℕ) (enc : Bool) (raw bytes : List Byte) : Prop :=
  raw.length = wireLen s n ∧ decodeWire o aes s n enc raw = some bytes

/-! ### Sequences of calls -/

/-- An outermost call of `rcvbuf`, and what the rest of the program does to the
session before it. -/
structure RcvCall where
  before : Sess → Sess
  len : ℤ
  enc : Bool

/-- Avoidance is on, under a UUID. -/
structure CiaOn (s : Sess) : Prop where
  st : s.ciaSt = true
  length : s.cia.length = ciaLen
  no_nul : 0 ∉ s.cia

/-- A call of `rcvbuf` with a positive length and avoidance on.  The toggle is local to
`blk_rcvbuf`, so nothing else can touch it. -/
structure RcvCall.Ok (c : RcvCall) : Prop where
  pos : 0 < c.len
  on : ∀ s, CiaOn (c.before s)
  toggle : ∀ s, (c.before s).ciaSend = s.ciaSend

/-- The session in which the call behind these calls is made. -/
def entry (s : Sess) : List RcvCall → Sess
  | [] => s
  | c :: cs => entry (rcvbuf o aes (c.before s) c.len c.enc).sess cs

/-- Every decryption a call makes yields the number of bytes it was asked for, if it
succeeds. -/
def ExactReads (s : Sess) (len : ℤ) : Prop :=
  s.blkstatus = true →
    ((blkRead aes s ciaLen).ret ≠ -1 → (blkRead aes s ciaLen).got.length = ciaLen) ∧
    ((blkRead aes (blkRead aes s ciaLen).sess len.toNat).ret ≠ -1 →
      (blkRead aes (blkRead aes s ciaLen).sess len.toNat).got.length = len.toNat)

/-- What an outermost call entered in the session `s` may do: the toggle is down when it
starts; if it succeeds, the token and the payload were the next bytes on the descriptor;
if the next bytes are not the token, it fails and reads nothing behind them. -/
structure Guarded (s : Sess) (len : ℤ) (enc : Bool) : Prop where
  toggle : s.ciaSend = false
  success : (rcvbuf o aes s len enc).ret ≠ -1 →
    ∃ tok payload, s.inp = tok ++ (payload ++ (rcvbuf o aes s len enc).sess.inp) ∧
      Carries o aes s ciaLen enc tok s.cia ∧
      Carries o aes (rawRead o aes s ciaLen enc).sess len.toNat enc payload
        (rcvbuf o aes s len enc).got ∧
      (rcvbuf o aes s len enc).got.length = len.toNat
  differs : (∀ tok rest, s.inp = tok ++ rest → ¬ Carries o aes s ciaLen enc tok s.cia) →
    (rcvbuf o aes s len enc).ret = -1 ∧ (rcvbuf o aes s len enc).got = [] ∧
      (rcvbuf o aes s len enc).sess = (rawRead o aes s ciaLen enc).sess

end Layer

/-! ### The recursion of the source -/

variable {o : Endian} {aes : Aes}

/-- **`blk_rcvbuf` calls itself for the token**: the outer call raises the toggle, and
the call it makes finds it up and lowers it. -/
theorem blkRcvbuf_nested (s : Sess) (len : ℤ) :
    blkRcvbuf aes s len =
      if len ≤ 0 then ⟨0, [], s⟩
      else if s.ciaSt then
        if !s.ciaSend then
          let tok := blkRcvbuf aes { s with ciaSend := true } ciaLen
          if tok.ret = -1 then ⟨-1, [], tok.sess⟩
          else if s.cia = cstr (overlay (List.replicate 37 0) tok.got) then
            blkRead aes tok.sess len.toNat
          else ⟨-1, [], tok.sess⟩
        else blkRead aes { s with ciaSend := false } len.toNat
      else blkRead aes s len.toNat := by
  by_cases hlen : len ≤ 0
  · simp [blkRcvbuf, hlen]
  · cases hst : s.ciaSt <;> cases hsend : s.ciaSend <;> simp [blkRcvbuf, hlen, hst, hsend, ciaLen]

/-! ### One read -/

theorem blkRead_ciaSend (s : Sess) (n : ℕ) : (blkRead aes s n).sess.ciaSend = s.ciaSend := by
  simp only [blkRead]
  split <;> rfl

theorem streamRead_ciaSend (s : Sess) (len : ℤ) (enc : Bool) :
    (streamRead o s len enc).sess.ciaSend = s.ciaSend := by
  simp only [streamRead]
  split
  · rfl
  · split <;> rfl

/-- A read keeps the mode. -/
theorem rawRead_blkstatus (s : Sess) (len : ℤ) (enc : Bool) :
    (rawRead o aes s len enc).sess.blkstatus = s.blkstatus := by
  unfold rawRead
  split
  · simp only [blkRead]
    split <;> rfl
  · simp only [streamRead]
    split
    · rfl
    · split <;> rfl

/-- A loop that does not return `-1` was not stopped. -/
theorem rdfd_of_ret {s : Sess} {len : ℤ} (h : (rdfd s len).ret ≠ -1) :
    s.inp = (rdfd s len).got ++ (rdfd s len).sess.inp ∧ (rdfd s len).got.length = len.toNat ∧
      (rdfd s len).ret = cint len.toNat := by
  simp only [rdfd] at h ⊢
  cases hok : (rdLoop s.rsched len.toNat s.inp).ok with
  | false => simp [hok] at h
  | true =>
    obtain ⟨hle, hbytes, hrest⟩ := rdLoop_of_ok _ _ _ hok
    rw [hbytes, hrest]
    exact ⟨(List.take_append_drop _ _).symm, by simpa using hle, if_pos rfl⟩

/-- **A read that succeeds has consumed the encoding of what it delivers.** -/
theorem rawRead_carries {s : Sess} {len : ℤ} {enc : Bool}
    (h : (rawRead o aes s len enc).ret ≠ -1) :
    ∃ raw, s.inp = raw ++ (rawRead o aes s len enc).sess.inp ∧
      Carries o aes s len.toNat enc raw (rawRead o aes s len enc).got := by
  cases hblk : s.blkstatus with
  | true =>
    simp only [rawRead, hblk, if_true, blkRead] at h ⊢
    by_cases hret : (rdfd s (aesLen len.toNat)).ret = -1
    · simp [hret] at h
    · obtain ⟨hinp, hlen, -⟩ := rdfd_of_ret hret
      rw [Int.toNat_natCast] at hlen
      simp only [hret, if_false] at h ⊢
      refine ⟨(rdfd s (aesLen len.toNat)).got, hinp, by simpa [wireLen, hblk] using hlen, ?_⟩
      have hdec : (blkdecrypt aes (rdfd s (aesLen len.toNat)).sess.ossl
          (rdfd s (aesLen len.toNat)).sess.cipherRx (rdfd s (aesLen len.toNat)).got
          (cint (aesLen len.toNat))).1.2 = true := by
        by_contra hbad
        simp [hbad] at h
      have hossl : (rdfd s (aesLen len.toNat)).sess.ossl = s.ossl := rfl
      have hrx : (rdfd s (aesLen len.toNat)).sess.cipherRx = s.cipherRx := rfl
      rw [hossl, hrx] at hdec ⊢
      simp only [decodeWire, hblk, if_true, hdec]
  | false =>
    simp only [rawRead, hblk, Bool.false_eq_true, if_false, streamRead] at h ⊢
    by_cases hret : (rdfd s len).ret = -1
    · simp [hret] at h
    · obtain ⟨hinp, hlen, hval⟩ := rdfd_of_ret hret
      have hrx : (rdfd s len).sess.crypRx = s.crypRx := rfl
      simp only [hret, if_false, hrx]
      split
      · next henc =>
        refine ⟨(rdfd s len).got, hinp, by simpa [wireLen, hblk] using hlen, ?_⟩
        simp only [decodeWire, hblk, Bool.false_eq_true, if_false, henc, if_true, hval]
      · next henc =>
        refine ⟨(rdfd s len).got, hinp, by simpa [wireLen, hblk] using hlen, ?_⟩
        simp only [decodeWire, hblk, Bool.false_eq_true, if_false, henc]

/-- What the token is compared with, once all of it arrived. -/
theorem cia_eq_iff {s : Sess} (h : CiaOn s) {got : List Byte} (hlen : got.length = ciaLen) :
    s.cia = cstr got ↔ got = s.cia := by
  constructor
  · intro heq
    have hle : got.length ≤ (cstr got).length := by rw [← heq, h.length, hlen]
    rw [heq]
    exact ((List.takeWhile_prefix _).eq_of_length_le hle).symm
  · rintro rfl
    exact (cstr_eq_self h.no_nul).symm

/-- The terminator behind the 36 characters in `cia_rcv` changes nothing. -/
theorem cstr_ciaRcv {got : List Byte} (hlen : got.length = ciaLen) :
    cstr (overlay (List.replicate 37 0) got) = cstr got := by
  have hover : overlay (List.replicate 37 0) got = got ++ [0] := by
    rw [overlay, hlen]
    rfl
  rw [hover, cstr, cstr, List.takeWhile_append]
  split
  · next h =>
    have hall : List.takeWhile (fun b => decide (b ≠ 0)) got = got :=
      (List.takeWhile_prefix _).eq_of_length h
    rw [hall]
    simp
  · rfl

/-- In stream mode a token that was read has 36 bytes. -/
theorem length_rawRead_stream {s : Sess} {len : ℤ} {enc : Bool} (hblk : s.blkstatus = false)
    (h : (rawRead o aes s len enc).ret ≠ -1) :
    (rawRead o aes s len enc).got.length = len.toNat := by
  simp only [rawRead, hblk, Bool.false_eq_true, if_false, streamRead] at h ⊢
  by_cases hret : (rdfd s len).ret = -1
  · simp [hret] at h
  · obtain ⟨-, hlen, -⟩ := rdfd_of_ret hret
    simp only [hret, if_false]
    split
    · simpa using hlen
    · exact hlen

/-- Every read of a call delivers what it was asked for. -/
theorem ExactReads.length {s : Sess} {len : ℤ} {enc : Bool} (h : ExactReads aes s len) :
    ((rawRead o aes s ciaLen enc).ret ≠ -1 → (rawRead o aes s ciaLen enc).got.length = ciaLen) ∧
    ((rawRead o aes (rawRead o aes s ciaLen enc).sess len enc).ret ≠ -1 →
      (rawRead o aes (rawRead o aes s ciaLen enc).sess len enc).got.length = len.toNat) := by
  cases hblk : s.blkstatus with
  | true =>
    have hnext : (rawRead o aes s ciaLen enc).sess.blkstatus = true := by
      rw [rawRead_blkstatus, hblk]
    have hfirst : rawRead o aes s ciaLen enc = blkRead aes s ciaLen := by
      simp [rawRead, hblk]
    rw [hfirst] at hnext ⊢
    have hsecond : rawRead o aes (blkRead aes s ciaLen).sess len enc
        = blkRead aes (blkRead aes s ciaLen).sess len.toNat := by
      simp [rawRead, hnext]
    rw [hsecond]
    exact h hblk
  | false =>
    exact ⟨fun hret => length_rawRead_stream hblk hret,
      length_rawRead_stream (by rw [rawRead_blkstatus, hblk])⟩

/-! ### One call -/

/-- With the toggle down, a call reads the token and, behind the right one, the
payload. -/
theorem rcvbuf_cia {s : Sess} (hon : CiaOn s) (htoggle : s.ciaSend = false) {len : ℤ}
    (hlen : 0 < len) (enc : Bool) (hexact : ExactReads aes s len) :
    rcvbuf o aes s len enc =
      let tok := rawRead o aes s ciaLen enc
      if tok.ret = -1 then ⟨-1, [], tok.sess⟩
      else if tok.got = s.cia then rawRead o aes tok.sess len enc
      else ⟨-1, [], tok.sess⟩ := by
  have htok := (@ExactReads.length o aes _ _ enc hexact).1
  have hlow : { s with ciaSend := false } = s := by rw [← htoggle]
  have hpos : ¬ len ≤ 0 := by omega
  cases hblk : s.blkstatus with
  | true =>
    have hraw : rawRead o aes s ciaLen enc = blkRead aes s ciaLen := by simp [rawRead, hblk]
    have hnext : (blkRead aes s ciaLen).sess.blkstatus = true := by
      rw [← hraw, rawRead_blkstatus, hblk]
    rw [hraw] at htok ⊢
    rw [rcvbuf, if_pos hblk, blkRcvbuf, if_neg hpos, if_pos hon.st, if_neg (by simp [htoggle]), hlow]
    by_cases hret : (blkRead aes s ciaLen).ret = -1
    · rw [if_pos hret]
      exact if_pos hret
    · rw [if_neg hret]
      refine (if_neg hret).trans ?_
      have hcmp : (s.cia = cstr (overlay (List.replicate 37 0) (blkRead aes s ciaLen).got)) =
          ((blkRead aes s ciaLen).got = s.cia) := by
        rw [cstr_ciaRcv (htok hret), cia_eq_iff hon (htok hret)]
      simp only [rawRead, hnext, if_true]
      exact if_congr (iff_of_eq hcmp) rfl rfl
  | false =>
    have hraw : rawRead o aes s ciaLen enc = streamRead o s ciaLen enc := by simp [rawRead, hblk]
    have hnext : (streamRead o s ciaLen enc).sess.blkstatus = false := by
      rw [← hraw, rawRead_blkstatus, hblk]
    rw [hraw] at htok ⊢
    rw [rcvbuf, if_neg (by simp [hblk]), if_pos hon.st]
    by_cases hret : (streamRead o s ciaLen enc).ret = -1
    · rw [if_pos hret]
      exact if_pos hret
    · rw [if_neg hret]
      refine (if_neg hret).trans ?_
      simp only [rawRead, hnext, Bool.false_eq_true, if_false]
      exact if_congr (cia_eq_iff hon (htok hret)) rfl rfl

/-- **The toggle is down after every outermost call**, whichever way it ends. -/
theorem rcvbuf_toggle {s : Sess} (h : s.ciaSend = false) (len : ℤ) (enc : Bool) :
    (rcvbuf o aes s len enc).sess.ciaSend = false := by
  simp only [rcvbuf]
  split
  · rw [blkRcvbuf_nested]
    split
    · exact h
    · split
      · simp only [h, Bool.not_false, if_true]
        -- the inner call lowers the toggle before it reads
        have hinner : (blkRcvbuf aes { s with ciaSend := true } ciaLen).sess.ciaSend = false := by
          rw [blkRcvbuf_nested]
          simp only [Bool.not_true, Bool.false_eq_true, if_false]
          split
          · next hneg => exact absurd hneg (by decide)
          · rw [blkRead_ciaSend]
        split
        · exact hinner
        · split
          · rw [blkRead_ciaSend, hinner]
          · exact hinner
      · rw [blkRead_ciaSend, h]
  · split
    · split
      · rw [streamRead_ciaSend, h]
      · split
        · rw [streamRead_ciaSend, streamRead_ciaSend, h]
        · rw [streamRead_ciaSend, h]
    · rw [streamRead_ciaSend, h]

/-- **One call is guarded**, if the toggle is down when it starts. -/
theorem rcvbuf_guarded {s : Sess} (hon : CiaOn s) (htoggle : s.ciaSend = false) {len : ℤ}
    (hlen : 0 < len) (enc : Bool) (hexact : ExactReads aes s len) : Guarded o aes s len enc := by
  have hcall := rcvbuf_cia (o := o) hon htoggle hlen enc hexact
  have hpay := (@ExactReads.length o aes _ _ enc hexact).2
  dsimp only at hcall
  by_cases hret : (rawRead o aes s ciaLen enc).ret = -1
  · rw [if_pos hret] at hcall
    exact ⟨htoggle, fun h => absurd (by rw [hcall]) h, fun _ => by rw [hcall]; exact ⟨rfl, rfl, rfl⟩⟩
  · rw [if_neg hret] at hcall
    obtain ⟨tok, hinp, hcarries⟩ := rawRead_carries hret
    by_cases htok : (rawRead o aes s ciaLen enc).got = s.cia
    · rw [if_pos htok] at hcall
      rw [htok] at hcarries
      refine ⟨htoggle, ?_, fun hno => absurd hcarries (hno _ _ hinp)⟩
      rw [hcall]
      intro hret'
      obtain ⟨payload, hinp', hcarries'⟩ := rawRead_carries hret'
      exact ⟨tok, payload, by rw [hinp, hinp'], hcarries, hcarries', hpay hret'⟩
    · rw [if_neg htok] at hcall
      exact ⟨htoggle, fun h => absurd (by rw [hcall]) h,
        fun _ => by rw [hcall]; exact ⟨rfl, rfl, rfl⟩⟩

/-! ### Sequences -/

theorem entry_toggle : ∀ (cs : List RcvCall) (s : Sess), s.ciaSend = false →
    (∀ c ∈ cs, c.Ok) → (entry o aes s cs).ciaSend = false := by
  intro cs
  induction cs with
  | nil => intro s h _; exact h
  | cons c cs ih =>
    intro s h hcs
    refine ih _ (rcvbuf_toggle ?_ c.len c.enc) fun d hd => hcs d (List.mem_cons_of_mem _ hd)
    rw [(hcs c List.mem_cons_self).toggle, h]

/-- **Avoidance guards every receive.**  In every sequence of outermost calls, in either
mode and with anything happening between the calls, every call finds the toggle down,
succeeds only on the token with the payload right behind it, and fails without a payload
on anything else. -/
theorem cia_guards_receives {s : Sess} (hs : s.ciaSend = false) {calls : List RcvCall}
    (hcalls : ∀ c ∈ calls, c.Ok) :
    ∀ pre c post, calls = pre ++ c :: post →
      ExactReads aes (c.before (entry o aes s pre)) c.len →
      Guarded o aes (c.before (entry o aes s pre)) c.len c.enc := by
  rintro pre c post rfl hexact
  have hc : c.Ok := hcalls c (List.mem_append_right _ List.mem_cons_self)
  have hpre : (entry o aes s pre).ciaSend = false :=
    entry_toggle pre s hs fun d hd => hcalls d (List.mem_append_left _ hd)
  exact rcvbuf_guarded (hc.on _) (by rw [hc.toggle, hpre]) hc.pos c.enc hexact

/-- The token of the example. -/
def exampleCia : List Byte := lit "9570a411-7512-422b-a260-2f608aa5ef91"

/-- A session before any cipher is set, on whose descriptor one payload arrives behind a
wrong token and one behind the right one. -/
def exampleGuarded : Sess :=
  { (default : Sess) with
    ciaSt := true
    cia := exampleCia
    rsched := [.cnt 4, .eintr]
    inp := lit "9570a411-7512-422b-a260-2f608aa5ef90" ++ exampleCia ++ lit "end" }

/-- A receive with nothing happening before it. -/
def exampleCall : RcvCall := ⟨fun s => { s with ciaSt := true, cia := exampleCia }, 3, true⟩

theorem exampleCall_ok : exampleCall.Ok := by
  have hlength : exampleCia.length = ciaLen := by
    rw [exampleCia, lit_ofList]
    rfl
  have hnul : 0 ∉ exampleCia := by
    rw [exampleCia, lit_ofList]
    decide
  exact ⟨by decide, fun _ => ⟨rfl, hlength, hnul⟩, fun _ => rfl⟩

theorem cia_guards_receives_example :
    (rcvbuf .little Aes.sample exampleGuarded 3 true).ret = -1 ∧
      Guarded .little Aes.sample (entry .little Aes.sample exampleGuarded [exampleCall]) 3 true ∧
      (rcvbuf .little Aes.sample (entry .little Aes.sample exampleGuarded [exampleCall]) 3 true).got
        = lit "end" := by
  refine ⟨by decide +kernel, ?_, by decide +kernel⟩
  have hok : ∀ c ∈ [exampleCall, exampleCall], c.Ok := by simp [exampleCall_ok]
  exact @cia_guards_receives .little Aes.sample exampleGuarded rfl _ hok
    [exampleCall] exampleCall [] rfl (fun hblk => absurd hblk (by decide))

end TFProtocol
