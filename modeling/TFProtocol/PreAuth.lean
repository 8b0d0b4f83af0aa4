import TFProtocol.Gates

/-!
# Memory before the login

What a client that is not logged in can store, and where.  `readbuf` replaces the
length of its caller by the one the header announces, compares it with the size of
`comm.buf` only to place a terminator, and receives that many bytes; `getkey` copies
as many bytes as arrived into `enkey`; the FAI path, the name and the password of a
login, and the parameters of `KEEPALIVE` are copied without a look at their length.

## Main definitions

* `InBounds` — every store of a step stays in its array.
* `Complete`, `BodyFits` — a frame that arrives whole, and a body that fits `comm.buf`.
* `Fits` — a frame that does not reach one of the unchecked copies with too much.

## Main results

* `readbuf_frameRead` — what one `readbuf` receives and stores in stream mode.
* `srvStep_decides` — whether a step stays in bounds is decided by its frame.
* `preauth_in_bounds` — sessions stay in bounds before the login as long as the frames
  fit, and without read errors only then.
-/

namespace TFProtocol

open Bytes CStr

/-- Every store stays in its array. -/
def InBounds (es : List Event) : Prop := ∀ a n, Event.store a n ∈ es → n ≤ a.size

theorem inBounds_nil : InBounds [] := by
  intro a n h
  cases h

theorem inBounds_append {es fs : List Event} :
    InBounds (es ++ fs) ↔ InBounds es ∧ InBounds fs := by
  constructor
  · intro h
    exact ⟨fun a n he => h a n (List.mem_append_left _ he),
      fun a n he => h a n (List.mem_append_right _ he)⟩
  · rintro ⟨he, hf⟩ a n h
    exact (List.mem_append.mp h).elim (he a n) (hf a n)

@[simp] theorem inBounds_store {a : Arr} {n : ℕ} {es : List Event} :
    InBounds (.store a n :: es) ↔ n ≤ a.size ∧ InBounds es := by
  constructor
  · intro h
    exact ⟨h a n List.mem_cons_self, fun b m hm => h b m (List.mem_cons_of_mem _ hm)⟩
  · rintro ⟨hn, hes⟩ b m hm
    cases hm with
    | head => exact hn
    | tail _ hm => exact hes b m hm

@[simp] theorem inBounds_passed {g : Gate} {es : List Event} :
    InBounds (.passed g :: es) ↔ InBounds es := by
  constructor
  · exact fun h b m hm => h b m (List.mem_cons_of_mem _ hm)
  · intro h b m hm
    cases hm with
    | tail _ hm => exact h b m hm

@[simp] theorem inBounds_enter {h : Handler} {g : Gates} {es : List Event} :
    InBounds (.enter h g :: es) ↔ InBounds es := by
  constructor
  · exact fun h b m hm => h b m (List.mem_cons_of_mem _ hm)
  · intro h b m hm
    cases hm with
    | tail _ hm => exact h b m hm

/-! ### The transfer loop -/

/-- Without errors a read delivers all it can. -/
theorem rdLoop_quiet (sched : List SysRes) (len : ℕ) (inp : List Byte) (hq : Quiet sched) :
    (rdLoop sched len inp).bytes.length = min len inp.length ∧
      (len ≤ inp.length → (rdLoop sched len inp).ok = true) ∧
      Quiet (rdLoop sched len inp).sched := by
  fun_induction rdLoop sched len inp with
  | case1 => exact ⟨by simp, fun _ => rfl, hq⟩
  | case2 len inp hle => exact ⟨by simp, fun _ => rfl, hq⟩
  | case3 len => exact ⟨by simp, by simp, hq⟩
  | case4 len inp hle hnil =>
    refine ⟨?_, fun h => absurd h hle, hq⟩
    show inp.length = min (len + 1) inp.length
    omega
  | case5 inp sched len ih => exact ih fun h => hq (List.mem_cons_of_mem _ h)
  | case6 => exact absurd List.mem_cons_self hq
  | case7 n sched len => exact ⟨by simp, by simp, fun h => hq (List.mem_cons_of_mem _ h)⟩
  | case8 n sched len inp hnil k ih =>
    obtain ⟨hlen, hok, hsched⟩ := ih fun h => hq (List.mem_cons_of_mem _ h)
    rw [List.length_drop] at hlen hok
    rw [Xfer.after_bytes, Xfer.after_ok, Xfer.after_sched, List.length_append, List.length_take]
    exact ⟨by omega, fun h => hok (by omega), hsched⟩

/-! ### Stream mode -/

/-- The session is in stream mode and asks for no token. -/
structure Stream (s : Sess) : Prop where
  blk : s.blkstatus = false
  cia : s.ciaSt = false

/-- One session comes from another without a change of mode, and without a new
read error. -/
structure Follows (s t : Sess) : Prop where
  blk : t.blkstatus = s.blkstatus
  cia : t.ciaSt = s.ciaSt
  quiet : Quiet s.rsched → Quiet t.rsched

theorem Follows.refl (s : Sess) : Follows s s := ⟨rfl, rfl, id⟩

theorem Follows.trans {s t u : Sess} (h : Follows s t) (h' : Follows t u) : Follows s u :=
  ⟨h'.blk.trans h.blk, h'.cia.trans h.cia, fun hq => h'.quiet (h.quiet hq)⟩

theorem Stream.follows {s t : Sess} (h : Stream s) (hf : Follows s t) : Stream t :=
  ⟨hf.blk.trans h.blk, hf.cia.trans h.cia⟩

section Layer

variable (o : Endian) (aes : Aes)

theorem sndbuf_follows {s : Sess} (h : Stream s) (buf : List Byte) (enc : Bool) :
    Follows s (sndbuf o aes s buf enc).sess := by
  have hblk : ¬ s.blkstatus = true := by simp [h.blk]
  simp only [sndbuf, if_neg hblk]
  split <;> exact ⟨rfl, rfl, id⟩

theorem writebuf_follows {s : Sess} (h : Stream s) (buf : List Byte) :
    Follows s (writebuf o aes s buf).sess := by
  have hhdr := sndbuf_follows o aes h (hdrsetsz o buf.length) true
  simp only [writebuf]
  split
  · exact hhdr
  · exact hhdr.trans (sndbuf_follows o aes (h.follows hhdr) buf true)

theorem sendReply_follows {s : Sess} (h : Stream s) (text : List Byte) :
    Follows s (sendReply o aes s text) := by
  have hw := writebuf_follows o aes
    (s := { s with buf := overlay s.buf (text ++ [0]) }) ⟨h.blk, h.cia⟩ text
  exact ⟨hw.blk, hw.cia, hw.quiet⟩

/-- Decrypting in place changes neither how much was read nor what is left. -/
theorem streamRead_rdfd (s : Sess) (len : ℤ) (enc : Bool) :
    (streamRead o s len enc).ret = (rdfd s len).ret ∧
      (streamRead o s len enc).got.length = (rdfd s len).got.length ∧
      (streamRead o s len enc).sess.inp = (rdfd s len).sess.inp ∧
      (streamRead o s len enc).sess.rsched = (rdfd s len).sess.rsched ∧
      (streamRead o s len enc).sess.blkstatus = s.blkstatus ∧
      (streamRead o s len enc).sess.ciaSt = s.ciaSt := by
  simp only [streamRead]
  split
  · exact ⟨rfl, rfl, rfl, rfl, rfl, rfl⟩
  · split
    · exact ⟨rfl, length_encrypt .., rfl, rfl, rfl, rfl⟩
    · exact ⟨rfl, rfl, rfl, rfl, rfl, rfl⟩

/-- What a receive in stream mode can do. -/
structure Received (s : Sess) (len : ℤ) (r : Rcv) : Prop where
  got : r.got.length ≤ min len.toNat s.inp.length
  done : r.ret ≠ -1 →
    r.ret = len.toNat ∧ len.toNat ≤ s.inp.length ∧ r.sess.inp = s.inp.drop len.toNat
  follows : Follows s r.sess
  quietGot : Quiet s.rsched → r.got.length = min len.toNat s.inp.length
  quietDone : Quiet s.rsched → len.toNat ≤ s.inp.length → r.ret ≠ -1

/-- **What `rcvbuf` does in stream mode**, for every length an `int` can hold. -/
theorem rcvbuf_received {s : Sess} (h : Stream s) {len : ℤ} (hlen : len < 2 ^ 31) :
    Received s len (rcvbuf o aes s len true) := by
  have hrcv : rcvbuf o aes s len true = streamRead o s len true := by
    simp only [rcvbuf, h.blk, h.cia, Bool.false_eq_true, if_false]
  obtain ⟨hret, hgot, hinp, hsched, hblk, hcia⟩ := streamRead_rdfd o s len true
  have hcint : cint len.toNat = len.toNat := cint_of_lt (by omega)
  rw [hrcv]
  refine ⟨?_, ?_, ⟨hblk, hcia, ?_⟩, ?_, ?_⟩
  · rw [hgot]
    exact rdLoop_le s.rsched len.toNat s.inp
  · intro hne
    rw [hret] at hne ⊢
    rw [hinp]
    simp only [rdfd] at hne ⊢
    by_cases hr : (rdLoop s.rsched len.toNat s.inp).ok = true
    · obtain ⟨hle, -, hrest⟩ := rdLoop_of_ok _ _ _ hr
      rw [if_pos hr]
      exact ⟨hcint, hle, hrest⟩
    · rw [if_neg hr] at hne
      exact absurd rfl hne
  · intro hq
    rw [hsched]
    exact (rdLoop_quiet s.rsched len.toNat s.inp hq).2.2
  · intro hq
    rw [hgot]
    exact (rdLoop_quiet s.rsched len.toNat s.inp hq).1
  · intro hq hin
    have hr := (rdLoop_quiet s.rsched len.toNat s.inp hq).2.1 hin
    rw [hret]
    simp only [rdfd]
    rw [if_pos hr, hcint]
    omega

/-! ### Frames -/

theorem announced_lt (s : Sess) : announced o aes s < 2 ^ 31 := by
  unfold announced hdrgetsz
  exact BitVec.toInt_lt

/-- A whole frame arrives: the header, and as many bytes behind it as it announces. -/
def Complete (s : Sess) : Prop :=
  4 ≤ s.inp.length ∧ (announced o aes s).toNat ≤ s.inp.length - 4

/-- What arrives of the body fits `comm.buf`. -/
def BodyFits (s : Sess) : Prop :=
  4 ≤ s.inp.length → min (announced o aes s).toNat (s.inp.length - 4) ≤ commbuflen

/-- The two halves of `readbuf`. -/
theorem readHdr_received {s : Sess} (h : Stream s) :
    Received s 4 (readHdr o aes s) := by
  have hlen : (4 : ℤ) < 2 ^ 31 := by norm_num
  obtain ⟨hgot, hdone, hf, hqg, hqd⟩ := rcvbuf_received o aes h hlen
  exact ⟨hgot, hdone, ⟨hf.blk, hf.cia, hf.quiet⟩, hqg, hqd⟩

theorem readBody_received {s : Sess} (h : Stream s) {len : ℤ} (hlen : len < 2 ^ 31) :
    Received s len (readBody o aes s len) := by
  simp only [readBody]
  split
  · obtain ⟨hgot, hdone, hf, hqg, hqd⟩ := rcvbuf_received o aes
      (s := { s with buf := s.buf.set len.toNat 0 }) ⟨h.blk, h.cia⟩ hlen
    exact ⟨hgot, hdone, ⟨hf.blk, hf.cia, hf.quiet⟩, hqg, hqd⟩
  · obtain ⟨hgot, hdone, hf, hqg, hqd⟩ := rcvbuf_received o aes h hlen
    exact ⟨hgot, hdone, ⟨hf.blk, hf.cia, hf.quiet⟩, hqg, hqd⟩

/-- What one `readbuf` can do in stream mode. -/
structure FrameRead (s : Sess) : Prop where
  done : (readbuf o aes s).ret ≠ -1 →
    Complete o aes s ∧ (readbuf o aes s).ret = (announced o aes s).toNat
  follows : Follows s (readbuf o aes s).sess
  fits : BodyFits o aes s → InBounds (readbufStores o aes s)
  quietDone : Quiet s.rsched → Complete o aes s → (readbuf o aes s).ret ≠ -1
  quietFits : Quiet s.rsched → InBounds (readbufStores o aes s) → BodyFits o aes s

/-- **What `readbuf` does in stream mode**: it stays in its array exactly when the
body that arrives fits. -/
theorem readbuf_frameRead {s : Sess} (h : Stream s) : FrameRead o aes s := by
  have hh := readHdr_received o aes h
  have hb := readBody_received o aes (h.follows hh.follows) (announced_lt o aes s)
  have hhdr : (readHdr o aes s).got.length ≤ 4 := le_trans hh.got (Nat.min_le_left _ _)
  -- without a header there is no body and no terminator
  by_cases hret : (readHdr o aes s).ret = -1
  · have hread : readbuf o aes s = ⟨-1, [], (readHdr o aes s).sess⟩ := by
      simp only [readbuf, hret, if_true]
    have hstores : readbufStores o aes s = [.store .rxhdr (readHdr o aes s).got.length] := by
      simp only [readbufStores, hret, if_true]
    refine ⟨?_, ?_, ?_, ?_, ?_⟩
    · intro hne
      rw [hread] at hne
      exact absurd rfl hne
    · rw [hread]
      exact hh.follows
    · intro _
      rw [hstores]
      exact inBounds_store.mpr ⟨hhdr, inBounds_nil⟩
    · intro hq hc
      exact absurd hret (hh.quietDone hq hc.1)
    · intro hq _ hin
      exact absurd hret (hh.quietDone hq hin)
  · obtain ⟨-, hin, hinp⟩ := hh.done hret
    have hrest : (readHdr o aes s).sess.inp.length = s.inp.length - 4 := by
      rw [hinp, List.length_drop]
      rfl
    have hin4 : 4 ≤ s.inp.length := hin
    have hread : readbuf o aes s = readBody o aes (readHdr o aes s).sess (announced o aes s) := by
      simp only [readbuf, hret, if_false]
      rfl
    have hgot := hb.got
    rw [hrest] at hgot
    have hstores : InBounds (readbufStores o aes s) ↔
        (readBody o aes (readHdr o aes s).sess (announced o aes s)).got.length ≤ commbuflen := by
      simp only [readbufStores, hret, if_false]
      rw [inBounds_store, inBounds_append, inBounds_store]
      -- the terminator is the one store that is compared with the size of the array
      have hterm : InBounds (if 0 ≤ announced o aes s ∧ announced o aes s < commbuflen then
          [Event.store .commBuf ((announced o aes s).toNat + 1)] else []) := by
        split
        · rw [inBounds_store]
          refine ⟨?_, inBounds_nil⟩
          simp only [Arr.size]
          omega
        · exact inBounds_nil
      exact ⟨fun hall => hall.2.2.1, fun hle => ⟨hhdr, hterm, hle, inBounds_nil⟩⟩
    refine ⟨?_, ?_, ?_, ?_, ?_⟩
    · intro hne
      rw [hread] at hne ⊢
      obtain ⟨hval, hle, -⟩ := hb.done hne
      rw [hrest] at hle
      exact ⟨⟨hin4, hle⟩, hval⟩
    · rw [hread]
      exact hh.follows.trans hb.follows
    · intro hfits
      rw [hstores]
      exact le_trans hgot (hfits hin4)
    · intro hq hc
      rw [hread]
      exact hb.quietDone (hh.follows.quiet hq) (by rw [hrest]; exact hc.2)
    · intro hq hall _
      have heq := hb.quietGot (hh.follows.quiet hq)
      rw [hrest] at heq
      rw [← heq]
      exact hstores.mp hall

/-! ### Frames that fit -/

/-- A FAI path fits `faifile`. -/
def VersionFits (cfg : Config) (buf : List Byte) : Prop :=
  cstr buf ≠ cfg.proto → (strstr faiaccessTok (cstr buf)).isSome = true →
    cfg.faipath.length + ((cstr buf).length - faiaccessTok.length) < pathMax

/-- The name with its separator and the password of a login fit their arrays. -/
def LoginFits (mem : List Byte) : Prop :=
  ∀ u p, strchr blank (cstr mem) = some (u, p) → u.length + 2 ≤ pathMax ∧ p.length + 1 ≤ pathMax

/-- The parameters of `KEEPALIVE` fit their arrays. -/
def KeepaliveFits (mem : List Byte) : Prop :=
  ∀ t ∈ (keepaliveToks (cstr mem)).1, t.length < intdigits

/-- The tokens of a command that is open before the login fit their arrays. -/
def CommandFits (buf : List Byte) : Prop :=
  (cmdtoupper (excmd buf) = lit "LOGIN" → LoginFits (buf.drop 6)) ∧
    (cmdtoupper (excmd buf) = lit "KEEPALIVE" → KeepaliveFits (buf.drop 10))

/-- `comm.buf` when a frame was received in stream mode. -/
def received (s : Sess) : List Byte := (readbuf o aes s).sess.buf

/-- **The next frame fits**: what arrives of its body fits `comm.buf`, and if it
arrives whole, what the phase copies from it fits too. -/
def Fits (cfg : Config) (s : Srv) : Prop :=
  match s.phase with
  | .version =>
    BodyFits o aes s.sess ∧ (Complete o aes s.sess → VersionFits cfg (received o aes s.sess))
  | .key =>
    BodyFits o aes s.sess ∧
      (Complete o aes s.sess → (announced o aes s.sess).toNat ≤ rsaKeylen)
  | .hash => BodyFits o aes s.sess
  | .loop => s.sess.loop = true → BodyFits o aes s.sess ∧
      (Complete o aes s.sess →
        CommandFits ((received o aes s.sess).set (commbuflen - 1) 0))
  | .closed => True

instance (s : Sess) : Decidable (Complete o aes s) := inferInstanceAs (Decidable (_ ∧ _))

instance (s : Sess) : Decidable (BodyFits o aes s) := inferInstanceAs (Decidable (_ → _))

instance (cfg : Config) (buf : List Byte) : Decidable (VersionFits cfg buf) :=
  inferInstanceAs (Decidable (_ → _ → _))

instance (mem : List Byte) : Decidable (LoginFits mem) :=
  decidable_of_iff (∀ x ∈ strchr blank (cstr mem),
      x.1.length + 2 ≤ pathMax ∧ x.2.length + 1 ≤ pathMax)
    ⟨fun h u p hup => h (u, p) hup, fun h x hx => h x.1 x.2 hx⟩

instance (mem : List Byte) : Decidable (KeepaliveFits mem) :=
  inferInstanceAs (Decidable (∀ t ∈ _, _))

instance (buf : List Byte) : Decidable (CommandFits buf) :=
  inferInstanceAs (Decidable ((_ → _) ∧ (_ → _)))

instance decidableFits (cfg : Config) : ∀ s : Srv, Decidable (Fits o aes cfg s)
  | ⟨_, _, _, _, .version⟩ => inferInstanceAs (Decidable (_ ∧ (_ → _)))
  | ⟨_, _, _, _, .key⟩ => inferInstanceAs (Decidable (_ ∧ (_ → _)))
  | ⟨_, _, _, _, .hash⟩ => inferInstanceAs (Decidable (BodyFits ..))
  | ⟨_, _, _, _, .loop⟩ => inferInstanceAs (Decidable (_ → _ ∧ (_ → _)))
  | ⟨_, _, _, _, .closed⟩ => .isTrue trivial

/-- A condition decides whether events stay in bounds: it is enough, and without
read errors it is needed. -/
structure Decides (s : Sess) (fits : Prop) (es : List Event) : Prop where
  enough : fits → InBounds es
  needed : Quiet s.rsched → InBounds es → fits

/-- A frame, and what is stored behind it. -/
theorem FrameRead.decides {s : Sess} (h : FrameRead o aes s) {extra : List Event} {fits : Prop}
    (hextra : (readbuf o aes s).ret ≠ -1 → (InBounds extra ↔ fits)) :
    Decides s (BodyFits o aes s ∧ (Complete o aes s → fits))
      (readbufStores o aes s ++ if (readbuf o aes s).ret = -1 then [] else extra) := by
  by_cases hret : (readbuf o aes s).ret = -1
  · rw [if_pos hret, List.append_nil]
    exact ⟨fun hf => h.fits hf.1,
      fun hq hin => ⟨h.quietFits hq hin, fun hc => absurd hret (h.quietDone hq hc)⟩⟩
  · rw [if_neg hret]
    refine ⟨?_, ?_⟩
    · rintro ⟨hbody, hfits⟩
      exact inBounds_append.mpr ⟨h.fits hbody, (hextra hret).mpr (hfits (h.done hret).1)⟩
    · intro hq hin
      obtain ⟨hread, hrest⟩ := inBounds_append.mp hin
      exact ⟨h.quietFits hq hread, fun _ => (hextra hret).mp hrest⟩

/-- Passing a gate stores nothing. -/
theorem Decides.passed {s : Sess} {fits : Prop} {es : List Event} (h : Decides s fits es)
    (g : Gate) : Decides s fits (es ++ [.passed g]) := by
  have hiff : InBounds (es ++ [.passed g]) ↔ InBounds es := by
    rw [inBounds_append, inBounds_passed]
    exact ⟨And.left, fun h => ⟨h, inBounds_nil⟩⟩
  exact ⟨fun hf => hiff.mpr (h.enough hf), fun hq hin => h.needed hq (hiff.mp hin)⟩

/-! ### The handshake -/

/-- What `chkproto` stores behind the frame, for the version it received. -/
def versionStores (cfg : Config) (ver : List Byte) : List Event :=
  if ver = cfg.proto then []
  else if (strstr faiaccessTok ver).isSome then
    [.store .faifile ((cfg.faipath ++ ver.drop faiaccessTok.length).length + 1)]
  else []

theorem chkproto_events (cfg : Config) (w : World) (s : Sess) :
    (chkproto o aes cfg w s).events = readbufStores o aes s ++
      if (readbuf o aes s).ret = -1 then [] else versionStores cfg (cstr (received o aes s)) := by
  rw [received]
  simp only [chkproto, versionStores]
  by_cases hret : (readbuf o aes s).ret = -1
  · simp only [if_pos hret, List.append_nil]
  · simp only [if_neg hret]
    by_cases hproto : cstr (readbuf o aes s).sess.buf = cfg.proto
    · simp only [if_pos hproto, List.append_nil]
    · simp only [if_neg hproto]
      by_cases hfai : (strstr faiaccessTok (cstr (readbuf o aes s).sess.buf)).isSome = true
      · simp only [if_pos hfai]
        split <;> rfl
      · simp only [if_neg hfai, List.append_nil]

theorem inBounds_versionStores (cfg : Config) (buf : List Byte) :
    InBounds (versionStores cfg (cstr buf)) ↔ VersionFits cfg buf := by
  unfold versionStores VersionFits
  by_cases hproto : cstr buf = cfg.proto
  · simp [hproto, inBounds_nil]
  · by_cases hfai : (strstr faiaccessTok (cstr buf)).isSome = true
    · simp only [if_neg hproto, if_pos hfai, inBounds_store, inBounds_nil, and_true, Arr.size,
        List.length_append, List.length_drop]
      exact ⟨fun h _ _ => h, fun h => h hproto hfai⟩
    · simp [hproto, hfai, inBounds_nil]

theorem chkproto_decides (cfg : Config) (w : World) {s : Sess} (h : Stream s) :
    Decides s (BodyFits o aes s ∧ (Complete o aes s → VersionFits cfg (received o aes s)))
      (chkproto o aes cfg w s).events := by
  rw [chkproto_events]
  exact (readbuf_frameRead o aes h).decides o aes fun _ => inBounds_versionStores cfg _

theorem getkey_decides {s : Sess} (h : Stream s) (enkey : List Byte) :
    Decides s (BodyFits o aes s ∧ (Complete o aes s → (announced o aes s).toNat ≤ rsaKeylen))
      (getkey o aes s enkey).events := by
  have hevents : (getkey o aes s enkey).events = readbufStores o aes s ++
      if (readbuf o aes s).ret = -1 then [] else [.store .enkey (readbuf o aes s).ret.toNat] := by
    simp only [getkey]
    split <;> simp
  have hread := readbuf_frameRead o aes h
  rw [hevents]
  refine hread.decides o aes fun hret => ?_
  rw [inBounds_store, (hread.done hret).2, Int.toNat_natCast]
  exact ⟨And.left, fun hle => ⟨hle, inBounds_nil⟩⟩

/-! ### The handlers -/

/-- Behind the terminator in the last byte of `comm.buf` no string goes on. -/
theorem length_cstr_drop_set (buf : List Byte) {k : ℕ} (hk : k < commbuflen) :
    (cstr ((buf.set (commbuflen - 1) 0).drop k)).length ≤ commbuflen - 1 - k := by
  refine length_cstr_le fun b hb => ?_
  rw [List.getElem?_drop, show k + (commbuflen - 1 - k) = commbuflen - 1 by omega,
    List.getElem?_set_self'] at hb
  obtain ⟨-, -, rfl⟩ := Option.map_eq_some_iff.mp hb
  rfl

theorem inBounds_cutStores {offs : List ℕ} (h : ∀ i ∈ offs, i < commbuflen) :
    InBounds (cutStores offs) := by
  intro a n hmem
  obtain ⟨i, hi, heq⟩ := List.mem_map.mp hmem
  cases heq
  exact h i hi

theorem length_of_strchr {c : Byte} {s a b : List Byte} (h : strchr c s = some (a, b)) :
    a.length < s.length := by
  obtain ⟨rfl, -⟩ := strchr_eq_some_iff.mp h
  simp

/-- Where `cmd_login` ends its strings, when the name fits. -/
theorem loginCuts_lt (env : LoginEnv) (buf : List Byte)
    (hfits : LoginFits ((buf.set (commbuflen - 1) 0).drop 6)) :
    ∀ i ∈ loginCuts env 6 ((buf.set (commbuflen - 1) 0).drop 6), i < commbuflen := by
  have hbig : 2 * pathMax + 6 < commbuflen := by decide
  have hmem := length_cstr_drop_set buf (k := 6) (by decide)
  unfold loginCuts
  split
  · simp
  · rename_i u p hsplit
    have hu := length_of_strchr hsplit
    have hname := (hfits u p hsplit).1
    intro i hi
    rcases List.mem_cons.mp hi with rfl | hi
    · omega
    -- with an empty database the pointer stays in the request, twice the name behind it
    · split at hi
      · split at hi
        · rename_i text _ hline
          have ht := length_of_strchr hline
          rw [List.drop_drop] at ht
          have hrest := length_cstr_drop_set buf (k := 6 + 2 * (u.length + 1)) (by omega)
          rw [List.mem_singleton] at hi
          omega
        · cases hi
      · cases hi

/-- `cmd_login` stays in its arrays exactly when the name and the password fit. -/
theorem runLogin_inBounds (w : World) {s : Srv} (hl : s.logged = false) {buf : List Byte}
    (hbuf : s.sess.buf = buf.set (commbuflen - 1) 0) :
    InBounds (runLogin o aes w s).2 ↔ LoginFits (s.sess.buf.drop 6) := by
  have hoff : (lit "LOGIN").length + 1 = 6 := by decide
  have hcopies : ∀ mem, InBounds (loginCopies mem) ↔ LoginFits mem := by
    intro mem
    unfold loginCopies LoginFits
    cases strchr blank (cstr mem) with
    | none => simp [inBounds_nil]
    | some r =>
      obtain ⟨u, p⟩ := r
      simp only [inBounds_store, inBounds_nil, and_true, Arr.size, Option.some.injEq,
        Prod.mk.injEq]
      constructor
      · rintro h u' p' ⟨rfl, rfl⟩
        exact h
      · intro h
        exact h u p ⟨rfl, rfl⟩
  simp only [runLogin, hl, Bool.false_eq_true, if_false, hoff]
  rw [inBounds_append, hcopies, hbuf]
  exact ⟨And.right, fun h => ⟨inBounds_cutStores (loginCuts_lt w.login buf h), h⟩⟩

/-- The tokens of `KEEPALIVE` are cut from the request in order. -/
theorem keepaliveCuts_lt (off : ℕ) (arg : List Byte) :
    ∀ i ∈ keepaliveCuts off (keepaliveToks arg).1, i < off + arg.length := by
  unfold keepaliveToks
  split
  · simp [keepaliveCuts]
  · rename_i alive rest halive
    obtain rfl := eq_of_strstr halive
    split
    · simp [keepaliveCuts]
    · rename_i idle rest' hidle
      obtain rfl := eq_of_strstr hidle
      have hsep : multipSeps.length = 3 := by decide
      split
      · simp [keepaliveCuts, hsep]
        omega
      · rename_i intvl cnt hintvl
        obtain rfl := eq_of_strstr hintvl
        simp [keepaliveCuts, hsep]
        omega

theorem length_keepaliveToks (arg : List Byte) : (keepaliveToks arg).1.length ≤ 4 := by
  unfold keepaliveToks
  split
  · simp
  · split
    · simp
    · split <;> simp

/-- Copying tokens into arrays of one size. -/
theorem inBounds_zipWith {size : ℕ} : ∀ {as : List Arr} {ts : List (List Byte)},
    (∀ a ∈ as, a.size = size) → ts.length ≤ as.length →
    (InBounds (List.zipWith (fun a t => Event.store a (t.length + 1)) as ts) ↔
      ∀ t ∈ ts, t.length < size) := by
  intro as
  induction as with
  | nil =>
    intro ts _ hlen
    rw [List.length_nil, Nat.le_zero, List.length_eq_zero_iff] at hlen
    simp [hlen, inBounds_nil]
  | cons a as ih =>
    intro ts hsize hlen
    cases ts with
    | nil => simp [inBounds_nil]
    | cons t ts =>
      have htail : ts.length ≤ as.length := by simpa using hlen
      have hts := ih (fun a ha => hsize a (List.mem_cons_of_mem _ ha)) htail
      rw [List.zipWith_cons_cons, inBounds_store, hts, hsize a List.mem_cons_self,
        List.forall_mem_cons]
      exact Iff.rfl

/-- `cmd_keepalive` stays in its arrays exactly when its parameters fit. -/
theorem cmdKeepalive_inBounds (w : World) {s : Sess} {buf : List Byte}
    (hbuf : s.buf = buf.set (commbuflen - 1) 0) :
    InBounds (cmdKeepalive o aes w s).events ↔ KeepaliveFits (s.buf.drop 10) := by
  have hoff : (lit "KEEPALIVE").length + 1 = 10 := by decide
  have hcut : InBounds (cutStores (keepaliveCuts 10 (keepaliveToks (cstr (s.buf.drop 10))).1)) := by
    refine inBounds_cutStores fun i hi => ?_
    have hlt := keepaliveCuts_lt 10 _ i hi
    have hmem := length_cstr_drop_set buf (k := 10) (by decide)
    have hbig : 10 < commbuflen := by decide
    rw [hbuf] at hlt
    omega
  have hevents : (cmdKeepalive o aes w s).events =
      cutStores (keepaliveCuts 10 (keepaliveToks (cstr (s.buf.drop 10))).1) ++
        List.zipWith (fun a t => Event.store a (t.length + 1)) [Arr.alive, .idle, .intvl, .cnt]
          (keepaliveToks (cstr (s.buf.drop 10))).1 := by
    simp only [cmdKeepalive, hoff]
    split
    · rfl
    · split <;> rfl
  have hsizes : ∀ a ∈ [Arr.alive, .idle, .intvl, .cnt], a.size = intdigits := by simp [Arr.size]
  rw [hevents, inBounds_append, inBounds_zipWith hsizes (length_keepaliveToks _)]
  exact ⟨And.right, fun h => ⟨hcut, h⟩⟩

/-! ### The dispatcher -/

/-- The commands open before the login. -/
theorem cmdParse_before_login {g : Gates} (hg : g.logged = false) (cmd : List Byte) :
    cmdParse g cmd =
      if cmd = lit "END" then .run .endcomm
      else if cmd = lit "LOGIN" then .run .login
      else if cmd = lit "KEEPALIVE" then .run .keepalive
      else if cmd = lit "PROCKEY" then .run .prockey
      else .fail (lit "38 : Invalid command before login.") := by
  simp only [cmdParse, hg, Bool.not_false, if_true]

theorem length_excmd (mem : List Byte) : (excmd mem).length + 1 ≤ cmdNamelen := by
  unfold excmd
  rw [List.length_take]
  have : cmdNamelen = 32 := rfl
  omega

/-- Before the login, a command stays in its arrays exactly when its tokens fit. -/
theorem dispatch_inBounds (cfg : Config) (w : World) {s : Srv} (hl : s.logged = false)
    {buf : List Byte} (hbuf : s.sess.buf = buf.set (commbuflen - 1) 0) :
    InBounds (dispatch o aes cfg w s).2 ↔ CommandFits s.sess.buf := by
  have hstored : InBounds [Event.store .commBuf commbuflen,
      .store .cmd ((excmd s.sess.buf).length + 1)] := by
    rw [inBounds_store, inBounds_store]
    exact ⟨le_refl _, length_excmd _, inBounds_nil⟩
  have hcat : ∀ es, InBounds ([Event.store .commBuf commbuflen,
      .store .cmd ((excmd s.sess.buf).length + 1)] ++ es) ↔ InBounds es := by
    intro es
    rw [inBounds_append]
    exact ⟨And.right, fun h => ⟨hstored, h⟩⟩
  have hne : lit "LOGIN" ≠ lit "KEEPALIVE" := by decide
  have hrun : ∀ h, cmdParse s.gates (cmdtoupper (excmd s.sess.buf)) = .run h →
      (InBounds (dispatch o aes cfg w s).2 ↔ InBounds (runHandler o aes cfg w s h).2) := by
    intro h hparse
    simp only [dispatch, hparse]
    rw [hcat, inBounds_enter]
  have hparse := cmdParse_before_login (g := s.gates) hl (cmdtoupper (excmd s.sess.buf))
  unfold CommandFits
  by_cases hlogin : cmdtoupper (excmd s.sess.buf) = lit "LOGIN"
  · have hend : ¬ lit "LOGIN" = lit "END" := by decide
    rw [hlogin, if_neg hend, if_pos rfl] at hparse
    rw [hrun .login (by rw [hlogin]; exact hparse)]
    simp only [runHandler, hlogin, hne, forall_const, false_imp_iff, and_true]
    exact runLogin_inBounds o aes w hl hbuf
  · by_cases hkeep : cmdtoupper (excmd s.sess.buf) = lit "KEEPALIVE"
    · have hend : ¬ lit "KEEPALIVE" = lit "END" := by decide
      rw [hkeep, if_neg hend, if_neg hne.symm, if_pos rfl] at hparse
      rw [hrun .keepalive (by rw [hkeep]; exact hparse)]
      simp only [runHandler, hkeep, hne.symm, forall_const, false_imp_iff, true_and]
      exact cmdKeepalive_inBounds o aes w hbuf
    · -- neither handler copies a token, and nothing else is stored
      simp only [hlogin, hkeep, false_imp_iff, and_self, iff_true]
      rw [if_neg hlogin, if_neg hkeep] at hparse
      simp only [dispatch, hparse]
      split_ifs
      · exact (hcat _).mpr (inBounds_enter.mpr inBounds_nil)
      · exact (hcat _).mpr (inBounds_enter.mpr inBounds_nil)
      · exact hstored

theorem cmdifce_decides (cfg : Config) (w : World) {s : Srv} (h : Stream s.sess)
    (hl : s.logged = false) :
    Decides s.sess
      (BodyFits o aes s.sess ∧ (Complete o aes s.sess →
        CommandFits ((received o aes s.sess).set (commbuflen - 1) 0)))
      (cmdifce o aes cfg w s).2 := by
  have hread := readbuf_frameRead o aes h
  have hblk : (readbuf o aes s.sess).sess.blkstatus = false := hread.follows.blk.trans h.blk
  let s' : Srv := { s with
    sess := terminate (readbuf o aes s.sess).sess (readbuf o aes s.sess).ret.toNat }
  have hbuf : s'.sess.buf = (received o aes s.sess).set (commbuflen - 1) 0 := by
    simp only [s', terminate, hblk, Bool.false_eq_true, if_false, received]
  have hevents : (cmdifce o aes cfg w s).2 = readbufStores o aes s.sess ++
      if (readbuf o aes s.sess).ret = -1 then [] else (dispatch o aes cfg w s').2 := by
    simp only [cmdifce]
    split <;> simp [s']
  rw [hevents]
  refine hread.decides o aes fun _ => ?_
  rw [dispatch_inBounds o aes cfg w (s := s') hl hbuf, hbuf]

/-! ### Sessions -/

/-- **Whether a step before the login stays in bounds is decided by its frame.** -/
theorem srvStep_decides (cfg : Config) {s : Srv} (w : World) (h : Stream s.sess)
    (hl : s.logged = false) :
    Decides s.sess (Fits o aes cfg s) (srvStep o aes cfg s w).2 := by
  unfold srvStep Fits
  cases s.phase with
  | version =>
    have hd := chkproto_decides o aes cfg w h
    simp only [stepVersion]
    split
    · exact hd.passed _
    · exact hd.passed _
    · exact hd
    · exact hd
  | key =>
    have hd := getkey_decides o aes h s.enkey
    simp only [stepKey]
    split
    · exact hd
    · split
      · exact hd
      · split
        · exact hd.passed _
        · exact hd
  | hash =>
    have hread := readbuf_frameRead o aes h
    have hd : Decides s.sess (BodyFits o aes s.sess) (chkhash o aes cfg s.sess).events :=
      ⟨hread.fits, hread.quietFits⟩
    simp only [stepHash]
    split
    · exact hd.passed _
    · exact hd
  | loop =>
    simp only
    split
    · rename_i hloop
      have hd := cmdifce_decides o aes cfg w h hl
      exact ⟨fun hf => hd.enough (hf hloop), fun hq hin _ => hd.needed hq hin⟩
    · rename_i hloop
      exact ⟨fun _ => inBounds_nil, fun _ _ hc => absurd hc hloop⟩
  | closed => exact ⟨fun _ => inBounds_nil, fun _ _ => trivial⟩

theorem agreeKey_follows (w : World) {s : Sess} (h : Stream s) (err : List Byte) :
    Follows s (agreeKey o aes w s err).2 := by
  have hs : ∀ text, Follows s
      (sendReply o aes { s with crypTx := dupCrypt w.dupTx s.crypRx } text) := by
    intro text
    have hf := sendReply_follows o aes
      (s := { s with crypTx := dupCrypt w.dupTx s.crypRx }) ⟨h.blk, h.cia⟩ text
    exact ⟨hf.blk, hf.cia, hf.quiet⟩
  simp only [agreeKey]
  split
  · obtain ⟨hblk, hcia, hq⟩ := hs cmdOkText
    exact ⟨hblk, hcia, hq⟩
  · exact hs _

theorem renewfaikey_follows (w : World) {s : Sess} (h : Stream s) :
    Follows s (renewfaikey o aes w s).2 := by
  unfold renewfaikey
  split
  · exact Follows.refl s
  · rename_i b64 _
    obtain ⟨hblk, hcia, hq⟩ := writebuf_follows o aes
      (s := { s with buf := overlay s.buf (b64 ++ [0]) }) ⟨h.blk, h.cia⟩ b64
    exact ⟨hblk, hcia, hq⟩

theorem mainloopFai_follows (w : World) {s : Srv} (h : Stream s.sess) (faikey : List Byte) :
    Follows s.sess (mainloopFai o aes w s faikey).sess := by
  have hrx : ∀ rx : Crypto, Follows s.sess { s.sess with crypRx := rx } := fun _ => ⟨rfl, rfl, id⟩
  simp only [mainloopFai]
  split
  · exact (hrx _).trans (sendReply_follows o aes (h.follows (hrx _)) _)
  · have hagree := fun rx err => (hrx rx).trans
      (agreeKey_follows o aes w (h.follows (hrx rx)) err)
    split
    · split
      · exact (hagree _ _).trans (renewfaikey_follows o aes w (h.follows (hagree _ _)))
      · exact (hagree _ _).trans (renewfaikey_follows o aes w (h.follows (hagree _ _)))
    · exact hagree _ _

theorem chkproto_sess (cfg : Config) (w : World) (s : Sess) :
    (chkproto o aes cfg w s).sess = (readbuf o aes s).sess := by
  simp only [chkproto]
  split
  · rfl
  · split
    · rfl
    · split
      · split <;> rfl
      · rfl

theorem getkey_sess (s : Sess) (enkey : List Byte) :
    (getkey o aes s enkey).sess = (readbuf o aes s).sess := by
  simp only [getkey]
  split <;> rfl

theorem stepVersion_follows (cfg : Config) (w : World) {s : Srv} (h : Stream s.sess) :
    Follows s.sess (stepVersion o aes cfg w s).1.sess := by
  have hread := (readbuf_frameRead o aes h).follows
  rw [← chkproto_sess o aes cfg w] at hread
  have hreply := fun text => hread.trans (sendReply_follows o aes (h.follows hread) text)
  simp only [stepVersion]
  split
  · exact hreply _
  · exact hread.trans (mainloopFai_follows o aes w
      (s := { s with sess := (chkproto o aes cfg w s.sess).sess }) (h.follows hread) _)
  · exact hreply _
  · exact hreply _

theorem stepKey_follows (w : World) {s : Srv} (h : Stream s.sess) :
    Follows s.sess (stepKey o aes w s).1.sess := by
  have hread := (readbuf_frameRead o aes h).follows
  rw [← getkey_sess o aes s.sess s.enkey] at hread
  have hreply := fun text => hread.trans (sendReply_follows o aes (h.follows hread) text)
  have hrx : ∀ rx : Crypto, Follows s.sess
      { (getkey o aes s.sess s.enkey).sess with crypRx := rx } :=
    fun _ => ⟨hread.blk, hread.cia, hread.quiet⟩
  have hagree := fun rx err => (hrx rx).trans (agreeKey_follows o aes w (h.follows (hrx rx)) err)
  simp only [stepKey]
  split
  · exact hreply _
  · split
    · exact hreply _
    · split
      · exact hagree _ _
      · exact hagree _ _

theorem cutAt_follows (offs : List ℕ) (s : Sess) : Follows s (cutAt offs s) := ⟨rfl, rfl, id⟩

theorem cmdKeepalive_follows (w : World) {s : Sess} (h : Stream s) :
    Follows s (cmdKeepalive o aes w s).sess := by
  have hreply := fun offs text => (cutAt_follows offs s).trans
    (sendReply_follows o aes (h.follows (cutAt_follows offs s)) text)
  simp only [cmdKeepalive]
  split
  · exact hreply _ _
  · split <;> exact hreply _ _

/-- Before the login no command changes the mode. -/
theorem dispatch_follows (cfg : Config) (w : World) {s : Srv} (h : Stream s.sess)
    (hl : s.logged = false) : Follows s.sess (dispatch o aes cfg w s).1.sess := by
  simp only [dispatch, cmdParse_before_login (g := s.gates) hl]
  split_ifs
  · exact ⟨rfl, rfl, id⟩
  · exact (cutAt_follows _ s.sess).trans
      (sendReply_follows o aes (h.follows (cutAt_follows _ s.sess)) _)
  · exact cmdKeepalive_follows o aes w h
  · simp only [runHandler, cmdProckey]
    split <;> exact sendReply_follows o aes h _
  · exact sendReply_follows o aes h _

/-- **Before the login no step changes the mode.** -/
theorem srvStep_follows (cfg : Config) {s : Srv} (w : World) (h : Stream s.sess)
    (hl : s.logged = false) : Follows s.sess (srvStep o aes cfg s w).1.sess := by
  have hread := (readbuf_frameRead o aes h).follows
  have hreply := fun text => hread.trans (sendReply_follows o aes (h.follows hread) text)
  unfold srvStep
  cases s.phase with
  | version => exact stepVersion_follows o aes cfg w h
  | key => exact stepKey_follows o aes w h
  | hash =>
    simp only [stepHash]
    split <;> exact hreply _
  | loop =>
    simp only
    split
    · have hterm : Follows s.sess (terminate (readbuf o aes s.sess).sess
          (readbuf o aes s.sess).ret.toNat) := ⟨hread.blk, hread.cia, hread.quiet⟩
      simp only [cmdifce]
      split
      · exact ⟨hread.blk, hread.cia, hread.quiet⟩
      · exact hterm.trans (dispatch_follows o aes cfg w (s := { s with sess := _ })
          (h.follows hterm) hl)
    · exact Follows.refl _
  | closed => exact Follows.refl _

/-- What holds all along a session until the login. -/
structure BeforeLogin (sched : List SysRes) (s : Srv) : Prop where
  stream : s.logged = false → Stream s.sess
  quiet : s.logged = false → Quiet sched → Quiet s.sess.rsched

theorem BeforeLogin.next {cfg : Config} {sched : List SysRes} {s : Srv}
    (h : BeforeLogin sched s) (w : World) : BeforeLogin sched (srvStep o aes cfg s w).1 := by
  -- no step takes the login back, so a state before the login has only such states before it
  have hback : (srvStep o aes cfg s w).1.logged = false → s.logged = false := by
    intro hl
    by_contra hlog
    have := (srvStep_closer o aes cfg s w).logged (by simpa [Srv.gates] using hlog)
    simp [Srv.gates, hl] at this
  constructor
  · intro hl
    exact (h.stream (hback hl)).follows
      (srvStep_follows o aes cfg w (h.stream (hback hl)) (hback hl))
  · intro hl hq
    exact (srvStep_follows o aes cfg w (h.stream (hback hl)) (hback hl)).quiet
      (h.quiet (hback hl) hq)

theorem beforeLogin_run (cfg : Config) (net : Net) (ws : List World) :
    BeforeLogin net.rsched (srvRun o aes cfg (connect cfg net) ws).1 :=
  Mealy.run_invariant (P := BeforeLogin net.rsched) (fun _ w h => h.next o aes w) ws _
    ⟨fun _ => ⟨rfl, rfl⟩, fun _ => id⟩

/-- A property of every step a session takes before the login: of the state and
of what the step finds outside. -/
def EveryStep (cfg : Config) (net : Net) (ws : List World) (P : Srv → World → Prop) : Prop :=
  ∀ pre w post, ws = pre ++ w :: post →
    (srvRun o aes cfg (connect cfg net) pre).1.logged = false →
    P (srvRun o aes cfg (connect cfg net) pre).1 w

theorem EveryStep.first {cfg : Config} {net : Net} {w : World} {ws : List World}
    {P : Srv → World → Prop} (h : EveryStep o aes cfg net (w :: ws) P) : P (connect cfg net) w :=
  h [] w ws rfl rfl

/-- Before each step stands the run of the frames so far. -/
theorem everyStep_of_take {cfg : Config} {net : Net} {ws : List World} {P : Srv → Prop}
    (h : ∀ n < ws.length, (srvRun o aes cfg (connect cfg net) (ws.take n)).1.logged = false →
      P (srvRun o aes cfg (connect cfg net) (ws.take n)).1) :
    EveryStep o aes cfg net ws fun s _ => P s := by
  rintro pre w post rfl hl
  have hpre : (pre ++ w :: post).take pre.length = pre := List.take_left
  have hstep := h pre.length (by simp)
  rw [hpre] at hstep
  exact hstep hl

/-- **Memory before the login.**  As long as every frame sent before the login fits,
no step before the login stores a byte outside an array, whatever the client sends and
however the kernel cuts it; and when no read fails, this is the only case in which none
does. -/
theorem preauth_in_bounds (cfg : Config) (net : Net) (ws : List World) :
    (EveryStep o aes cfg net ws (fun s _ => Fits o aes cfg s) →
      EveryStep o aes cfg net ws (fun s w => InBounds (srvStep o aes cfg s w).2)) ∧
    (Quiet net.rsched →
      EveryStep o aes cfg net ws (fun s w => InBounds (srvStep o aes cfg s w).2) →
      EveryStep o aes cfg net ws (fun s _ => Fits o aes cfg s)) := by
  constructor
  · intro hfits pre w post hws hl
    have hpre := beforeLogin_run o aes cfg net pre
    exact (srvStep_decides o aes cfg w (hpre.stream hl) hl).enough (hfits pre w post hws hl)
  · intro hq hin pre w post hws hl
    have hpre := beforeLogin_run o aes cfg net pre
    exact (srvStep_decides o aes cfg w (hpre.stream hl) hl).needed (hpre.quiet hl hq)
      (hin pre w post hws hl)

/-- The header of the first frame is read as it was sent. -/
theorem announced_connect {cfg : Config} {net : Net} {a b c d : Byte} {rest : List Byte}
    (hsched : net.rsched = []) (hinp : net.inp = a :: b :: c :: d :: rest) :
    announced o aes (connect cfg net).sess = hdrgetsz o [a, b, c, d] := by
  have hread : rdLoop net.rsched 4 net.inp = ⟨true, [a, b, c, d], rest, [], 1⟩ := by
    simp [hsched, hinp, rdLoop]
  simp [announced, readHdr, rcvbuf, streamRead, rdfd, connect, crypto0, hread, encrypt, overlay,
    cint]

/-- A first frame that is longer than `comm.buf` and arrives in full. -/
theorem not_inBounds_first {cfg : Config} {net : Net} {w : World} (hq : Quiet net.rsched)
    (hlen : commbuflen < (announced o aes (connect cfg net).sess).toNat)
    (hin : commbuflen + 4 < net.inp.length) :
    ¬ InBounds (srvStep o aes cfg (connect cfg net) w).2 := by
  intro h
  have hfits := (srvStep_decides o aes cfg (s := connect cfg net) w ⟨rfl, rfl⟩ rfl).needed hq h
  have hbody : min (announced o aes (connect cfg net).sess).toNat (net.inp.length - 4)
      ≤ commbuflen := hfits.1 (show 4 ≤ net.inp.length by omega)
  omega

end Layer

theorem exampleNet_quiet (inp : List Byte) : Quiet (exampleNet inp).rsched := by
  simp [exampleNet, Quiet]

/-- A frame one byte longer than `comm.buf`: the header announces `2 ^ 19 + 1`. -/
def longFrame : List Byte := [0, 8, 0, 1] ++ List.replicate (commbuflen + 1) 0

theorem length_longFrame : longFrame.length = 4 + (commbuflen + 1) := by
  rw [longFrame, List.length_append, List.length_replicate]
  rfl

theorem announced_longFrame : announced .little Aes.sample
    (connect exampleConfig (exampleNet longFrame)).sess = 524289 := by
  rw [announced_connect .little Aes.sample (a := 0) (b := 8) (c := 0) (d := 1) rfl rfl]
  decide

/-- The version, and a key of 300 bytes. -/
def longKey : List Byte := clearFrame (lit "0.0") ++ clearFrame (List.replicate 300 0)

/-- A handshake, and a `KEEPALIVE` whose first parameter has twelve digits. -/
def longKeepalive : List Byte :=
  clearFrame (lit "0.0") ++ clearFrame (lit "key") ++
    sealedFrames [lit "h", lit "keepalive 123456789012 1 | 1 | 1"]

/-- A world in which the default user does not exist. -/
def exampleWorldLogin : World := { exampleWorld with defusr := false }

/-- The version, a key, the identity and a `KEEPALIVE`. -/
def shortFrames : List Byte :=
  clearFrame (lit "0.0") ++ clearFrame (lit "key") ++
    sealedFrames [lit "h", lit "keepalive 1 60 | 5 | 3"]

/-- The handshake and a command of a client that is not logged in, and what the server
stores. -/
theorem preauth_in_bounds_handshake :
    (srvRun .little Aes.sample exampleConfig (connect exampleConfig (exampleNet shortFrames))
        (List.replicate 3 exampleWorldLogin)).1.phase = .loop ∧
      EveryStep .little Aes.sample exampleConfig (exampleNet shortFrames)
        (List.replicate 4 exampleWorldLogin)
        fun s w => InBounds (srvStep .little Aes.sample exampleConfig s w).2 := by
  refine ⟨by decide +kernel, (preauth_in_bounds .little Aes.sample exampleConfig _ _).1 ?_⟩
  refine everyStep_of_take .little Aes.sample fun n hn => ?_
  rw [List.length_replicate] at hn
  interval_cases n <;> intro _ <;> decide +kernel

/-- Three clients leave an array before they are logged in. -/
theorem preauth_overflows :
    ¬ EveryStep .little Aes.sample exampleConfig (exampleNet longFrame) [exampleWorld]
        (fun s w => InBounds (srvStep .little Aes.sample exampleConfig s w).2) ∧
    ¬ EveryStep .little Aes.sample exampleConfig (exampleNet longKey)
        [exampleWorld, exampleWorld]
        (fun s w => InBounds (srvStep .little Aes.sample exampleConfig s w).2) ∧
    ¬ EveryStep .little Aes.sample exampleConfig (exampleNet longKeepalive)
        [exampleWorldLogin, exampleWorldLogin, exampleWorldLogin, exampleWorldLogin]
        (fun s w => InBounds (srvStep .little Aes.sample exampleConfig s w).2) := by
  refine ⟨?_, ?_, ?_⟩
  · intro h
    refine not_inBounds_first .little Aes.sample (exampleNet_quiet longFrame) ?_ ?_ h.first
    · rw [announced_longFrame]
      decide
    · have hlen : (exampleNet longFrame).inp.length = 4 + (commbuflen + 1) := length_longFrame
      omega
  · intro h
    have hstore : 300 ≤ Arr.enkey.size :=
      h [exampleWorld] exampleWorld [] rfl (by decide +kernel) .enkey 300 (by decide +kernel)
    exact absurd hstore (by decide)
  · intro h
    have hstore : 13 ≤ Arr.alive.size :=
      h [exampleWorldLogin, exampleWorldLogin, exampleWorldLogin] exampleWorldLogin [] rfl
        (by decide +kernel) .alive 13 (by decide +kernel)
    exact absurd hstore (by decide)

end TFProtocol
