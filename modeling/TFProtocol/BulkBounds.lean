import TFProtocol.BlkBounds
import TFProtocol.PreAuth
import TFProtocol.Uploads

/-!
# Bounds of bulk uploads

`PUT`, `PUTCAN`, `SUP` and `RUN_BUF` read a length from the client and then receive that many
bytes into a buffer of a size that was settled before.  None of the loops looks at that size
again: a length is compared with the codes, and what is no code is received, also in the
second loop of `putstream`.

The loops are at the session layer here, one receive or send at a time, in both modes of the
session.  `stores` is the number of bytes that each receive of a chunk stored.  A negative length
that is no code receives nothing, so that it fits; the write behind it, which gets it as a
`size_t`, is one of nothing here.

## Main definitions

* `Bulk`, `BulkPos`, `BulkLoop` — a loop, where it stands, and which one it is.
* `putstreamNext`, `putstreamCanNext`, `cmdSupNext`, `runbufRdthNext` — one step of each.
* `LengthFits` — the length that is received next is at most the size of the buffer, and in
  block mode the plaintext is as well.

## Main results

* `length_got_readbufEx` — what one receive stores.
* `bulk_bounds` — **in every run in which every length fits, so does everything stored.**
* `put_overflows` — two bytes into a buffer of one.
-/

namespace TFProtocol

open Bytes CStr

/-! ### The loops -/

/-- Where a loop stands. -/
inductive BulkPos
  | header
  | body (len : ℤ)
  /-- A chunk could not be stored. -/
  | sendCancel
  | sendFin
  /-- In the second loop of `putstream`. -/
  | drain
  | drainBody (len : ℤ)
  /-- At a cancellation point. -/
  | answer
  | done
  /-- A receive or a send failed. -/
  | failed
  deriving DecidableEq, Repr

/-- A loop with the session it runs in. -/
structure Bulk where
  sess : Sess
  pos : BulkPos
  /-- The local that a length is read into. -/
  hdr : List Byte
  /-- The buffer for chunks. -/
  mem : List Byte
  stores : List ℕ
  /-- What was given to the file or the pipe. -/
  written : List Byte
  del : Bool
  /-- `canstep`, `code` and `end` of `putstream_can`. -/
  canstep : ℕ
  code : ℤ
  fin : Bool
  /-- `rc` of `cmd_sup`. -/
  rc : ℤ
  signals : List AceSignal
  deriving DecidableEq, Repr

/-- A loop at its start, with whatever the locals and the buffer hold. -/
def Bulk.start (sess : Sess) (hdr mem : List Byte) (rc : ℤ) : Bulk where
  sess := sess
  pos := .header
  hdr := hdr
  mem := mem
  stores := []
  written := []
  del := false
  canstep := 0
  code := 0
  fin := false
  rc := rc
  signals := []

section

variable (o : Endian) (aes : Aes)

/-- `readbuf_ex` of a length of `n` bytes. -/
def Bulk.readHdr (s : Bulk) (n : ℕ) : ℤ × Bulk :=
  let r := readbufEx o aes s.sess n
  (r.ret, { s with sess := r.sess, hdr := (overlay s.hdr r.got).take n })

/-- `readbuf_ex` of a chunk. -/
def Bulk.readChunk (s : Bulk) (len : ℤ) : ℤ × Bulk :=
  let r := readbufEx o aes s.sess len
  (r.ret,
    { s with sess := r.sess, mem := overlay s.mem r.got, stores := s.stores ++ [r.got.length] })

/-- `writebuf_ex` of a code. -/
def Bulk.sendCode (s : Bulk) (code : ℤ) : ℤ × Bulk :=
  let w := writebufEx o aes s.sess (wire64 o code)
  (w.ret, { s with sess := w.sess })

/-- The loop ends, and the session with it. -/
def Bulk.endcomm (s : Bulk) : Bulk :=
  { s with pos := .failed, sess := { s.sess with loop := false } }

/-- One step of `putstream`; `sched` are the answers to the writes. -/
def putstreamNext (s : Bulk) (sched : List SysRes) : Option Bulk :=
  match s.pos with
  | .header =>
    let h := s.readHdr o aes 8
    let len := unwire64 o h.2.hdr
    some (if h.1 = -1 then { h.2 with pos := .failed, del := true }
      else if len = hpfend ∨ len = hpfstop then { h.2 with pos := .sendFin }
      else if len = hpfcancel then { h.2 with pos := .sendFin, del := true }
      else { h.2 with pos := .body len })
  | .body len =>
    let r := s.readChunk o aes len
    let w := writechunk sched (r.2.mem.take len.toNat)
    some (if r.1 = -1 then { r.2 with pos := .failed, del := true }
      else { r.2 with
        written := r.2.written ++ w.2
        pos := if cint w.1 ≠ len then .sendCancel else .header })
  | .sendCancel =>
    let c := s.sendCode o aes hpfcancel
    some (if c.1 = -1 then { c.2 with pos := .failed, del := true }
      else { c.2 with pos := .sendFin })
  | .sendFin =>
    let c := s.sendCode o aes hpffin
    some { c.2 with pos := if c.1 = -1 then .failed else .drain }
  | .drain =>
    let h := s.readHdr o aes 8
    let len := unwire64 o h.2.hdr
    some { h.2 with
      pos := if h.1 = -1 then .failed
        else if len = hpfcancel ∨ len = hpfend ∨ len = hpfstop then .drain
        else if len = hpffin then .done
        else .drainBody len }
  | .drainBody len =>
    let r := s.readChunk o aes len
    some { r.2 with pos := if r.1 = -1 then .failed else .drain }
  | _ => none

/-- `putstream_can` once a chunk is in its buffer. -/
def Bulk.storeCan (s : Bulk) (len : ℤ) (sched : List SysRes) : Bulk :=
  if s.fin then s
  else
    let w := writechunk sched (s.mem.take len.toNat)
    let bad := decide (cint w.1 ≠ len)
    { s with
      written := s.written ++ w.2
      code := if bad then hpfcancel else hpfcont
      fin := bad }

/-- One step of `putstream_can`. -/
def putstreamCanNext (canpt : ℕ) (s : Bulk) (sched : List SysRes) : Option Bulk :=
  match s.pos with
  | .header =>
    let h := s.readHdr o aes 8
    let len := unwire64 o h.2.hdr
    some (if h.1 = -1 then { h.2 with pos := .failed, del := true }
      else if len = hpfend ∨ len = hpfstop then { h.2 with pos := .done }
      else if len = hpfcancel then { h.2 with pos := .done, del := true }
      else { h.2 with pos := .body len })
  | .body len =>
    let r := s.readChunk o aes len
    let u := r.2.storeCan len sched
    some (if r.1 = -1 then { r.2 with pos := .failed, del := true }
      else if 1 ≤ canpt then
        { u with
          pos := if u.canstep + 1 = canpt then .answer else .header, canstep := u.canstep + 1 }
      else { u with pos := .header })
  | .answer =>
    let c := s.sendCode o aes s.code
    some (if c.1 = -1 then { c.2 with pos := .failed, del := true }
      else if s.fin then { c.2 with pos := .done }
      else { c.2 with pos := .header, canstep := 0 })
  | _ => none

/-- One step of the loop of `cmd_sup`; a chunk is received before its length is looked at. -/
def cmdSupNext (s : Bulk) (sched : List SysRes) : Option Bulk :=
  match s.pos with
  | .header =>
    let h := s.readHdr o aes 4
    some (if h.1 = -1 then h.2.endcomm else { h.2 with pos := .body (hdrgetsz o h.2.hdr) })
  | .body len =>
    let r := s.readChunk o aes len
    let w := writechunk sched (r.2.mem.take len.toNat)
    some (if r.1 = -1 then r.2.endcomm
      else if 0 < len then
        { r.2 with
          pos := .header, written := r.2.written ++ w.2, rc := if w.1 = -1 then -1 else r.2.rc }
      else { r.2 with pos := .done })
  | _ => none

/-- One step of `runbuf_rdth`. -/
def runbufRdthNext (s : Bulk) (sched : List SysRes) : Option Bulk :=
  match s.pos with
  | .header =>
    let h := s.readHdr o aes 8
    let len := unwire64 o h.2.hdr
    some (if h.1 = -1 then { h.2.endcomm with signals := s.signals ++ [.sigkill] }
      else if len = xsAceOk then { h.2 with pos := .done }
      else { h.2 with
        pos := if (aceSignal len).isSome then .header else .body len
        signals := s.signals ++ (aceSignal len).toList })
  | .body len =>
    let r := s.readChunk o aes len
    some (if r.1 = -1 then { r.2.endcomm with signals := s.signals ++ [.sigkill] }
      else { r.2 with
        pos := .header, written := r.2.written ++ relay sched (r.2.mem.take len.toNat) })
  | _ => none

/-- The loops, with the size of the buffer where it is not fixed. -/
inductive BulkLoop
  | putstream (bufsz : ℕ)
  | putstreamCan (bufsz canpt : ℕ)
  | cmdSup
  | runbufRdth (pbufsz : ℕ)
  deriving DecidableEq, Repr

/-- The size of the buffer a loop stores into. -/
def BulkLoop.size : BulkLoop → ℕ
  | .putstream bufsz => bufsz
  | .putstreamCan bufsz _ => bufsz
  | .cmdSup => commbuflen
  | .runbufRdth pbufsz => pbufsz

/-- One step of a loop. -/
def bulkNext : BulkLoop → Bulk → List SysRes → Option Bulk
  | .putstream _ => putstreamNext o aes
  | .putstreamCan _ canpt => putstreamCanNext o aes canpt
  | .cmdSup => cmdSupNext o aes
  | .runbufRdth _ => runbufRdthNext o aes

end

/-- The length that the next receive of a chunk is asked for. -/
def Bulk.asks (s : Bulk) : Option ℤ :=
  match s.pos with
  | .body len => some len
  | .drainBody len => some len
  | _ => none

/-- Every plaintext that a receive of `n` bytes in block mode can store is at most `b` bytes
long: the one of the next frame, or of the frame behind the token where one is due. -/
def PlaintextFits (aes : Aes) (s : Sess) (n b : ℕ) : Prop :=
  if s.ciaSt = true ∧ s.ciaSend = false then
    ∀ tok, Deciphers aes s 36 tok → s.cia = cstr (overlay (List.replicate 37 0) tok) →
      ∀ m, Deciphers aes (s.afterFrame 36) n m → m.length ≤ b
  else ∀ m, Deciphers aes s n m → m.length ≤ b

/-- The length of a chunk is at most the size of the buffer, and in block mode so is its
plaintext. -/
def LengthFits (aes : Aes) (size : ℕ) (s : Bulk) (_ : List SysRes) : Prop :=
  ∀ len, s.asks = some len →
    len ≤ size ∧ (s.sess.blkstatus = true → PlaintextFits aes s.sess len.toNat size)

/-! ### One receive -/

section

variable {o : Endian} {aes : Aes}

theorem length_got_streamRead (s : Sess) (len : ℤ) (enc : Bool) :
    (streamRead o s len enc).got.length ≤ len.toNat := by
  rw [(streamRead_rdfd o s len enc).2.1]
  exact (rdLoop_le s.rsched len.toNat s.inp).trans (Nat.min_le_left ..)

theorem length_got_blkRead (hdec : DecBounds aes) {s : Sess} {n b : ℕ} (hn : n ≤ b)
    (hfits : ∀ m, Deciphers aes s n m → m.length ≤ b) : (blkRead aes s n).got.length ≤ b := by
  rcases @blkRead_cases aes s n hdec with hd | ⟨-, hle, -⟩
  · exact hfits _ hd
  · exact hle.trans hn

theorem length_got_blkRcvbuf (hdec : DecBounds aes) {s : Sess} {n b : ℕ} (hn : n ≤ b)
    (hfits : PlaintextFits aes s n b) : (blkRcvbuf aes s n).got.length ≤ b := by
  rcases Nat.eq_zero_or_pos n with rfl | hpos
  · exact Nat.zero_le b
  unfold PlaintextFits at hfits
  split at hfits
  next h =>
    rw [blkRcvbuf_token aes h.1 h.2 hpos]
    split
    · exact Nat.zero_le b
    next hret =>
      have hd := deciphers_of_ret hret
      split
      next htok =>
        exact length_got_blkRead hdec hn fun m hm =>
          hfits _ hd htok m ((deciphers_blkRead hd.1 m).mp hm)
      · exact Nat.zero_le b
  next h =>
    obtain ⟨c, hc⟩ := @blkRcvbuf_direct aes s n hpos h
    rw [hc]
    exact length_got_blkRead hdec hn hfits

/-- **What one receive stores**, in both modes. -/
theorem length_got_readbufEx (hdec : DecBounds aes) {s : Sess} {len : ℤ} {b : ℕ} (hlen : len ≤ b)
    (hfits : s.blkstatus = true → PlaintextFits aes s len.toNat b) :
    (readbufEx o aes s len).got.length ≤ b := by
  have hn : len.toNat ≤ b := by omega
  unfold readbufEx rcvbuf
  split
  next hblk =>
    rcases le_or_gt len 0 with hneg | hpos
    · rw [blkRcvbuf, if_pos hneg]
      exact Nat.zero_le b
    · have hcast : (len.toNat : ℤ) = len := by omega
      rw [← hcast]
      exact length_got_blkRcvbuf hdec hn (hfits hblk)
  · split
    · dsimp only
      split
      · exact Nat.zero_le b
      · split
        · exact (length_got_streamRead _ len true).trans hn
        · exact Nat.zero_le b
    · exact (length_got_streamRead s len true).trans hn

/-! ### One step -/

/-- What a step does to `stores`: a receive of a chunk adds what it stored, and nothing else
does. -/
def Stores (o : Endian) (aes : Aes) (s t : Bulk) : Prop :=
  (s.asks = none → t.stores = s.stores) ∧
    ∀ len, s.asks = some len → t.stores = s.stores ++ [(readbufEx o aes s.sess len).got.length]

theorem stores_of_none {s t : Bulk} (hask : s.asks = none) (h : t.stores = s.stores) :
    Stores o aes s t := ⟨fun _ => h, fun _ hlen => nomatch hask.symm.trans hlen⟩

theorem stores_of_some {s t : Bulk} {len : ℤ} (hask : s.asks = some len)
    (h : t.stores = (s.readChunk o aes len).2.stores) : Stores o aes s t := by
  refine ⟨fun hnone => (nomatch hask.symm.trans hnone), fun len' hlen => ?_⟩
  obtain rfl := Option.some.inj (hask.symm.trans hlen)
  exact h

theorem putstreamNext_stores {s t : Bulk} {sched : List SysRes}
    (h : putstreamNext o aes s sched = some t) : Stores o aes s t := by
  unfold putstreamNext at h
  split at h
  next hpos =>
    obtain rfl := Option.some.inj h
    refine stores_of_none (by rw [Bulk.asks, hpos]) ?_
    dsimp only
    split_ifs <;> rfl
  next len hpos =>
    obtain rfl := Option.some.inj h
    refine stores_of_some (by rw [Bulk.asks, hpos]) ?_
    dsimp only
    split_ifs <;> rfl
  next hpos =>
    obtain rfl := Option.some.inj h
    refine stores_of_none (by rw [Bulk.asks, hpos]) ?_
    dsimp only
    split_ifs <;> rfl
  next hpos =>
    obtain rfl := Option.some.inj h
    exact stores_of_none (by rw [Bulk.asks, hpos]) rfl
  next hpos =>
    obtain rfl := Option.some.inj h
    exact stores_of_none (by rw [Bulk.asks, hpos]) rfl
  next len hpos =>
    obtain rfl := Option.some.inj h
    exact stores_of_some (by rw [Bulk.asks, hpos]) rfl
  · cases h

theorem putstreamCanNext_stores {canpt : ℕ} {s t : Bulk} {sched : List SysRes}
    (h : putstreamCanNext o aes canpt s sched = some t) : Stores o aes s t := by
  unfold putstreamCanNext at h
  split at h
  next hpos =>
    obtain rfl := Option.some.inj h
    refine stores_of_none (by rw [Bulk.asks, hpos]) ?_
    dsimp only
    split_ifs <;> rfl
  next len hpos =>
    obtain rfl := Option.some.inj h
    refine stores_of_some (by rw [Bulk.asks, hpos]) ?_
    have hstore : ((s.readChunk o aes len).2.storeCan len sched).stores
        = (s.readChunk o aes len).2.stores := by
      unfold Bulk.storeCan
      split_ifs <;> rfl
    dsimp only
    split_ifs <;> first | rfl | exact hstore
  next hpos =>
    obtain rfl := Option.some.inj h
    refine stores_of_none (by rw [Bulk.asks, hpos]) ?_
    dsimp only
    split_ifs <;> rfl
  · cases h

theorem cmdSupNext_stores {s t : Bulk} {sched : List SysRes}
    (h : cmdSupNext o aes s sched = some t) : Stores o aes s t := by
  unfold cmdSupNext at h
  split at h
  next hpos =>
    obtain rfl := Option.some.inj h
    refine stores_of_none (by rw [Bulk.asks, hpos]) ?_
    dsimp only
    split_ifs <;> rfl
  next len hpos =>
    obtain rfl := Option.some.inj h
    refine stores_of_some (by rw [Bulk.asks, hpos]) ?_
    dsimp only
    split_ifs <;> rfl
  · cases h

theorem runbufRdthNext_stores {s t : Bulk} {sched : List SysRes}
    (h : runbufRdthNext o aes s sched = some t) : Stores o aes s t := by
  unfold runbufRdthNext at h
  split at h
  next hpos =>
    obtain rfl := Option.some.inj h
    refine stores_of_none (by rw [Bulk.asks, hpos]) ?_
    dsimp only
    split_ifs <;> rfl
  next len hpos =>
    obtain rfl := Option.some.inj h
    refine stores_of_some (by rw [Bulk.asks, hpos]) ?_
    dsimp only
    split_ifs <;> rfl
  · cases h

theorem bulkNext_stores {k : BulkLoop} {s t : Bulk} {sched : List SysRes}
    (h : bulkNext o aes k s sched = some t) : Stores o aes s t := by
  cases k with
  | putstream => exact putstreamNext_stores h
  | putstreamCan => exact putstreamCanNext_stores h
  | cmdSup => exact cmdSupNext_stores h
  | runbufRdth => exact runbufRdthNext_stores h

/-! ### Runs -/

/-- No receive of a chunk stored more than the buffer holds. -/
def Bulk.Within (size : ℕ) (s : Bulk) : Prop := ∀ n ∈ s.stores, n ≤ size

theorem bulkNext_within (hdec : DecBounds aes) {k : BulkLoop} (s : Bulk) (sched : List SysRes)
    (t : Bulk) (hs : s.Within k.size) (hfits : LengthFits aes k.size s sched)
    (hnext : bulkNext o aes k s sched = some t) : t.Within k.size := by
  obtain ⟨hnone, hsome⟩ := bulkNext_stores hnext
  unfold Bulk.Within
  cases hask : s.asks with
  | none =>
    rw [hnone hask]
    exact hs
  | some len =>
    obtain ⟨hlen, hblk⟩ := hfits len hask
    rw [hsome len hask]
    intro n hn
    rcases List.mem_append.mp hn with hn | hn
    · exact hs n hn
    · rw [List.mem_singleton.mp hn]
      exact length_got_readbufEx hdec hlen hblk

/-- **Bulk uploads stay in their buffer while every length fits.**  For each of the loops, in
every run, whatever the client sends and however the writes end: if every length that is no
code is at most the size of the buffer, and in block mode its plaintext is as well, no
receive stores more than the buffer holds. -/
theorem bulk_bounds (hdec : DecBounds aes) {k : BulkLoop} {sess : Sess} {hdr mem : List Byte}
    {rc : ℤ} {acts : List (List SysRes)} {t : Bulk}
    (hmeets : Runs.Meets (bulkNext o aes k) (LengthFits aes k.size) (.start sess hdr mem rc) acts)
    (hrun : Runs.run (bulkNext o aes k) (.start sess hdr mem rc) acts = some t) :
    ∀ n ∈ t.stores, n ≤ k.size := by
  have hstart : (Bulk.start sess hdr mem rc).Within k.size := by simp [Bulk.Within, Bulk.start]
  exact Runs.inv_of_run (bulkNext_within hdec) hstart hmeets hrun

/-! ### A length that fits, and one that does not -/

/-- A session in which the bytes `inp` arrive in clear. -/
def clearRx (inp : List Byte) : Sess := { (default : Sess) with inp := inp }

/-- Two chunks, the second of which cannot be written, and one that is read until the
sender stops. -/
def threeChunks : List Byte :=
  wire64 .little 3 ++ [1, 2, 3] ++ wire64 .little 2 ++ [4, 5] ++ wire64 .little 4 ++ [6, 7, 8, 9] ++
    wire64 .little hpffin

/-- Three chunks are received into a buffer of four bytes. -/
theorem bulk_bounds_three : ∃ t,
    Runs.run (bulkNext .little Aes.checked (.putstream 4)) (.start (clearRx threeChunks) [] [0] 0)
        [[], [], [], [.err], [], [], [], [], []] = some t ∧
      t.pos = .done ∧ t.stores = [3, 2, 4] ∧
      ∀ n ∈ t.stores, n ≤ (BulkLoop.putstream 4).size := by
  have hmeets : Runs.Meets (bulkNext .little Aes.checked (.putstream 4))
      (fun s _ => s.sess.blkstatus = false ∧ ∀ len ∈ s.asks, len ≤ 4)
      (.start (clearRx threeChunks) [] [0] 0) [[], [], [], [.err], [], [], [], [], []] := by
    decide +kernel
  have hval : (Runs.run (bulkNext .little Aes.checked (.putstream 4))
      (.start (clearRx threeChunks) [] [0] 0) [[], [], [], [.err], [], [], [], [], []]).map
        (fun t => (t.pos, t.stores)) = some (.done, [3, 2, 4]) := by decide +kernel
  obtain ⟨t, hrun, hval⟩ := Option.map_eq_some_iff.mp hval
  obtain ⟨hpos, hstores⟩ := Prod.mk.inj hval
  refine ⟨t, hrun, hpos, hstores, bulk_bounds decBounds_checked (hmeets.imp ?_) hrun⟩
  rintro s a ⟨hclear, hlen⟩ len hasks
  refine ⟨hlen len hasks, fun hmode => ?_⟩
  rw [hclear] at hmode
  cases hmode

/-- A chunk of two bytes is received into a buffer of one byte. -/
theorem put_overflows : ¬ ∀ (o : Endian) (aes : Aes) (k : BulkLoop) (sess : Sess)
    (hdr mem : List Byte) (rc : ℤ) (acts : List (List SysRes)) (t : Bulk), DecBounds aes →
    Runs.run (bulkNext o aes k) (.start sess hdr mem rc) acts = some t →
      ∀ n ∈ t.stores, n ≤ k.size := by
  intro h
  have hval : (Runs.run (bulkNext .little Aes.checked (.putstream 1))
      (.start (clearRx (wire64 .little 2 ++ [7, 8])) [] [0] 0) [[], []]).map Bulk.stores
        = some [2] := by decide +kernel
  obtain ⟨t, hrun, hstores⟩ := Option.map_eq_some_iff.mp hval
  have hle := h .little Aes.checked (.putstream 1) _ [] [0] 0 _ t decBounds_checked hrun 2
    (by rw [hstores]; exact List.mem_cons_self)
  exact absurd hle (by decide)

end

end TFProtocol
