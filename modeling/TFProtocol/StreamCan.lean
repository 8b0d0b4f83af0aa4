import TFProtocol.HpfCodes
import TFProtocol.Lib.Runs

/-!
# Streams with cancellation points

`getstream_can` sends a file in chunks and `putstream_can` stores them.  After every
`canpt` chunks the two meet: the receiver sends `HPFCONT`, or `HPFCANCEL` when it could
not store everything, and the sender waits for it.  Each side counts chunks for itself.

The system is both functions over two channels, one block of a channel or one call for a
file at a time, in any order.  `sent` and `got` are the chunks that were sent and received
in full; they and `whole` are there for the statements only.

## Main definitions

* `CanTx`, `CanRx`, `CanSys`, `canNext` — the two functions and their steps.
* `BothWait`, `CanReturned` — both wait to read; both have returned.
* `CanInv` — what holds between the chunks, the channels and the counters.

## Main results

* `can_streams_fit` — no state in which both wait, nothing left in the channels, and the
  sender's bytes in the receiver's file.
-/

namespace TFProtocol

open Bytes

/-! ### The system -/

/-- Where `getstream_can` stands. -/
inductive CanTx
  /-- At `readchunk`. -/
  | reading
  /-- The length of a chunk was sent, and the chunk is to be sent. -/
  | chunk (c : List Byte)
  /-- At a cancellation point. -/
  | waiting
  /-- Returned behind a code: the file ended, or could not be read. -/
  | ended (code : ℤ)
  /-- Returned because the receiver cancelled. -/
  | stopped
  deriving DecidableEq, Repr

/-- Where `putstream_can` stands. -/
inductive CanRx
  | header
  | body (len : ℤ)
  /-- At a cancellation point. -/
  | answer
  | done
  deriving DecidableEq, Repr

/-- Both functions and the channels between them. -/
structure CanSys where
  tx : CanTx
  /-- What the sender has not read of its file. -/
  rest : List Byte
  /-- `canstep` of the sender. -/
  txStep : ℕ
  rx : CanRx
  /-- `canstep` of the receiver. -/
  rxStep : ℕ
  code : ℤ
  /-- `end`. -/
  fin : Bool
  del : Bool
  /-- What the receiver stored, from the offset on. -/
  written : List Byte
  toRx : List Byte
  toTx : List Byte
  sent : List (List Byte)
  got : List (List Byte)
  /-- Every write stored its whole chunk. -/
  whole : Bool
  deriving DecidableEq, Repr

/-- A step of one of the functions. -/
inductive CanAct
  /-- The sender reads its file and sends a length or a code. -/
  | read (r : Option ℕ)
  /-- The sender sends a chunk. -/
  | data
  /-- The sender receives a code. -/
  | code
  | header
  /-- The receiver receives a chunk and stores it. -/
  | body (sched : List SysRes)
  | answer
  deriving DecidableEq, Repr

/-- The first `write` that is not interrupted stores the whole chunk. -/
def wholeWrite : List SysRes → List Byte → Bool
  | [], _ => true
  | .eintr :: sched, buf => wholeWrite sched buf
  | .err :: _, _ => false
  | .cnt n :: _, buf => buf.length ≤ n + 1

/-- A call to `write` for `len` bytes, or for the rest of them, fails. -/
def writeFails : List SysRes → ℕ → Bool
  | [], _ => false
  | .eintr :: sched, len => writeFails sched len
  | .err :: _, _ => true
  | .cnt n :: sched, len => if len ≤ n + 1 then false else writeFails sched (len - (n + 1))

section

variable (o o' : Endian) (bufsz canpt : ℕ)

/-- The receiver once a chunk is in its buffer: unless it gave up before, the chunk is
stored, and the count `writechunk` returns goes through an `int`. -/
def storeChunk (s : CanSys) (len : ℤ) (buf : List Byte) (sched : List SysRes) : CanSys :=
  if s.fin then s
  else
    let w := writechunk sched buf
    let bad := decide (cint w.1 ≠ len)
    { s with
      written := s.written ++ w.2
      code := if bad then hpfcancel else hpfcont
      fin := bad
      whole := s.whole && wholeWrite sched buf }

/-- One step. -/
def canNext (s : CanSys) : CanAct → Option CanSys
  | .read r =>
    match s.tx with
    | .reading =>
      match fileChunk bufsz s.rest r with
      | none => some { s with tx := .ended hpfcancel, toRx := s.toRx ++ wire64 o hpfcancel }
      | some [] => some { s with tx := .ended hpfend, toRx := s.toRx ++ wire64 o hpfend }
      | some c =>
        some { s with
          tx := .chunk c, rest := s.rest.drop c.length, toRx := s.toRx ++ wire64 o c.length }
    | _ => none
  | .data =>
    match s.tx with
    | .chunk c =>
      let s := { s with toRx := s.toRx ++ c, sent := s.sent ++ [c] }
      if 1 ≤ canpt then
        some { s with
          tx := if s.txStep + 1 = canpt then .waiting else .reading, txStep := s.txStep + 1 }
      else some { s with tx := .reading }
    | _ => none
  | .code =>
    match s.tx with
    | .waiting =>
      (recv 8 s.toTx).map fun m =>
        if unwire64 o m.1 ≠ hpfcont then { s with tx := .stopped, toTx := m.2 }
        else { s with tx := .reading, txStep := 0, toTx := m.2 }
    | _ => none
  | .header =>
    match s.rx with
    | .header =>
      (recv 8 s.toRx).map fun m =>
        let len := unwire64 o' m.1
        let s := { s with toRx := m.2 }
        if len = hpfend ∨ len = hpfstop then { s with rx := .done }
        else if len = hpfcancel then { s with rx := .done, del := true }
        else { s with rx := .body len }
    | _ => none
  | .body sched =>
    match s.rx with
    | .body len =>
      (recv len.toNat s.toRx).map fun m =>
        let s := storeChunk { s with toRx := m.2, got := s.got ++ [m.1] } len m.1 sched
        if 1 ≤ canpt then
          { s with
            rx := if s.rxStep + 1 = canpt then .answer else .header, rxStep := s.rxStep + 1 }
        else { s with rx := .header }
    | _ => none
  | .answer =>
    match s.rx with
    | .answer =>
      let s := { s with toTx := s.toTx ++ wire64 o' s.code }
      some (if s.fin then { s with rx := .done } else { s with rx := .header, rxStep := 0 })
    | _ => none

end

/-- Both functions at their start, with the sender's file from the offset on. -/
def CanSys.start (suffix : List Byte) : CanSys where
  tx := .reading
  rest := suffix
  txStep := 0
  rx := .header
  rxStep := 0
  code := 0
  fin := false
  del := false
  written := []
  toRx := []
  toTx := []
  sent := []
  got := []
  whole := true

/-- Both functions wait to read, and what they wait for is not there. -/
def BothWait (s : CanSys) : Prop :=
  s.tx = .waiting ∧ recv 8 s.toTx = none ∧
    (s.rx = .header ∧ recv 8 s.toRx = none ∨
      ∃ len, s.rx = .body len ∧ recv len.toNat s.toRx = none)

/-- Both functions have returned. -/
def CanReturned (s : CanSys) : Prop := (s.tx = .stopped ∨ ∃ code, s.tx = .ended code) ∧ s.rx = .done

/-! ### The invariant -/

/-- What the sender put behind its last full chunk. -/
def CanTx.tail (o : Endian) : CanTx → List Byte
  | .chunk c => wire64 o c.length
  | .ended code => wire64 o code
  | _ => []

@[simp] theorem CanTx.tail_reading (o : Endian) : CanTx.reading.tail o = [] := rfl

@[simp] theorem CanTx.tail_chunk (o : Endian) (c : List Byte) :
    (CanTx.chunk c).tail o = wire64 o c.length := rfl

/-- What the sender read and has not sent. -/
def CanTx.pending : CanTx → List Byte
  | .chunk c => c
  | _ => []

/-- The chunks the receiver has not got are in the channel, in order. -/
def CanLink (o : Endian) (tx : CanTx) (fin : Bool) (sent got : List (List Byte))
    (toRx : List Byte) : CanRx → Prop
  | .body len => ∃ c, Chunk c ∧ len = c.length ∧
      ((∃ q, sent = got ++ c :: q ∧ toRx = c ++ (encChunks o q ++ tx.tail o)) ∨
        (sent = got ∧ tx = .chunk c ∧ toRx = []))
  | .done => sent = got ∧ toRx = [] ∧
      ((∃ code, tx = .ended code) ∨ fin = true ∧ (tx = .waiting ∨ tx = .stopped))
  | _ => ∃ q, sent = got ++ q ∧ toRx = encChunks o q ++ tx.tail o

/-- How the two counters and the channel back to the sender fit together. -/
inductive CanSync (o' : Endian) (canpt : ℕ) (s : CanSys) : Prop
  /-- There are no cancellation points. -/
  | never (hpt : canpt = 0) (hch : s.toTx = []) (hwait : s.tx ≠ .waiting)
      (hstop : s.tx ≠ .stopped) (hans : s.rx ≠ .answer)
  /-- Both count from the same chunk on. -/
  | counting (hpt : 1 ≤ canpt) (hch : s.toTx = [])
      (hbase : s.sent.length + s.rxStep = s.got.length + s.txStep) (hrx : s.rxStep ≤ canpt)
      (hans : s.rxStep = canpt ↔ s.rx = .answer) (htx : s.txStep ≤ canpt)
      (hwait : s.txStep = canpt ↔ s.tx = .waiting) (hstop : s.tx ≠ .stopped)
  /-- The receiver has answered and the sender has not read it. -/
  | answered (code : ℤ) (hpt : 1 ≤ canpt) (hch : s.toTx = wire64 o' code) (htx : s.tx = .waiting)
      (hall : s.sent = s.got)
      (hcode : s.rx = .header ∧ code = hpfcont ∧ s.rxStep = 0 ∨ s.rx = .done ∧ code = hpfcancel)
  /-- The sender has read that it is to stop. -/
  | cancelled (htx : s.tx = .stopped) (hrx : s.rx = .done) (hch : s.toTx = [])

/-- The invariant of both functions together. -/
structure CanInv (o o' : Endian) (canpt : ℕ) (suffix : List Byte) (s : CanSys) : Prop where
  file : suffix = s.sent.flatten ++ (s.tx.pending ++ s.rest)
  ended : ∀ code, s.tx = .ended code → code = hpfend ∧ s.rest = [] ∨ code = hpfcancel
  chunk : ∀ c, s.tx = .chunk c → Chunk c
  chunks : ∀ c ∈ s.sent, Chunk c
  link : CanLink o s.tx s.fin s.sent s.got s.toRx s.rx
  sync : CanSync o' canpt s
  cancel : s.fin = true → s.code = hpfcancel
  goOn : s.rx = .answer → s.fin = false → s.code = hpfcont
  stored : s.fin = false → s.written = s.got.flatten
  whole : s.whole = !s.fin

theorem start_canInv (o o' : Endian) (canpt : ℕ) (suffix : List Byte) :
    CanInv o o' canpt suffix (.start suffix) := by
  refine ⟨rfl, nofun, nofun, nofun, ⟨[], rfl, rfl⟩, ?_, nofun, nofun, fun _ => rfl, rfl⟩
  rcases Nat.eq_zero_or_pos canpt with h0 | hpos
  · exact .never h0 rfl nofun nofun nofun
  · exact .counting hpos rfl rfl (Nat.zero_le _)
      ⟨fun h => absurd h (Nat.ne_of_lt hpos), nofun⟩ (Nat.zero_le _)
      ⟨fun h => absurd h (Nat.ne_of_lt hpos), nofun⟩ nofun

/-! ### Steps of the sender -/

variable {o o' : Endian} {bufsz canpt : ℕ} {suffix : List Byte} {s t : CanSys}

/-- While the sender reads, what it sends next goes behind everything. -/
theorem CanLink.push {fin : Bool} {sent got : List (List Byte)} {toRx : List Byte} {rx : CanRx}
    (h : CanLink o .reading fin sent got toRx rx) (tx : CanTx) :
    CanLink o tx fin sent got (toRx ++ tx.tail o) rx := by
  cases rx with
  | header =>
    obtain ⟨q, hsent, rfl⟩ := h
    exact ⟨q, hsent, by simp⟩
  | answer =>
    obtain ⟨q, hsent, rfl⟩ := h
    exact ⟨q, hsent, by simp⟩
  | body len =>
    obtain ⟨c, hc, hlen, ⟨q, hsent, rfl⟩ | ⟨-, htx, -⟩⟩ := h
    · exact ⟨c, hc, hlen, .inl ⟨q, hsent, by simp⟩⟩
    · cases htx
  | done =>
    obtain ⟨-, -, ⟨code, htx⟩ | ⟨-, htx | htx⟩⟩ := h <;> cases htx

/-- A sender that reads moves on to a chunk, or returns behind a code. -/
theorem CanSync.read (h : CanSync o' canpt s) (htx : s.tx = .reading) {tx : CanTx}
    {rest toRx : List Byte} (hwait : tx ≠ .waiting) (hstop : tx ≠ .stopped) :
    CanSync o' canpt { s with tx := tx, rest := rest, toRx := toRx } := by
  cases h with
  | never hpt hch _ _ hans => exact .never hpt hch hwait hstop hans
  | counting hpt hch hbase hrx hans htx' hw _ =>
    refine .counting hpt hch hbase hrx hans htx' ⟨fun h => ?_, fun h => absurd h hwait⟩ hstop
    have := hw.mp h
    rw [htx] at this
    cases this
  | answered code _ _ htx' => rw [htx] at htx'; cases htx'
  | cancelled htx' => rw [htx] at htx'; cases htx'

theorem read_canInv (hbuf : 0 < bufsz) (h : CanInv o o' canpt suffix s) {r : Option ℕ}
    (hnext : canNext o o' bufsz canpt s (.read r) = some t) : CanInv o o' canpt suffix t := by
  simp only [canNext] at hnext
  split at hnext
  · next htx =>
    have hlink := h.link
    rw [htx] at hlink
    have hfile := h.file
    rw [htx] at hfile
    split at hnext
    · obtain rfl := Option.some.inj hnext
      exact ⟨hfile, fun code hcode => .inr (by simpa using hcode.symm), nofun, h.chunks,
        hlink.push (.ended hpfcancel), h.sync.read htx nofun nofun, h.cancel, h.goOn, h.stored,
        h.whole⟩
    · next hread =>
      obtain rfl := Option.some.inj hnext
      obtain ⟨-, -, -, hnil, -⟩ := fileChunk_some hbuf hread
      exact ⟨hfile, fun code hcode => .inl ⟨by simpa using hcode.symm, hnil rfl⟩, nofun, h.chunks,
        hlink.push (.ended hpfend), h.sync.read htx nofun nofun, h.cancel, h.goOn, h.stored,
        h.whole⟩
    · next c hne hread =>
      obtain rfl := Option.some.inj hnext
      obtain ⟨rest', hrest, hdrop, -, hlen⟩ := fileChunk_some hbuf hread
      have hchunk : Chunk c := ⟨hne, hlen⟩
      refine ⟨?_, nofun, fun c' hc' => ?_, h.chunks, hlink.push (.chunk c),
        h.sync.read htx nofun nofun, h.cancel, h.goOn, h.stored, h.whole⟩
      · show suffix = s.sent.flatten ++ (c ++ s.rest.drop c.length)
        rw [← hdrop, ← hrest]
        exact hfile
      · obtain rfl : c = c' := by simpa using hc'
        exact hchunk
  · cases hnext

/-- A chunk that is sent is one more in the channel. -/
theorem CanLink.data {c : List Byte} (hc : Chunk c) {fin : Bool} {sent got : List (List Byte)}
    {toRx : List Byte} {rx : CanRx} (h : CanLink o (.chunk c) fin sent got toRx rx) {tx : CanTx}
    (htail : tx.tail o = []) : CanLink o tx fin (sent ++ [c]) got (toRx ++ c) rx := by
  cases rx with
  | header =>
    obtain ⟨q, rfl, rfl⟩ := h
    exact ⟨q ++ [c], by simp, by simp [htail, encChunks_append]⟩
  | answer =>
    obtain ⟨q, rfl, rfl⟩ := h
    exact ⟨q ++ [c], by simp, by simp [htail, encChunks_append]⟩
  | body len =>
    obtain ⟨d, hd, hlen, ⟨q, rfl, rfl⟩ | ⟨rfl, htx, rfl⟩⟩ := h
    · exact ⟨d, hd, hlen, .inl ⟨q ++ [c], by simp, by simp [htail, encChunks_append]⟩⟩
    · -- the receiver already waits for this chunk
      obtain rfl : c = d := by simpa using htx
      exact ⟨c, hc, hlen, .inl ⟨[], by simp, by simp [htail]⟩⟩
  | done =>
    obtain ⟨-, -, ⟨code, htx⟩ | ⟨-, htx | htx⟩⟩ := h <;> cases htx

/-- The sender counts a chunk. -/
theorem CanSync.data (h : CanSync o' canpt s) {c : List Byte} (htx : s.tx = .chunk c)
    (toRx : List Byte) :
    CanSync o' canpt (if 1 ≤ canpt then
        { s with
          toRx := toRx, sent := s.sent ++ [c]
          tx := if s.txStep + 1 = canpt then .waiting else .reading, txStep := s.txStep + 1 }
      else { s with toRx := toRx, sent := s.sent ++ [c], tx := .reading }) := by
  cases h with
  | never hpt hch _ _ hans =>
    rw [if_neg (by omega)]
    exact .never hpt hch nofun nofun hans
  | counting hpt hch hbase hrx hans htxs hwait hstop =>
    have hlt : s.txStep ≠ canpt := by
      intro heq
      have := hwait.mp heq
      rw [htx] at this
      cases this
    rw [if_pos hpt]
    refine .counting hpt hch ?_ hrx hans ?_ ?_ ?_
    · simp only [List.length_append, List.length_singleton]
      omega
    · show s.txStep + 1 ≤ canpt
      omega
    · show s.txStep + 1 = canpt ↔ (if s.txStep + 1 = canpt then CanTx.waiting else .reading) = _
      split <;> simp_all
    · show (if s.txStep + 1 = canpt then CanTx.waiting else .reading) ≠ _
      split <;> nofun
  | answered code _ _ htx' => rw [htx] at htx'; cases htx'
  | cancelled htx' => rw [htx] at htx'; cases htx'

theorem data_canInv (h : CanInv o o' canpt suffix s)
    (hnext : canNext o o' bufsz canpt s .data = some t) : CanInv o o' canpt suffix t := by
  simp only [canNext] at hnext
  split at hnext
  · next c htx =>
    have hc := h.chunk c htx
    have hlink := h.link
    rw [htx] at hlink
    have hfile : suffix = (s.sent ++ [c]).flatten ++ ([] ++ s.rest) := by
      have := h.file
      rw [htx] at this
      simpa [CanTx.pending] using this
    have hchunks : ∀ d ∈ s.sent ++ [c], Chunk d := by
      intro d hd
      rcases List.mem_append.mp hd with hd | hd
      · exact h.chunks d hd
      · obtain rfl := List.mem_singleton.mp hd
        exact hc
    have hsync := h.sync.data htx (s.toRx ++ c)
    split at hnext
    · next hpt =>
      rw [if_pos hpt] at hsync
      obtain rfl := Option.some.inj hnext
      have htx' : ∀ tx : CanTx, (tx = if s.txStep + 1 = canpt then .waiting else .reading) →
          tx.tail o = [] ∧ tx.pending = [] ∧ (∀ code, tx ≠ .ended code) ∧ (∀ d, tx ≠ .chunk d) := by
        rintro tx rfl
        split <;> exact ⟨rfl, rfl, nofun, nofun⟩
      obtain ⟨htail, hpend, hend, hchunk⟩ := htx' _ rfl
      exact ⟨by rw [hpend]; exact hfile, fun code hcode => absurd hcode (hend code),
        fun d hd => absurd hd (hchunk d), hchunks, hlink.data hc htail, hsync, h.cancel, h.goOn,
        h.stored, h.whole⟩
    · next hpt =>
      rw [if_neg hpt] at hsync
      obtain rfl := Option.some.inj hnext
      exact ⟨hfile, nofun, nofun, hchunks, hlink.data hc rfl, hsync, h.cancel, h.goOn, h.stored,
        h.whole⟩
  · cases hnext

theorem unwire64_cont (o o' : Endian) : unwire64 o (wire64 o' hpfcont) = hpfcont :=
  unwire64_wire64 o' o (by decide) (by decide)

theorem unwire64_cancel (o o' : Endian) : unwire64 o (wire64 o' hpfcancel) = hpfcancel :=
  unwire64_wire64 o' o (by decide) (by decide)

theorem recv_eight_wire64 (o : Endian) (v : ℤ) : recv 8 (wire64 o v) = some (wire64 o v, []) := by
  have h := recv_wire64 o v []
  rwa [List.append_nil] at h

theorem code_canInv (h : CanInv o o' canpt suffix s)
    (hnext : canNext o o' bufsz canpt s .code = some t) : CanInv o o' canpt suffix t := by
  simp only [canNext] at hnext
  split at hnext
  · next htx =>
    have hfile := h.file
    rw [htx] at hfile
    have hlink := h.link
    rw [htx] at hlink
    cases h.sync with
    | never _ _ hwait => exact absurd htx hwait
    | counting _ hch =>
      rw [hch] at hnext
      cases hnext
    | cancelled htx' => rw [htx] at htx'; cases htx'
    | answered code hpt hch _ hall hcode =>
      rw [hch, recv_eight_wire64] at hnext
      simp only [Option.map_some, Option.some.injEq] at hnext
      rcases hcode with ⟨hrx, rfl, hstep⟩ | ⟨hrx, rfl⟩
      · -- the receiver wants more
        rw [unwire64_cont, if_neg (by simp)] at hnext
        subst hnext
        refine ⟨hfile, nofun, nofun, h.chunks, ?_, ?_, h.cancel, h.goOn, h.stored, h.whole⟩
        · rw [hrx] at hlink ⊢
          exact hlink
        · refine .counting hpt rfl ?_ ?_ ⟨fun heq => ?_, fun heq => ?_⟩ (Nat.zero_le _)
            ⟨fun heq => ?_, nofun⟩ nofun
          · show s.sent.length + s.rxStep = s.got.length + 0
            rw [hall, hstep]
          · show s.rxStep ≤ canpt
            omega
          · have : s.rxStep = canpt := heq
            omega
          · rw [show s.rx = .answer from heq] at hrx
            cases hrx
          · have : 0 = canpt := heq
            omega
      · rw [unwire64_cancel, if_pos (by decide)] at hnext
        subst hnext
        refine ⟨hfile, nofun, nofun, h.chunks, ?_, .cancelled rfl hrx rfl, h.cancel, h.goOn, h.stored,
          h.whole⟩
        rw [hrx] at hlink ⊢
        obtain ⟨hsent, hto, ⟨code, hcode⟩ | ⟨hfin, -⟩⟩ := hlink
        · cases hcode
        · exact ⟨hsent, hto, .inr ⟨hfin, .inr rfl⟩⟩
  · cases hnext

/-! ### Steps of the receiver -/

/-- The counters do not move with a header, and nothing is answered. -/
theorem CanSync.header (h : CanSync o' canpt s) (hrx : s.rx = .header) {q : List (List Byte)}
    (hsent : s.sent = s.got ++ q) {rx : CanRx} {toRx : List Byte} {del : Bool} (hans : rx ≠ .answer)
    (hwait : q = [] → s.tx ≠ .waiting) :
    CanSync o' canpt { s with rx := rx, toRx := toRx, del := del } := by
  cases h with
  | never hpt hch hw hstop _ => exact .never hpt hch hw hstop hans
  | counting hpt hch hbase hrxs hans' htxs hw hstop =>
    refine .counting hpt hch hbase hrxs ⟨fun heq => ?_, fun heq => absurd heq hans⟩ htxs hw hstop
    have := hans'.mp heq
    rw [hrx] at this
    cases this
  | answered code _ _ htx hall =>
    have hq : q = [] := by simpa [hall] using hsent
    exact absurd htx (hwait hq)
  | cancelled _ hrx' => rw [hrx] at hrx'; cases hrx'

theorem header_canInv (h : CanInv o o' canpt suffix s)
    (hnext : canNext o o' bufsz canpt s .header = some t) : CanInv o o' canpt suffix t := by
  simp only [canNext] at hnext
  split at hnext
  · next hrx =>
    obtain ⟨q, hsent, hto⟩ : ∃ q, s.sent = s.got ++ q ∧ s.toRx = encChunks o q ++ s.tx.tail o := by
      have := h.link
      rwa [hrx] at this
    have hsync : ∀ (rx : CanRx) (toRx : List Byte) (del : Bool), rx ≠ .answer →
        (q = [] → s.tx ≠ .waiting) →
        CanSync o' canpt { s with rx := rx, toRx := toRx, del := del } :=
      fun rx toRx del hans hwait => h.sync.header hrx hsent hans hwait
    cases q with
    | cons c q =>
      have hc : Chunk c := h.chunks c (by rw [hsent]; simp)
      obtain ⟨hend, hstop, hcancel, -, -⟩ := hc.not_code
      rw [encChunks_cons, List.append_assoc] at hto
      rw [hto, recv_wire64] at hnext
      simp only [Option.map_some, Option.some.injEq, hc.unwire, hend, hstop, hcancel, or_self,
        if_false] at hnext
      subst hnext
      refine ⟨h.file, h.ended, h.chunk, h.chunks, ?_, hsync _ _ _ nofun nofun, h.cancel, nofun,
        h.stored, h.whole⟩
      exact ⟨c, hc, rfl, .inl ⟨q, hsent, by simp⟩⟩
    | nil =>
      rw [encChunks_nil, List.nil_append] at hto
      have hall : s.sent = s.got := by simpa using hsent
      cases htx : s.tx with
      | reading => rw [hto, htx] at hnext; cases hnext
      | waiting => rw [hto, htx] at hnext; cases hnext
      | stopped => rw [hto, htx] at hnext; cases hnext
      | chunk c =>
        have hc := h.chunk c htx
        obtain ⟨hend, hstop, hcancel, -, -⟩ := hc.not_code
        rw [htx, CanTx.tail_chunk] at hto
        rw [hto, recv_eight_wire64] at hnext
        simp only [Option.map_some, Option.some.injEq, hc.unwire, hend, hstop, hcancel, or_self,
          if_false] at hnext
        subst hnext
        exact ⟨h.file, h.ended, h.chunk, h.chunks, ⟨c, hc, rfl, .inr ⟨hall, htx, rfl⟩⟩,
          hsync _ _ _ nofun (fun _ hw => by rw [htx] at hw; cases hw), h.cancel, nofun, h.stored,
          h.whole⟩
      | ended code =>
        have hnew : ∀ del : Bool,
            CanInv o o' canpt suffix { s with toRx := [], rx := .done, del := del } := by
          intro del
          exact ⟨h.file, h.ended, h.chunk, h.chunks, ⟨hall, rfl, .inl ⟨code, htx⟩⟩,
            hsync _ _ _ nofun (fun _ hw => by rw [htx] at hw; cases hw), h.cancel, nofun, h.stored,
            h.whole⟩
        have hcode : code = hpfend ∨ code = hpfcancel := by
          rcases h.ended code htx with ⟨hcode, -⟩ | hcode
          · exact .inl hcode
          · exact .inr hcode
        rcases hcode with rfl | rfl
        · have hto' : s.toRx = wire64 o hpfend := by rw [hto, htx]; rfl
          rw [hto', recv_eight_wire64] at hnext
          simp only [Option.map_some, Option.some.injEq,
            unwire64_wire64 o o' (v := hpfend) (by decide) (by decide), true_or, if_true] at hnext
          subst hnext
          exact hnew s.del
        · have hto' : s.toRx = wire64 o hpfcancel := by rw [hto, htx]; rfl
          rw [hto', recv_eight_wire64] at hnext
          simp only [Option.map_some, Option.some.injEq, unwire64_cancel,
            show ¬ (hpfcancel = hpfend ∨ hpfcancel = hpfstop) by decide, if_true, if_false] at hnext
          subst hnext
          exact hnew true
  · cases hnext

/-- A call that fails leaves something unstored. -/
theorem writechunk_of_fails : ∀ (sched : List SysRes) {buf : List Byte}, buf ≠ [] →
    writeFails sched buf.length = true →
      (writechunk sched buf).1 = -1 ∧ (writechunk sched buf).2.length < buf.length := by
  intro sched
  induction sched with
  | nil => intro buf _ h; cases h
  | cons r sched ih =>
    intro buf hne h
    cases r with
    | eintr => exact ih hne h
    | err => exact ⟨rfl, List.length_pos_iff.mpr hne⟩
    | cnt n =>
      rw [writeFails] at h
      rw [writechunk]
      split at h
      · cases h
      · next hlt =>
        rw [if_neg hlt]
        rw [← List.length_drop] at h
        have hdrop : buf.drop (n + 1) ≠ [] := by
          intro hnil
          have := List.drop_eq_nil_iff.mp hnil
          omega
        obtain ⟨hret, hlen⟩ := ih hdrop h
        refine ⟨hret, ?_⟩
        rw [List.length_drop] at hlen
        simp only [List.length_append, List.length_take]
        omega

/-- If no call fails everything is stored, and what is returned is a count. -/
theorem writechunk_of_not_fails : ∀ (sched : List SysRes) {buf : List Byte}, buf ≠ [] →
    writeFails sched buf.length = false →
      (writechunk sched buf).2 = buf ∧ 0 < (writechunk sched buf).1 ∧
        (writechunk sched buf).1 ≤ buf.length := by
  intro sched
  induction sched with
  | nil =>
    intro buf hne _
    have := List.length_pos_iff.mpr hne
    exact ⟨rfl, by simp only [writechunk]; omega, le_rfl⟩
  | cons r sched ih =>
    intro buf hne h
    have hpos := List.length_pos_iff.mpr hne
    cases r with
    | eintr => exact ih hne h
    | err => cases h
    | cnt n =>
      rw [writeFails] at h
      rw [writechunk]
      split
      · exact ⟨rfl, by simp only; omega, le_rfl⟩
      · next hlt =>
        rw [if_neg hlt, ← List.length_drop] at h
        have hdrop : buf.drop (n + 1) ≠ [] := by
          intro hnil
          have := List.drop_eq_nil_iff.mp hnil
          omega
        obtain ⟨hall, hret, hle⟩ := ih hdrop h
        rw [List.length_drop] at hle
        refine ⟨?_, hret, by simp only; omega⟩
        simp only [hall, List.take_append_drop]

/-- The length is returned exactly when one call stored everything. -/
theorem writechunk_eq_length : ∀ (sched : List SysRes) {buf : List Byte}, buf ≠ [] →
    ((writechunk sched buf).1 = buf.length ↔ wholeWrite sched buf = true) := by
  intro sched
  induction sched with
  | nil => intro buf _; simp [writechunk, wholeWrite]
  | cons r sched ih =>
    intro buf hne
    have hpos := List.length_pos_iff.mpr hne
    cases r with
    | eintr => exact ih hne
    | err =>
      simp only [writechunk, wholeWrite, Bool.false_eq_true, iff_false]
      omega
    | cnt n =>
      rw [writechunk]
      split
      · next hle => simp [wholeWrite, hle]
      · next hlt =>
        have hdrop : buf.drop (n + 1) ≠ [] := by
          intro hnil
          have := List.drop_eq_nil_iff.mp hnil
          omega
        have hlen : (buf.drop (n + 1)).length = buf.length - (n + 1) := List.length_drop
        -- the rest is shorter than the chunk, and no count is longer than the rest
        simp only [wholeWrite, decide_eq_true_eq, hlt, iff_false]
        cases hf : writeFails sched (buf.drop (n + 1)).length with
        | true =>
          have := (writechunk_of_fails sched hdrop hf).1
          omega
        | false =>
          have := (writechunk_of_not_fails sched hdrop hf).2.2
          omega

/-- As an `int` the count is the length exactly when one call stored everything. -/
theorem cint_writechunk_iff (sched : List SysRes) {buf : List Byte} (hne : buf ≠ [])
    (hlen : buf.length < 2 ^ 31) :
    cint (writechunk sched buf).1 = buf.length ↔ wholeWrite sched buf = true := by
  rw [← writechunk_eq_length sched hne]
  cases hf : writeFails sched buf.length with
  | true =>
    have hret := (writechunk_of_fails sched hne hf).1
    have hneg : cint (-1) = -1 := by decide
    rw [hret, hneg]
  | false =>
    obtain ⟨-, hpos, hle⟩ := writechunk_of_not_fails sched hne hf
    obtain ⟨n, hn⟩ := Int.eq_ofNat_of_zero_le hpos.le
    have hself : cint n = n := cint_of_lt (by omega)
    rw [hn, hself]

/-- The count `writechunk` returns is the chunk's length exactly when one call stored all of
it. -/
theorem cint_writechunk {c : List Byte} (hc : Chunk c) (sched : List SysRes) :
    cint (writechunk sched c).1 = c.length ↔ wholeWrite sched c = true := by
  have hrange := hc.range
  exact cint_writechunk_iff sched hc.1 (by omega)

/-- What `storeChunk` does to a receiver that stored everything so far, or that gave up. -/
theorem storeChunk_spec {c : List Byte} (hc : Chunk c) (sched : List SysRes)
    (hcancel : s.fin = true → s.code = hpfcancel) (hwhole : s.whole = !s.fin)
    (hstored : s.fin = false → s.written = s.got.flatten) {got : List (List Byte)} {toRx : List Byte}
    (hgot : got = s.got ++ [c]) (u : CanSys)
    (hu : u = storeChunk { s with toRx := toRx, got := got } c.length c sched) :
    (u.fin = true → u.code = hpfcancel) ∧ (u.fin = false → u.code = hpfcont) ∧
      (u.fin = false → u.written = u.got.flatten) ∧ u.whole = !u.fin ∧
      (u.tx = s.tx ∧ u.rest = s.rest ∧ u.txStep = s.txStep ∧ u.rxStep = s.rxStep ∧
        u.toRx = toRx ∧ u.toTx = s.toTx ∧ u.sent = s.sent ∧ u.got = got) := by
  have hstore := cint_writechunk hc sched
  cases hfin : s.fin with
  | true =>
    have heq : u = { s with toRx := toRx, got := got } := by
      rw [hu, storeChunk, if_pos hfin]
    subst heq
    refine ⟨hcancel, fun hf => ?_, fun hf => ?_, hwhole, rfl, rfl, rfl, rfl, rfl, rfl, rfl, rfl⟩ <;>
      · rw [show s.fin = false from hf] at hfin
        cases hfin
  | false =>
    rw [storeChunk, if_neg (by simp [hfin])] at hu
    subst hu
    refine ⟨fun hf => ?_, fun hf => ?_, fun hf => ?_, ?_, rfl, rfl, rfl, rfl, rfl, rfl, rfl, rfl⟩
    · simp only [decide_eq_true_eq] at hf
      simp [hf]
    · simp only [decide_eq_false_iff_not, not_not] at hf
      simp [hf]
    · simp only [decide_eq_false_iff_not, not_not] at hf
      have hret : (writechunk sched c).1 ≠ -1 := by
        intro h1
        have : cint (-1) = -1 := by decide
        rw [h1, this] at hf
        have := hc.range
        omega
      show s.written ++ (writechunk sched c).2 = got.flatten
      rw [hstored hfin, (writechunk_spec sched c).2 hret, hgot, List.flatten_append]
      simp
    · show (s.whole && wholeWrite sched c) = !decide _
      rw [hwhole, hfin]
      by_cases hw : wholeWrite sched c = true
      · simp [hw, hstore.mpr hw]
      · have hne : cint (writechunk sched c).1 ≠ c.length := fun hc => hw (hstore.mp hc)
        simp [hw, hne]

/-- The receiver counts a chunk. -/
theorem CanSync.body {u : CanSys} (h : CanSync o' canpt s) {len : ℤ} (hrx : s.rx = .body len)
    {c : List Byte} (htx : u.tx = s.tx) (htxs : u.txStep = s.txStep) (hrxs : u.rxStep = s.rxStep)
    (hch : u.toTx = s.toTx) (hsent : u.sent = s.sent) (hgot : u.got = s.got ++ [c]) :
    CanSync o' canpt (if 1 ≤ canpt then
        { u with rx := if u.rxStep + 1 = canpt then .answer else .header, rxStep := u.rxStep + 1 }
      else { u with rx := .header }) := by
  cases h with
  | never hpt hch' hwait hstop _ =>
    rw [if_neg (by omega)]
    exact .never hpt (hch.trans hch') (by show u.tx ≠ _; rw [htx]; exact hwait)
      (by show u.tx ≠ _; rw [htx]; exact hstop) nofun
  | counting hpt hch' hbase hrx' hans htxs' hwait hstop =>
    have hlt : s.rxStep ≠ canpt := by
      intro heq
      have := hans.mp heq
      rw [hrx] at this
      cases this
    rw [if_pos hpt]
    refine .counting hpt (hch.trans hch') ?_ ?_ ?_ ?_ ?_ ?_
    · show u.sent.length + (u.rxStep + 1) = u.got.length + u.txStep
      rw [hsent, hrxs, hgot, htxs, List.length_append, List.length_singleton]
      omega
    · show u.rxStep + 1 ≤ canpt
      omega
    · show u.rxStep + 1 = canpt ↔ (if u.rxStep + 1 = canpt then CanRx.answer else .header) = _
      split <;> simp_all
    · show u.txStep ≤ canpt
      omega
    · show u.txStep = canpt ↔ u.tx = .waiting
      rw [htxs, htx]
      exact hwait
    · show u.tx ≠ .stopped
      rw [htx]
      exact hstop
  | answered code _ _ _ _ hcode =>
    rcases hcode with ⟨hrx', -⟩ | ⟨hrx', -⟩ <;> rw [hrx] at hrx' <;> cases hrx'
  | cancelled _ hrx' => rw [hrx] at hrx'; cases hrx'

theorem body_canInv (h : CanInv o o' canpt suffix s) {sched : List SysRes}
    (hnext : canNext o o' bufsz canpt s (.body sched) = some t) : CanInv o o' canpt suffix t := by
  simp only [canNext] at hnext
  split at hnext
  · next len hrx =>
    have hlink := h.link
    rw [hrx] at hlink
    obtain ⟨c, hc, rfl, ⟨q, hsent, hto⟩ | ⟨hsent, htx, hto⟩⟩ := hlink
    · rw [hto, Int.toNat_natCast, recv_append] at hnext
      simp only [Option.map_some, Option.some.injEq] at hnext
      generalize hu : storeChunk { s with toRx := encChunks o q ++ s.tx.tail o, got := s.got ++ [c] }
        c.length c sched = u at hnext
      obtain ⟨hcancel, hcont, hstored, hwhole, htx, hrest, htxs, hrxs, hto', hch, hsent', hgot⟩ :=
        storeChunk_spec hc sched h.cancel h.whole h.stored rfl u hu.symm
      have hlink : ∃ q, u.sent = u.got ++ q ∧ u.toRx = encChunks o q ++ u.tx.tail o :=
        ⟨q, by rw [hsent', hgot, hsent]; simp, by rw [hto', htx]⟩
      have hfile : suffix = u.sent.flatten ++ (u.tx.pending ++ u.rest) := by
        rw [hsent', htx, hrest]
        exact h.file
      have hended : ∀ code, u.tx = .ended code → code = hpfend ∧ u.rest = [] ∨ code = hpfcancel := by
        rw [htx, hrest]
        exact h.ended
      have hchunk : ∀ c, u.tx = .chunk c → Chunk c := by
        rw [htx]
        exact h.chunk
      have hchunks : ∀ c ∈ u.sent, Chunk c := by
        rw [hsent']
        exact h.chunks
      have hsync := h.sync.body hrx htx htxs hrxs hch hsent' hgot
      split at hnext
      · next hpt =>
        rw [if_pos hpt] at hsync
        subst hnext
        refine ⟨hfile, hended, hchunk, hchunks, ?_, hsync, hcancel, fun _ => hcont, hstored, hwhole⟩
        show CanLink o u.tx u.fin u.sent u.got u.toRx (if _ then _ else _)
        split <;> exact hlink
      · next hpt =>
        rw [if_neg hpt] at hsync
        subst hnext
        exact ⟨hfile, hended, hchunk, hchunks, hlink, hsync, hcancel, nofun, hstored, hwhole⟩
    · -- the chunk is not there yet
      rw [hto, recv, if_neg (by simpa using hc.1)] at hnext
      cases hnext
  · cases hnext

theorem answer_canInv (h : CanInv o o' canpt suffix s)
    (hnext : canNext o o' bufsz canpt s .answer = some t) : CanInv o o' canpt suffix t := by
  simp only [canNext] at hnext
  split at hnext
  · next hrx =>
    obtain rfl := Option.some.inj hnext
    obtain ⟨q, hsent, hto⟩ : ∃ q, s.sent = s.got ++ q ∧ s.toRx = encChunks o q ++ s.tx.tail o := by
      have := h.link
      rwa [hrx] at this
    cases h.sync with
    | never _ _ _ _ hans => exact absurd hrx hans
    | answered code _ _ _ _ hcode =>
      rcases hcode with ⟨hrx', -⟩ | ⟨hrx', -⟩ <;> rw [hrx] at hrx' <;> cases hrx'
    | cancelled _ hrx' => rw [hrx] at hrx'; cases hrx'
    | counting hpt hch hbase hrxs hans htxs hwait hstop =>
      -- the receiver has got everything, so the sender is at the same point
      have hstep := hans.mpr hrx
      have hlen := congrArg List.length hsent
      rw [List.length_append] at hlen
      have hq : q = [] := List.length_eq_zero_iff.mp (by omega)
      have htx : s.tx = .waiting := hwait.mp (by omega)
      have hall : s.sent = s.got := by rw [hsent, hq, List.append_nil]
      have hempty : s.toRx = [] := by rw [hto, hq, htx]; rfl
      have hwire : s.toTx ++ wire64 o' s.code = wire64 o' s.code := by rw [hch, List.nil_append]
      cases hfin : s.fin with
      | true =>
        simp only [if_true]
        have hcode := h.cancel hfin
        refine ⟨h.file, h.ended, h.chunk, h.chunks, ⟨hall, hempty, .inr ⟨rfl, .inl htx⟩⟩,
          .answered hpfcancel hpt ?_ htx hall (.inr ⟨rfl, rfl⟩), fun _ => hcode, nofun, nofun, ?_⟩
        · show s.toTx ++ wire64 o' s.code = _
          rw [hwire, hcode]
        · rw [← hfin]
          exact h.whole
      | false =>
        simp only [Bool.false_eq_true, if_false]
        have hcode := h.goOn hrx hfin
        refine ⟨h.file, h.ended, h.chunk, h.chunks, ⟨[], by rw [hall, List.append_nil],
          by rw [htx]; exact hempty⟩, .answered hpfcont hpt ?_ htx hall (.inl ⟨rfl, rfl, rfl⟩), nofun,
          nofun, fun _ => h.stored hfin, ?_⟩
        · show s.toTx ++ wire64 o' s.code = _
          rw [hwire, hcode]
        · rw [← hfin]
          exact h.whole
  · cases hnext

/-- **Every step keeps the invariant.** -/
theorem canNext_inv (hbuf : 0 < bufsz) (h : CanInv o o' canpt suffix s) {a : CanAct}
    (hnext : canNext o o' bufsz canpt s a = some t) : CanInv o o' canpt suffix t := by
  cases a with
  | read r => exact read_canInv hbuf h hnext
  | data => exact data_canInv h hnext
  | code => exact code_canInv h hnext
  | header => exact header_canInv h hnext
  | body sched => exact body_canInv h hnext
  | answer => exact answer_canInv h hnext

/-! ### What follows -/

/-- While the sender waits for a code, the receiver has something to read or to do. -/
theorem CanInv.not_bothWait (h : CanInv o o' canpt suffix s) : ¬ BothWait s := by
  rintro ⟨htx, hcode, hrx⟩
  cases h.sync with
  | never _ _ hwait => exact hwait htx
  | answered code _ hch =>
    rw [hch, recv_eight_wire64] at hcode
    cases hcode
  | cancelled htx' => rw [htx] at htx'; cases htx'
  | counting _ _ hbase _ hans _ hwait _ =>
    have hlink := h.link
    rcases hrx with ⟨hrx, hnone⟩ | ⟨len, hrx, hnone⟩
    · rw [hrx] at hlink
      obtain ⟨q, hsent, hto⟩ := hlink
      cases q with
      | nil =>
        have hlen := congrArg List.length hsent
        rw [List.append_nil] at hlen
        have := hans.mp (by have := hwait.mpr htx; omega)
        rw [hrx] at this
        cases this
      | cons c q =>
        rw [hto, encChunks_cons, List.append_assoc, recv_wire64] at hnone
        cases hnone
    · rw [hrx] at hlink
      obtain ⟨c, -, rfl, ⟨q, -, hto⟩ | ⟨-, htx', -⟩⟩ := hlink
      · rw [hto, Int.toNat_natCast, recv_append] at hnone
        cases hnone
      · rw [htx] at htx'
        cases htx'

/-- Once both have returned, the channels are empty. -/
theorem CanInv.channels (h : CanInv o o' canpt suffix s) (hret : CanReturned s) :
    s.toRx = [] ∧ s.toTx = [] := by
  obtain ⟨htx, hrx⟩ := hret
  have hlink := h.link
  rw [hrx] at hlink
  refine ⟨hlink.2.1, ?_⟩
  cases h.sync with
  | never _ hch => exact hch
  | counting _ hch => exact hch
  | answered code _ _ htx' =>
    rcases htx with htx | ⟨code, htx⟩ <;> rw [htx] at htx' <;> cases htx'
  | cancelled _ _ hch => exact hch

/-- If every write stored its chunk and the file could be read, the receiver stored what the
sender had. -/
theorem CanInv.written (h : CanInv o o' canpt suffix s) (hret : CanReturned s)
    (hwhole : s.whole = true) (hread : s.tx ≠ .ended hpfcancel) : s.written = suffix := by
  obtain ⟨-, hrx⟩ := hret
  have hlink := h.link
  rw [hrx] at hlink
  obtain ⟨hall, -, hend⟩ := hlink
  have hfin : s.fin = false := by
    have := h.whole
    rw [hwhole] at this
    simpa using this.symm
  obtain ⟨code, htx⟩ : ∃ code, s.tx = .ended code := by
    rcases hend with hend | ⟨hf, -⟩
    · exact hend
    · rw [hfin] at hf
      cases hf
  have hrest : s.rest = [] := by
    rcases h.ended code htx with ⟨-, hrest⟩ | rfl
    · exact hrest
    · exact absurd htx hread
  have hfile := h.file
  rw [htx, hrest] at hfile
  rw [h.stored hfin, ← hall, hfile]
  simp [CanTx.pending]

/-- **Streams with cancellation points fit together.**  For every file, offset, chunk size,
period and pattern of reads and writes, and every order of the steps: the two never both
wait to read; once both have returned nothing is left in the channels, whether or not a
write failed; and if every write stored its whole chunk (and no read failed), the
receiver's file has the sender's bytes from the offset on, and behind them what it had
there before. -/
theorem can_streams_fit (hbuf : 0 < bufsz) (content old : List Byte) (offst : ℕ)
    {acts : List CanAct}
    (hrun : Runs.run (canNext o o' bufsz canpt) (.start (content.drop offst)) acts = some s) :
    ¬ BothWait s ∧
      (CanReturned s → s.toRx = [] ∧ s.toTx = [] ∧
        (s.whole = true → s.tx ≠ .ended hpfcancel →
          (storedAt old offst s.written).drop offst
            = content.drop offst ++ old.drop (offst + (content.drop offst).length))) := by
  have hinv := Runs.inv_of_all (fun _ _ _ h hnext => canNext_inv hbuf h hnext)
    (start_canInv o o' canpt (content.drop offst)) hrun
  refine ⟨hinv.not_bothWait, fun hret => ?_⟩
  obtain ⟨hrx, htx⟩ := hinv.channels hret
  refine ⟨hrx, htx, fun hwhole hread => ?_⟩
  rw [drop_storedAt, hinv.written hret hwhole hread]

/-! ### Three bytes, and one -/

/-- A transfer of three bytes in two chunks, with a cancellation point behind each. -/
def threeBytes : List CanAct :=
  [.read (some 1), .header, .data, .body [.eintr], .answer, .code,
    .read (some 5), .data, .header, .body [], .answer, .code, .read (some 0), .header]

theorem can_streams_fit_three :
    ∃ s, Runs.run (canNext .little .big 2 1) (.start [7, 8, 9]) threeBytes = some s ∧
      CanReturned s ∧ s.sent = [[7, 8], [9]] ∧ s.toRx = [] ∧ s.toTx = [] ∧
      (storedAt [] 0 s.written).drop 0 = [7, 8, 9] := by
  have hsome : ((Runs.run (canNext .little .big 2 1) (.start [7, 8, 9]) threeBytes).map fun s =>
      (s.tx, s.rx, s.whole, s.sent)) = some (.ended hpfend, .done, true, [[7, 8], [9]]) := by
    decide +kernel
  obtain ⟨s, hrun, hs⟩ := Option.map_eq_some_iff.mp hsome
  obtain ⟨htx, hrx, hwhole, hsent⟩ :
      s.tx = .ended hpfend ∧ s.rx = .done ∧ s.whole = true ∧ s.sent = [[7, 8], [9]] := by
    simpa using hs
  have hret : CanReturned s := ⟨.inr ⟨_, htx⟩, hrx⟩
  obtain ⟨hto, hfrom, hfile⟩ := (can_streams_fit (by decide) [7, 8, 9] [] 0 hrun).2 hret
  exact ⟨s, hrun, hret, hsent, hto, hfrom, hfile hwhole (by rw [htx]; decide)⟩

/-- A transfer of one byte with a cancellation point behind it. -/
def oneByte : List CanAct :=
  [.read (some 0), .data, .header, .body [], .answer, .code, .read (some 0), .header]

/-- The receiver's file is not cut off: where it was longer than what is sent, the old bytes
stay behind the new ones. -/
theorem can_streams_old_tail :
    ∃ s, Runs.run (canNext .little .big 4 1) (.start [7]) oneByte = some s ∧ CanReturned s ∧
      s.whole = true ∧ storedAt [1, 2] 0 s.written = [7, 2] ∧
      (storedAt [1, 2] 0 s.written).drop 0 ≠ [7] := by
  have hsome : ((Runs.run (canNext .little .big 4 1) (.start [7]) oneByte).map fun s =>
      (s.tx, s.rx, s.whole, s.written)) = some (.ended hpfend, .done, true, [7]) := by
    decide +kernel
  obtain ⟨s, hrun, hs⟩ := Option.map_eq_some_iff.mp hsome
  obtain ⟨htx, hrx, hwhole, hwritten⟩ :
      s.tx = .ended hpfend ∧ s.rx = .done ∧ s.whole = true ∧ s.written = [7] := by
    simpa using hs
  refine ⟨s, hrun, ⟨.inr ⟨_, htx⟩, hrx⟩, hwhole, ?_, ?_⟩
  · rw [hwritten]
    decide
  · rw [hwritten]
    decide

end TFProtocol
