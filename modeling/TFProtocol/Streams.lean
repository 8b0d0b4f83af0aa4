import TFProtocol.StreamCan

/-!
# Streams that can be cancelled at any time

`getstream` sends a file while a second thread, `getstream_cancelth`, listens for codes of
the receiver and clears `hpfcont` when it reads `HPFCANCEL`.  `putstream` stores chunks until
the file ends, the sender cancels, or a chunk cannot be stored; it then says `HPFFIN` and
drains what is still on its way.  The sender joins its listener, which `HPFFIN` ends, and
only then says `HPFFIN` itself.

The system is the three threads over two channels, one block of a channel or one call for a
file at a time, in any order.  `sent` and `got` are the chunks sent and received in full,
`codes` and `answers` the codes either side has sent, `seen` and `heard` those the other
side has read.

## Main definitions

* `HpfTx`, `HpfRx`, `HpfSys`, `hpfNext` — the threads and their steps.
* `HpfReturned` — both functions have returned `0`.
* `HpfInv` — what holds between the threads and the channels.

## Main results

* `streams_fit` — after both have returned, nothing is left in the channels, and the
  receiver has stored the sender's bytes unless one side cancelled.
-/

namespace TFProtocol

open Bytes

/-! ### The system -/

/-- Where the main thread of `getstream` stands. -/
inductive HpfTx
  /-- At the condition of the loop. -/
  | test
  | reading
  /-- The length of a chunk was sent, and the chunk is to be sent. -/
  | chunk (c : List Byte)
  /-- At `pthread_join`. -/
  | joining
  /-- About to send `HPFFIN`. -/
  | fin
  | done
  deriving DecidableEq, Repr

/-- Where `putstream` stands. -/
inductive HpfRx
  | header
  | body (len : ℤ)
  /-- A chunk could not be stored. -/
  | sendCancel
  | sendFin
  /-- In the second loop. -/
  | drain
  | drainBody (len : ℤ)
  | done
  deriving DecidableEq, Repr

/-- The three threads and the channels. -/
structure HpfSys where
  tx : HpfTx
  /-- What the sender has not read of its file. -/
  rest : List Byte
  /-- `hpfcont`. -/
  cont : Bool
  /-- `getstream_cancelth` runs. -/
  listening : Bool
  rx : HpfRx
  del : Bool
  written : List Byte
  toRx : List Byte
  toTx : List Byte
  sent : List (List Byte)
  got : List (List Byte)
  codes : List ℤ
  seen : List ℤ
  answers : List ℤ
  heard : List ℤ
  deriving DecidableEq, Repr

/-- A step of one of the threads. -/
inductive HpfAct
  | test
  /-- The sender reads its file and sends a length or a code. -/
  | read (r : Option ℕ)
  | data
  | join
  | txFin
  /-- The listener reads a code. -/
  | listen
  | header
  /-- The receiver receives a chunk and stores it. -/
  | body (sched : List SysRes)
  | rxCancel
  | rxFin
  | drain
  | drainBody
  deriving DecidableEq, Repr

section

variable (o o' : Endian) (bufsz : ℕ)

/-- The sender sends a code. -/
def HpfSys.say (s : HpfSys) (code : ℤ) (tx : HpfTx) : HpfSys :=
  { s with tx := tx, toRx := s.toRx ++ wire64 o code, codes := s.codes ++ [code] }

/-- The receiver sends a code. -/
def HpfSys.tell (s : HpfSys) (code : ℤ) (rx : HpfRx) : HpfSys :=
  { s with rx := rx, toTx := s.toTx ++ wire64 o' code, answers := s.answers ++ [code] }

/-- A step of the two threads of the sender. -/
def hpfTxNext (s : HpfSys) : HpfAct → Option HpfSys
  | .test =>
    if s.tx = .test then some { s with tx := if s.cont then .reading else .joining } else none
  | .read r =>
    if s.tx = .reading then
      match fileChunk bufsz s.rest r with
      | none => some (s.say o hpfcancel .joining)
      | some [] => some (s.say o hpfend .joining)
      | some c =>
        some { s with
          tx := .chunk c, rest := s.rest.drop c.length, toRx := s.toRx ++ wire64 o c.length }
    else none
  | .data =>
    match s.tx with
    | .chunk c => some { s with tx := .test, toRx := s.toRx ++ c, sent := s.sent ++ [c] }
    | _ => none
  | .join => if s.tx = .joining ∧ s.listening = false then some { s with tx := .fin } else none
  | .txFin => if s.tx = .fin then some (s.say o hpffin .done) else none
  | .listen =>
    if s.listening then
      (recv 8 s.toTx).map fun m =>
        let code := unwire64 o m.1
        let s := { s with toTx := m.2, heard := s.heard ++ [code] }
        if code = hpfcancel then { s with cont := false }
        else if code = hpffin then { s with listening := false }
        else s
    else none
  | _ => none

/-- A step of the receiver. -/
def hpfRxNext (s : HpfSys) : HpfAct → Option HpfSys
  | .header =>
    if s.rx = .header then
      (recv 8 s.toRx).map fun m =>
        let len := unwire64 o' m.1
        let s := { s with toRx := m.2 }
        if len = hpfend ∨ len = hpfstop then { s with rx := .sendFin, seen := s.seen ++ [len] }
        else if len = hpfcancel then
          { s with rx := .sendFin, del := true, seen := s.seen ++ [len] }
        else { s with rx := .body len }
    else none
  | .body sched =>
    match s.rx with
    | .body len =>
      (recv len.toNat s.toRx).map fun m =>
        let w := writechunk sched m.1
        -- the count goes through an `int`
        { s with
          toRx := m.2
          got := s.got ++ [m.1]
          written := s.written ++ w.2
          rx := if cint w.1 ≠ len then .sendCancel else .header }
    | _ => none
  | .rxCancel => if s.rx = .sendCancel then some (s.tell o' hpfcancel .sendFin) else none
  | .rxFin => if s.rx = .sendFin then some (s.tell o' hpffin .drain) else none
  | .drain =>
    if s.rx = .drain then
      (recv 8 s.toRx).map fun m =>
        let len := unwire64 o' m.1
        let s := { s with toRx := m.2 }
        if len = hpfcancel ∨ len = hpfend ∨ len = hpfstop then { s with seen := s.seen ++ [len] }
        else if len = hpffin then { s with rx := .done, seen := s.seen ++ [len] }
        else { s with rx := .drainBody len }
    else none
  | .drainBody =>
    match s.rx with
    | .drainBody len =>
      (recv len.toNat s.toRx).map fun m => { s with rx := .drain, toRx := m.2, got := s.got ++ [m.1] }
    | _ => none
  | _ => none

/-- One step. -/
def hpfNext (s : HpfSys) (a : HpfAct) : Option HpfSys :=
  hpfTxNext o bufsz s a <|> hpfRxNext o' s a

end

/-- All threads at their start, with the sender's file from the offset on. -/
def HpfSys.start (suffix : List Byte) : HpfSys where
  tx := .test
  rest := suffix
  cont := true
  listening := true
  rx := .header
  del := false
  written := []
  toRx := []
  toTx := []
  sent := []
  got := []
  codes := []
  seen := []
  answers := []
  heard := []

/-- Both functions have returned `0`. -/
def HpfReturned (s : HpfSys) : Prop := s.tx = .done ∧ s.rx = .done

/-! ### The invariant -/

/-- Codes on the wire. -/
def wires (o : Endian) (codes : List ℤ) : List Byte := codes.flatMap (wire64 o)

@[simp] theorem wires_nil (o : Endian) : wires o [] = [] := rfl

@[simp] theorem wires_cons (o : Endian) (code : ℤ) (codes : List ℤ) :
    wires o (code :: codes) = wire64 o code ++ wires o codes := by
  simp [wires]

@[simp] theorem wires_append (o : Endian) (l l' : List ℤ) :
    wires o (l ++ l') = wires o l ++ wires o l' := by
  simp [wires]

/-- The length the sender put behind its last full chunk. -/
def HpfTx.part (o : Endian) : HpfTx → List Byte
  | .chunk c => wire64 o c.length
  | _ => []

@[simp] theorem HpfTx.part_chunk (o : Endian) (c : List Byte) :
    (HpfTx.chunk c).part o = wire64 o c.length := rfl

/-- What the sender read and has not sent. -/
def HpfTx.pending : HpfTx → List Byte
  | .chunk c => c
  | _ => []

/-- Why the loop of the sender ended: the end of the file, an error, or a cancellation. -/
def LoopEnded (cont : Bool) (rest : List Byte) (codes : List ℤ) : Prop :=
  codes = [hpfend] ∧ rest = [] ∨ codes = [hpfcancel] ∨ codes = [] ∧ cont = false

/-- The codes the sender has sent. -/
def TxCodes (cont : Bool) (rest : List Byte) (codes : List ℤ) : HpfTx → Prop
  | .joining => LoopEnded cont rest codes
  | .fin => LoopEnded cont rest codes
  | .done => ∃ l, LoopEnded cont rest l ∧ codes = l ++ [hpffin]
  | _ => codes = []

/-- The codes the receiver has read and sent. -/
def RxCodes (seen answers : List ℤ) : HpfRx → Prop
  | .sendFin => hpffin ∉ seen ∧ (answers = [] ∧ seen ≠ [] ∨ answers = [hpfcancel])
  | .drain => hpffin ∉ seen ∧ (answers = [hpffin] ∧ seen ≠ [] ∨ answers = [hpfcancel, hpffin])
  | .drainBody _ => hpffin ∉ seen ∧ answers = [hpfcancel, hpffin]
  | .done => hpffin ∈ seen ∧ (answers = [hpffin] ∨ answers = [hpfcancel, hpffin])
  | _ => seen = [] ∧ answers = []

/-- A receiver that waits for the bytes of a chunk. -/
def InChunk (o : Endian) (tx : HpfTx) (sent got : List (List Byte)) (toRx : List Byte)
    (seen pend : List ℤ) (len : ℤ) : Prop :=
  seen = [] ∧ ∃ c, Chunk c ∧ len = c.length ∧
    ((∃ q, sent = got ++ c :: q ∧ toRx = c ++ (encChunks o q ++ (tx.part o ++ wires o pend))) ∨
      (sent = got ∧ tx = .chunk c ∧ toRx = []))

/-- The chunks the receiver has not got are in the channel, in order, and then the codes it
has not read. -/
def HpfLink (o : Endian) (tx : HpfTx) (sent got : List (List Byte)) (toRx : List Byte)
    (seen pend : List ℤ) : HpfRx → Prop
  | .body len => InChunk o tx sent got toRx seen pend len
  | .drainBody len => InChunk o tx sent got toRx seen pend len
  | _ => ∃ q, sent = got ++ q ∧ toRx = encChunks o q ++ (tx.part o ++ wires o pend) ∧
      (seen ≠ [] → q = [])

/-- The invariant of the three threads together. -/
structure HpfInv (o o' : Endian) (suffix : List Byte) (s : HpfSys) : Prop where
  file : suffix = s.sent.flatten ++ (s.tx.pending ++ s.rest)
  chunk : ∀ c, s.tx = .chunk c → Chunk c
  chunks : ∀ c ∈ s.sent, Chunk c
  txCodes : TxCodes s.cont s.rest s.codes s.tx
  link : ∃ pend, s.codes = s.seen ++ pend ∧ HpfLink o s.tx s.sent s.got s.toRx s.seen pend s.rx
  rxCodes : RxCodes s.seen s.answers s.rx
  back : ∃ pend, s.answers = s.heard ++ pend ∧ s.toTx = wires o' pend
  ended : s.listening = false ↔ hpffin ∈ s.heard
  cancelled : s.cont = false → hpfcancel ∈ s.heard
  joined : s.tx = .fin ∨ s.tx = .done → s.listening = false
  stored : hpfcancel ∉ s.answers → s.rx ≠ .sendCancel → s.written = s.got.flatten

theorem start_hpfInv (o o' : Endian) (suffix : List Byte) : HpfInv o o' suffix (.start suffix) := by
  refine ⟨rfl, nofun, nofun, rfl, ⟨[], rfl, [], rfl, rfl, nofun⟩, ⟨rfl, rfl⟩, ⟨[], rfl, rfl⟩,
    ⟨nofun, nofun⟩, nofun, nofun, fun _ _ => rfl⟩

/-! ### Steps of the sender -/

variable {o o' : Endian} {bufsz : ℕ} {suffix : List Byte} {s t : HpfSys}

/-- What a sender outside a chunk appends goes behind everything. -/
theorem HpfLink.push {tx tx' : HpfTx} {sent got : List (List Byte)} {toRx bs : List Byte}
    {seen pend pend' : List ℤ} {rx : HpfRx} (h : HpfLink o tx sent got toRx seen pend rx)
    (htx : ∀ c, tx ≠ .chunk c) (hbs : wires o pend ++ bs = tx'.part o ++ wires o pend') :
    HpfLink o tx' sent got (toRx ++ bs) seen pend' rx := by
  have hpart : tx.part o = [] := by
    cases tx with
    | chunk c => exact absurd rfl (htx c)
    | _ => rfl
  have hrest : (∃ q, sent = got ++ q ∧ toRx = encChunks o q ++ (tx.part o ++ wires o pend) ∧
      (seen ≠ [] → q = [])) → ∃ q, sent = got ++ q ∧
        toRx ++ bs = encChunks o q ++ (tx'.part o ++ wires o pend') ∧ (seen ≠ [] → q = []) := by
    rintro ⟨q, hsent, rfl, hseen⟩
    exact ⟨q, hsent, by rw [hpart, List.nil_append, List.append_assoc, hbs], hseen⟩
  have hin : ∀ len, InChunk o tx sent got toRx seen pend len →
      InChunk o tx' sent got (toRx ++ bs) seen pend' len := by
    rintro len ⟨hseen, c, hc, hlen, ⟨q, hsent, rfl⟩ | ⟨-, htx', -⟩⟩
    · refine ⟨hseen, c, hc, hlen, .inl ⟨q, hsent, ?_⟩⟩
      rw [hpart, List.nil_append, List.append_assoc, List.append_assoc, hbs]
    · exact absurd htx' (htx c)
  cases rx with
  | body len => exact hin len h
  | drainBody len => exact hin len h
  | header => exact hrest h
  | sendCancel => exact hrest h
  | sendFin => exact hrest h
  | drain => exact hrest h
  | done => exact hrest h

theorem test_hpfInv (h : HpfInv o o' suffix s)
    (hnext : hpfTxNext o bufsz s .test = some t) : HpfInv o o' suffix t := by
  simp only [hpfTxNext] at hnext
  split at hnext
  · next htx =>
    obtain rfl := Option.some.inj hnext
    obtain ⟨pend, hcodes, hlink⟩ := h.link
    have hnil : s.codes = [] := by
      have := h.txCodes
      rwa [htx] at this
    have hfile := h.file
    rw [htx] at hlink hfile
    cases hcont : s.cont with
    | true =>
      refine ⟨hfile, nofun, h.chunks, hnil, ⟨pend, hcodes, ?_⟩, h.rxCodes, h.back, h.ended,
        nofun, nofun, h.stored⟩
      have := @HpfLink.push _ _ .reading _ _ _ [] _ _ pend _ hlink nofun (by simp [HpfTx.part])
      rwa [List.append_nil] at this
    | false =>
      refine ⟨hfile, nofun, h.chunks, .inr (.inr ⟨hnil, rfl⟩), ⟨pend, hcodes, ?_⟩, h.rxCodes, h.back,
        h.ended, fun _ => h.cancelled hcont, nofun, h.stored⟩
      have := @HpfLink.push _ _ .joining _ _ _ [] _ _ pend _ hlink nofun (by simp [HpfTx.part])
      rwa [List.append_nil] at this
  · cases hnext

/-- Sending a code, outside a chunk. -/
theorem HpfInv.say (h : HpfInv o o' suffix s) {code : ℤ} {tx : HpfTx}
    (hold : ∀ c, s.tx ≠ .chunk c) (hnew : ∀ c, tx ≠ .chunk c)
    (htx : TxCodes s.cont s.rest (s.codes ++ [code]) tx)
    (hjoin : tx = .fin ∨ tx = .done → s.listening = false) :
    HpfInv o o' suffix (s.say o code tx) := by
  have hpend : ∀ tx : HpfTx, (∀ c, tx ≠ .chunk c) → tx.pending = [] ∧ tx.part o = [] := by
    intro tx htx
    cases tx with
    | chunk c => exact absurd rfl (htx c)
    | _ => exact ⟨rfl, rfl⟩
  obtain ⟨pend, hcodes, hlink⟩ := h.link
  refine ⟨?_, fun c hc => absurd hc (hnew c), h.chunks, htx, ⟨pend ++ [code], ?_, ?_⟩, h.rxCodes,
    h.back, h.ended, h.cancelled, hjoin, h.stored⟩
  · show suffix = s.sent.flatten ++ (tx.pending ++ s.rest)
    rw [(hpend tx hnew).1, h.file, (hpend s.tx hold).1]
  · show s.codes ++ [code] = s.seen ++ (pend ++ [code])
    rw [hcodes, List.append_assoc]
  · refine hlink.push hold ?_
    show _ = tx.part o ++ _
    rw [(hpend tx hnew).2]
    simp

theorem read_hpfInv (hbuf : 0 < bufsz) (h : HpfInv o o' suffix s) {r : Option ℕ}
    (hnext : hpfTxNext o bufsz s (.read r) = some t) : HpfInv o o' suffix t := by
  simp only [hpfTxNext] at hnext
  split at hnext
  · next htx =>
    have hnil : s.codes = [] := by
      have := h.txCodes
      rwa [htx] at this
    have hold : ∀ c, s.tx ≠ .chunk c := by
      rw [htx]
      nofun
    split at hnext
    · obtain rfl := Option.some.inj hnext
      exact h.say hold nofun (.inr (.inl (by rw [hnil]; rfl))) nofun
    · next hread =>
      obtain rfl := Option.some.inj hnext
      obtain ⟨-, -, -, hrest, -⟩ := fileChunk_some hbuf hread
      exact h.say hold nofun (.inl ⟨by rw [hnil]; rfl, hrest rfl⟩) nofun
    · next c hne hread =>
      obtain rfl := Option.some.inj hnext
      obtain ⟨rest', hrest, hdrop, -, hlen⟩ := fileChunk_some hbuf hread
      obtain ⟨pend, hcodes, hlink⟩ := h.link
      obtain rfl : pend = [] := by
        rw [hnil] at hcodes
        exact (List.append_eq_nil_iff.mp hcodes.symm).2
      refine ⟨?_, fun c' hc' => ?_, h.chunks, hnil, ⟨[], hcodes, hlink.push hold (by simp)⟩, h.rxCodes,
        h.back, h.ended, h.cancelled, nofun, h.stored⟩
      · show suffix = s.sent.flatten ++ (c ++ s.rest.drop c.length)
        have hfile := h.file
        rw [htx] at hfile
        rw [← hdrop, ← hrest]
        exact hfile
      · obtain rfl : c = c' := by simpa using hc'
        exact ⟨hne, hlen⟩
  · cases hnext

/-- A chunk that is sent is one more in the channel. -/
theorem HpfLink.data {c : List Byte} (hc : Chunk c) {sent got : List (List Byte)}
    {toRx : List Byte} {rx : HpfRx} (h : HpfLink o (.chunk c) sent got toRx [] [] rx) :
    HpfLink o .test (sent ++ [c]) got (toRx ++ c) [] [] rx := by
  have hrest : (∃ q, sent = got ++ q ∧ toRx = encChunks o q ++ (wire64 o c.length ++ []) ∧
      (([] : List ℤ) ≠ [] → q = [])) → ∃ q, sent ++ [c] = got ++ q ∧
        toRx ++ c = encChunks o q ++ ([] ++ []) ∧ (([] : List ℤ) ≠ [] → q = []) := by
    rintro ⟨q, rfl, rfl, -⟩
    exact ⟨q ++ [c], by simp, by simp [encChunks_append], fun h => absurd rfl h⟩
  have hin : ∀ len, InChunk o (.chunk c) sent got toRx [] [] len →
      InChunk o .test (sent ++ [c]) got (toRx ++ c) [] [] len := by
    rintro len ⟨-, d, hd, hlen, ⟨q, rfl, rfl⟩ | ⟨rfl, htx, rfl⟩⟩
    · exact ⟨rfl, d, hd, hlen, .inl ⟨q ++ [c], by simp, by simp [encChunks_append, HpfTx.part]⟩⟩
    · -- the receiver already waits for this chunk
      obtain rfl : c = d := by simpa using htx
      exact ⟨rfl, c, hc, hlen, .inl ⟨[], by simp, by simp [HpfTx.part]⟩⟩
  cases rx with
  | body len => exact hin len h
  | drainBody len => exact hin len h
  | header => exact hrest h
  | sendCancel => exact hrest h
  | sendFin => exact hrest h
  | drain => exact hrest h
  | done => exact hrest h

theorem data_hpfInv (h : HpfInv o o' suffix s)
    (hnext : hpfTxNext o bufsz s .data = some t) : HpfInv o o' suffix t := by
  simp only [hpfTxNext] at hnext
  split at hnext
  · next c htx =>
    obtain rfl := Option.some.inj hnext
    have hc := h.chunk c htx
    have hnil : s.codes = [] := by
      have := h.txCodes
      rwa [htx] at this
    obtain ⟨pend, hcodes, hlink⟩ := h.link
    rw [hnil] at hcodes
    obtain ⟨hseen, rfl⟩ := List.append_eq_nil_iff.mp hcodes.symm
    rw [htx, hseen] at hlink
    refine ⟨?_, nofun, ?_, hnil, ⟨[], ?_, ?_⟩, h.rxCodes, h.back, h.ended, h.cancelled, nofun,
      h.stored⟩
    · have hfile := h.file
      rw [htx] at hfile
      simpa [HpfTx.pending] using hfile
    · intro d hd
      rcases List.mem_append.mp hd with hd | hd
      · exact h.chunks d hd
      · obtain rfl := List.mem_singleton.mp hd
        exact hc
    · show s.codes = s.seen ++ []
      rw [hnil, hseen]
      rfl
    · show HpfLink o .test (s.sent ++ [c]) s.got (s.toRx ++ c) s.seen [] s.rx
      rw [hseen]
      exact hlink.data hc
  · cases hnext

theorem join_hpfInv (h : HpfInv o o' suffix s)
    (hnext : hpfTxNext o bufsz s .join = some t) : HpfInv o o' suffix t := by
  simp only [hpfTxNext] at hnext
  split at hnext
  · next hjoin =>
    obtain ⟨htx, hlis⟩ := hjoin
    obtain rfl := Option.some.inj hnext
    obtain ⟨pend, hcodes, hlink⟩ := h.link
    have hfile := h.file
    have htxc := h.txCodes
    rw [htx] at hlink hfile htxc
    refine ⟨hfile, nofun, h.chunks, htxc, ⟨pend, hcodes, ?_⟩, h.rxCodes, h.back, h.ended, h.cancelled,
      fun _ => hlis, h.stored⟩
    have := @HpfLink.push _ _ .fin _ _ _ [] _ _ pend _ hlink nofun (by simp [HpfTx.part])
    rwa [List.append_nil] at this
  · cases hnext

theorem txFin_hpfInv (h : HpfInv o o' suffix s)
    (hnext : hpfTxNext o bufsz s .txFin = some t) : HpfInv o o' suffix t := by
  simp only [hpfTxNext] at hnext
  split at hnext
  · next htx =>
    obtain rfl := Option.some.inj hnext
    have htxc := h.txCodes
    rw [htx] at htxc
    exact h.say (by rw [htx]; nofun) nofun ⟨s.codes, htxc, rfl⟩ fun _ => h.joined (.inl htx)
  · cases hnext

/-- The receiver sends no other codes than these. -/
theorem RxCodes.mem_answers {seen answers : List ℤ} {rx : HpfRx} (h : RxCodes seen answers rx)
    {v : ℤ} (hv : v ∈ answers) : v = hpfcancel ∨ v = hpffin := by
  have hall : answers = [] ∨ answers = [hpfcancel] ∨ answers = [hpffin] ∨
      answers = [hpfcancel, hpffin] := by
    cases rx with
    | header => exact .inl h.2
    | body len => exact .inl h.2
    | sendCancel => exact .inl h.2
    | sendFin =>
      rcases h.2 with ⟨h, -⟩ | h
      · exact .inl h
      · exact .inr (.inl h)
    | drain =>
      rcases h.2 with ⟨h, -⟩ | h
      · exact .inr (.inr (.inl h))
      · exact .inr (.inr (.inr h))
    | drainBody len => exact .inr (.inr (.inr h.2))
    | done =>
      rcases h.2 with h | h
      · exact .inr (.inr (.inl h))
      · exact .inr (.inr (.inr h))
  rcases hall with rfl | rfl | rfl | rfl
  · cases hv
  · exact .inl (by simpa using hv)
  · exact .inr (by simpa using hv)
  · simpa using hv

theorem unwire64_fin (o o' : Endian) : unwire64 o (wire64 o' hpffin) = hpffin :=
  unwire64_wire64 o' o (by decide) (by decide)

theorem unwire64_end (o o' : Endian) : unwire64 o (wire64 o' hpfend) = hpfend :=
  unwire64_wire64 o' o (by decide) (by decide)

/-- Clearing `hpfcont` is one more reason for the loop to end. -/
theorem TxCodes.clear {cont : Bool} {rest : List Byte} {codes : List ℤ} {tx : HpfTx}
    (h : TxCodes cont rest codes tx) : TxCodes false rest codes tx := by
  have hended : ∀ l, LoopEnded cont rest l → LoopEnded false rest l := by
    rintro l (hl | hl | ⟨hl, -⟩)
    · exact .inl hl
    · exact .inr (.inl hl)
    · exact .inr (.inr ⟨hl, rfl⟩)
  cases tx with
  | test => exact h
  | reading => exact h
  | chunk c => exact h
  | joining => exact hended _ h
  | fin => exact hended _ h
  | done =>
    obtain ⟨l, hl, hcodes⟩ := h
    exact ⟨l, hended l hl, hcodes⟩

theorem listen_hpfInv (h : HpfInv o o' suffix s)
    (hnext : hpfTxNext o bufsz s .listen = some t) : HpfInv o o' suffix t := by
  simp only [hpfTxNext] at hnext
  split at hnext
  · next hlis =>
    obtain ⟨pend, hans, hto⟩ := h.back
    have hno : hpffin ∉ s.heard := fun hmem => by
      rw [h.ended.mpr hmem] at hlis
      cases hlis
    cases pend with
    | nil =>
      rw [hto] at hnext
      cases hnext
    | cons v pend =>
      have hback : ∃ pend', s.answers = (s.heard ++ [v]) ++ pend' ∧ wires o' pend = wires o' pend' :=
        ⟨pend, by rw [hans]; simp, rfl⟩
      rw [hto, wires_cons, recv_wire64] at hnext
      simp only [Option.map_some, Option.some.injEq] at hnext
      rcases h.rxCodes.mem_answers (v := v) (by rw [hans]; simp) with rfl | rfl
      · rw [unwire64_cancel, if_pos rfl] at hnext
        subst hnext
        refine ⟨h.file, h.chunk, h.chunks, ?_, h.link, h.rxCodes, hback, ?_, fun _ => by simp,
          h.joined, h.stored⟩
        · exact h.txCodes.clear
        · show s.listening = false ↔ hpffin ∈ s.heard ++ [hpfcancel]
          rw [hlis]
          constructor
          · nofun
          · intro hmem
            rcases List.mem_append.mp hmem with hmem | hmem
            · exact absurd hmem hno
            · exact absurd hmem (by decide)
      · rw [unwire64_fin, if_neg (by decide), if_pos rfl] at hnext
        subst hnext
        exact ⟨h.file, h.chunk, h.chunks, h.txCodes, h.link, h.rxCodes, hback,
          ⟨fun _ => by simp, fun _ => rfl⟩, fun hc => by simp [h.cancelled hc], fun _ => rfl, h.stored⟩
  · cases hnext

/-! ### Steps of the receiver -/

/-- The sender sends no other codes than these. -/
theorem TxCodes.mem_codes {cont : Bool} {rest : List Byte} {codes : List ℤ} {tx : HpfTx}
    (h : TxCodes cont rest codes tx) {v : ℤ} (hv : v ∈ codes) :
    v = hpfend ∨ v = hpfcancel ∨ v = hpffin ∧ tx = .done := by
  have hended : ∀ l, LoopEnded cont rest l → v ∈ l → v = hpfend ∨ v = hpfcancel := by
    rintro l (⟨rfl, -⟩ | rfl | ⟨rfl, -⟩) hv
    · exact .inl (by simpa using hv)
    · exact .inr (by simpa using hv)
    · cases hv
  have hor : ∀ {p : Prop}, v = hpfend ∨ v = hpfcancel → v = hpfend ∨ v = hpfcancel ∨ p := by
    rintro p (h | h)
    · exact .inl h
    · exact .inr (.inl h)
  cases tx with
  | test => rw [show codes = [] from h] at hv; cases hv
  | reading => rw [show codes = [] from h] at hv; cases hv
  | chunk c => rw [show codes = [] from h] at hv; cases hv
  | joining => exact hor (hended codes h hv)
  | fin => exact hor (hended codes h hv)
  | done =>
    obtain ⟨l, hl, rfl⟩ := h
    rcases List.mem_append.mp hv with hv | hv
    · exact hor (hended l hl hv)
    · exact .inr (.inr ⟨by simpa using hv, rfl⟩)

/-- The sender says `HPFFIN` only after the receiver has. -/
theorem HpfInv.fin_answered (h : HpfInv o o' suffix s) (hfin : hpffin ∈ s.codes) :
    hpffin ∈ s.answers := by
  obtain ⟨pend, hans, -⟩ := h.back
  rcases h.txCodes.mem_codes hfin with h' | h' | ⟨-, htx⟩
  · exact absurd h' (by decide)
  · exact absurd h' (by decide)
  · rw [hans]
    exact List.mem_append_left _ (h.ended.mp (h.joined (.inr htx)))

/-- Outside a chunk, the link has one form. -/
theorem HpfLink.of_not_body {tx : HpfTx} {sent got : List (List Byte)} {toRx : List Byte}
    {seen pend : List ℤ} {rx : HpfRx} (hbody : ∀ len, rx ≠ .body len)
    (hdrain : ∀ len, rx ≠ .drainBody len) :
    HpfLink o tx sent got toRx seen pend rx ↔ ∃ q, sent = got ++ q ∧
      toRx = encChunks o q ++ (tx.part o ++ wires o pend) ∧ (seen ≠ [] → q = []) := by
  cases rx with
  | body len => exact absurd rfl (hbody len)
  | drainBody len => exact absurd rfl (hdrain len)
  | _ => exact Iff.rfl

/-- What the receiver finds in the channel: nothing yet, a chunk, or a code. -/
theorem HpfInv.incoming (h : HpfInv o o' suffix s) (hbody : ∀ len, s.rx ≠ .body len)
    (hdrain : ∀ len, s.rx ≠ .drainBody len) :
    ∃ pend, s.codes = s.seen ++ pend ∧
      (recv 8 s.toRx = none ∨
        (∃ c rest, Chunk c ∧ recv 8 s.toRx = some (wire64 o c.length, rest) ∧
          InChunk o s.tx s.sent s.got rest s.seen pend c.length) ∨
        ∃ v pend', pend = v :: pend' ∧ s.sent = s.got ∧ s.tx.part o = [] ∧
          recv 8 s.toRx = some (wire64 o v, wires o pend')) := by
  obtain ⟨pend, hcodes, hlink⟩ := h.link
  obtain ⟨q, hsent, hto, hseen⟩ := (HpfLink.of_not_body hbody hdrain).mp hlink
  refine ⟨pend, hcodes, ?_⟩
  cases q with
  | cons c q =>
    have hc : Chunk c := h.chunks c (by rw [hsent]; simp)
    have hnil : s.seen = [] := by
      by_contra hne
      cases hseen hne
    rw [encChunks_cons, List.append_assoc] at hto
    refine .inr (.inl ⟨c, _, hc, by rw [hto, recv_wire64], hnil, c, hc, rfl, .inl ⟨q, hsent, ?_⟩⟩)
    rw [List.append_assoc]
  | nil =>
    have hall : s.sent = s.got := by simpa using hsent
    rw [encChunks_nil, List.nil_append] at hto
    have hcode : s.tx.part o = [] → recv 8 s.toRx = none ∨
        ∃ v pend', pend = v :: pend' ∧ s.sent = s.got ∧ s.tx.part o = [] ∧
          recv 8 s.toRx = some (wire64 o v, wires o pend') := by
      intro hpart
      rw [hpart, List.nil_append] at hto
      cases pend with
      | nil => exact .inl (by rw [hto]; rfl)
      | cons v pend => exact .inr ⟨v, pend, rfl, hall, hpart, by rw [hto, wires_cons, recv_wire64]⟩
    cases htx : s.tx with
    | chunk c =>
      -- the sender is about to send the chunk
      have hc := h.chunk c htx
      have hnil : s.codes = [] := by
        have := h.txCodes
        rwa [htx] at this
      rw [hnil] at hcodes
      obtain ⟨hseen, rfl⟩ := List.append_eq_nil_iff.mp hcodes.symm
      rw [htx, HpfTx.part_chunk, wires_nil] at hto
      exact .inr (.inl ⟨c, [], hc, by rw [hto, recv_wire64], hseen, c, hc, rfl,
        .inr ⟨hall, rfl, rfl⟩⟩)
    | _ =>
      rw [htx] at hcode
      exact (hcode rfl).imp_right Or.inr

/-- Reading a code. -/
theorem HpfInv.see (h : HpfInv o o' suffix s) {v : ℤ} {pend : List ℤ} (rx : HpfRx) (del : Bool)
    (hcodes : s.codes = s.seen ++ v :: pend) (hall : s.sent = s.got) (hpart : s.tx.part o = [])
    (hbody : ∀ len, rx ≠ .body len) (hdrain : ∀ len, rx ≠ .drainBody len)
    (hrx : RxCodes (s.seen ++ [v]) s.answers rx) (hold : s.rx ≠ .sendCancel) :
    HpfInv o o' suffix
      { s with rx := rx, del := del, toRx := wires o pend, seen := s.seen ++ [v] } := by
  refine ⟨h.file, h.chunk, h.chunks, h.txCodes, ⟨pend, ?_, ?_⟩, hrx, h.back, h.ended, h.cancelled,
    h.joined, fun hno _ => h.stored hno hold⟩
  · show s.codes = s.seen ++ [v] ++ pend
    rw [hcodes]
    simp
  · refine (HpfLink.of_not_body hbody hdrain).mpr ⟨[], ?_, ?_, fun _ => rfl⟩
    · show s.sent = s.got ++ []
      rw [hall, List.append_nil]
    · show wires o pend = [] ++ (s.tx.part o ++ wires o pend)
      rw [hpart]
      rfl

theorem header_hpfInv (h : HpfInv o o' suffix s)
    (hnext : hpfRxNext o' s .header = some t) : HpfInv o o' suffix t := by
  simp only [hpfRxNext] at hnext
  split at hnext
  · next hrx =>
    obtain ⟨hseen, hans⟩ : s.seen = [] ∧ s.answers = [] := by
      have := h.rxCodes
      rwa [hrx] at this
    obtain ⟨pend, hcodes, hnone | ⟨c, rest, hc, hrecv, hin⟩ | ⟨v, pend', rfl, hall, hpart, hrecv⟩⟩ :=
      h.incoming (by rw [hrx]; nofun) (by rw [hrx]; nofun)
    · rw [hnone] at hnext
      cases hnext
    · obtain ⟨hend, hstop, hcancel, -, -⟩ := hc.not_code
      rw [hrecv] at hnext
      simp only [Option.map_some, Option.some.injEq, hc.unwire, hend, hstop, hcancel, or_self,
        if_false] at hnext
      subst hnext
      exact ⟨h.file, h.chunk, h.chunks, h.txCodes, ⟨pend, hcodes, hin⟩, ⟨hseen, hans⟩, h.back,
        h.ended, h.cancelled, h.joined, fun hno _ => h.stored hno (by rw [hrx]; nofun)⟩
    · have hmem : v ∈ s.codes := by rw [hcodes]; simp
      have hnofin : hpffin ∉ s.codes := fun hfin => by
        have := h.fin_answered hfin
        rw [hans] at this
        cases this
      have hrxc : RxCodes (s.seen ++ [v]) s.answers .sendFin := by
        refine ⟨?_, .inl ⟨hans, by simp⟩⟩
        rw [hseen, List.nil_append, List.mem_singleton]
        rintro rfl
        exact hnofin hmem
      rw [hrecv] at hnext
      simp only [Option.map_some, Option.some.injEq] at hnext
      rcases h.txCodes.mem_codes hmem with rfl | rfl | ⟨rfl, -⟩
      · rw [unwire64_end, if_pos (.inl rfl)] at hnext
        subst hnext
        exact h.see _ _ hcodes hall hpart nofun nofun hrxc (by rw [hrx]; nofun)
      · rw [unwire64_cancel, if_neg (by decide), if_pos rfl] at hnext
        subst hnext
        exact h.see _ _ hcodes hall hpart nofun nofun hrxc (by rw [hrx]; nofun)
      · exact absurd hmem hnofin
  · cases hnext

/-- A receiver in a chunk waits for it, or gets all of it. -/
theorem InChunk.incoming {tx : HpfTx} {sent got : List (List Byte)} {toRx : List Byte}
    {seen pend : List ℤ} {len : ℤ} (h : InChunk o tx sent got toRx seen pend len) :
    recv len.toNat toRx = none ∨ ∃ c q, Chunk c ∧ len = c.length ∧ seen = [] ∧
      sent = (got ++ [c]) ++ q ∧
      recv len.toNat toRx = some (c, encChunks o q ++ (tx.part o ++ wires o pend)) := by
  obtain ⟨hseen, c, hc, rfl, ⟨q, hsent, hto⟩ | ⟨-, -, hto⟩⟩ := h
  · exact .inr ⟨c, q, hc, rfl, hseen, by rw [hsent]; simp,
      by rw [hto, Int.toNat_natCast, recv_append]⟩
  · exact .inl (by rw [hto, recv, if_neg (by simpa using hc.1)])

theorem body_hpfInv (h : HpfInv o o' suffix s) {sched : List SysRes}
    (hnext : hpfRxNext o' s (.body sched) = some t) : HpfInv o o' suffix t := by
  simp only [hpfRxNext] at hnext
  split at hnext
  · next len hrx =>
    have hrxc := h.rxCodes
    obtain ⟨pend, hcodes, hlink⟩ := h.link
    rw [hrx] at hrxc hlink
    obtain hnone | ⟨c, q, hc, rfl, hseen, hsent, hrecv⟩ := InChunk.incoming hlink
    · rw [hnone] at hnext
      cases hnext
    · rw [hrecv] at hnext
      simp only [Option.map_some, Option.some.injEq] at hnext
      subst hnext
      have hlink : ∃ q', s.sent = (s.got ++ [c]) ++ q' ∧
          encChunks o q ++ (s.tx.part o ++ wires o pend)
            = encChunks o q' ++ (s.tx.part o ++ wires o pend) ∧ (s.seen ≠ [] → q' = []) :=
        ⟨q, hsent, rfl, fun hne => absurd hseen hne⟩
      have hold := h.stored (by rw [hrxc.2]; nofun) (by rw [hrx]; nofun)
      by_cases hwb : cint (writechunk sched c).1 = c.length
      · rw [if_neg (not_not_intro hwb)]
        refine ⟨h.file, h.chunk, h.chunks, h.txCodes, ⟨pend, hcodes, hlink⟩, hrxc, h.back, h.ended,
          h.cancelled, h.joined, fun _ _ => ?_⟩
        -- the count is the length, so no call failed
        have hne : (writechunk sched c).1 ≠ -1 := by
          intro heq
          rw [heq, show cint (-1) = -1 from rfl] at hwb
          omega
        show s.written ++ (writechunk sched c).2 = (s.got ++ [c]).flatten
        rw [(writechunk_spec sched c).2 hne, hold]
        simp
      · rw [if_pos hwb]
        exact ⟨h.file, h.chunk, h.chunks, h.txCodes, ⟨pend, hcodes, hlink⟩, hrxc, h.back, h.ended,
          h.cancelled, h.joined, fun _ hrx' => absurd rfl hrx'⟩
  · cases hnext

/-- The receiver sends a code, outside a chunk. -/
theorem HpfInv.tell (h : HpfInv o o' suffix s) {code : ℤ} {rx : HpfRx}
    (hbody : ∀ len, s.rx ≠ .body len) (hdrain : ∀ len, s.rx ≠ .drainBody len)
    (hbody' : ∀ len, rx ≠ .body len) (hdrain' : ∀ len, rx ≠ .drainBody len)
    (hrx : RxCodes s.seen (s.answers ++ [code]) rx)
    (hstored : hpfcancel ∉ s.answers ++ [code] → s.rx ≠ .sendCancel) :
    HpfInv o o' suffix (s.tell o' code rx) := by
  obtain ⟨pend, hcodes, hlink⟩ := h.link
  obtain ⟨pend', hans, hto⟩ := h.back
  refine ⟨h.file, h.chunk, h.chunks, h.txCodes, ⟨pend, hcodes, ?_⟩, hrx, ⟨pend' ++ [code], ?_, ?_⟩,
    h.ended, h.cancelled, h.joined, fun hno _ => ?_⟩
  · exact (HpfLink.of_not_body hbody' hdrain').mpr ((HpfLink.of_not_body hbody hdrain).mp hlink)
  · show s.answers ++ [code] = s.heard ++ (pend' ++ [code])
    rw [hans, List.append_assoc]
  · show s.toTx ++ wire64 o' code = wires o' (pend' ++ [code])
    rw [hto]
    simp
  · exact h.stored (fun hmem => hno (List.mem_append_left _ hmem)) (hstored hno)

theorem rxCancel_hpfInv (h : HpfInv o o' suffix s)
    (hnext : hpfRxNext o' s .rxCancel = some t) : HpfInv o o' suffix t := by
  simp only [hpfRxNext] at hnext
  split at hnext
  · next hrx =>
    obtain rfl := Option.some.inj hnext
    obtain ⟨hseen, hans⟩ : s.seen = [] ∧ s.answers = [] := by
      have := h.rxCodes
      rwa [hrx] at this
    refine h.tell (by rw [hrx]; nofun) (by rw [hrx]; nofun) nofun nofun ?_ ?_
    · rw [hseen, hans]
      exact ⟨nofun, .inr rfl⟩
    · intro hno
      exact absurd (by simp) hno
  · cases hnext

theorem rxFin_hpfInv (h : HpfInv o o' suffix s)
    (hnext : hpfRxNext o' s .rxFin = some t) : HpfInv o o' suffix t := by
  simp only [hpfRxNext] at hnext
  split at hnext
  · next hrx =>
    obtain rfl := Option.some.inj hnext
    have hrxc := h.rxCodes
    rw [hrx] at hrxc
    refine h.tell (by rw [hrx]; nofun) (by rw [hrx]; nofun) nofun nofun ?_ fun _ => by rw [hrx]; nofun
    obtain ⟨hno, ⟨hans, hseen⟩ | hans⟩ := hrxc
    · exact ⟨hno, .inl ⟨by rw [hans]; rfl, hseen⟩⟩
    · exact ⟨hno, .inr (by rw [hans]; rfl)⟩
  · cases hnext

theorem drain_hpfInv (h : HpfInv o o' suffix s)
    (hnext : hpfRxNext o' s .drain = some t) : HpfInv o o' suffix t := by
  simp only [hpfRxNext] at hnext
  split at hnext
  · next hrx =>
    have hold : s.rx ≠ .sendCancel := by rw [hrx]; nofun
    obtain ⟨hno, hans⟩ : hpffin ∉ s.seen ∧
        (s.answers = [hpffin] ∧ s.seen ≠ [] ∨ s.answers = [hpfcancel, hpffin]) := by
      have := h.rxCodes
      rwa [hrx] at this
    obtain ⟨pend, hcodes, hnone | ⟨c, rest, hc, hrecv, hin⟩ | ⟨v, pend', rfl, hall, hpart, hrecv⟩⟩ :=
      h.incoming (by rw [hrx]; nofun) (by rw [hrx]; nofun)
    · rw [hnone] at hnext
      cases hnext
    · -- a chunk is on its way only if the receiver has cancelled
      have hans : s.answers = [hpfcancel, hpffin] := by
        rcases hans with ⟨-, hne⟩ | hans
        · exact absurd hin.1 hne
        · exact hans
      obtain ⟨hend, hstop, hcancel, -, hfin⟩ := hc.not_code
      rw [hrecv] at hnext
      simp only [Option.map_some, Option.some.injEq, hc.unwire, hend, hstop, hcancel, hfin, or_self,
        if_false] at hnext
      subst hnext
      exact ⟨h.file, h.chunk, h.chunks, h.txCodes, ⟨pend, hcodes, hin⟩, ⟨hno, hans⟩, h.back,
        h.ended, h.cancelled, h.joined, fun hno _ => h.stored hno hold⟩
    · have hmem : v ∈ s.codes := by rw [hcodes]; simp
      have hsee : v ≠ hpffin → RxCodes (s.seen ++ [v]) s.answers .drain := by
        intro hv
        refine ⟨?_, hans.imp_left fun hans => ⟨hans.1, by simp⟩⟩
        rw [List.mem_append, List.mem_singleton]
        rintro (hmem | rfl)
        · exact hno hmem
        · exact hv rfl
      rw [hrecv] at hnext
      simp only [Option.map_some, Option.some.injEq] at hnext
      rcases h.txCodes.mem_codes hmem with rfl | rfl | ⟨rfl, -⟩
      · rw [unwire64_end, if_pos (.inr (.inl rfl))] at hnext
        subst hnext
        have := h.see .drain s.del hcodes hall hpart nofun nofun (hsee (by decide)) hold
        rwa [← hrx] at this
      · rw [unwire64_cancel, if_pos (.inl rfl)] at hnext
        subst hnext
        have := h.see .drain s.del hcodes hall hpart nofun nofun (hsee (by decide)) hold
        rwa [← hrx] at this
      · rw [unwire64_fin, if_neg (by decide), if_pos rfl] at hnext
        subst hnext
        exact h.see _ _ hcodes hall hpart nofun nofun ⟨by simp, hans.imp_left And.left⟩ hold
  · cases hnext

theorem drainBody_hpfInv (h : HpfInv o o' suffix s)
    (hnext : hpfRxNext o' s .drainBody = some t) : HpfInv o o' suffix t := by
  simp only [hpfRxNext] at hnext
  split at hnext
  · next len hrx =>
    have hrxc := h.rxCodes
    obtain ⟨pend, hcodes, hlink⟩ := h.link
    rw [hrx] at hrxc hlink
    obtain ⟨hno, hans⟩ := hrxc
    obtain hnone | ⟨c, q, hc, rfl, hseen, hsent, hrecv⟩ := InChunk.incoming hlink
    · rw [hnone] at hnext
      cases hnext
    · rw [hrecv] at hnext
      simp only [Option.map_some, Option.some.injEq] at hnext
      subst hnext
      refine ⟨h.file, h.chunk, h.chunks, h.txCodes, ⟨pend, hcodes, q, hsent, rfl, ?_⟩,
        ⟨hno, .inr hans⟩, h.back, h.ended, h.cancelled, h.joined, ?_⟩
      · exact fun hne => absurd hseen hne
      · intro hnoc
        exact absurd (by rw [hans]; simp) hnoc
  · cases hnext

/-- **Every step keeps the invariant.** -/
theorem hpfNext_inv (hbuf : 0 < bufsz) (h : HpfInv o o' suffix s) {a : HpfAct}
    (hnext : hpfNext o o' bufsz s a = some t) : HpfInv o o' suffix t := by
  rcases (Option.orElse_eq_some _ _ _).mp hnext with hnext | ⟨-, hnext⟩
  · cases a with
    | test => exact test_hpfInv h hnext
    | read r => exact read_hpfInv hbuf h hnext
    | data => exact data_hpfInv h hnext
    | join => exact join_hpfInv h hnext
    | txFin => exact txFin_hpfInv h hnext
    | listen => exact listen_hpfInv h hnext
    | _ => cases hnext
  · cases a with
    | header => exact header_hpfInv h hnext
    | body sched => exact body_hpfInv h hnext
    | rxCancel => exact rxCancel_hpfInv h hnext
    | rxFin => exact rxFin_hpfInv h hnext
    | drain => exact drain_hpfInv h hnext
    | drainBody => exact drainBody_hpfInv h hnext
    | _ => cases hnext

/-! ### What follows -/

/-- What is behind the only occurrence of the last element is empty. -/
theorem eq_nil_of_last {α : Type*} {x : α} {l a b : List α} (hx : x ∉ l) (h : l ++ [x] = a ++ b)
    (ha : x ∈ a) : b = [] := by
  rcases List.append_eq_append_iff.mp h with ⟨as, rfl, hb⟩ | ⟨bs, rfl, -⟩
  · cases as with
    | nil => exact absurd (by simpa using ha) hx
    | cons y as =>
      have hlen := congrArg List.length hb
      simp only [List.length_append, List.length_cons, List.length_nil] at hlen
      exact List.length_eq_zero_iff.mp (by omega)
  · exact absurd (List.mem_append_left _ ha) hx

/-- What either side has read is what the other side sent, as far as it has read. -/
theorem HpfInv.read (h : HpfInv o o' suffix s) :
    s.got <+: s.sent ∧ s.seen <+: s.codes ∧ s.heard <+: s.answers := by
  obtain ⟨pend, hcodes, hlink⟩ := h.link
  obtain ⟨pend', hans, -⟩ := h.back
  refine ⟨?_, ⟨pend, hcodes.symm⟩, ⟨pend', hans.symm⟩⟩
  have hin : ∀ len, InChunk o s.tx s.sent s.got s.toRx s.seen pend len → s.got <+: s.sent := by
    rintro len ⟨-, c, -, -, ⟨q, hsent, -⟩ | ⟨hsent, -⟩⟩
    · exact ⟨c :: q, hsent.symm⟩
    · rw [hsent]
  cases hrx : s.rx with
  | body len => rw [hrx] at hlink; exact hin len hlink
  | drainBody len => rw [hrx] at hlink; exact hin len hlink
  | _ =>
    rw [hrx] at hlink
    obtain ⟨q, hsent, -⟩ := hlink
    exact ⟨q, hsent.symm⟩

/-- Once both have returned, the receiver has read all codes and the listener all answers. -/
theorem HpfInv.channels (h : HpfInv o o' suffix s) (hret : HpfReturned s) :
    s.toRx = [] ∧ s.toTx = [] ∧ s.got = s.sent := by
  obtain ⟨htx, hrx⟩ := hret
  obtain ⟨pend, hcodes, hlink⟩ := h.link
  obtain ⟨pend', hans, hto⟩ := h.back
  have htxc := h.txCodes
  have hrxc := h.rxCodes
  rw [htx] at htxc hlink
  rw [hrx] at hrxc hlink
  obtain ⟨l, hl, hlast⟩ := htxc
  obtain ⟨hfin, hans'⟩ := hrxc
  obtain ⟨q, hsent, hto', hseen⟩ := hlink
  have hq : q = [] := hseen (List.ne_nil_of_mem hfin)
  have hpend : pend = [] := by
    refine eq_nil_of_last ?_ (hlast.symm.trans hcodes) hfin
    rcases hl with ⟨rfl, -⟩ | rfl | ⟨rfl, -⟩ <;> decide
  have hpend' : pend' = [] := by
    have hheard := h.ended.mp (h.joined (.inr htx))
    rcases hans' with hans' | hans'
    · exact eq_nil_of_last (l := []) nofun (hans'.symm.trans hans) hheard
    · exact eq_nil_of_last (l := [hpfcancel]) (by decide) (hans'.symm.trans hans) hheard
  refine ⟨?_, ?_, ?_⟩
  · rw [hto', hq, hpend]
    rfl
  · rw [hto, hpend']
    rfl
  · rw [hsent, hq, List.append_nil]

/-- Once both have returned, the receiver has stored the file, or one side has cancelled. -/
theorem HpfInv.written (h : HpfInv o o' suffix s) (hret : HpfReturned s) :
    s.written = suffix ∨ hpfcancel ∈ s.codes ∨ hpfcancel ∈ s.answers := by
  by_cases hno : hpfcancel ∈ s.answers
  · exact .inr (.inr hno)
  obtain ⟨-, -, hgot⟩ := h.channels hret
  obtain ⟨htx, hrx⟩ := hret
  have htxc := h.txCodes
  have hfile := h.file
  rw [htx] at htxc hfile
  obtain ⟨l, ⟨-, hrest⟩ | rfl | ⟨-, hcont⟩, hcodes⟩ := htxc
  · refine .inl ?_
    rw [h.stored hno (by rw [hrx]; nofun), hgot, hfile, hrest]
    simp [HpfTx.pending]
  · exact .inr (.inl (by rw [hcodes]; simp))
  · -- the loop ended because the listener had heard of a cancellation
    obtain ⟨pend, hans, -⟩ := h.back
    exact absurd (by rw [hans]; exact List.mem_append_left _ (h.cancelled hcont)) hno

/-- No length of a chunk looks like a code on the wire, whatever the byte orders. -/
theorem Chunk.wire_ne {c : List Byte} (hc : Chunk c) {code : ℤ}
    (hcode : code ∈ [hpffin, hpfend, hpfstop, hpfcancel, hpfcont]) :
    wire64 o c.length ≠ wire64 o' code := by
  intro heq
  have hback : unwire64 .big (wire64 o' code) = code := by
    refine unwire64_wire64 o' .big ?_ ?_ <;>
      rcases (by simpa using hcode) with rfl | rfl | rfl | rfl | rfl <;> decide
  rw [← heq, hc.unwire] at hback
  obtain ⟨hend, hstop, hcancel, hcont, hfin⟩ := hc.not_code
  rcases (by simpa using hcode) with rfl | rfl | rfl | rfl | rfl
  · exact hfin hback
  · exact hend hback
  · exact hstop hback
  · exact hcancel hback
  · exact hcont hback

/-- **Streams that can be cancelled fit together.**  For every file, offset, size of the
buffers, pattern of reads and writes, and every order of the steps of the three threads:
the chunks and codes either side reads are those the other has sent, and no length is taken
for a code; once both functions have returned, nothing is left in the channels, and the
receiver has stored the sender's bytes from the offset on or one side has sent
`HPFCANCEL`. -/
theorem streams_fit (hbuf : 0 < bufsz) (content : List Byte) (offst : ℕ) {acts : List HpfAct}
    (hrun : Runs.run (hpfNext o o' bufsz) (.start (content.drop offst)) acts = some s) :
    (s.got <+: s.sent ∧ s.seen <+: s.codes ∧ s.heard <+: s.answers) ∧
      (∀ c, c ∈ s.sent ∨ s.tx = .chunk c →
        ∀ code ∈ [hpffin, hpfend, hpfstop, hpfcancel, hpfcont],
          wire64 o c.length ≠ wire64 o code) ∧
      (HpfReturned s → s.toRx = [] ∧ s.toTx = [] ∧
        (s.written = content.drop offst ∨ hpfcancel ∈ s.codes ∨ hpfcancel ∈ s.answers)) := by
  have hinv := Runs.inv_of_all (fun _ _ _ h hnext => hpfNext_inv hbuf h hnext)
    (start_hpfInv o o' (content.drop offst)) hrun
  refine ⟨hinv.read, ?_, fun hret => ?_⟩
  · rintro c (hc | hc) code hcode
    · exact (hinv.chunks c hc).wire_ne hcode
    · exact (hinv.chunk c hc).wire_ne hcode
  · obtain ⟨hrx, htx, -⟩ := hinv.channels hret
    exact ⟨hrx, htx, hinv.written hret⟩

/-! ### Two transfers -/

/-- The two bytes behind the first, in two chunks. -/
def twoChunks : List HpfAct :=
  [.test, .read (some 0), .data, .test, .header, .read (some 0), .body [], .data, .test,
    .read (some 0), .header, .body [], .header, .rxFin, .listen, .join, .txFin, .drain]

/-- The receiver cannot store the first byte, and drains what is on its way. -/
def givenUp : List HpfAct :=
  [.test, .read (some 0), .data, .header, .body [.err], .test, .rxCancel, .rxFin, .read (some 0),
    .data, .drain, .drainBody, .listen, .listen, .test, .join, .txFin, .drain]

theorem streams_fit_two :
    (∃ s, Runs.run (hpfNext .little .big 4) (.start ([7, 8, 9].drop 1)) twoChunks = some s ∧
      HpfReturned s ∧ s.toRx = [] ∧ s.toTx = [] ∧ s.written = [8, 9]) ∧
    ∃ s, Runs.run (hpfNext .little .big 4) (.start ([7, 8, 9].drop 1)) givenUp = some s ∧
      HpfReturned s ∧ s.toRx = [] ∧ s.toTx = [] ∧ hpfcancel ∈ s.answers := by
  have htwo : ((Runs.run (hpfNext .little .big 4) (.start ([7, 8, 9].drop 1)) twoChunks).map fun s =>
      (s.tx, s.rx, s.codes, s.answers)) = some (.done, .done, [hpfend, hpffin], [hpffin]) := by
    decide +kernel
  have hup : ((Runs.run (hpfNext .little .big 4) (.start ([7, 8, 9].drop 1)) givenUp).map fun s =>
      (s.tx, s.rx, s.answers)) = some (.done, .done, [hpfcancel, hpffin]) := by decide +kernel
  constructor
  · obtain ⟨s, hrun, hs⟩ := Option.map_eq_some_iff.mp htwo
    obtain ⟨htx, hrx, hcodes, hans⟩ :
        s.tx = .done ∧ s.rx = .done ∧ s.codes = [hpfend, hpffin] ∧ s.answers = [hpffin] := by
      simpa using hs
    have hret : HpfReturned s := ⟨htx, hrx⟩
    obtain ⟨hto, hfrom, hwritten | hcancel | hcancel⟩ :=
      (streams_fit (by decide) [7, 8, 9] 1 hrun).2.2 hret
    · exact ⟨s, hrun, hret, hto, hfrom, hwritten⟩
    · exact absurd hcancel (by rw [hcodes]; decide)
    · exact absurd hcancel (by rw [hans]; decide)
  · obtain ⟨s, hrun, hs⟩ := Option.map_eq_some_iff.mp hup
    obtain ⟨htx, hrx, hans⟩ : s.tx = .done ∧ s.rx = .done ∧ s.answers = [hpfcancel, hpffin] := by
      simpa using hs
    have hret : HpfReturned s := ⟨htx, hrx⟩
    obtain ⟨hto, hfrom, -⟩ := (streams_fit (by decide) [7, 8, 9] 1 hrun).2.2 hret
    exact ⟨s, hrun, hret, hto, hfrom, by rw [hans]; simp⟩

end TFProtocol
