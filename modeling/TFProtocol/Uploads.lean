import TFProtocol.PutCan
import TFProtocol.Server

/-!
# Uploads and short writes

Four commands store what a client uploads.  `PUT`, `PUTCAN` and `RUN_BUF` hand every chunk
to `writechunk`, which calls `write` until the chunk is stored; `SNDFILE` calls `write` once
a chunk.  What `writechunk` returns is the count of its last call, and its callers read that
in three ways: as the count of the whole chunk, as an amount to be added up, and not at all.

None of them compares the length of a chunk with the buffer it is received into.  A chunk that
runs over the buffer is the end of what is said here: the functions are `none` there.

## Main definitions

* `fapiwrite`, `rcvfileLoop` — `SNDFILE`.
* `putServe`, `putcanServe` — `putstream` and `putstream_can` on chunks and the codes behind
  them, with their buffer.
* `relay`, `rdthLoop` — `runbuf_rdth` of the ACE module.
* `UploadPart`, `UploadMeets` — what each of them, and `writechunk`, is to do.
* `Upload.Fits`, `UploadWhole` — every chunk fits the buffer, and is stored by the first call
  that is not interrupted.

## Main results

* `upload_meets_iff` — each does what it is to do exactly when no write is short and no chunk
  runs over the buffer.
* `put_cancels_short` — two bytes stored one by one.
-/

namespace TFProtocol

open Bytes CStr

/-! ### What `writechunk` returns -/

/-- What is left of the schedule behind `writechunk`. -/
def schedAfter : List SysRes → ℕ → List SysRes
  | [], _ => []
  | .eintr :: sched, len => schedAfter sched len
  | .err :: sched, _ => sched
  | .cnt n :: sched, len => if len ≤ n + 1 then sched else schedAfter sched (len - (n + 1))

/-- What is said of `writechunk`: it returns the length exactly when it stored everything,
and `-1` otherwise. -/
def WritechunkMeets (sched : List SysRes) (buf : List Byte) : Prop :=
  ((writechunk sched buf).1 = buf.length ↔ (writechunk sched buf).2 = buf) ∧
    ((writechunk sched buf).1 ≠ buf.length → (writechunk sched buf).1 = -1)

theorem not_writeFails_of_whole : ∀ {sched : List SysRes} {buf : List Byte},
    wholeWrite sched buf = true → writeFails sched buf.length = false := by
  intro sched
  induction sched with
  | nil => intro buf _; rfl
  | cons r sched ih =>
    intro buf h
    cases r with
    | eintr => exact ih h
    | err => cases h
    | cnt n =>
      rw [writeFails, if_pos (of_decide_eq_true h)]

theorem not_writeFails_of_quiet : ∀ {sched : List SysRes} (len : ℕ), Quiet sched →
    writeFails sched len = false := by
  intro sched
  induction sched with
  | nil => intro len _; rfl
  | cons r sched ih =>
    intro len h
    have hrest : Quiet sched := fun hmem => h (List.mem_cons_of_mem _ hmem)
    cases r with
    | eintr => exact ih len hrest
    | err => exact absurd List.mem_cons_self h
    | cnt n =>
      rw [writeFails]
      split
      · rfl
      · exact ih _ hrest

/-- **When `writechunk` returns what it is to return.** -/
theorem writechunkMeets_iff (sched : List SysRes) {buf : List Byte} (hne : buf ≠ []) :
    WritechunkMeets sched buf ↔
      wholeWrite sched buf = true ∨ writeFails sched buf.length = true := by
  have hpos := List.length_pos_iff.mpr hne
  unfold WritechunkMeets
  rw [writechunk_eq_length sched hne]
  cases hf : writeFails sched buf.length with
  | true =>
    obtain ⟨hret, hlen⟩ := writechunk_of_fails sched hne hf
    have hwhole : ¬ wholeWrite sched buf = true := by
      intro hwhole
      rw [not_writeFails_of_whole hwhole] at hf
      cases hf
    have hnot : (writechunk sched buf).2 ≠ buf := by
      intro heq
      rw [heq] at hlen
      omega
    simp [hwhole, hnot, hret]
  | false =>
    obtain ⟨hall, hret, -⟩ := writechunk_of_not_fails sched hne hf
    have hno : (writechunk sched buf).1 ≠ -1 := by omega
    have hwhole := writechunk_eq_length sched hne
    simp only [hall, hno, iff_true, imp_false, not_not, Bool.false_eq_true, or_false, hwhole,
      and_self]

/-! ### SNDFILE -/

/-- `fapiwrite`: one call, and as many more as are interrupted; the value returned and the
bytes stored. -/
def fapiwrite : List SysRes → List Byte → ℤ × List Byte
  | [], buf => (buf.length, buf)
  | .eintr :: sched, buf => fapiwrite sched buf
  | .err :: _, _ => (-1, [])
  | .cnt n :: _, buf => ((buf.take (n + 1)).length, buf.take (n + 1))

/-- `CMD_EQUOTA`. -/
def equota : List Byte := lit "13 : Quota exceeded."

/-- How `rcvfile` ends: the file, unless it was taken away, the reply, and `endcomm`. -/
structure RcvfileEnd where
  file : Option (List Byte)
  reply : Option (List Byte)
  ended : Bool
  deriving DecidableEq, Repr

/-- The loop of `rcvfile` on the messages of the client and the answers to the writes of each;
`full` says that a write that fails does so with `ENOSPC`.  A message that is longer than
`comm.buf` runs over it. -/
def rcvfileLoop (full : Bool) : List (List Byte × List SysRes) → List Byte → Option RcvfileEnd
  | [], file => some ⟨some file, none, true⟩
  | (msg, sched) :: rest, file =>
    if commbuflen < msg.length then none
    else
      let cmd := excmd (msg ++ [0])
      if cmd = lit "BREAK" then some ⟨none, some cmdOkText, false⟩
      else if cmd = lit "OK" then some ⟨some file, some cmdOkText, false⟩
      else
        let w := fapiwrite sched (msg.drop (cmd.length + 1))
        if w.1 = -1 then
          some (if full then ⟨none, some (cmdFailText equota), false⟩ else ⟨some file, none, true⟩)
        else rcvfileLoop full rest (file ++ w.2)

/-- The word in front of a chunk: it ends at the blank, and is none of the two that end the
transfer. -/
structure PartName where
  name : List Byte
  free : ∀ b ∈ name, b ≠ 0 ∧ b ≠ blank
  fits : name.length < cmdNamelen
  notBreak : name ≠ lit "BREAK"
  notOk : name ≠ lit "OK"

/-- What a client uploads: a chunk, and the word in front of it in `SNDFILE`. -/
structure Upload where
  frame : PutFrame
  word : PartName

/-- The message of a chunk in `SNDFILE`. -/
def Upload.message (u : Upload) : List Byte × List SysRes :=
  (u.word.name ++ blank :: u.frame.data, u.frame.sched)

/-- The message fits `comm.buf`. -/
def Upload.FitsMessage (u : Upload) : Prop := u.message.1.length ≤ commbuflen

theorem excmd_word (p : PartName) (rest : List Byte) :
    excmd (p.name ++ blank :: rest ++ [0]) = p.name := by
  have hfits := p.fits
  have hcstr : cstr (p.name ++ blank :: rest ++ [0]) = p.name ++ blank :: cstr (rest ++ [0]) := by
    rw [cstr, List.append_assoc, List.cons_append,
      List.takeWhile_append_of_pos fun b hb => by simpa using (p.free b hb).1,
      List.takeWhile_cons_of_pos (by decide), cstr]
  have htake : (p.name ++ blank :: cstr (rest ++ [0])).takeWhile (· ≠ blank) = p.name := by
    rw [List.takeWhile_append_of_pos fun b hb => by simpa using (p.free b hb).2]
    simp
  rw [excmd, hcstr, htake, List.take_of_length_le (by omega)]

theorem fapiwrite_of_quiet : ∀ {sched : List SysRes} {buf : List Byte}, Quiet sched →
    (fapiwrite sched buf).1 ≠ -1 ∧ (fapiwrite sched buf).2.length ≤ buf.length ∧
      ((fapiwrite sched buf).2.length = buf.length ↔ wholeWrite sched buf = true) ∧
      (wholeWrite sched buf = true → (fapiwrite sched buf).2 = buf) := by
  intro sched
  induction sched with
  | nil =>
    intro buf _
    exact ⟨by simp only [fapiwrite]; omega, le_rfl, by simp [fapiwrite, wholeWrite], fun _ => rfl⟩
  | cons r sched ih =>
    intro buf h
    have hrest : Quiet sched := fun hmem => h (List.mem_cons_of_mem _ hmem)
    cases r with
    | eintr => exact ih hrest
    | err => exact absurd List.mem_cons_self h
    | cnt n =>
      refine ⟨by simp only [fapiwrite]; omega, ?_, ?_, fun hwhole => ?_⟩
      · simp only [fapiwrite, List.length_take]
        omega
      · simp only [fapiwrite, wholeWrite, List.length_take, decide_eq_true_eq]
        omega
      · exact List.take_of_length_le (of_decide_eq_true hwhole)

/-- What `SNDFILE` stores of a chunk. -/
def Upload.sndfileStored (u : Upload) : List Byte := (fapiwrite u.frame.sched u.frame.data).2

/-- `SNDFILE` once around, on a chunk of which no write fails. -/
theorem rcvfileLoop_chunk (full : Bool) {u : Upload} (hquiet : Quiet u.frame.sched)
    (rest : List (List Byte × List SysRes)) (file : List Byte) :
    rcvfileLoop full (u.message :: rest) file =
      if commbuflen < u.message.1.length then none
      else rcvfileLoop full rest (file ++ u.sndfileStored) := by
  have hu := @fapiwrite_of_quiet _ u.frame.data hquiet
  have hdrop : (u.word.name ++ blank :: u.frame.data).drop (u.word.name.length + 1)
      = u.frame.data := by
    rw [← List.drop_drop, List.drop_left, List.drop_one, List.tail_cons]
  simp only [Upload.message, rcvfileLoop, excmd_word, u.word.notBreak, u.word.notOk, hdrop, hu.1,
    if_false, Upload.sndfileStored]
  rfl

theorem rcvfileLoop_ok (full : Bool) (rest : List (List Byte × List SysRes)) (file : List Byte) :
    rcvfileLoop full ((lit "OK", []) :: rest) file = some ⟨some file, some cmdOkText, false⟩ := by
  have hfits : ¬ commbuflen < (lit "OK").length := by decide
  have hok : excmd (lit "OK" ++ [0]) = lit "OK" := by decide
  have hbreak : lit "OK" ≠ lit "BREAK" := by decide
  rw [rcvfileLoop, if_neg hfits, hok, if_neg hbreak, if_pos rfl]

theorem rcvfileLoop_of_quiet (full : Bool) : ∀ (us : List Upload) (file : List Byte),
    (∀ u ∈ us, Quiet u.frame.sched) →
      ((∀ u ∈ us, u.FitsMessage) →
        rcvfileLoop full (us.map Upload.message ++ [(lit "OK", [])]) file
          = some ⟨some (file ++ (us.map Upload.sndfileStored).flatten), some cmdOkText, false⟩) ∧
      ((rcvfileLoop full (us.map Upload.message ++ [(lit "OK", [])]) file).isSome = true →
        ∀ u ∈ us, u.FitsMessage) := by
  intro us
  induction us with
  | nil =>
    intro file _
    rw [List.map_nil, List.nil_append, rcvfileLoop_ok]
    exact ⟨fun _ => by simp, fun _ u hu => by cases hu⟩
  | cons u us ih =>
    intro file hquiet
    obtain ⟨hall, hfits⟩ := ih (file ++ u.sndfileStored) fun v hv =>
      hquiet v (List.mem_cons_of_mem _ hv)
    rw [List.map_cons, List.cons_append, rcvfileLoop_chunk full (hquiet u List.mem_cons_self)]
    constructor
    · intro h
      rw [if_neg (Nat.not_lt.mpr (h u List.mem_cons_self)),
        hall fun v hv => h v (List.mem_cons_of_mem _ hv)]
      simp
    · intro h
      split at h
      · cases h
      next hu =>
        exact List.forall_mem_cons.mpr ⟨Nat.not_lt.mp hu, hfits h⟩

/-! ### PUT -/

section

variable (o o' : Endian) (bufsz : ℕ)

/-- The second loop of `putstream` on the chunks that follow and the `HPFEND` behind them. -/
def putDrain : List PutFrame → HpfSys → Option HpfSys
  | [], s => hpfRxNext o' s .drain
  | p :: ps, s =>
    if bufsz < p.data.length then none
    else
      (hpfRxNext o' s .drain).bind fun s => (hpfRxNext o' s .drainBody).bind fun s => putDrain ps s

/-- `putstream` until it returns, with a buffer of `bufsz` bytes. -/
def putServe : List PutFrame → HpfSys → Option HpfSys
  | [], s =>
    (hpfRxNext o' s .header).bind fun s =>
      (hpfRxNext o' s .rxFin).bind fun s => hpfRxNext o' s .drain
  | p :: ps, s =>
    if bufsz < p.data.length then none
    else
      (hpfRxNext o' s .header).bind fun s => (hpfRxNext o' s (.body p.sched)).bind fun s =>
        if s.rx = .sendCancel then
          (hpfRxNext o' s .rxCancel).bind fun s => (hpfRxNext o' s .rxFin).bind fun s =>
            (putDrain o' bufsz ps s).bind fun s => hpfRxNext o' s .drain
        else putServe ps s

/-- The server when the frames, `HPFEND` and `HPFFIN` have been sent. -/
def putStart (ps : List PutFrame) : HpfSys :=
  { HpfSys.start [] with
    tx := .done
    listening := false
    toRx := encChunks o (ps.map PutFrame.data) ++ (wire64 o hpfend ++ wire64 o hpffin) }

end

variable {o o' : Endian} {bufsz : ℕ}

theorem hpfRxNext_rxFin {s : HpfSys} (h : s.rx = .sendFin) :
    hpfRxNext o' s .rxFin = some (s.tell o' hpffin .drain) := if_pos h

theorem hpfRxNext_rxCancel {s : HpfSys} (h : s.rx = .sendCancel) :
    hpfRxNext o' s .rxCancel = some (s.tell o' hpfcancel .sendFin) := if_pos h

/-- A drained `HPFFIN` ends the transfer. -/
theorem drain_fin {s : HpfSys} (hrx : s.rx = .drain) (hto : s.toRx = wire64 o hpffin) :
    hpfRxNext o' s .drain
      = some { s with rx := .done, toRx := [], seen := s.seen ++ [hpffin] } := by
  have hval : unwire64 o' (wire64 o hpffin) = hpffin := unwire64_fin o' o
  have hcodes : ¬ (hpffin = hpfcancel ∨ hpffin = hpfend ∨ hpffin = hpfstop) := by decide
  simp only [hpfRxNext, hrx, if_true, hto, recv_eight_wire64, Option.map_some, hval, hcodes,
    if_false]

/-- The second loop stores and sends nothing, as far as its chunks fit the buffer. -/
theorem putDrain_spec : ∀ (ps : List PutFrame) {s : HpfSys} {rest : List Byte}, s.rx = .drain →
    s.toRx = encChunks o (ps.map PutFrame.data) ++ (wire64 o hpfend ++ rest) →
      putDrain o' bufsz ps s = none ∨
        ∃ t, putDrain o' bufsz ps s = some t ∧ t.rx = .drain ∧ t.toRx = rest ∧
          t.answers = s.answers := by
  intro ps
  induction ps with
  | nil =>
    intro s rest hrx hto
    have hto' : s.toRx = wire64 o hpfend ++ rest := hto
    have hval : unwire64 o' (wire64 o hpfend) = hpfend := unwire64_end o' o
    refine .inr ⟨{ s with toRx := rest, seen := s.seen ++ [hpfend] }, ?_, hrx, rfl, rfl⟩
    simp only [putDrain, hpfRxNext, hrx, if_true, hto', recv_wire64, Option.map_some, hval, or_true,
      true_or]
  | cons p ps ih =>
    intro s rest hrx hto
    by_cases hbig : bufsz < p.data.length
    · exact .inl (if_pos hbig)
    obtain ⟨hval, hend, hstop, hcancel, hfin⟩ := @PutFrame.header o o' p
    have hto' : s.toRx = wire64 o p.data.length ++ (p.data ++
        (encChunks o (ps.map PutFrame.data) ++ (wire64 o hpfend ++ rest))) := by
      rw [hto]
      simp
    have hhead : hpfRxNext o' s .drain = some { s with
        rx := .drainBody p.data.length
        toRx := p.data ++ (encChunks o (ps.map PutFrame.data) ++ (wire64 o hpfend ++ rest)) } := by
      simp only [hpfRxNext, hrx, if_true, hto', recv_wire64, Option.map_some, hval, hend, hstop,
        hcancel, hfin, or_self, if_false]
    rw [putDrain, if_neg hbig, hhead, Option.bind_some]
    simp only [hpfRxNext, Int.toNat_natCast, recv_append, Option.map_some, Option.bind_some]
    rcases ih (s := { s with
      rx := .drain
      toRx := encChunks o (ps.map PutFrame.data) ++ (wire64 o hpfend ++ rest)
      got := s.got ++ [p.data] }) rfl rfl with hnone | ⟨t, ht, hrx', hto'', hans⟩
    · exact .inl hnone
    · exact .inr ⟨t, ht, hrx', hto'', hans⟩

/-- The chunk fits the buffer, and `writechunk` returns its length. -/
def PutFrame.Taken (bufsz : ℕ) (p : PutFrame) : Prop :=
  p.data.length ≤ bufsz ∧ p.counted = true

/-- A chunk is received and handed to `writechunk`. -/
theorem putChunk_eq {s : HpfSys} {p : PutFrame} {rest : List Byte} (hrx : s.rx = .header)
    (hto : s.toRx = wire64 o p.data.length ++ (p.data ++ rest)) :
    ((hpfRxNext o' s .header).bind fun s => hpfRxNext o' s (.body p.sched)) = some { s with
      rx := if p.counted then .header else .sendCancel
      toRx := rest
      got := s.got ++ [p.data]
      written := s.written ++ p.stored } := by
  obtain ⟨hval, hend, hstop, hcancel, -⟩ := @PutFrame.header o o' p
  have hhead : hpfRxNext o' s .header = some { s with
      rx := .body p.data.length, toRx := p.data ++ rest } := by
    simp only [hpfRxNext, hrx, if_true, hto, recv_wire64, Option.map_some, hval, hend, hstop,
      hcancel, or_self, if_false]
  rw [hhead, Option.bind_some]
  simp only [hpfRxNext, Int.toNat_natCast, recv_append, Option.map_some, PutFrame.counted,
    PutFrame.stored, decide_eq_true_eq, ite_not]

/-- **`putstream` on chunks.**  It stores them all and only says `HPFFIN`; else it says
`HPFCANCEL`, or a chunk runs over the buffer. -/
theorem putServe_spec : ∀ (ps : List PutFrame) {s : HpfSys}, s.rx = .header →
    s.toRx = encChunks o (ps.map PutFrame.data) ++ (wire64 o hpfend ++ wire64 o hpffin) →
      ((∀ p ∈ ps, p.Taken bufsz) → ∃ t, putServe o' bufsz ps s = some t ∧ t.rx = .done ∧
        t.written = s.written ++ (ps.map PutFrame.data).flatten ∧
          t.answers = s.answers ++ [hpffin] ∧ t.del = s.del) ∧
      (∀ t, putServe o' bufsz ps s = some t → hpfcancel ∈ t.answers ∨ ∀ p ∈ ps, p.Taken bufsz) := by
  intro ps
  induction ps with
  | nil =>
    intro s hrx hto
    have hto' : s.toRx = wire64 o hpfend ++ wire64 o hpffin := hto
    have hval : unwire64 o' (wire64 o hpfend) = hpfend := unwire64_end o' o
    have hhead : hpfRxNext o' s .header = some { s with
        rx := .sendFin, toRx := wire64 o hpffin, seen := s.seen ++ [hpfend] } := by
      simp only [hpfRxNext, hrx, if_true, hto', recv_wire64, Option.map_some, hval, true_or]
    rw [putServe, hhead, Option.bind_some, hpfRxNext_rxFin rfl, Option.bind_some, drain_fin rfl rfl]
    exact ⟨fun _ => ⟨_, rfl, rfl, by simp [HpfSys.tell], rfl, rfl⟩, fun _ _ => .inr (by simp)⟩
  | cons p ps ih =>
    intro s hrx hto
    by_cases hbig : bufsz < p.data.length
    · rw [putServe, if_pos hbig]
      exact ⟨fun h => absurd (h p List.mem_cons_self).1 (Nat.not_le.mpr hbig),
        fun t ht => by cases ht⟩
    generalize hrest : encChunks o (ps.map PutFrame.data) ++ (wire64 o hpfend ++ wire64 o hpffin)
      = rest
    have hto' : s.toRx = wire64 o p.data.length ++ (p.data ++ rest) := by
      rw [hto, ← hrest]
      simp
    rw [putServe, if_neg hbig, ← Option.bind_assoc, putChunk_eq hrx hto', Option.bind_some]
    cases hcount : p.counted with
    | true =>
      simp only [if_true, reduceCtorEq, if_false]
      obtain ⟨hall, hbad⟩ := ih (s := { s with
        rx := .header
        toRx := rest
        got := s.got ++ [p.data]
        written := s.written ++ p.stored }) rfl hrest.symm
      refine ⟨fun hgood => ?_, fun t ht => (hbad t ht).imp_right fun htaken => ?_⟩
      · obtain ⟨t, ht, hdone, hw, hans, hdel⟩ :=
          hall fun q hq => hgood q (List.mem_cons_of_mem _ hq)
        refine ⟨t, ht, hdone, ?_, hans, hdel⟩
        rw [hw, p.stored_of_counted hcount]
        simp
      · exact List.forall_mem_cons.mpr ⟨⟨Nat.not_lt.mp hbig, hcount⟩, htaken⟩
    | false =>
      simp only [Bool.false_eq_true, if_false, if_true]
      rw [hpfRxNext_rxCancel rfl, Option.bind_some, hpfRxNext_rxFin rfl, Option.bind_some]
      refine ⟨fun hgood => ?_, fun t ht => .inl ?_⟩
      · have := (hgood p List.mem_cons_self).2
        rw [hcount] at this
        cases this
      · rcases @putDrain_spec o o' bufsz ps (HpfSys.tell o' (HpfSys.tell o'
          { s with
            rx := .sendCancel
            toRx := rest
            got := s.got ++ [p.data]
            written := s.written ++ p.stored } hpfcancel .sendFin) hpffin .drain) _ rfl hrest.symm
          with hnone | ⟨u, hu, hdrain, hfin, hans⟩
        · rw [hnone] at ht
          cases ht
        · rw [hu, Option.bind_some, drain_fin hdrain hfin] at ht
          obtain rfl := Option.some.inj ht
          show hpfcancel ∈ u.answers
          rw [hans]
          simp [HpfSys.tell]

/-! ### RUN_BUF -/

theorem writechunk_empty (sched : List SysRes) :
    (writechunk sched []).1 = -1 ∨ (writechunk sched []).1 = 0 := by
  induction sched with
  | nil => exact .inr rfl
  | cons r sched ih =>
    cases r with
    | eintr => exact ih
    | err => exact .inl rfl
    | cnt n => exact .inr rfl

/-- The inner loop of `runbuf_rdth` gets on. -/
theorem length_drop_writechunk {sched : List SysRes} {buf : List Byte}
    (hret : (writechunk sched buf).1 ≠ -1) (hless : (writechunk sched buf).1 < buf.length) :
    (buf.drop (writechunk sched buf).1.toNat).length < buf.length := by
  have hne : buf ≠ [] := by
    rintro rfl
    rcases writechunk_empty sched with h | h
    · exact hret h
    · rw [h] at hless
      simp at hless
  have hf : writeFails sched buf.length = false := by
    by_contra hf
    exact hret (writechunk_of_fails sched hne (by simpa using hf)).1
  have := (writechunk_of_not_fails sched hne hf).2.1
  rw [List.length_drop]
  omega

/-- The inner loop of `runbuf_rdth`: what goes into the pipe for the bytes behind `written`. -/
def relay (sched : List SysRes) (buf : List Byte) : List Byte :=
  let w := writechunk sched buf
  if w.1 ≠ -1 ∧ w.1 < buf.length then
    w.2 ++ relay (schedAfter sched buf.length) (buf.drop w.1.toNat)
  else w.2
termination_by buf.length
decreasing_by next h => exact length_drop_writechunk h.1 h.2

/-- `XS_ACE_OK`. -/
def xsAceOk : ℤ := -127000

/-- The signals a client can have sent to the process. -/
inductive AceSignal
  | sigkill | sigterm | sigusr1 | sigusr2 | sighup
  deriving DecidableEq, Repr

/-- The code of a signal. -/
def aceSignal (hdr : ℤ) : Option AceSignal :=
  if hdr = -130000 then some .sigkill
  else if hdr = -131000 then some .sigterm
  else if hdr = -132000 then some .sigusr1
  else if hdr = -133000 then some .sigusr2
  else if hdr = -134000 then some .sighup
  else none

/-- What `runbuf_rdth` leaves: the bytes in the pipe, the signals sent, and `exitmod`. -/
structure RdthEnd where
  pipe : List Byte
  signals : List AceSignal
  exitmod : Bool
  deriving DecidableEq, Repr

/-- A stream that breaks off kills the process. -/
def RdthEnd.kill (r : RdthEnd) : RdthEnd :=
  { r with signals := r.signals ++ [.sigkill], exitmod := true }

/-- The loop of `runbuf_rdth` with a buffer of `pbufsz` bytes, and the answers to the writes of
each chunk.  A length above `pbufsz` runs over the buffer, and one below zero in the write behind
it, which gets it as a `size_t`. -/
def rdthLoop (o : Endian) (pbufsz : ℕ) :
    ℕ → List (List SysRes) → RdthEnd → List Byte → Option RdthEnd
  | 0, _, r, _ => some r.kill
  | turns + 1, ws, r, inp =>
    match recv 8 inp with
    | none => some r.kill
    | some (h, inp) =>
      let hdr := unwire64 o h
      if hdr = xsAceOk then some r
      else
        match aceSignal hdr with
        | some g => rdthLoop o pbufsz turns ws { r with signals := r.signals ++ [g] } inp
        | none =>
          if hdr < 0 ∨ pbufsz < hdr then none
          else
            match recv hdr.toNat inp with
            | none => some r.kill
            | some (c, inp) =>
              rdthLoop o pbufsz turns ws.tail
                { r with pipe := r.pipe ++ relay (ws.headD []) c } inp

/-- `runbuf_rdth` on everything the client sends; a turn takes eight bytes. -/
def runbufRdth (o : Endian) (pbufsz : ℕ) (ws : List (List SysRes)) (inp : List Byte) :
    Option RdthEnd :=
  rdthLoop o pbufsz (inp.length + 1) ws ⟨[], [], false⟩ inp

/-- What `RUN_BUF` puts into the pipe for a chunk. -/
def PutFrame.relayed (p : PutFrame) : List Byte := relay p.sched p.data

/-- **`runbuf_rdth` on chunks.**  It relays them all, unless one runs over the buffer. -/
theorem rdthLoop_chunks : ∀ (ps : List PutFrame) {turns : ℕ} {r : RdthEnd}, ps.length < turns →
    rdthLoop o' bufsz turns (ps.map PutFrame.sched) r
        (encChunks o (ps.map PutFrame.data) ++ wire64 o xsAceOk)
      = if ∀ p ∈ ps, p.data.length ≤ bufsz then
          some { r with pipe := r.pipe ++ (ps.map PutFrame.relayed).flatten }
        else none := by
  intro ps
  induction ps with
  | nil =>
    intro turns r hturns
    obtain ⟨k, rfl⟩ : ∃ k, turns = k + 1 := ⟨turns - 1, by simp at hturns; omega⟩
    have hval : unwire64 o' (wire64 o xsAceOk) = xsAceOk :=
      unwire64_wire64 o o' (by decide) (by decide)
    simp [rdthLoop, recv_eight_wire64, hval]
  | cons p ps ih =>
    intro turns r hturns
    obtain ⟨k, rfl⟩ : ∃ k, turns = k + 1 := ⟨turns - 1, by omega⟩
    have hval := (@PutFrame.header o o' p).1
    have hok : (p.data.length : ℤ) ≠ xsAceOk := by
      simp only [xsAceOk]
      omega
    have hsig : aceSignal p.data.length = none := by
      unfold aceSignal
      repeat rw [if_neg (by omega)]
    rw [List.map_cons, List.map_cons, encChunks_cons, List.append_assoc, List.append_assoc]
    simp only [rdthLoop, recv_wire64, hval, hok, if_false, hsig, Int.toNat_natCast, recv_append,
      List.tail_cons, List.headD_cons, List.forall_mem_cons]
    by_cases hbig : bufsz < p.data.length
    · rw [if_pos (Or.inr (by omega)), if_neg fun h => absurd h.1 (Nat.not_le.mpr hbig)]
    · rw [if_neg (by omega), ih (by simp only [List.length_cons] at hturns; omega)]
      simp [PutFrame.relayed, Nat.not_lt.mp hbig]

theorem quiet_schedAfter : ∀ {sched : List SysRes} (len : ℕ), Quiet sched →
    Quiet (schedAfter sched len) := by
  intro sched
  induction sched with
  | nil => intro len h; exact h
  | cons r sched ih =>
    intro len h
    have hrest : Quiet sched := fun hmem => h (List.mem_cons_of_mem _ hmem)
    cases r with
    | eintr => exact ih len hrest
    | err => exact hrest
    | cnt n =>
      rw [schedAfter]
      split
      · exact hrest
      · exact ih _ hrest

theorem length_le_relay (sched : List SysRes) (buf : List Byte) :
    (writechunk sched buf).2.length ≤ (relay sched buf).length := by
  rw [relay]
  split
  · rw [List.length_append]
    omega
  · exact le_rfl

/-- **A short write is relayed twice.**  `writechunk` stores everything and returns its last
count, and what is behind that count goes into the pipe again. -/
theorem relay_of_quiet {sched : List SysRes} {buf : List Byte} (hne : buf ≠ [])
    (hquiet : Quiet sched) :
    buf.length ≤ (relay sched buf).length ∧
      ((relay sched buf).length = buf.length ↔ wholeWrite sched buf = true) ∧
      (wholeWrite sched buf = true → relay sched buf = buf) := by
  obtain ⟨hall, hret, hle⟩ :=
    writechunk_of_not_fails sched hne (not_writeFails_of_quiet _ hquiet)
  have hwhole := writechunk_eq_length sched hne
  have hlen := length_le_relay sched buf
  rw [hall] at hlen
  by_cases hw : (writechunk sched buf).1 = buf.length
  · have hrelay : relay sched buf = buf := by
      rw [relay, if_neg (by omega), hall]
    exact ⟨hlen, iff_of_true (by rw [hrelay]) (hwhole.mp hw), fun _ => hrelay⟩
  · have hno : ¬ wholeWrite sched buf = true := fun h => hw (hwhole.mpr h)
    refine ⟨hlen, iff_of_false (fun heq => ?_) hno, fun h => absurd h hno⟩
    -- the second call stores something as well
    have hdrop : buf.drop (writechunk sched buf).1.toNat ≠ [] := by
      intro hnil
      have := List.drop_eq_nil_iff.mp hnil
      omega
    have hagain := length_le_relay (schedAfter sched buf.length)
      (buf.drop (writechunk sched buf).1.toNat)
    rw [(writechunk_of_not_fails _ hdrop
      (not_writeFails_of_quiet _ (quiet_schedAfter _ hquiet))).1] at hagain
    have hpos := List.length_pos_iff.mpr hdrop
    rw [relay, if_pos (by omega), List.length_append, hall] at heq
    omega

/-! ### PUTCAN -/

/-- `putstream_can` until it returns, with a buffer of `bufsz` bytes. -/
def putcanServe (o o' : Endian) (bufsz canpt : ℕ) : List PutFrame → CanSys → Option CanSys
  | [], s => canNext o o' bufsz canpt s .header
  | p :: ps, s =>
    if bufsz < p.data.length then none
    else
      (serveChunk o o' bufsz canpt s p).bind fun s =>
        if s.rx = .done then some s else putcanServe o o' bufsz canpt ps s

/-- As far as no chunk runs over the buffer, this is what the loop does. -/
theorem serve_of_putcanServe {canpt : ℕ} : ∀ {ps : List PutFrame} {s t : CanSys},
    putcanServe o o' bufsz canpt ps s = some t → serve o o' bufsz canpt ps s = some t := by
  intro ps
  induction ps with
  | nil => intro s t h; exact h
  | cons p ps ih =>
    intro s t h
    rw [putcanServe] at h
    split at h
    · cases h
    obtain ⟨u, hu, h⟩ := Option.bind_eq_some_iff.mp h
    rw [serve, hu, Option.bind_some]
    split at h
    next hdone => rw [if_pos hdone, h]
    next hdone => rw [if_neg hdone, ih h]

/-- **`putstream_can` with a cancellation point behind every chunk.**  It stores them all and
sends no `HPFCANCEL`; else it sends it, or a chunk runs over the buffer. -/
theorem putcanServe_one : ∀ (ps : List PutFrame) {i : ℕ} {s : CanSys}, Serving o o' 1 i ps s →
    s.fin = false →
      ((∀ p ∈ ps, p.Taken bufsz) → ∃ t, putcanServe o o' bufsz 1 ps s = some t ∧ t.rx = .done ∧
        t.del = s.del ∧ t.written = s.written ++ (ps.map PutFrame.data).flatten ∧
          ¬ CancelSent o' t.toTx) ∧
      (∀ t, putcanServe o o' bufsz 1 ps s = some t →
        CancelSent o' t.toTx ∨ ∀ p ∈ ps, p.Taken bufsz) := by
  intro ps
  induction ps with
  | nil =>
    intro i s h _
    have hnil : putcanServe o o' bufsz 1 [] s = _ := serve_nil h
    refine ⟨fun _ => ⟨_, hnil, rfl, rfl, by simp, ?_⟩, fun _ _ => .inr (by simp)⟩
    show ¬ CancelSent o' s.toTx
    rw [h.toTx]
    exact not_cancelSent _
  | cons p ps ih =>
    intro i s h hfin
    by_cases hbig : bufsz < p.data.length
    · rw [putcanServe, if_pos hbig]
      exact ⟨fun h => absurd (h p List.mem_cons_self).1 (Nat.not_le.mpr hbig),
        fun t ht => by cases ht⟩
    obtain ⟨t, ht, hf, hwritten, hdel, htold, hgo⟩ := @serveChunk_spec o o' bufsz 1 i p ps s h
    rw [hfin, Bool.false_or] at hf
    rw [hfin, if_neg (by simp)] at hwritten
    rw [putcanServe, if_neg hbig, ht, Option.bind_some]
    cases hcount : p.counted with
    | true =>
      have hserving := hgo fun hand => by simp [hf, hcount] at hand
      obtain ⟨hall, hbad⟩ := ih hserving (by simp [hf, hcount])
      rw [if_neg hserving.not_done]
      refine ⟨fun hgood => ?_, fun u hu => (hbad u hu).imp_right fun htaken => ?_⟩
      · obtain ⟨u, hu, hrx, hdel', hw, hno⟩ := hall fun q hq => hgood q (List.mem_cons_of_mem _ hq)
        refine ⟨u, hu, hrx, hdel'.trans hdel, ?_, hno⟩
        rw [hw, hwritten, p.stored_of_counted hcount]
        simp
      · exact List.forall_mem_cons.mpr ⟨⟨Nat.not_lt.mp hbig, hcount⟩, htaken⟩
    | false =>
      obtain ⟨hrx, hsent⟩ := htold (one_dvd _) (by simp [hf, hcount])
      rw [if_pos hrx]
      refine ⟨fun hgood => ?_, fun u hu => .inl ?_⟩
      · have := (hgood p List.mem_cons_self).2
        rw [hcount] at this
        cases this
      · obtain rfl := Option.some.inj hu
        exact hsent

/-! ### All of them -/

/-- The count of a chunk is its length exactly when one call stored it and the length is an
`int`. -/
theorem PutFrame.counted_iff (p : PutFrame) :
    p.counted = true ↔ wholeWrite p.sched p.data = true ∧ p.data.length < 2 ^ 31 := by
  rw [counted, decide_eq_true_eq]
  by_cases hlen : p.data.length < 2 ^ 31
  · rw [cint_writechunk_iff p.sched p.nonempty hlen, and_iff_left hlen]
  · have hlt : cint (writechunk p.sched p.data).1 < 2 ^ 31 := BitVec.toInt_lt
    exact iff_of_false (by omega) fun h => hlen h.2

/-- The commands that store an upload, and the function that three of them use. -/
inductive UploadPart
  | sndfile | put | putcan | runbuf | writechunk
  deriving DecidableEq, Repr

/-- The payload of an upload. -/
def payload (us : List Upload) : List Byte := (us.map fun u => u.frame.data).flatten

section

variable (o o' : Endian) (bufsz : ℕ)

/-- The destination has the payload, and the client was told of no failure. -/
def Delivers (us : List Upload) : UploadPart → Prop
  | .sndfile => ∀ full, rcvfileLoop full (us.map Upload.message ++ [(lit "OK", [])]) []
      = some ⟨some (payload us), some cmdOkText, false⟩
  | .put => ∃ t,
      putServe o' bufsz (us.map Upload.frame) (putStart o (us.map Upload.frame)) = some t ∧
      t.rx = .done ∧ t.written = payload us ∧ hpfcancel ∉ t.answers ∧ t.del = false
  | .putcan => ∃ t, putcanServe o o' bufsz 1 (us.map Upload.frame)
        (putcanStart o (us.map Upload.frame)) = some t ∧
      t.rx = .done ∧ t.written = payload us ∧ ¬ CancelSent o' t.toTx ∧ t.del = false
  | .runbuf => runbufRdth o' bufsz (us.map fun u => u.frame.sched)
        (encChunks o (us.map fun u => u.frame.data) ++ wire64 o xsAceOk)
      = some ⟨payload us, [], false⟩
  | .writechunk => True

/-- What a part is to do on an upload: unless a write fails, to deliver it; and `writechunk` is
to return the length of a chunk, or `-1`. -/
def UploadMeets (us : List Upload) (part : UploadPart) : Prop :=
  if part = .writechunk then ∀ u ∈ us, WritechunkMeets u.frame.sched u.frame.data
  else (∀ u ∈ us, Quiet u.frame.sched) → Delivers o o' bufsz us part

end

/-- What a part receives a chunk into takes it: `comm.buf` the message of `SNDFILE`, and the
buffer of `bufsz` bytes a chunk of the others. -/
def Upload.Fits (bufsz : ℕ) (u : Upload) : UploadPart → Prop
  | .sndfile => u.FitsMessage
  | _ => u.frame.data.length ≤ bufsz

/-- No write is short, and no chunk too long: every chunk fits the buffer, and is stored by the
first call that is not interrupted.  For `PUT` and `PUTCAN` the lengths are also those of an
`int`, and for `writechunk` itself a call may fail instead. -/
def UploadWhole (bufsz : ℕ) (us : List Upload) (part : UploadPart) : Prop :=
  match part with
  | .writechunk => ∀ u ∈ us, wholeWrite u.frame.sched u.frame.data = true ∨
      writeFails u.frame.sched u.frame.data.length = true
  | .put | .putcan => (∀ u ∈ us, Quiet u.frame.sched) → ∀ u ∈ us, u.Fits bufsz part ∧
      wholeWrite u.frame.sched u.frame.data = true ∧ u.frame.data.length < 2 ^ 31
  | _ => (∀ u ∈ us, Quiet u.frame.sched) → ∀ u ∈ us, u.Fits bufsz part ∧
      wholeWrite u.frame.sched u.frame.data = true

/-- Pieces that are each no longer than their chunk, and together as long as all chunks. -/
theorem length_eq_of_flatten {α : Type*} (f g : α → List Byte) : ∀ {l : List α},
    (∀ x ∈ l, (f x).length ≤ (g x).length) →
      (l.map f).flatten.length ≤ (l.map g).flatten.length ∧
        ((l.map f).flatten.length = (l.map g).flatten.length →
          ∀ x ∈ l, (f x).length = (g x).length) := by
  intro l
  induction l with
  | nil => intro _; exact ⟨le_rfl, fun _ x hx => absurd hx (by simp)⟩
  | cons a l ih =>
    intro h
    have ha := h a List.mem_cons_self
    obtain ⟨hle, heq⟩ := ih fun x hx => h x (List.mem_cons_of_mem _ hx)
    simp only [List.map_cons, List.flatten_cons, List.length_append]
    refine ⟨by omega, fun hsum x hx => ?_⟩
    rcases List.mem_cons.mp hx with rfl | hx
    · omega
    · exact heq (by omega) x hx

theorem delivers_sndfile {us : List Upload} (hquiet : ∀ u ∈ us, Quiet u.frame.sched) :
    Delivers o o' bufsz us .sndfile ↔
      ∀ u ∈ us, u.Fits bufsz .sndfile ∧ wholeWrite u.frame.sched u.frame.data = true := by
  have hspec := fun u hu => @fapiwrite_of_quiet _ u.frame.data (hquiet u hu)
  have hloop := fun full => rcvfileLoop_of_quiet full us [] hquiet
  rw [forall₂_and]
  constructor
  · intro h
    have hfits : ∀ u ∈ us, u.FitsMessage := (hloop false).2 (by rw [h false]; rfl)
    refine ⟨hfits, fun u hu => ?_⟩
    have heq : (us.map Upload.sndfileStored).flatten = payload us := by
      have := ((hloop false).1 hfits).symm.trans (h false)
      simpa using this
    exact (hspec u hu).2.2.1.mp
      ((length_eq_of_flatten Upload.sndfileStored (fun u => u.frame.data)
        fun u hu => (hspec u hu).2.1).2 (congrArg List.length heq) u hu)
  · rintro ⟨hfits, hwhole⟩ full
    have heq : (us.map Upload.sndfileStored).flatten = payload us :=
      congrArg List.flatten (List.map_congr_left fun u hu => (hspec u hu).2.2.2 (hwhole u hu))
    rw [(hloop full).1 hfits, heq, List.nil_append]

theorem length_le_encChunks (o : Endian) (cs : List (List Byte)) :
    cs.length ≤ (encChunks o cs).length := by
  induction cs with
  | nil => exact le_rfl
  | cons c cs ih =>
    rw [encChunks_cons, List.length_append, List.length_append, length_wire64, List.length_cons]
    omega

theorem delivers_runbuf {us : List Upload} (hquiet : ∀ u ∈ us, Quiet u.frame.sched) :
    Delivers o o' bufsz us .runbuf ↔
      ∀ u ∈ us, u.Fits bufsz .runbuf ∧ wholeWrite u.frame.sched u.frame.data = true := by
  have hspec := fun u hu => relay_of_quiet u.frame.nonempty (hquiet u hu)
  have hrun : runbufRdth o' bufsz (us.map fun u => u.frame.sched)
      (encChunks o (us.map fun u => u.frame.data) ++ wire64 o xsAceOk)
      = if ∀ u ∈ us, u.frame.data.length ≤ bufsz then
          some ⟨(us.map fun u => u.frame.relayed).flatten, [], false⟩
        else none := by
    have hturns := length_le_encChunks o (us.map fun u => u.frame.data)
    have h := @rdthLoop_chunks o o' bufsz (us.map Upload.frame)
      ((encChunks o (us.map fun u => u.frame.data) ++ wire64 o xsAceOk).length + 1)
      ⟨[], [], false⟩ (by
        rw [List.length_map] at hturns
        rw [List.length_map, List.length_append]
        omega)
    simp only [List.map_map, Function.comp_def, List.nil_append, List.forall_mem_map] at h
    exact h
  rw [forall₂_and, Delivers, hrun]
  constructor
  · intro h
    split at h
    next hfits =>
      refine ⟨hfits, fun u hu => ?_⟩
      have hlen := congrArg List.length (congrArg RdthEnd.pipe (Option.some.inj h))
      exact (hspec u hu).2.1.mp
        ((length_eq_of_flatten (fun u : Upload => u.frame.data) (fun u => u.frame.relayed)
          fun u hu => (hspec u hu).1).2 hlen.symm u hu).symm
    next => cases h
  · rintro ⟨hfits, hwhole⟩
    have hfits : ∀ u ∈ us, u.frame.data.length ≤ bufsz := hfits
    have heq : (us.map fun u => u.frame.relayed).flatten = payload us :=
      congrArg List.flatten (List.map_congr_left fun u hu => (hspec u hu).2.2 (hwhole u hu))
    rw [if_pos hfits, heq]

theorem taken_iff_whole {us : List Upload} :
    (∀ p ∈ us.map Upload.frame, p.Taken bufsz) ↔
      ∀ u ∈ us, u.frame.data.length ≤ bufsz ∧
        wholeWrite u.frame.sched u.frame.data = true ∧ u.frame.data.length < 2 ^ 31 := by
  rw [List.forall_mem_map]
  exact forall₂_congr fun u _ => and_congr_right fun _ => u.frame.counted_iff

theorem delivers_put {us : List Upload} :
    Delivers o o' bufsz us .put ↔ ∀ u ∈ us, u.Fits bufsz .put ∧
      wholeWrite u.frame.sched u.frame.data = true ∧ u.frame.data.length < 2 ^ 31 := by
  obtain ⟨hall, hbad⟩ := @putServe_spec o o' bufsz (us.map Upload.frame)
    (putStart o (us.map Upload.frame)) rfl rfl
  refine Iff.trans ?_ taken_iff_whole
  constructor
  · rintro ⟨t, ht, -, -, hno, -⟩
    exact (hbad t ht).resolve_left hno
  · intro hgood
    obtain ⟨t, ht, hrx, hwritten, hans, hdel⟩ := hall hgood
    refine ⟨t, ht, hrx, ?_, ?_, hdel⟩
    · rw [hwritten, List.map_map]
      rfl
    · rw [hans]
      show hpfcancel ∉ [hpffin]
      decide

theorem delivers_putcan {us : List Upload} :
    Delivers o o' bufsz us .putcan ↔ ∀ u ∈ us, u.Fits bufsz .putcan ∧
      wholeWrite u.frame.sched u.frame.data = true ∧ u.frame.data.length < 2 ^ 31 := by
  obtain ⟨hall, hbad⟩ := @putcanServe_one o o' bufsz (us.map Upload.frame) 0
    (putcanStart o (us.map Upload.frame)) (putcanStart_serving _) rfl
  refine Iff.trans ?_ taken_iff_whole
  constructor
  · rintro ⟨t, ht, -, -, hno, -⟩
    exact (hbad t ht).resolve_left hno
  · intro hgood
    obtain ⟨t, ht, hrx, hdel, hwritten, hno⟩ := hall hgood
    refine ⟨t, ht, hrx, ?_, hno, hdel⟩
    rw [hwritten, List.map_map]
    rfl

/-- **When uploads survive short writes.**  For every upload, every buffer and every pattern of
answers to the writes: `SNDFILE`, `PUT`, `PUTCAN` with a cancellation point behind every chunk
and `RUN_BUF` deliver the payload and report no failure, and `writechunk` returns what it is
to return, exactly when no write is short and no chunk runs over the buffer. -/
theorem upload_meets_iff (o o' : Endian) (bufsz : ℕ) (us : List Upload) (part : UploadPart) :
    UploadMeets o o' bufsz us part ↔ UploadWhole bufsz us part := by
  cases part with
  | sndfile => exact forall_congr' delivers_sndfile
  | put => exact forall_congr' fun _ => delivers_put
  | putcan => exact forall_congr' fun _ => delivers_putcan
  | runbuf => exact forall_congr' delivers_runbuf
  | writechunk =>
    exact forall₂_congr fun u _ => writechunkMeets_iff u.frame.sched u.frame.nonempty

/-! ### One byte at a time -/

/-- Two bytes, which the first call stores one of. -/
def twoByTwo : Upload where
  frame := ⟨[1, 2], [.cnt 0], by decide, by decide⟩
  word := ⟨lit "CONT", fun b hb => of_decide_eq_true (List.all_eq_true.mp
    (by decide : ((lit "CONT").all fun b => decide (b ≠ 0 ∧ b ≠ blank)) = true) b hb),
    by decide, by decide, by decide⟩

/-- `PUT` cancels an upload that it stores: the second call returns `1`, not `2`. -/
theorem put_cancels_short : ¬ ∀ (o o' : Endian) (bufsz : ℕ) (us : List Upload) (part : UploadPart),
    UploadMeets o o' bufsz us part := by
  intro h
  have hquiet : ∀ u ∈ [twoByTwo], Quiet u.frame.sched := by
    intro u hu
    obtain rfl := List.mem_singleton.mp hu
    unfold Quiet
    decide
  obtain ⟨t, ht, -, -, hno, -⟩ := h .little .little 4 [twoByTwo] .put hquiet
  have hmap := congrArg (Option.map HpfSys.answers) ht
  have hval : (putServe .little 4 [twoByTwo.frame] (putStart .little [twoByTwo.frame])).map
      HpfSys.answers = some [hpfcancel, hpffin] := by decide +kernel
  have hans : some [hpfcancel, hpffin] = some t.answers := hval.symm.trans hmap
  rw [← Option.some.inj hans] at hno
  exact hno List.mem_cons_self

end TFProtocol
