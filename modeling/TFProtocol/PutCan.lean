import TFProtocol.Streams

/-!
# A write that fails in PUTCAN

`putstream_can` keeps a failed write to itself until the next cancellation point: it sets
`end`, reads and forgets the chunks that follow, and sends `HPFCANCEL` behind the next
`canpt`-th chunk.  A client whose file ends before that point never hears of the failure.

The client here sends its chunks and `HPFEND` and does not listen; the server is the
receiver of `canNext`, which serves one chunk after the other.

## Main definitions

* `PutFrame` — a chunk, and how the calls to `write` for it end.
* `serve` — `putstream_can` on the frames and the `HPFEND` behind them.
* `PutcanTells` — everything was stored, or the client was told.
* `PutcanWarned` — a cancellation point follows the first failure in time.

## Main results

* `putcan_tells_iff` — the client is told exactly when there is such a point.
* `putcan_silent` — one chunk, a period of two, and a full disk.
-/

namespace TFProtocol

open Bytes

/-! ### Serving a client -/

/-- A chunk that a client sends, and how the calls to `write` for it end. -/
structure PutFrame where
  data : List Byte
  sched : List SysRes
  nonempty : data ≠ []
  small : data.length < 2 ^ 63

namespace PutFrame

/-- What the calls stored of the chunk. -/
def stored (p : PutFrame) : List Byte := (writechunk p.sched p.data).2

/-- `wb == len`. -/
def counted (p : PutFrame) : Bool := decide (cint (writechunk p.sched p.data).1 = p.data.length)

end PutFrame

section

variable (o o' : Endian) (bufsz canpt : ℕ)

/-- One turn of the loop of `putstream_can`. -/
def serveChunk (s : CanSys) (p : PutFrame) : Option CanSys :=
  (canNext o o' bufsz canpt s .header).bind fun s =>
    (canNext o o' bufsz canpt s (.body p.sched)).bind fun s =>
      if s.rx = .answer then canNext o o' bufsz canpt s .answer else some s

/-- The loop of `putstream_can` until it returns, on chunks that are not longer than the buffer
they are received into. -/
def serve : List PutFrame → CanSys → Option CanSys
  | [], s => canNext o o' bufsz canpt s .header
  | p :: ps, s =>
    (serveChunk o o' bufsz canpt s p).bind fun s => if s.rx = .done then some s else serve ps s

/-- The server when all the frames and the `HPFEND` behind them have been sent. -/
def putcanStart (ps : List PutFrame) : CanSys :=
  { CanSys.start [] with
    tx := .ended hpfend
    toRx := encChunks o (ps.map PutFrame.data) ++ wire64 o hpfend }

/-- One of the codes sent over a channel is `HPFCANCEL`. -/
def CancelSent (ch : List Byte) : Prop := ∃ k, (ch.drop (8 * k)).take 8 = wire64 o' hpfcancel

/-- `putstream_can` returns, and if it read the client's `HPFEND` before that, every chunk
was stored or `HPFCANCEL` was sent. -/
def PutcanTells (ps : List PutFrame) : Prop :=
  ∃ t, serve o o' bufsz canpt ps (putcanStart o ps) = some t ∧ t.rx = .done ∧
    (t.toRx = [] → t.written = (ps.map PutFrame.data).flatten ∨ CancelSent o' t.toTx)

end

/-- Behind `i` chunks: the first chunk whose count is not its length, if there is one, has a
cancellation point at it or behind it, or is the last chunk and was stored all the same. -/
def PutcanWarned (canpt i : ℕ) (ps : List PutFrame) : Prop :=
  ∀ before p after, ps = before ++ p :: after → (∀ q ∈ before, q.counted = true) →
    p.counted = false →
      (∃ m, i + before.length < m * canpt ∧ m * canpt ≤ i + ps.length) ∨
        after = [] ∧ p.stored = p.data

variable {o o' : Endian} {bufsz canpt : ℕ}

/-- Serving is a run of the receiver. -/
theorem run_of_serve : ∀ (ps : List PutFrame) {s t : CanSys},
    serve o o' bufsz canpt ps s = some t →
      ∃ acts, Runs.run (canNext o o' bufsz canpt) s acts = some t := by
  intro ps
  induction ps with
  | nil =>
    intro s t h
    exact ⟨[.header], by rw [Runs.run, show canNext _ _ _ _ s .header = some t from h]; rfl⟩
  | cons p ps ih =>
    intro s t h
    obtain ⟨u, hu, ht⟩ := Option.bind_eq_some_iff.mp h
    obtain ⟨v, hv, hu⟩ := Option.bind_eq_some_iff.mp hu
    obtain ⟨w, hw, hu⟩ := Option.bind_eq_some_iff.mp hu
    have hrest : ∃ acts, Runs.run (canNext o o' bufsz canpt) u acts = some t := by
      split at ht
      · exact ⟨[], ht⟩
      · exact ih ht
    obtain ⟨acts, hacts⟩ := hrest
    split at hu
    · exact ⟨.header :: .body p.sched :: .answer :: acts, by simp [Runs.run, hv, hw, hu, hacts]⟩
    · obtain rfl := Option.some.inj hu
      exact ⟨.header :: .body p.sched :: acts, by simp [Runs.run, hv, hw, hacts]⟩

/-! ### Codes in a channel -/

theorem drop_wires (o : Endian) (codes : List ℤ) : ∀ k,
    (wires o codes).drop (8 * k) = wires o (codes.drop k) := by
  induction codes with
  | nil => intro k; simp
  | cons code codes ih =>
    intro k
    cases k with
    | zero => rfl
    | succ k =>
      rw [wires_cons, Nat.mul_succ, Nat.add_comm, ← List.drop_drop,
        List.drop_left' (length_wire64 o code), ih]
      rfl

/-- A channel with nothing but `HPFCONT` in it holds no `HPFCANCEL`. -/
theorem not_cancelSent (m : ℕ) : ¬ CancelSent o' (wires o' (List.replicate m hpfcont)) := by
  rintro ⟨k, hk⟩
  rw [drop_wires, List.drop_replicate] at hk
  cases hm : m - k with
  | zero =>
    rw [hm] at hk
    have := congrArg List.length hk
    simp at this
  | succ n =>
    rw [hm, List.replicate_succ, wires_cons, List.take_left' (length_wire64 o' _)] at hk
    have := congrArg (unwire64 o') hk
    rw [unwire64_cont, unwire64_cancel] at this
    cases this

/-- What was sent last is in the channel. -/
theorem cancelSent_append (codes : List ℤ) :
    CancelSent o' (wires o' codes ++ wire64 o' hpfcancel) := by
  refine ⟨codes.length, ?_⟩
  have h := drop_wires o' (codes ++ [hpfcancel]) codes.length
  rw [wires_append, List.drop_left] at h
  have hone : wires o' [hpfcancel] = wire64 o' hpfcancel := by simp
  rw [hone] at h
  rw [h]
  exact List.take_of_length_le (by simp)

/-! ### One chunk -/

theorem succ_mod_of_dvd {c i : ℕ} (hc : 1 ≤ c) : i % c + 1 = c ↔ c ∣ i + 1 := by
  have hlt : i % c < c := Nat.mod_lt i hc
  have hi : i + 1 = i % c + 1 + c * (i / c) := by
    have := Nat.mod_add_div i c
    omega
  rw [hi, Nat.dvd_add_left (Nat.dvd_mul_right c _)]
  constructor
  · intro h
    rw [h]
  · intro h
    have := Nat.le_of_dvd (Nat.succ_pos _) h
    omega

theorem succ_mod_of_not_dvd {c i : ℕ} (hc : 1 ≤ c) (h : ¬ c ∣ i + 1) : (i + 1) % c = i % c + 1 := by
  have hlt : i % c < c := Nat.mod_lt i hc
  have hne : i % c + 1 ≠ c := fun heq => h ((succ_mod_of_dvd hc).mp heq)
  have hi : i + 1 = i % c + 1 + c * (i / c) := by
    have := Nat.mod_add_div i c
    omega
  rw [hi, Nat.add_mul_mod_self_left, Nat.mod_eq_of_lt (by omega)]

/-- The server behind the `i`-th chunk, with `ps` in front of it. -/
structure Serving (o o' : Endian) (canpt i : ℕ) (ps : List PutFrame) (s : CanSys) : Prop where
  rx : s.rx = .header
  toRx : s.toRx = encChunks o (ps.map PutFrame.data) ++ wire64 o hpfend
  step : 1 ≤ canpt → s.rxStep = i % canpt
  toTx : s.toTx = wires o' (List.replicate (i / canpt) hpfcont)
  cancel : s.fin = true → s.code = hpfcancel

theorem Serving.not_done {i : ℕ} {ps : List PutFrame} {s : CanSys}
    (h : Serving o o' canpt i ps s) : s.rx ≠ .done := by
  rw [h.rx]
  simp

section

variable {i : ℕ} {p : PutFrame} {ps : List PutFrame} {s : CanSys}

theorem PutFrame.header (p : PutFrame) :
    unwire64 o' (wire64 o p.data.length) = p.data.length ∧ (p.data.length : ℤ) ≠ hpfend ∧
      (p.data.length : ℤ) ≠ hpfstop ∧ (p.data.length : ℤ) ≠ hpfcancel ∧
      (p.data.length : ℤ) ≠ hpffin := by
  have hpos : 0 < p.data.length := List.length_pos_iff.mpr p.nonempty
  have hsmall := p.small
  refine ⟨unwire64_wire64 o o' (by omega) (by omega), ?_⟩
  simp only [hpfend, hpfstop, hpfcancel, hpffin]
  omega

/-- The server when it has received a chunk, before it counts it. -/
def CanSys.keep (s : CanSys) (p : PutFrame) (rest : List Byte) : CanSys :=
  storeChunk { s with rx := .body p.data.length, toRx := rest, got := s.got ++ [p.data] }
    p.data.length p.data p.sched

theorem keep_spec (s : CanSys) (p : PutFrame) (rest : List Byte)
    (hcancel : s.fin = true → s.code = hpfcancel) :
    (s.keep p rest).fin = (s.fin || !p.counted) ∧
      (s.keep p rest).written = (if s.fin then s.written else s.written ++ p.stored) ∧
      (s.keep p rest).code = (if (s.keep p rest).fin then hpfcancel else hpfcont) ∧
      (s.keep p rest).toRx = rest ∧ (s.keep p rest).toTx = s.toTx ∧
      (s.keep p rest).rxStep = s.rxStep ∧ (s.keep p rest).del = s.del := by
  unfold CanSys.keep storeChunk
  cases hfin : s.fin with
  | true => simp [hcancel hfin]
  | false => simp [PutFrame.counted, PutFrame.stored]

/-- The first two steps of a turn. -/
theorem serveChunk_eq (h : Serving o o' canpt i (p :: ps) s) :
    ∃ u, u = s.keep p (encChunks o (ps.map PutFrame.data) ++ wire64 o hpfend) ∧
      serveChunk o o' bufsz canpt s p =
        if 1 ≤ canpt then
          if u.rxStep + 1 = canpt then
            canNext o o' bufsz canpt { u with rx := .answer, rxStep := u.rxStep + 1 } .answer
          else some { u with rx := .header, rxStep := u.rxStep + 1 }
        else some { u with rx := .header } := by
  refine ⟨_, rfl, ?_⟩
  obtain ⟨hval, hend, hstop, hcancel, -⟩ := @PutFrame.header o o' p
  generalize hrest : encChunks o (ps.map PutFrame.data) ++ wire64 o hpfend = rest
  have hto : s.toRx = wire64 o p.data.length ++ (p.data ++ rest) := by
    rw [h.toRx, ← hrest]
    simp
  have hhead : canNext o o' bufsz canpt s .header
      = some { s with rx := .body p.data.length, toRx := p.data ++ rest } := by
    simp only [canNext, h.rx, hto, recv_wire64, Option.map_some, hval, hend, hstop, hcancel,
      or_self, if_false]
  have hbody : canNext o o' bufsz canpt
      { s with rx := .body p.data.length, toRx := p.data ++ rest } (.body p.sched)
      = some (if 1 ≤ canpt then
          { s.keep p rest with
            rx := if (s.keep p rest).rxStep + 1 = canpt then .answer else .header
            rxStep := (s.keep p rest).rxStep + 1 }
        else { s.keep p rest with rx := .header }) := by
    simp only [canNext, Int.toNat_natCast, recv_append, Option.map_some]
    rfl
  rw [serveChunk, hhead, Option.bind_some, hbody, Option.bind_some]
  by_cases hpt : 1 ≤ canpt
  · rw [if_pos hpt, if_pos hpt]
    by_cases hstep : (s.keep p rest).rxStep + 1 = canpt
    · simp only [if_pos hstep, if_true]
    · simp only [if_neg hstep, reduceCtorEq, if_false]
  · simp only [if_neg hpt, reduceCtorEq, if_false]

/-- **One turn.**  The chunk is stored unless the server gave up before, and the server gives
up when the count is not the length; at a cancellation point it tells the client and
returns if it gave up. -/
theorem serveChunk_spec (h : Serving o o' canpt i (p :: ps) s) :
    ∃ t, serveChunk o o' bufsz canpt s p = some t ∧ t.fin = (s.fin || !p.counted) ∧
      t.written = (if s.fin then s.written else s.written ++ p.stored) ∧ t.del = s.del ∧
      (canpt ∣ i + 1 → t.fin = true → t.rx = .done ∧ CancelSent o' t.toTx) ∧
      (¬ (canpt ∣ i + 1 ∧ t.fin = true) → Serving o o' canpt (i + 1) ps t) := by
  obtain ⟨u, hu, hserve⟩ := @serveChunk_eq o o' bufsz canpt i p ps s h
  obtain ⟨hfin, hwritten, hcode, hto, hch, hstep, hdel⟩ :=
    keep_spec s p (encChunks o (ps.map PutFrame.data) ++ wire64 o hpfend) h.cancel
  rw [← hu] at hfin hwritten hcode hto hch hstep hdel
  have hcancel : u.fin = true → u.code = hpfcancel := fun hf => by rw [hcode, if_pos hf]
  by_cases hpt : 1 ≤ canpt
  · have hi : u.rxStep = i % canpt := hstep.trans (h.step hpt)
    rw [if_pos hpt] at hserve
    by_cases hdvd : canpt ∣ i + 1
    · rw [if_pos (by rw [hi]; exact (succ_mod_of_dvd hpt).mpr hdvd)] at hserve
      cases hf : u.fin with
      | true =>
        have hans : canNext o o' bufsz canpt
            { u with rx := .answer, rxStep := u.rxStep + 1 } .answer
            = some { u with
                rx := .done, rxStep := u.rxStep + 1, toTx := u.toTx ++ wire64 o' u.code } := by
          simp [canNext, hf]
        refine ⟨_, hserve.trans hans, hfin, hwritten, hdel, fun _ _ => ⟨rfl, ?_⟩,
          fun hno => absurd ⟨hdvd, hf⟩ hno⟩
        show CancelSent o' (u.toTx ++ wire64 o' u.code)
        rw [hcancel hf, hch, h.toTx]
        exact cancelSent_append _
      | false =>
        have hans : canNext o o' bufsz canpt
            { u with rx := .answer, rxStep := u.rxStep + 1 } .answer
            = some { u with rx := .header, rxStep := 0, toTx := u.toTx ++ wire64 o' u.code } := by
          simp [canNext, hf]
        have hno : ¬ u.fin = true := by simp [hf]
        refine ⟨_, hserve.trans hans, hfin, hwritten, hdel, fun _ hfin' => absurd hfin' hno,
          fun _ => ⟨rfl, hto, fun _ => ?_, ?_, hcancel⟩⟩
        · exact (Nat.mod_eq_zero_of_dvd hdvd).symm
        · show u.toTx ++ wire64 o' u.code = _
          rw [hcode, if_neg hno, hch, h.toTx, Nat.succ_div_of_dvd hdvd,
            List.replicate_succ', wires_append]
          simp
    · rw [if_neg (by rw [hi]; exact fun heq => hdvd ((succ_mod_of_dvd hpt).mp heq))] at hserve
      refine ⟨_, hserve, hfin, hwritten, hdel, fun hd => absurd hd hdvd,
        fun _ => ⟨rfl, hto, fun _ => ?_, ?_, hcancel⟩⟩
      · show u.rxStep + 1 = _
        rw [hi, succ_mod_of_not_dvd hpt hdvd]
      · show u.toTx = _
        rw [hch, h.toTx, Nat.succ_div_of_not_dvd hdvd]
  · obtain rfl : canpt = 0 := by omega
    rw [if_neg hpt] at hserve
    refine ⟨_, hserve, hfin, hwritten, hdel,
      fun hd => absurd (Nat.eq_zero_of_zero_dvd hd) (by omega),
      fun _ => ⟨rfl, hto, fun h1 => absurd h1 hpt, ?_, hcancel⟩⟩
    show u.toTx = _
    rw [hch, h.toTx, Nat.div_zero, Nat.div_zero]

end

/-! ### All chunks -/

theorem serve_nil {i : ℕ} {s : CanSys} (h : Serving o o' canpt i [] s) :
    serve o o' bufsz canpt [] s = some { s with rx := .done, toRx := [] } := by
  have hto : s.toRx = wire64 o hpfend := h.toRx
  have hval : unwire64 o' (wire64 o hpfend) = hpfend := unwire64_end o' o
  simp only [serve, canNext, h.rx, hto, recv_eight_wire64, Option.map_some, hval, true_or, if_true]

/-- A cancellation point among the chunks that follow. -/
theorem point_succ {c i n : ℕ} (h : ¬ c ∣ i + 1) :
    (∃ m, i + 1 < m * c ∧ m * c ≤ i + 1 + n) ↔ ∃ m, i < m * c ∧ m * c ≤ i + (n + 1) := by
  constructor
  · rintro ⟨m, hlt, hle⟩
    exact ⟨m, by omega, by omega⟩
  · rintro ⟨m, hlt, hle⟩
    have hne : m * c ≠ i + 1 := fun heq => h ⟨m, by rw [← heq, Nat.mul_comm]⟩
    exact ⟨m, by omega, by omega⟩

theorem point_of_dvd {c i : ℕ} (h : c ∣ i + 1) (n : ℕ) :
    ∃ m, i < m * c ∧ m * c ≤ i + (n + 1) := by
  obtain ⟨m, hm⟩ := h
  exact ⟨m, by rw [Nat.mul_comm]; omega, by rw [Nat.mul_comm]; omega⟩

/-- **A server that gave up** stores nothing more, and tells the client if there is a
cancellation point among the chunks that follow. -/
theorem serve_gave_up : ∀ (ps : List PutFrame) {i : ℕ} {s : CanSys}, Serving o o' canpt i ps s →
    s.fin = true →
      ∃ t, serve o o' bufsz canpt ps s = some t ∧ t.rx = .done ∧ t.written = s.written ∧
        (CancelSent o' t.toTx ↔ ∃ m, i < m * canpt ∧ m * canpt ≤ i + ps.length) ∧
        (¬ CancelSent o' t.toTx → t.toRx = []) := by
  intro ps
  induction ps with
  | nil =>
    intro i s h _
    refine ⟨_, serve_nil h, rfl, rfl, ?_, fun _ => rfl⟩
    show CancelSent o' s.toTx ↔ _
    rw [h.toTx]
    refine ⟨fun hsent => absurd hsent (not_cancelSent _), ?_⟩
    rintro ⟨m, hlt, hle⟩
    exact absurd hle (by simpa using hlt)
  | cons p ps ih =>
    intro i s h hfin
    obtain ⟨t, ht, hf, hwritten, -, htold, hgo⟩ := @serveChunk_spec o o' bufsz canpt i p ps s h
    have hf' : t.fin = true := by rw [hf, hfin, Bool.true_or]
    rw [hfin, if_pos rfl] at hwritten
    by_cases hdvd : canpt ∣ i + 1
    · obtain ⟨hrx, hsent⟩ := htold hdvd hf'
      refine ⟨t, ?_, hrx, hwritten, ⟨fun _ => ?_, fun _ => hsent⟩, fun hno => absurd hsent hno⟩
      · rw [serve, ht, Option.bind_some, if_pos hrx]
      · exact point_of_dvd hdvd _
    · have hserving := hgo fun hand => hdvd hand.1
      obtain ⟨u, hu, hrx, hw, hiff, hread⟩ := ih hserving hf'
      refine ⟨u, ?_, hrx, hw.trans hwritten, ?_, hread⟩
      · rw [serve, ht, Option.bind_some, if_neg hserving.not_done, hu]
      · rw [hiff, point_succ hdvd, List.length_cons]

theorem PutFrame.stored_of_counted {p : PutFrame} (h : p.counted = true) : p.stored = p.data := by
  refine (writechunk_spec p.sched p.data).2 fun herr => ?_
  have hcount := of_decide_eq_true h
  rw [herr, show cint (-1) = -1 by decide] at hcount
  omega

theorem putcanWarned_cons_counted {i : ℕ} {p : PutFrame} {ps : List PutFrame}
    (h : p.counted = true) : PutcanWarned canpt i (p :: ps) ↔ PutcanWarned canpt (i + 1) ps := by
  constructor
  · intro hw before q after hps hbefore hq
    have := hw (p :: before) q after (by rw [hps]; rfl)
      (by simpa [h] using hbefore) hq
    simpa [Nat.add_assoc, Nat.add_comm 1] using this
  · intro hw before q after hps hbefore hq
    cases before with
    | nil =>
      obtain ⟨rfl, -⟩ := List.cons.inj hps
      rw [h] at hq
      cases hq
    | cons b before =>
      obtain ⟨rfl, hrest⟩ := List.cons.inj hps
      have := hw before q after hrest (fun r hr => hbefore r (List.mem_cons_of_mem _ hr)) hq
      simpa [Nat.add_assoc, Nat.add_comm 1] using this

theorem putcanWarned_cons_bad {i : ℕ} {p : PutFrame} {ps : List PutFrame}
    (h : p.counted = false) : PutcanWarned canpt i (p :: ps) ↔
      (∃ m, i < m * canpt ∧ m * canpt ≤ i + (ps.length + 1)) ∨ ps = [] ∧ p.stored = p.data := by
  constructor
  · intro hw
    exact hw [] p ps rfl (by simp) h
  · intro hor before q after hps hbefore hq
    cases before with
    | nil =>
      obtain ⟨rfl, rfl⟩ := List.cons.inj hps
      exact hor
    | cons b before =>
      obtain ⟨rfl, -⟩ := List.cons.inj hps
      have := hbefore p List.mem_cons_self
      rw [h] at this
      cases this

/-- What was stored of a chunk makes up for the chunks behind it only if there are none. -/
theorem stored_eq_append {p : PutFrame} {ps : List PutFrame} :
    p.stored = p.data ++ (ps.map PutFrame.data).flatten ↔ ps = [] ∧ p.stored = p.data := by
  constructor
  · intro heq
    have hle : p.stored.length ≤ p.data.length := (writechunk_spec p.sched p.data).1.length_le
    have hlen := congrArg List.length heq
    rw [List.length_append] at hlen
    have hnil : (ps.map PutFrame.data).flatten = [] := List.length_eq_zero_iff.mp (by omega)
    rw [hnil, List.append_nil] at heq
    cases ps with
    | nil => exact ⟨rfl, heq⟩
    | cons q ps =>
      rw [List.map_cons, List.flatten_cons] at hnil
      exact absurd (List.append_eq_nil_iff.mp hnil).1 q.nonempty
  · rintro ⟨rfl, heq⟩
    simpa using heq

/-- **A server that stored everything so far.** -/
theorem serve_storing : ∀ (ps : List PutFrame) {i : ℕ} {s : CanSys}, Serving o o' canpt i ps s →
    s.fin = false →
      ∃ t, serve o o' bufsz canpt ps s = some t ∧ t.rx = .done ∧
        ((t.toRx = [] → t.written = s.written ++ (ps.map PutFrame.data).flatten ∨
          CancelSent o' t.toTx) ↔ PutcanWarned canpt i ps) := by
  intro ps
  induction ps with
  | nil =>
    intro i s h _
    refine ⟨_, serve_nil h, rfl, fun _ => ?_, fun _ _ => .inl (by simp)⟩
    intro before p after hps
    exact absurd hps (by simp)
  | cons p ps ih =>
    intro i s h hfin
    obtain ⟨t, ht, hf, hwritten, -, htold, hgo⟩ := @serveChunk_spec o o' bufsz canpt i p ps s h
    rw [hfin, Bool.false_or] at hf
    rw [hfin, if_neg (by simp)] at hwritten
    cases hcount : p.counted with
    | true =>
      have hf' : t.fin = false := by rw [hf, hcount]; rfl
      have hserving := hgo fun hand => by rw [hf'] at hand; exact nomatch hand.2
      obtain ⟨u, hu, hrx, hiff⟩ := ih hserving hf'
      refine ⟨u, ?_, hrx, ?_⟩
      · rw [serve, ht, Option.bind_some, if_neg hserving.not_done, hu]
      · rw [putcanWarned_cons_counted hcount, ← hiff, hwritten, p.stored_of_counted hcount,
          List.map_cons, List.flatten_cons, List.append_assoc]
    | false =>
      have hf' : t.fin = true := by rw [hf, hcount]; rfl
      rw [putcanWarned_cons_bad hcount]
      by_cases hdvd : canpt ∣ i + 1
      · obtain ⟨hrx, hsent⟩ := htold hdvd hf'
        refine ⟨t, ?_, hrx, fun _ => .inl (point_of_dvd hdvd _), fun _ _ => .inr hsent⟩
        rw [serve, ht, Option.bind_some, if_pos hrx]
      · have hserving := hgo fun hand => hdvd hand.1
        obtain ⟨u, hu, hrx, hw, hpoint, hread⟩ :=
          @serve_gave_up o o' bufsz canpt ps _ _ hserving hf'
        refine ⟨u, ?_, hrx, ?_⟩
        · rw [serve, ht, Option.bind_some, if_neg hserving.not_done, hu]
        · rw [← point_succ hdvd, ← hpoint, ← stored_eq_append, hw, hwritten, List.map_cons,
            List.flatten_cons, List.append_cancel_left_eq]
          constructor
          · intro hor
            by_cases hsent : CancelSent o' u.toTx
            · exact .inl hsent
            · exact (hor (hread hsent)).symm
          · exact fun hor _ => hor.symm

theorem putcanStart_serving (ps : List PutFrame) : Serving o o' canpt 0 ps (putcanStart o ps) :=
  ⟨rfl, rfl, fun _ => (Nat.zero_mod _).symm, by rw [Nat.zero_div]; rfl, nofun⟩

/-- **When a failed write is not silent.**  For every sequence of chunks, every period and
every way the writes end: `putstream_can` returns, and when it read the client's `HPFEND`
everything was stored or `HPFCANCEL` was sent — exactly if the first chunk whose count is
not its length has a cancellation point at it or behind it, or is the last one and was
stored all the same. -/
theorem putcan_tells_iff (o o' : Endian) (bufsz canpt : ℕ) (ps : List PutFrame) :
    PutcanTells o o' bufsz canpt ps ↔ PutcanWarned canpt 0 ps := by
  obtain ⟨t, ht, hrx, hiff⟩ :=
    @serve_storing o o' bufsz canpt ps _ _ (putcanStart_serving ps) rfl
  rw [show (putcanStart o ps).written = [] from rfl, List.nil_append] at hiff
  rw [← hiff]
  constructor
  · rintro ⟨u, hu, -, htells⟩
    rw [ht] at hu
    obtain rfl := Option.some.inj hu
    exact htells
  · exact fun htells => ⟨t, ht, hrx, htells⟩

/-! ### A full disk -/

/-- One byte that the disk has no room for. -/
def unstorable : PutFrame where
  data := [7]
  sched := [.err]
  nonempty := nofun
  small := by decide

/-- With a period of two, a client that sends one chunk is not told that it was lost. -/
theorem putcan_silent : ¬ ∀ (o o' : Endian) (bufsz canpt : ℕ) (ps : List PutFrame),
    PutcanTells o o' bufsz canpt ps := by
  intro h
  obtain ⟨t, ht, -, htells⟩ := h .little .little 4 2 [unstorable]
  have hmap := congrArg (Option.map fun t => (t.toRx, t.written, t.toTx)) ht
  have hval : (serve .little .little 4 2 [unstorable] (putcanStart .little [unstorable])).map
      (fun t => (t.toRx, t.written, t.toTx)) = some ([], [], []) := by decide +kernel
  rw [hval] at hmap
  obtain ⟨hread, hwritten, hch⟩ : t.toRx = [] ∧ t.written = [] ∧ t.toTx = [] := by
    simpa using hmap.symm
  rcases htells hread with hall | hsent
  · rw [hwritten] at hall
    exact absurd hall (by decide)
  · rw [hch] at hsent
    exact not_cancelSent 0 hsent

end TFProtocol
