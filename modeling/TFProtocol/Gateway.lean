import Mathlib.Data.Finset.Card
import TFProtocol.PlainIo
import TFProtocol.Lib.LockedLog

/-!
# The threads of the gateway

`xs_gateway` leaves the session to `start_net`.  A second thread, `uxlisten`, accepts
connections on the unix socket of the session and starts an `uxcomm` for each, which reads
one message from its connection and sends it to the client of the session, under the mutex
`wrmut`.  A connection is handed over in `gw->ux`, which the listener fills and the new
thread clears; `gw->sem` counts the threads that have counted themselves, and when the
session leaves the gateway the listener waits for that count before it frees the structure.

The system is all of these threads, with one access to the shared structure a step, in any
order.  A connection is known by the number of its `accept`, and so is the thread that is
started for it.

## Main definitions

* `GwLst`, `GwThr`, `GwSys`, `gwNext` — where the threads stand, and their steps.
* `peerMsg`, `gwFrame` — what a peer sends before it closes, and what is made of it.
* `GwInv` — what holds between the threads.

## Main results

* `run_gwInv` — the invariant holds in every reachable state.
* `gateway_frames` — the client receives whole messages, each connection's at most once, and
  exactly once when its thread has given the lock back.
-/

namespace TFProtocol

open Bytes

/-! ### The system -/

/-- Where `uxlisten` stands, with the connection it accepted. -/
inductive GwLst
  /-- At `select`. -/
  | select
  | accept
  /-- Waiting for `gw->ux` to be clear, and then at `malloc`. -/
  | alloc (c : Option ℕ)
  /-- At `pthread_create`. -/
  | create (c : ℕ)
  /-- Waiting for `gw->sem`. -/
  | draining
  | ended
  deriving DecidableEq, Repr

/-- Where the `uxcomm` of a connection stands, with the connection it found in `gw->ux`. -/
inductive GwThr
  | absent
  | created
  /-- It used a null `gw->ux`, or wrote past the end of `gw->buf`. -/
  | crashed
  /-- About to clear `gw->ux`. -/
  | loaded (c : ℕ)
  /-- About to count itself. -/
  | counting (c : ℕ)
  /-- At `pthread_mutex_lock(&gw->wrmut)`. -/
  | locking (c : ℕ)
  | readHdr (c : ℕ)
  | readBody (c : ℕ) (hdr : ℤ)
  | writeHdr (c : ℕ) (hdr : ℤ) (m : List Byte)
  | writeBody (c : ℕ) (m : List Byte)
  | unlocking (c : ℕ)
  /-- About to close its connection and to take itself off the count. -/
  | closing (c : ℕ)
  | done
  deriving DecidableEq, Repr

/-- Where the main thread stands. -/
inductive GwMain
  /-- In `start_net`. -/
  | net
  /-- It has set `gw->exited`. -/
  | left
  /-- It has closed `tfp_sock`. -/
  | closed
  deriving DecidableEq, Repr

/-- The shared structure and the threads. -/
structure GwSys where
  /-- The connection in `gw->ux`, if that is not null. -/
  ux : Option ℕ
  sem : ℕ
  /-- The holder of `wrmut`. -/
  wrmut : Option ℕ
  /-- `freegw` was called. -/
  freed : Bool
  /-- How many connections were accepted. -/
  conns : ℕ
  main : GwMain
  lst : GwLst
  thr : ℕ → GwThr
  /-- What was sent to the client, one block for a call. -/
  out : List (List Byte)

/-- A step of one of the threads; `ok` is the outcome of a call. -/
inductive GwAct
  | select (ready : Bool)
  | accept (ok : Bool)
  | alloc (ok : Bool)
  | create (ok : Bool)
  | free
  | leave
  | close
  | load (i : ℕ)
  | clear (i : ℕ)
  | count (i : ℕ)
  | lock (i : ℕ)
  | readHdr (i : ℕ)
  | readBody (i : ℕ)
  | writeHdr (i : ℕ) (ok : Bool)
  | writeBody (i : ℕ) (ok : Bool)
  | unlock (i : ℕ)
  | finish (i : ℕ)
  deriving DecidableEq, Repr

/-- The thread of a step, if it is an `uxcomm`. -/
def GwAct.thread : GwAct → Option ℕ
  | load i => some i
  | clear i => some i
  | count i => some i
  | lock i => some i
  | readHdr i => some i
  | readBody i => some i
  | writeHdr i _ => some i
  | writeBody i _ => some i
  | unlock i => some i
  | finish i => some i
  | _ => none

/-- A thread of the gateway moves on. -/
def GwSys.become (s : GwSys) (i : ℕ) (p : GwThr) : GwSys :=
  { s with thr := Function.update s.thr i p }

/-- The client receives what is written to `tfp_sock` before that is closed; the number may
stand for another descriptor afterwards. -/
def GwSys.received (s : GwSys) (b : List Byte) : List (List Byte) :=
  if s.main = .closed then s.out else s.out ++ [b]

section

-- `inp` is what the peer of each connection sends before it closes.
variable (o : Endian) (inp : ℕ → List Byte)

/-- The length `uxcomm` reads, in the byte order of the host, where reads are plain. -/
def peerHdr (bs : List Byte) : Option ℤ :=
  if 4 ≤ bs.length then some (BitVec.ofNat 32 (ofMem o (bs.take 4))).toInt else none

/-- The message of that length, if the peer sends it to the end. -/
def peerBody (bs : List Byte) (hdr : ℤ) : Option (List Byte) :=
  if hdr.toNat ≤ (bs.drop 4).length then some ((bs.drop 4).take hdr.toNat) else none

/-- The message runs over the end of `gw->buf`. -/
def PeerOverruns (bs : List Byte) (hdr : ℤ) : Prop := commbuflen < min hdr.toNat (bs.drop 4).length

instance : DecidableRel PeerOverruns :=
  fun bs hdr => inferInstanceAs (Decidable (commbuflen < min hdr.toNat (bs.drop 4).length))

/-- A step of `uxlisten`. -/
def uxlistenNext (s : GwSys) : GwAct → Option GwSys
  | .select ready =>
    if s.lst = .select then
      some { s with
        lst := if s.main ≠ .net then .draining else if ready then .accept else .select }
    else none
  | .accept ok =>
    if s.lst = .accept then
      some (if ok then { s with lst := .alloc (some s.conns), conns := s.conns + 1 }
        else { s with lst := .alloc none })
    else none
  | .alloc ok =>
    match s.lst with
    | .alloc c =>
      if s.ux = none then
        match ok, c with
        | true, some c => some { s with ux := some c, lst := .create c }
        -- without memory the connection is lost; without a connection the memory is freed
        | _, _ => some { s with lst := .select }
      else none
    | _ => none
  | .create ok =>
    match s.lst with
    | .create c =>
      some (if ok then { s.become c .created with lst := .select }
        else { s with ux := none, lst := .select })
    | _ => none
  | .free =>
    if s.lst = .draining ∧ s.sem = 0 then some { s with freed := true, lst := .ended } else none
  | _ => none

/-- A step of the main thread. -/
def gwMainNext (s : GwSys) : GwAct → Option GwSys
  | .leave => if s.main = .net then some { s with main := .left } else none
  | .close => if s.main = .left then some { s with main := .closed } else none
  | _ => none

/-- A step of the `uxcomm` of a connection. -/
def uxcommNext (s : GwSys) : GwAct → Option GwSys
  | .load i =>
    if s.thr i = .created then
      some (s.become i (match s.ux with | some c => .loaded c | none => .crashed))
    else none
  | .clear i =>
    match s.thr i with
    | .loaded c => some { s.become i (.counting c) with ux := none }
    | _ => none
  | .count i =>
    match s.thr i with
    | .counting c => some { s.become i (.locking c) with sem := s.sem + 1 }
    | _ => none
  | .lock i =>
    match s.thr i with
    | .locking c =>
      if s.wrmut = none then some { s.become i (.readHdr c) with wrmut := some i } else none
    | _ => none
  | .readHdr i =>
    match s.thr i with
    | .readHdr c =>
      some (s.become i (match peerHdr o (inp c) with
        | some hdr => .readBody c hdr
        | none => .unlocking c))
    | _ => none
  | .readBody i =>
    match s.thr i with
    | .readBody c hdr =>
      some (s.become i (if PeerOverruns (inp c) hdr then .crashed
        else match peerBody (inp c) hdr with
          | some m => .writeHdr c hdr m
          | none => .unlocking c))
    | _ => none
  | .writeHdr i ok =>
    match s.thr i with
    | .writeHdr c hdr m =>
      if ok then some { s.become i (.writeBody c m) with out := s.received (hdrsetsz o hdr) }
      else some (s.become i (.unlocking c))
    | _ => none
  | .writeBody i ok =>
    match s.thr i with
    | .writeBody c m =>
      if ok then some { s.become i (.unlocking c) with out := s.received m }
      else some (s.become i (.unlocking c))
    | _ => none
  | .unlock i =>
    match s.thr i with
    | .unlocking c => some { s.become i (.closing c) with wrmut := none }
    | _ => none
  | .finish i =>
    match s.thr i with
    | .closing _ => some { s.become i .done with sem := s.sem - 1 }
    | _ => none
  | _ => none

/-- One step. -/
def gwNext (s : GwSys) (a : GwAct) : Option GwSys :=
  uxlistenNext s a <|> gwMainNext s a <|> uxcommNext o inp s a

end

/-- The gateway when the listener starts to accept. -/
def GwSys.start : GwSys where
  ux := none
  sem := 0
  wrmut := none
  freed := false
  conns := 0
  main := .net
  lst := .select
  thr := fun _ => .absent
  out := []

/-! ### What a thread is to do -/

/-- The length and the message of a connection, if its peer sends both to the end. -/
def peerMsg (o : Endian) (bs : List Byte) : Option (ℤ × List Byte) :=
  (peerHdr o bs).bind fun hdr => (peerBody bs hdr).map fun m => (hdr, m)

/-- The message fits `gw->buf`. -/
def PeerFits (o : Endian) (bs : List Byte) : Prop :=
  ∀ hdr, peerHdr o bs = some hdr → ¬ PeerOverruns bs hdr

/-- The two blocks `uxcomm` sends for a connection. -/
def gwFrame (o : Endian) (bs : List Byte) : List (List Byte) :=
  match peerMsg o bs with
  | some (hdr, m) => [hdrsetsz o hdr, m]
  | none => []

variable {o : Endian} {inp : ℕ → List Byte} {s t : GwSys}

theorem peerFits_of_length {bs : List Byte} (h : bs.length ≤ commbuflen + 4) :
    PeerFits o bs := by
  intro hdr _
  simp only [PeerOverruns, List.length_drop]
  omega

theorem peerMsg_append (o : Endian) {m : List Byte} (hm : m.length < 2 ^ 31) (rest : List Byte) :
    peerMsg o (memBytes o 4 (BitVec.ofInt 32 m.length).toNat ++ m ++ rest)
      = some ((m.length : ℤ), m) := by
  have hfour : (memBytes o 4 (BitVec.ofInt 32 m.length).toNat).length = 4 := length_memBytes ..
  have hhdr := ofMem_length o hm []
  rw [CStr.overlay, hfour, List.drop_nil, List.append_nil, List.take_of_length_le hfour.le] at hhdr
  have hlen : 4 ≤ (memBytes o 4 (BitVec.ofInt 32 m.length).toNat ++ (m ++ rest)).length := by
    rw [List.length_append]
    omega
  have htake : (memBytes o 4 (BitVec.ofInt 32 m.length).toNat ++ (m ++ rest)).take 4
      = memBytes o 4 (BitVec.ofInt 32 m.length).toNat := List.take_left' hfour
  have hdrop : (memBytes o 4 (BitVec.ofInt 32 m.length).toNat ++ (m ++ rest)).drop 4
      = m ++ rest := List.drop_left' hfour
  rw [List.append_assoc, peerMsg, peerHdr, if_pos hlen, htake, hhdr, Option.bind_some, peerBody,
    hdrop, Int.toNat_natCast, if_pos (by simp), List.take_left]
  rfl

/-- A gateway that sends a message of its client is such a peer. -/
theorem gwFrame_startNet {aes : Aes} {q : Sess} (hs : q.blkstatus = false) {fd : Fd}
    (hq : Quiet fd.wsched) (hout : fd.out = []) {m : List Byte} (hm : m.length < 2 ^ 31) :
    gwFrame o (startNet o aes q fd m).out = [hdrsetsz o m.length, m] := by
  have hmsg := peerMsg_append o hm []
  rw [List.append_nil] at hmsg
  rw [gwFrame, startNet_out hs hq hout, hmsg]

/-- Created, and not yet counted in `gw->sem`. -/
def GwThr.Pending : GwThr → Prop
  | .created => True
  | .loaded _ => True
  | .counting _ => True
  | _ => False

/-- Counted in `gw->sem`. -/
def GwThr.Counted : GwThr → Prop
  | .locking _ => True
  | .readHdr _ => True
  | .readBody _ _ => True
  | .writeHdr _ _ _ => True
  | .writeBody _ _ => True
  | .unlocking _ => True
  | .closing _ => True
  | _ => False

/-- Holding `wrmut`. -/
def GwThr.Holds : GwThr → Prop
  | .readHdr _ => True
  | .readBody _ _ => True
  | .writeHdr _ _ _ => True
  | .writeBody _ _ => True
  | .unlocking _ => True
  | _ => False

/-- The thread has the connection it was started for, and what it has read is what the peer
sent. -/
def GwThr.Own (o : Endian) (inp : ℕ → List Byte) (i : ℕ) : GwThr → Prop
  | .crashed => False
  | .loaded c => c = i
  | .counting c => c = i
  | .locking c => c = i
  | .readHdr c => c = i
  | .readBody c hdr => c = i ∧ peerHdr o (inp i) = some hdr
  | .writeHdr c hdr m => c = i ∧ peerMsg o (inp i) = some (hdr, m)
  | .writeBody c m => c = i ∧ ∃ hdr, peerMsg o (inp i) = some (hdr, m)
  | .unlocking c => c = i
  | .closing c => c = i
  | _ => True

/-- The thread is between `pthread_create` and the step that clears `gw->ux`. -/
def GwThr.Takes : GwThr → Prop
  | .created => True
  | .loaded _ => True
  | _ => False

/-- What holds between the threads. -/
structure GwInv (o : Endian) (inp : ℕ → List Byte) (s : GwSys) : Prop where
  own : ∀ i, (s.thr i).Own o inp i
  /-- A connection in `gw->ux` is on its way to its thread. -/
  slot : ∀ c, s.ux = some c ↔ s.lst = .create c ∨ (s.thr c).Takes
  /-- The connections the listener is about to hand over have no thread yet. -/
  fresh : ∀ c, s.lst = .alloc (some c) ∨ s.lst = .create c → c < s.conns ∧ s.thr c = .absent
  bound : ∀ i, s.thr i ≠ .absent → i < s.conns
  sem : ∃ S : Finset ℕ, (∀ i, i ∈ S ↔ (s.thr i).Counted) ∧ s.sem = S.card
  lock : ∀ i, s.wrmut = some i ↔ (s.thr i).Holds
  ended : s.freed = true ↔ s.lst = .ended

theorem start_gwInv : GwInv o inp .start where
  own := fun _ => trivial
  slot := fun c => by simp [GwSys.start, GwThr.Takes]
  fresh := fun c h => by simp [GwSys.start] at h
  bound := fun i h => absurd rfl h
  sem := ⟨∅, fun i => by simp [GwSys.start, GwThr.Counted], rfl⟩
  lock := fun i => by simp [GwSys.start, GwThr.Holds]
  ended := by simp [GwSys.start]

/-! ### The steps of the listener and of the main thread -/

@[simp] theorem thr_become (s : GwSys) (i : ℕ) (p : GwThr) (j : ℕ) :
    (s.become i p).thr j = if j = i then p else s.thr j := Function.update_apply ..

@[simp] theorem ux_become (s : GwSys) (i : ℕ) (p : GwThr) : (s.become i p).ux = s.ux := rfl

@[simp] theorem sem_become (s : GwSys) (i : ℕ) (p : GwThr) : (s.become i p).sem = s.sem := rfl

@[simp] theorem wrmut_become (s : GwSys) (i : ℕ) (p : GwThr) :
    (s.become i p).wrmut = s.wrmut := rfl

@[simp] theorem freed_become (s : GwSys) (i : ℕ) (p : GwThr) :
    (s.become i p).freed = s.freed := rfl

@[simp] theorem conns_become (s : GwSys) (i : ℕ) (p : GwThr) :
    (s.become i p).conns = s.conns := rfl

@[simp] theorem lst_become (s : GwSys) (i : ℕ) (p : GwThr) : (s.become i p).lst = s.lst := rfl

@[simp] theorem out_become (s : GwSys) (i : ℕ) (p : GwThr) : (s.become i p).out = s.out := rfl

/-- A place where the listener has no connection at hand, before its end. -/
def GwLst.Bare : GwLst → Prop
  | .select => True
  | .accept => True
  | .alloc none => True
  | .draining => True
  | _ => False

/-- The listener drops what it has, if it has not put it in `gw->ux`. -/
theorem GwInv.move (h : GwInv o inp s) (hcreate : ∀ c, s.lst ≠ .create c) (hend : s.lst ≠ .ended)
    {l : GwLst} (hl : l.Bare) : GwInv o inp { s with lst := l } where
  own := h.own
  slot := fun c => by
    have hc : l ≠ .create c := by rintro rfl; exact hl
    simp only [h.slot, hcreate c, hc, false_or]
  fresh := fun c hc => by
    rcases hc with rfl | rfl <;> exact hl.elim
  bound := h.bound
  sem := h.sem
  lock := h.lock
  ended := by
    have he : l ≠ .ended := by rintro rfl; exact hl
    simp only [h.ended, hend, he]

theorem uxlistenNext_gwInv {a : GwAct} (h : GwInv o inp s) (hnext : uxlistenNext s a = some t) :
    GwInv o inp t := by
  cases a with
  | select ready =>
    simp only [uxlistenNext] at hnext
    split at hnext
    · next hlst =>
      obtain rfl := Option.some.inj hnext
      refine h.move (by simp [hlst]) (by simp [hlst]) ?_
      split
      · trivial
      · split <;> trivial
    · cases hnext
  | accept ok =>
    simp only [uxlistenNext] at hnext
    split at hnext
    · next hlst =>
      cases ok with
      | true =>
        obtain rfl := Option.some.inj hnext
        refine ⟨h.own, fun c => ?_, fun c hc => ?_, fun i hi => Nat.lt_succ_of_lt (h.bound i hi),
          h.sem, h.lock, ?_⟩
        · simp [h.slot, hlst]
        · obtain rfl : s.conns = c := by simpa using hc
          refine ⟨Nat.lt_succ_self _, ?_⟩
          by_contra hne
          exact absurd (h.bound s.conns hne) (lt_irrefl _)
        · simp [h.ended, hlst]
      | false =>
        obtain rfl := Option.some.inj hnext
        exact h.move (by simp [hlst]) (by simp [hlst]) trivial
    · cases hnext
  | alloc ok =>
    simp only [uxlistenNext] at hnext
    split at hnext
    · next c hlst =>
      split at hnext
      · next hux =>
        split at hnext
        · next c =>
          obtain rfl := Option.some.inj hnext
          have hnone : ∀ i, ¬ (s.thr i).Takes := fun i hi => by
            have := (h.slot i).mpr (.inr hi)
            simp [hux] at this
          refine ⟨h.own, fun d => ?_, fun d hd => ?_, h.bound, h.sem, h.lock, ?_⟩
          · simp [hnone d]
          · obtain rfl : c = d := by simpa using hd
            exact h.fresh c (.inl hlst)
          · simp [h.ended, hlst]
        · obtain rfl := Option.some.inj hnext
          exact h.move (by simp [hlst]) (by simp [hlst]) trivial
      · cases hnext
    · cases hnext
  | create ok =>
    simp only [uxlistenNext] at hnext
    split at hnext
    · next c hlst =>
      obtain ⟨hc, habs⟩ := h.fresh c (.inr hlst)
      have hux : s.ux = some c := (h.slot c).mpr (.inl hlst)
      have hother : ∀ d, d ≠ c → ¬ (s.thr d).Takes := fun d hd hi => by
        have := (h.slot d).mpr (.inr hi)
        rw [hux] at this
        exact hd (Option.some.inj this).symm
      cases ok with
      | true =>
        obtain rfl := Option.some.inj hnext
        obtain ⟨S, hS, hcard⟩ := h.sem
        refine ⟨fun i => ?_, fun d => ?_, fun d hd => ?_, fun i hi => ?_, ⟨S, fun i => ?_, hcard⟩,
          fun i => ?_, ?_⟩
        · by_cases hi : i = c
          · simp [hi, GwThr.Own]
          · simpa [hi] using h.own i
        · by_cases hd : d = c
          · simp [hux, hd, GwThr.Takes]
          · simp [hux, hd, hother d hd, Ne.symm hd]
        · simp at hd
        · by_cases hd : i = c
          · exact hd ▸ hc
          · exact h.bound i (by simpa [hd] using hi)
        · by_cases hi : i = c
          · simp [hi, hS, habs, GwThr.Counted]
          · simp [hi, hS]
        · by_cases hi : i = c
          · simp [hi, h.lock, habs, GwThr.Holds]
          · simp [hi, h.lock]
        · simp [h.ended, hlst]
      | false =>
        obtain rfl := Option.some.inj hnext
        refine ⟨h.own, fun d => ?_, fun d hd => ?_, h.bound, h.sem, h.lock, ?_⟩
        · have hnot : ¬ (s.thr d).Takes := by
            by_cases hd : d = c
            · simp [hd, habs, GwThr.Takes]
            · exact hother d hd
          simp [hnot]
        · simp at hd
        · simp [h.ended, hlst]
    · cases hnext
  | free =>
    simp only [uxlistenNext] at hnext
    split at hnext
    · next hlst =>
      obtain rfl := Option.some.inj hnext
      refine ⟨h.own, fun d => ?_, fun d hd => ?_, h.bound, h.sem, h.lock, ?_⟩
      · simp [h.slot, hlst.1]
      · simp at hd
      · simp
    · cases hnext
  | _ => cases hnext

theorem gwMainNext_gwInv {a : GwAct} (h : GwInv o inp s) (hnext : gwMainNext s a = some t) :
    GwInv o inp t := by
  obtain ⟨own, slot, fresh, bound, sem, lock, ended⟩ := h
  cases a with
  | leave =>
    simp only [gwMainNext] at hnext
    split at hnext
    · obtain rfl := Option.some.inj hnext
      exact ⟨own, slot, fresh, bound, sem, lock, ended⟩
    · cases hnext
  | close =>
    simp only [gwMainNext] at hnext
    split at hnext
    · obtain rfl := Option.some.inj hnext
      exact ⟨own, slot, fresh, bound, sem, lock, ended⟩
    · cases hnext
  | _ => cases hnext

/-! ### The steps of a thread -/

/-- A thread moves on, and `gw->ux`, the count and the lock follow. -/
theorem GwInv.thread (h : GwInv o inp s) (i : ℕ) (p : GwThr) (hi : s.thr i ≠ .absent)
    (hown : p.Own o inp i) {ux wrmut : Option ℕ} {sem : ℕ}
    (hux : ∀ c, ux = some c ↔ s.lst = .create c ∨ ((s.become i p).thr c).Takes)
    (hsem : ∃ S : Finset ℕ, (∀ j, j ∈ S ↔ ((s.become i p).thr j).Counted) ∧ sem = S.card)
    (hlock : ∀ j, wrmut = some j ↔ ((s.become i p).thr j).Holds) (out : List (List Byte)) :
    GwInv o inp { s.become i p with ux := ux, sem := sem, wrmut := wrmut, out := out } where
  own := fun j => by
    by_cases hj : j = i
    · simpa [hj] using hown
    · simpa [hj] using h.own j
  slot := hux
  fresh := fun c hc => by
    obtain ⟨hlt, habs⟩ := h.fresh c hc
    have hne : c ≠ i := by rintro rfl; exact hi habs
    exact ⟨hlt, by simpa [hne] using habs⟩
  bound := fun j hj => by
    by_cases hji : j = i
    · exact hji ▸ h.bound i hi
    · exact h.bound j (by simpa [hji] using hj)
  sem := hsem
  lock := hlock
  ended := h.ended

/-- A thread moves on and neither takes a connection nor the lock, nor counts itself. -/
theorem GwInv.stay (h : GwInv o inp s) (i : ℕ) (p : GwThr) (hi : s.thr i ≠ .absent)
    (hown : p.Own o inp i) (htakes : p.Takes ↔ (s.thr i).Takes)
    (hcounted : p.Counted ↔ (s.thr i).Counted) (hholds : p.Holds ↔ (s.thr i).Holds)
    (out : List (List Byte)) : GwInv o inp { s.become i p with out := out } := by
  obtain ⟨S, hS, hcard⟩ := h.sem
  refine h.thread i p hi hown (fun c => ?_) ⟨S, fun j => ?_, hcard⟩ (fun j => ?_) out
  · rw [ux_become, h.slot]
    by_cases hc : c = i
    · simp [hc, htakes]
    · simp [hc]
  · rw [hS]
    by_cases hj : j = i
    · simp [hj, hcounted]
    · simp [hj]
  · rw [wrmut_become, h.lock]
    by_cases hj : j = i
    · simp [hj, hholds]
    · simp [hj]

theorem uxcommNext_gwInv {a : GwAct} (hfit : ∀ c, PeerFits o (inp c)) (h : GwInv o inp s)
    (hnext : uxcommNext o inp s a = some t) : GwInv o inp t := by
  cases a with
  | load i =>
    simp only [uxcommNext] at hnext
    split at hnext
    · next hi =>
      obtain rfl := Option.some.inj hnext
      have hux : s.ux = some i := (h.slot i).mpr (.inr (by simp [hi, GwThr.Takes]))
      simp only [hux]
      exact h.stay i (.loaded i) (by simp [hi]) rfl (by simp [hi, GwThr.Takes])
        (by simp [hi, GwThr.Counted]) (by simp [hi, GwThr.Holds]) s.out
    · cases hnext
  | clear i =>
    simp only [uxcommNext] at hnext
    split at hnext
    · next c hi =>
      obtain rfl := Option.some.inj hnext
      have hown : c = i := by simpa [hi, GwThr.Own] using h.own i
      have hux : s.ux = some i := (h.slot i).mpr (.inr (by simp [hi, GwThr.Takes]))
      obtain ⟨S, hS, hcard⟩ := h.sem
      refine h.thread i (.counting c) (by simp [hi]) hown (fun d => ?_) ⟨S, fun j => ?_, hcard⟩
        (fun j => ?_) s.out
      · -- only the thread itself had a connection on its way
        have hd := h.slot d
        rw [hux] at hd
        by_cases hdi : d = i
        · have : s.lst ≠ .create i := by
            intro hlst
            have := (h.fresh i (.inr hlst)).2
            simp [hi] at this
          simp [hdi, this, GwThr.Takes]
        · have hne : ¬ some i = some d := by simpa using Ne.symm hdi
          simpa [hdi, hne] using hd
      · rw [hS]
        by_cases hj : j = i
        · simp [hj, hi, GwThr.Counted]
        · simp [hj]
      · rw [wrmut_become, h.lock]
        by_cases hj : j = i
        · simp [hj, hi, GwThr.Holds]
        · simp [hj]
    · cases hnext
  | count i =>
    simp only [uxcommNext] at hnext
    split at hnext
    · next c hi =>
      obtain rfl := Option.some.inj hnext
      have hown : c = i := by simpa [hi, GwThr.Own] using h.own i
      obtain ⟨S, hS, hcard⟩ := h.sem
      have hnot : i ∉ S := by simp [hS, hi, GwThr.Counted]
      refine h.thread i (.locking c) (by simp [hi]) hown (fun d => ?_)
        ⟨insert i S, fun j => ?_, by rw [Finset.card_insert_of_notMem hnot, hcard]⟩
        (fun j => ?_) s.out
      · rw [ux_become, h.slot]
        by_cases hd : d = i
        · simp [hd, hi, GwThr.Takes]
        · simp [hd]
      · rw [Finset.mem_insert, hS]
        by_cases hj : j = i
        · simp [hj, GwThr.Counted]
        · simp [hj]
      · rw [wrmut_become, h.lock]
        by_cases hj : j = i
        · simp [hj, hi, GwThr.Holds]
        · simp [hj]
    · cases hnext
  | lock i =>
    simp only [uxcommNext] at hnext
    split at hnext
    · next c hi =>
      split at hnext
      · next hfree =>
        obtain rfl := Option.some.inj hnext
        have hown : c = i := by simpa [hi, GwThr.Own] using h.own i
        obtain ⟨S, hS, hcard⟩ := h.sem
        refine h.thread i (.readHdr c) (by simp [hi]) hown (fun d => ?_) ⟨S, fun j => ?_, hcard⟩
          (fun j => ?_) s.out
        · rw [ux_become, h.slot]
          by_cases hd : d = i
          · simp [hd, hi, GwThr.Takes]
          · simp [hd]
        · rw [hS]
          by_cases hj : j = i
          · simp [hj, hi, GwThr.Counted]
          · simp [hj]
        · have hj' := h.lock j
          rw [hfree] at hj'
          by_cases hj : j = i
          · simp [hj, GwThr.Holds]
          · simpa [hj, Ne.symm hj] using hj'
      · cases hnext
    · cases hnext
  | readHdr i =>
    simp only [uxcommNext] at hnext
    split at hnext
    · next c hi =>
      obtain rfl := Option.some.inj hnext
      obtain rfl : c = i := by simpa [hi, GwThr.Own] using h.own i
      refine h.stay c _ (by simp [hi]) ?_ ?_ ?_ ?_ s.out
      all_goals cases hh : peerHdr o (inp c) <;>
        simp [hi, hh, GwThr.Own, GwThr.Takes, GwThr.Counted, GwThr.Holds]
    · cases hnext
  | readBody i =>
    simp only [uxcommNext] at hnext
    split at hnext
    · next c hdr hi =>
      obtain rfl := Option.some.inj hnext
      obtain ⟨rfl, hhdr⟩ : c = i ∧ peerHdr o (inp i) = some hdr := by
        simpa [hi, GwThr.Own] using h.own i
      rw [if_neg (hfit c hdr hhdr)]
      refine h.stay c _ (by simp [hi]) ?_ ?_ ?_ ?_ s.out
      all_goals cases hm : peerBody (inp c) hdr <;>
        simp [hi, hhdr, hm, peerMsg, GwThr.Own, GwThr.Takes, GwThr.Counted, GwThr.Holds]
    · cases hnext
  | writeHdr i ok =>
    simp only [uxcommNext] at hnext
    split at hnext
    · next c hdr m hi =>
      obtain ⟨rfl, hmsg⟩ : c = i ∧ peerMsg o (inp i) = some (hdr, m) := by
        simpa [hi, GwThr.Own] using h.own i
      split at hnext
      · obtain rfl := Option.some.inj hnext
        exact h.stay c (.writeBody c m) (by simp [hi]) ⟨rfl, hdr, hmsg⟩ (by simp [hi, GwThr.Takes])
          (by simp [hi, GwThr.Counted]) (by simp [hi, GwThr.Holds]) _
      · obtain rfl := Option.some.inj hnext
        exact h.stay c (.unlocking c) (by simp [hi]) rfl (by simp [hi, GwThr.Takes])
          (by simp [hi, GwThr.Counted]) (by simp [hi, GwThr.Holds]) s.out
    · cases hnext
  | writeBody i ok =>
    simp only [uxcommNext] at hnext
    split at hnext
    · next c m hi =>
      obtain ⟨rfl, -⟩ : c = i ∧ ∃ hdr, peerMsg o (inp i) = some (hdr, m) := by
        simpa [hi, GwThr.Own] using h.own i
      split at hnext
      · obtain rfl := Option.some.inj hnext
        exact h.stay c (.unlocking c) (by simp [hi]) rfl (by simp [hi, GwThr.Takes])
          (by simp [hi, GwThr.Counted]) (by simp [hi, GwThr.Holds]) _
      · obtain rfl := Option.some.inj hnext
        exact h.stay c (.unlocking c) (by simp [hi]) rfl (by simp [hi, GwThr.Takes])
          (by simp [hi, GwThr.Counted]) (by simp [hi, GwThr.Holds]) s.out
    · cases hnext
  | unlock i =>
    simp only [uxcommNext] at hnext
    split at hnext
    · next c hi =>
      obtain rfl := Option.some.inj hnext
      have hown : c = i := by simpa [hi, GwThr.Own] using h.own i
      have hheld : s.wrmut = some i := (h.lock i).mpr (by simp [hi, GwThr.Holds])
      obtain ⟨S, hS, hcard⟩ := h.sem
      refine h.thread i (.closing c) (by simp [hi]) hown (fun d => ?_) ⟨S, fun j => ?_, hcard⟩
        (fun j => ?_) s.out
      · rw [ux_become, h.slot]
        by_cases hd : d = i
        · simp [hd, hi, GwThr.Takes]
        · simp [hd]
      · rw [hS]
        by_cases hj : j = i
        · simp [hj, hi, GwThr.Counted]
        · simp [hj]
      · have hj' := h.lock j
        rw [hheld] at hj'
        by_cases hj : j = i
        · simp [hj, GwThr.Holds]
        · simpa [hj, Ne.symm hj] using hj'
    · cases hnext
  | finish i =>
    simp only [uxcommNext] at hnext
    split at hnext
    · next c hi =>
      obtain rfl := Option.some.inj hnext
      obtain ⟨S, hS, hcard⟩ := h.sem
      have hin : i ∈ S := by simp [hS, hi, GwThr.Counted]
      refine h.thread i .done (by simp [hi]) trivial (fun d => ?_)
        ⟨S.erase i, fun j => ?_, by rw [Finset.card_erase_of_mem hin, hcard]⟩ (fun j => ?_) s.out
      · rw [ux_become, h.slot]
        by_cases hd : d = i
        · simp [hd, hi, GwThr.Takes]
        · simp [hd]
      · rw [Finset.mem_erase, hS]
        by_cases hj : j = i
        · simp [hj, GwThr.Counted]
        · simp [hj]
      · rw [wrmut_become, h.lock]
        by_cases hj : j = i
        · simp [hj, hi, GwThr.Holds]
        · simp [hj]
    · cases hnext
  | _ => cases hnext

/-- The component a step belongs to. -/
theorem gwNext_cases {a : GwAct} (h : gwNext o inp s a = some t) :
    uxlistenNext s a = some t ∨ gwMainNext s a = some t ∨ uxcommNext o inp s a = some t := by
  unfold gwNext at h
  cases hl : uxlistenNext s a with
  | some u => exact .inl (by simpa [hl] using h)
  | none =>
    cases hm : gwMainNext s a with
    | some u => exact .inr (.inl (by simpa [hl, hm] using h))
    | none => exact .inr (.inr (by simpa [hl, hm] using h))

theorem gwNext_gwInv {a : GwAct} (hfit : ∀ c, PeerFits o (inp c)) (h : GwInv o inp s)
    (hnext : gwNext o inp s a = some t) : GwInv o inp t := by
  rcases gwNext_cases hnext with hl | hm | hu
  · exact uxlistenNext_gwInv h hl
  · exact gwMainNext_gwInv h hm
  · exact uxcommNext_gwInv hfit h hu

/-- **Every reachable state meets the invariant.** -/
theorem run_gwInv {acts : List GwAct} (hfit : ∀ c, PeerFits o (inp c))
    (h : Runs.run (gwNext o inp) .start acts = some t) : GwInv o inp t :=
  Runs.inv_of_all (fun _ _ _ => gwNext_gwInv hfit) start_gwInv h

/-! ### The log under the lock -/

/-- The operation of a step on `wrmut` and on what the client receives. -/
def gwOp (o : Endian) (inp : ℕ → List Byte) : GwAct → Option (LockedLog.Op ℕ (List Byte))
  | .lock i => some (.lock i)
  | .writeHdr i true => some (.put i ((gwFrame o (inp i)).headD []))
  | .writeBody i true => some (.put i ((gwFrame o (inp i)).getLastD []))
  | .unlock i => some (.unlock i)
  | _ => none

/-- The lock, and what the client receives. -/
def GwSys.log (s : GwSys) : LockedLog.State ℕ (List Byte) := ⟨s.wrmut, s.out⟩

/-- The client receives what is written. -/
def GwAct.sends : GwAct → Bool
  | writeHdr _ ok => ok
  | writeBody _ ok => ok
  | close => false
  | _ => true

/-- What a thread has done with the lock and the log so far, if no write failed. -/
def GwThr.ops (o : Endian) (inp : ℕ → List Byte) (i : ℕ) :
    GwThr → List (LockedLog.Op ℕ (List Byte))
  | .readHdr _ => [.lock i]
  | .readBody _ _ => [.lock i]
  | .writeHdr _ _ _ => [.lock i]
  | .writeBody _ _ => [.lock i, .put i ((gwFrame o (inp i)).headD [])]
  | .unlocking _ => .lock i :: (gwFrame o (inp i)).map (.put i)
  | .closing _ => .lock i :: (gwFrame o (inp i)).map (.put i) ++ [.unlock i]
  | .done => .lock i :: (gwFrame o (inp i)).map (.put i) ++ [.unlock i]
  | _ => []

/-- What a step of the listener or of the main thread leaves alone. -/
structure GwApart (o : Endian) (inp : ℕ → List Byte) (s : GwSys) (a : GwAct) (t : GwSys) : Prop where
  op : gwOp o inp a = none
  log : t.log = s.log
  main : a.sends = true → s.main ≠ .closed → t.main ≠ .closed
  thr : ∀ i, t.thr i = s.thr i ∨ s.lst = .create i ∧ t.thr i = .created

theorem uxlistenNext_apart {a : GwAct} (h : uxlistenNext s a = some t) : GwApart o inp s a t := by
  have same : ∀ u : GwSys, some u = some t → u.log = s.log → u.main = s.main → u.thr = s.thr →
      gwOp o inp a = none → GwApart o inp s a t := by
    intro u hu hlog hmain hthr hop
    obtain rfl := Option.some.inj hu
    exact ⟨hop, hlog, fun _ => hmain ▸ id, fun i => .inl (congrFun hthr i)⟩
  cases a with
  | select ready =>
    simp only [uxlistenNext] at h
    split at h
    · exact same _ h rfl rfl rfl rfl
    · cases h
  | accept ok =>
    simp only [uxlistenNext] at h
    split at h
    · cases ok <;> exact same _ h rfl rfl rfl rfl
    · cases h
  | alloc ok =>
    simp only [uxlistenNext] at h
    split at h
    · split at h
      · split at h <;> exact same _ h rfl rfl rfl rfl
      · cases h
    · cases h
  | create ok =>
    simp only [uxlistenNext] at h
    split at h
    · next c hlst =>
      cases ok with
      | true =>
        obtain rfl := Option.some.inj h
        refine ⟨rfl, rfl, fun _ => id, fun i => ?_⟩
        by_cases hi : i = c
        · exact .inr ⟨hi ▸ hlst, by simp [hi]⟩
        · exact .inl (by simp [hi])
      | false => exact same _ h rfl rfl rfl rfl
    · cases h
  | free =>
    simp only [uxlistenNext] at h
    split at h
    · exact same _ h rfl rfl rfl rfl
    · cases h
  | _ => cases h

theorem gwMainNext_apart {a : GwAct} (h : gwMainNext s a = some t) : GwApart o inp s a t := by
  cases a with
  | leave =>
    simp only [gwMainNext] at h
    split at h
    · obtain rfl := Option.some.inj h
      exact ⟨rfl, rfl, fun _ _ => nofun, fun _ => .inl rfl⟩
    · cases h
  | close =>
    simp only [gwMainNext] at h
    split at h
    · obtain rfl := Option.some.inj h
      exact ⟨rfl, rfl, nofun, fun _ => .inl rfl⟩
    · cases h
  | _ => cases h

/-- What a step does to the lock and the log: its operation, which is the next one of the
thread. -/
structure GwLogged (o : Endian) (inp : ℕ → List Byte) (s : GwSys) (a : GwAct) (t : GwSys) : Prop where
  log : Runs.run LockedLog.next s.log (gwOp o inp a).toList = some t.log
  main : t.main ≠ .closed
  ops : ∀ i, (s.thr i).ops o inp i ++ LockedLog.own i (gwOp o inp a).toList
    = (t.thr i).ops o inp i

theorem GwApart.logged {a : GwAct} (h : GwInv o inp s) (hap : GwApart o inp s a t)
    (hsend : a.sends = true) (hmain : s.main ≠ .closed) : GwLogged o inp s a t where
  log := by
    rw [hap.op, hap.log]
    rfl
  main := hap.main hsend hmain
  ops := fun i => by
    rw [hap.op, Option.toList_none, LockedLog.own, List.filter_nil, List.append_nil]
    rcases hap.thr i with heq | ⟨hlst, heq⟩
    · rw [heq]
    · rw [heq, (h.fresh i (.inr hlst)).2]
      rfl

/-- A thread moves on with an operation of its own. -/
theorem GwLogged.of_thread {a : GwAct} {i : ℕ} {p : GwThr} {u : GwSys} (hu : u.thr = (s.become i p).thr)
    (hmain : u.main ≠ .closed)
    (hlog : Runs.run LockedLog.next s.log (gwOp o inp a).toList = some u.log)
    (hown : ∀ op ∈ gwOp o inp a, op.writer = i)
    (hops : (s.thr i).ops o inp i ++ (gwOp o inp a).toList = p.ops o inp i) :
    GwLogged o inp s a u where
  log := hlog
  main := hmain
  ops := fun j => by
    rw [hu, thr_become]
    cases hop : gwOp o inp a with
    | none =>
      rw [hop] at hops
      by_cases hj : j = i
      · subst hj
        simpa [LockedLog.own] using hops
      · simp [hj, LockedLog.own]
    | some op =>
      have hw := hown op hop
      rw [hop] at hops
      by_cases hj : j = i
      · subst hj
        simpa [LockedLog.own, hw] using hops
      · simp [LockedLog.own, hw, hj, Ne.symm hj]

/-- What a thread sends of a message that arrived. -/
theorem gwFrame_of_msg {i : ℕ} {hdr : ℤ} {m : List Byte} (h : peerMsg o (inp i) = some (hdr, m)) :
    gwFrame o (inp i) = [hdrsetsz o hdr, m] := by
  rw [gwFrame, h]

theorem uxcommNext_logged {a : GwAct} (hfit : ∀ c, PeerFits o (inp c)) (h : GwInv o inp s)
    (hsend : a.sends = true) (hmain : s.main ≠ .closed)
    (hnext : uxcommNext o inp s a = some t) : GwLogged o inp s a t := by
  cases a with
  | load i =>
    simp only [uxcommNext] at hnext
    split at hnext
    · next hi =>
      obtain rfl := Option.some.inj hnext
      have hux : s.ux = some i := (h.slot i).mpr (.inr (by simp [hi, GwThr.Takes]))
      refine .of_thread rfl hmain rfl (by simp [gwOp]) ?_
      simp [hi, hux, gwOp, GwThr.ops]
    · cases hnext
  | clear i =>
    simp only [uxcommNext] at hnext
    split at hnext
    · next c hi =>
      obtain rfl := Option.some.inj hnext
      refine .of_thread rfl hmain rfl (by simp [gwOp]) ?_
      simp [hi, gwOp, GwThr.ops]
    · cases hnext
  | count i =>
    simp only [uxcommNext] at hnext
    split at hnext
    · next c hi =>
      obtain rfl := Option.some.inj hnext
      refine .of_thread rfl hmain rfl (by simp [gwOp]) ?_
      simp [hi, gwOp, GwThr.ops]
    · cases hnext
  | lock i =>
    simp only [uxcommNext] at hnext
    split at hnext
    · next c hi =>
      split at hnext
      · next hfree =>
        obtain rfl := Option.some.inj hnext
        refine .of_thread rfl hmain ?_ ?_ ?_
        · simp [gwOp, Runs.run, LockedLog.next, GwSys.log, hfree]
        · simp [gwOp, LockedLog.Op.writer]
        · simp [hi, gwOp, GwThr.ops]
      · cases hnext
    · cases hnext
  | readHdr i =>
    simp only [uxcommNext] at hnext
    split at hnext
    · next c hi =>
      obtain rfl := Option.some.inj hnext
      obtain rfl : c = i := by simpa [hi, GwThr.Own] using h.own i
      refine .of_thread rfl hmain rfl (by simp [gwOp]) ?_
      -- nothing is sent for a peer that closes early
      cases hh : peerHdr o (inp c) <;> simp [hi, hh, gwOp, gwFrame, peerMsg, GwThr.ops]
    · cases hnext
  | readBody i =>
    simp only [uxcommNext] at hnext
    split at hnext
    · next c hdr hi =>
      obtain rfl := Option.some.inj hnext
      obtain ⟨rfl, hhdr⟩ : c = i ∧ peerHdr o (inp i) = some hdr := by
        simpa [hi, GwThr.Own] using h.own i
      rw [if_neg (hfit c hdr hhdr)]
      refine .of_thread rfl hmain rfl (by simp [gwOp]) ?_
      cases hm : peerBody (inp c) hdr <;> simp [hi, hhdr, hm, gwOp, gwFrame, peerMsg, GwThr.ops]
    · cases hnext
  | writeHdr i ok =>
    simp only [uxcommNext] at hnext
    split at hnext
    · next c hdr m hi =>
      have hheld : s.wrmut = some i := (h.lock i).mpr (by simp [hi, GwThr.Holds])
      obtain ⟨rfl, hmsg⟩ : c = i ∧ peerMsg o (inp i) = some (hdr, m) := by
        simpa [hi, GwThr.Own] using h.own i
      cases ok with
      | true =>
        obtain rfl := Option.some.inj hnext
        refine .of_thread rfl hmain ?_ ?_ ?_
        · simp [gwOp, Runs.run, LockedLog.next, GwSys.log, GwSys.received, hmain, hheld,
            gwFrame_of_msg hmsg]
        · simp [gwOp, LockedLog.Op.writer]
        · simp [hi, gwOp, GwThr.ops]
      | false => cases hsend
    · cases hnext
  | writeBody i ok =>
    simp only [uxcommNext] at hnext
    split at hnext
    · next c m hi =>
      have hheld : s.wrmut = some i := (h.lock i).mpr (by simp [hi, GwThr.Holds])
      obtain ⟨rfl, hdr, hmsg⟩ : c = i ∧ ∃ hdr, peerMsg o (inp i) = some (hdr, m) := by
        simpa [hi, GwThr.Own] using h.own i
      cases ok with
      | true =>
        obtain rfl := Option.some.inj hnext
        refine .of_thread rfl hmain ?_ ?_ ?_
        · simp [gwOp, Runs.run, LockedLog.next, GwSys.log, GwSys.received, hmain, hheld,
            gwFrame_of_msg hmsg]
        · simp [gwOp, LockedLog.Op.writer]
        · simp [hi, gwOp, GwThr.ops, gwFrame_of_msg hmsg]
      | false => cases hsend
    · cases hnext
  | unlock i =>
    simp only [uxcommNext] at hnext
    split at hnext
    · next c hi =>
      obtain rfl := Option.some.inj hnext
      have hheld : s.wrmut = some i := (h.lock i).mpr (by simp [hi, GwThr.Holds])
      refine .of_thread rfl hmain ?_ ?_ ?_
      · simp [gwOp, Runs.run, LockedLog.next, GwSys.log, hheld]
      · simp [gwOp, LockedLog.Op.writer]
      · simp [hi, gwOp, GwThr.ops]
    · cases hnext
  | finish i =>
    simp only [uxcommNext] at hnext
    split at hnext
    · next c hi =>
      obtain rfl := Option.some.inj hnext
      refine .of_thread rfl hmain rfl (by simp [gwOp]) ?_
      simp [hi, gwOp, GwThr.ops]
    · cases hnext
  | _ => cases hnext

theorem gwNext_logged {a : GwAct} (hfit : ∀ c, PeerFits o (inp c)) (h : GwInv o inp s)
    (hsend : a.sends = true) (hmain : s.main ≠ .closed) (hnext : gwNext o inp s a = some t) :
    GwLogged o inp s a t := by
  rcases gwNext_cases hnext with hl | hm | hu
  · exact (uxlistenNext_apart hl).logged h hsend hmain
  · exact (gwMainNext_apart hm).logged h hsend hmain
  · exact uxcommNext_logged hfit h hsend hmain hu

/-- What a run does to the lock and the log. -/
theorem run_logged (hfit : ∀ c, PeerFits o (inp c)) : ∀ {acts : List GwAct} {s t : GwSys},
    GwInv o inp s → s.main ≠ .closed → (∀ a ∈ acts, a.sends = true) →
    Runs.run (gwNext o inp) s acts = some t →
      Runs.run LockedLog.next s.log (acts.filterMap (gwOp o inp)) = some t.log ∧
        ∀ i, (s.thr i).ops o inp i ++ LockedLog.own i (acts.filterMap (gwOp o inp))
          = (t.thr i).ops o inp i := by
  intro acts
  induction acts with
  | nil =>
    intro s t _ _ _ hrun
    obtain rfl : s = t := by simpa [Runs.run] using hrun
    exact ⟨rfl, fun i => by simp [LockedLog.own]⟩
  | cons a acts ih =>
    intro s t h hmain hsend hrun
    obtain ⟨u, hu, hrun⟩ := Option.bind_eq_some_iff.mp hrun
    obtain ⟨hlog, hmain', hops⟩ := gwNext_logged hfit h (hsend a List.mem_cons_self) hmain hu
    obtain ⟨hlog', hops'⟩ :=
      ih (gwNext_gwInv hfit h hu) hmain' (fun b hb => hsend b (List.mem_cons_of_mem a hb)) hrun
    have hsplit : (a :: acts).filterMap (gwOp o inp)
        = (gwOp o inp a).toList ++ acts.filterMap (gwOp o inp) := by
      rw [List.filterMap_cons]
      cases gwOp o inp a <;> rfl
    rw [hsplit]
    refine ⟨by rw [Runs.run_append, hlog, Option.bind_some, hlog'], fun i => ?_⟩
    rw [← hops' i, ← hops i, List.append_assoc, LockedLog.own, LockedLog.own, LockedLog.own,
      List.filter_append]

/-! ### What the client receives -/

/-- The thread has given the lock back. -/
def GwThr.Released : GwThr → Prop
  | .closing _ => True
  | .done => True
  | _ => False

/-- What a thread has sent under the lock, if no write failed. -/
def GwThr.sent (o : Endian) (inp : ℕ → List Byte) (i : ℕ) (p : GwThr) : List (List Byte) :=
  LockedLog.body ((p.ops o inp i).drop 1)

theorem body_puts (i : ℕ) (bs : List (List Byte)) (ops : List (LockedLog.Op ℕ (List Byte))) :
    LockedLog.body (bs.map (.put i) ++ ops) = bs ++ LockedLog.body ops := by
  induction bs with
  | nil => rfl
  | cons b bs ih => simp [ih]

theorem sections_puts (i : ℕ) (bs : List (List Byte)) (ops : List (LockedLog.Op ℕ (List Byte))) :
    LockedLog.sections (bs.map (.put i) ++ ops) = LockedLog.sections ops := by
  induction bs with
  | nil => rfl
  | cons b bs ih => simp [ih]

/-- A thread takes the lock once. -/
theorem sections_ops (o : Endian) (inp : ℕ → List Byte) (i : ℕ) (p : GwThr) :
    LockedLog.sections (p.ops o inp i) = [(i, p.sent o inp i)] ∧ (p.Holds ∨ p.Released) ∨
      LockedLog.sections (p.ops o inp i) = [] ∧ ¬ (p.Holds ∨ p.Released) := by
  have hputs := sections_puts i (gwFrame o (inp i)) []
  have hunlock := sections_puts i (gwFrame o (inp i)) [.unlock i]
  rw [List.append_nil] at hputs
  cases p <;> simp [GwThr.ops, GwThr.sent, GwThr.Holds, GwThr.Released, hputs, hunlock]

theorem sent_of_released {i : ℕ} {p : GwThr} (h : p.Released) :
    p.sent o inp i = gwFrame o (inp i) := by
  have hbody := body_puts i (gwFrame o (inp i)) [.unlock i]
  cases p <;> simp [GwThr.Released] at h <;> simp [GwThr.sent, GwThr.ops, hbody]

theorem sent_prefix {i : ℕ} {p : GwThr} (h : p.Own o inp i) : p.sent o inp i <+: gwFrame o (inp i) := by
  have hputs := body_puts i (gwFrame o (inp i)) []
  have hunlock := body_puts i (gwFrame o (inp i)) [.unlock i]
  rw [List.append_nil] at hputs
  cases p with
  | writeBody c m =>
    obtain ⟨-, hdr, hmsg⟩ := h
    simp [GwThr.sent, GwThr.ops, gwFrame_of_msg hmsg]
  | _ => simp [GwThr.sent, GwThr.ops, hputs, hunlock]

/-- The section of a thread that has taken the lock, among all sections. -/
theorem mem_sections_iff {ops : List (LockedLog.Op ℕ (List Byte))} {i : ℕ} {xs : List (List Byte)}
    (hown : (LockedLog.sections ops).filter (fun sec => sec.1 = i)
      = LockedLog.sections ((t.thr i).ops o inp i)) :
    (i, xs) ∈ LockedLog.sections ops ↔
      ((t.thr i).Holds ∨ (t.thr i).Released) ∧ xs = (t.thr i).sent o inp i := by
  have hmem : (i, xs) ∈ LockedLog.sections ops
      ↔ (i, xs) ∈ (LockedLog.sections ops).filter (fun sec => sec.1 = i) := by
    simp [List.mem_filter]
  rw [hmem, hown]
  rcases sections_ops o inp i (t.thr i) with ⟨heq, hyes⟩ | ⟨heq, hno⟩
  · simp [heq, hyes]
  · simp [heq, hno]

/-- What the client receives, section by section. -/
theorem run_sections {acts : List GwAct} (hfit : ∀ c, PeerFits o (inp c))
    (hrun : Runs.run (gwNext o inp) .start acts = some t) (hsend : ∀ a ∈ acts, a.sends = true) :
    ∃ secs : List (ℕ × List (List Byte)), (secs.map Prod.fst).Nodup ∧
      t.out = secs.flatMap Prod.snd ∧
      (∀ i xs, (i, xs) ∈ secs ↔
        ((t.thr i).Holds ∨ (t.thr i).Released) ∧ xs = (t.thr i).sent o inp i) ∧
      ∀ i, t.wrmut = some i → ∃ before xs, secs = before ++ [(i, xs)] := by
  obtain ⟨hlog, hops⟩ := run_logged hfit start_gwInv nofun hsend hrun
  set ops := acts.filterMap (gwOp o inp)
  have hown : ∀ i, (LockedLog.sections ops).filter (fun sec => sec.1 = i)
      = LockedLog.sections ((t.thr i).ops o inp i) := fun i => by
    rw [LockedLog.sections_own i hlog, ← hops i]
    rfl
  refine ⟨LockedLog.sections ops, LockedLog.nodup_owners fun i => ?_, ?_,
    fun i xs => mem_sections_iff (hown i), fun i hw => ?_⟩
  · rw [hown i]
    rcases sections_ops o inp i (t.thr i) with ⟨heq, -⟩ | ⟨heq, -⟩ <;> simp [heq]
  · have hout := LockedLog.out_eq_sections hlog
    rw [LockedLog.body_of_free hlog rfl] at hout
    exact hout
  · obtain ⟨hstart, -⟩ | hlast := LockedLog.sections_of_holder hlog hw
    · cases hstart
    · exact hlast

/-- The sections of the threads that gave the lock back are their messages. -/
theorem flatMap_released {secs : List (ℕ × List (List Byte))}
    (h : ∀ sec ∈ secs, (t.thr sec.1).Released ∧ sec.2 = (t.thr sec.1).sent o inp sec.1) :
    secs.flatMap Prod.snd = (secs.map Prod.fst).flatMap fun i => gwFrame o (inp i) := by
  rw [List.flatMap_map]
  refine List.flatMap_congr fun sec hsec => ?_
  obtain ⟨hrel, heq⟩ := h sec hsec
  rw [heq, sent_of_released hrel]

/-- With the lock free, the client has received the messages of the threads that took it. -/
theorem frames_of_free (h : GwInv o inp t) (hw : t.wrmut = none)
    {secs : List (ℕ × List (List Byte))} (hout : t.out = secs.flatMap Prod.snd)
    (hmem : ∀ i xs, (i, xs) ∈ secs ↔
      ((t.thr i).Holds ∨ (t.thr i).Released) ∧ xs = (t.thr i).sent o inp i) :
    (∀ i, i ∈ secs.map Prod.fst ↔ (t.thr i).Released) ∧
      t.out = (secs.map Prod.fst).flatMap fun i => gwFrame o (inp i) := by
  have hrel : ∀ sec ∈ secs, (t.thr sec.1).Released := fun sec hsec =>
    (((hmem sec.1 sec.2).mp hsec).1).resolve_left fun hi => by
      simp [(h.lock sec.1).mpr hi] at hw
  refine ⟨fun i => ?_, ?_⟩
  · rw [List.mem_map]
    constructor
    · rintro ⟨sec, hsec, rfl⟩
      exact hrel sec hsec
    · intro hi
      exact ⟨_, (hmem i _).mpr ⟨.inr hi, rfl⟩, rfl⟩
  · rw [hout, flatMap_released fun sec hsec => ⟨hrel sec hsec, ((hmem sec.1 sec.2).mp hsec).2⟩]

/-- **The client receives whole messages.**  Whatever the order of the steps, and as long as it
receives what is written, that is the messages of the connections whose threads have given the
lock back, each connection's once and in the order in which they took it, and behind them the
beginning of the message of the thread that holds it. -/
theorem gateway_frames {acts : List GwAct} (hfit : ∀ c, PeerFits o (inp c))
    (hrun : Runs.run (gwNext o inp) .start acts = some t) (hsend : ∀ a ∈ acts, a.sends = true) :
    ∃ (served : List ℕ) (part : List (List Byte)), served.Nodup ∧
      (∀ i, i ∈ served ↔ (t.thr i).Released) ∧
      t.out = served.flatMap (fun i => gwFrame o (inp i)) ++ part ∧
      (t.wrmut = none → part = []) ∧ ∀ i, t.wrmut = some i → part <+: gwFrame o (inp i) := by
  have hinv := run_gwInv hfit hrun
  obtain ⟨secs, hnodup, hout, hmem, hlast⟩ := run_sections hfit hrun hsend
  cases hw : t.wrmut with
  | none =>
    obtain ⟨hserved, hframes⟩ := frames_of_free hinv hw hout hmem
    refine ⟨secs.map Prod.fst, [], hnodup, hserved, ?_, fun _ => rfl, nofun⟩
    rw [List.append_nil, hframes]
  | some i =>
    obtain ⟨before, xs, rfl⟩ := hlast i hw
    have hholds := (hinv.lock i).mp hw
    rw [List.map_append, List.map_singleton, List.nodup_append] at hnodup
    obtain ⟨hnodup, -, hne⟩ := hnodup
    have hne : ∀ sec ∈ before, sec.1 ≠ i := fun sec h =>
      hne sec.1 (List.mem_map_of_mem h) i (List.mem_singleton_self i)
    have hsec : ∀ sec ∈ before, ((t.thr sec.1).Holds ∨ (t.thr sec.1).Released) ∧
        sec.2 = (t.thr sec.1).sent o inp sec.1 := fun sec h =>
      (hmem sec.1 sec.2).mp (List.mem_append_left _ h)
    have hrel : ∀ sec ∈ before, (t.thr sec.1).Released := fun sec h =>
      (hsec sec h).1.resolve_left fun hh => hne sec h
        (Option.some.inj ((hinv.lock sec.1).mpr hh ▸ hw))
    have hxs : xs = (t.thr i).sent o inp i := ((hmem i xs).mp (by simp)).2
    refine ⟨before.map Prod.fst, xs, hnodup, fun j => ?_, ?_, nofun, fun j hj => ?_⟩
    · rw [List.mem_map]
      constructor
      · rintro ⟨sec, h, rfl⟩
        exact hrel sec h
      · intro hj
        have hji : j ≠ i := by
          rintro rfl
          cases hp : t.thr j <;> simp [hp, GwThr.Holds, GwThr.Released] at hholds hj
        have hin := (hmem j _).mpr ⟨.inr hj, rfl⟩
        rw [List.mem_append, List.mem_singleton] at hin
        exact ⟨_, hin.resolve_right (by simp [hji]), rfl⟩
    · rw [hout, List.flatMap_append, List.flatMap_singleton,
        flatMap_released fun sec h => ⟨hrel sec h, (hsec sec h).2⟩]
    · obtain rfl := Option.some.inj hj
      rw [hxs]
      exact sent_prefix (hinv.own i)

/-- Every peer sends one byte, the number of its connection. -/
def exampleInp (c : ℕ) : List Byte := [1, 0, 0, 0, BitVec.ofNat 8 c]

/-- Connection 1 is served before connection 0, of which the length was sent when a third
connection was accepted. -/
def exampleActs : List GwAct :=
  [.select true, .accept true, .alloc true, .create true, .load 0, .clear 0, .select true,
    .accept true, .alloc true, .create true, .count 0, .load 1, .clear 1, .count 1, .lock 1,
    .readHdr 1, .readBody 1, .writeHdr 1 true, .writeBody 1 true, .unlock 1, .lock 0, .select true,
    .readHdr 0, .readBody 0, .writeHdr 0 true, .accept true, .finish 1]

theorem exampleInp_fits (c : ℕ) : PeerFits .little (exampleInp c) :=
  peerFits_of_length (by simp [exampleInp, commbuflen])

theorem gateway_frames_example : ∃ t : GwSys,
    Runs.run (gwNext .little exampleInp) .start exampleActs = some t ∧
    ∃ (served : List ℕ) (part : List (List Byte)), served.Nodup ∧
      (∀ i, i ∈ served ↔ (t.thr i).Released) ∧
      t.out = served.flatMap (fun i => gwFrame .little (exampleInp i)) ++ part ∧
      (t.wrmut = none → part = []) ∧
      ∀ i, t.wrmut = some i → part <+: gwFrame .little (exampleInp i) := by
  obtain ⟨t, hrun⟩ := Option.isSome_iff_exists.mp
    (show (Runs.run (gwNext .little exampleInp) .start exampleActs).isSome = true from rfl)
  exact ⟨t, hrun, gateway_frames exampleInp_fits hrun (by decide)⟩

end TFProtocol
