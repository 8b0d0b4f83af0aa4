import TFProtocol.ImeThreads

/-!
# How the instant messaging subsystem ends

The reading thread fails to write a reply when the connection broke.  It leaves its loop with
`exmut` locked and locks it again, and neither thread ever moves on: `xsime_start` does not
return, and the process stays.  In every other state there is a way to the end.

## Main definitions

* `ImeSys.owes` — a reply is due that is not that behind `OPC_EXIT`.
* `ImeReaches` — the states that one can come to.

## Main results

* `ime_ends` — the subsystem can come to its end unless the connection broke while a reply was
  due.
* `ime_transcript` — what the client has received when the reading thread has ended, if the
  cancelled one takes no more steps.
-/

namespace TFProtocol

open Bytes

variable {o : Endian} {rd : ImeRd} {s t u : ImeSys}

/-- A reply of a handler is due. -/
def ImeSys.owes (s : ImeSys) : Bool :=
  match s.reader with
  | .sending _ => true
  | .locking => s.opcsnd.isSome
  | .writing => s.opcsnd.isSome
  | .leaving => s.opcsnd.isSome
  | _ => false

/-- The states that one can come to. -/
abbrev ImeReaches (o : Endian) (s t : ImeSys) : Prop :=
  Runs.Reaches (imeNext o) (fun _ => True) s t

theorem run_locks {acts : List ImeAct} (h : ImeLocks s)
    (hrun : Runs.run (imeNext o) s acts = some t) : ImeLocks t :=
  Runs.inv_of_all (fun _ _ _ h hnext => (imeNext_step hnext).locks h) h hrun

/-! ### No way on -/

/-- A reply that is due when the connection is broken stays due. -/
theorem ImeStep.owes {a : ImeAct} (hl : ImeLocks s) (hb : s.broken = true) (ho : s.owes = true)
    (h : ImeStep o s a t) : t.broken = true ∧ t.owes = true := by
  cases h with
  | lockExit hr hx =>
    -- the lock is its own
    have hfull : s.opcsnd ≠ none := by
      intro hnone
      simp [ImeSys.owes, hr, hnone] at ho
    have hheld := hl.rd.mpr (.inr ⟨hr, hfull⟩)
    rw [hx] at hheld
    cases hheld
  | hangup => exact ⟨rfl, ho⟩
  | _ => simp_all [ImeSys.owes]

theorem not_cleaned_of_owes (h : ImeLocks s) (ho : s.owes = true) : s.main ≠ .cleaned := by
  intro hm
  simp [ImeSys.owes, h.cleaned hm] at ho

/-! ### The lock -/

/-- What the steps of the writing thread leave alone. -/
structure ImeAside (s t : ImeSys) : Prop where
  main : t.main = s.main
  reader : t.reader = s.reader
  opcsnd : t.opcsnd = s.opcsnd
  broken : t.broken = s.broken
  dead : t.dead = s.dead

theorem ImeAside.trans (h : ImeAside s t) (h' : ImeAside t u) : ImeAside s u :=
  ⟨h'.main.trans h.main, h'.reader.trans h.reader, h'.opcsnd.trans h.opcsnd,
    h'.broken.trans h.broken, h'.dead.trans h.dead⟩

/-- The writing thread comes to the end of its pass. -/
theorem pass_ends : ∀ {todo : List (List Byte)} {s : ImeSys}, s.dead = false →
    s.writer = .passing todo → ∃ t, ImeReaches o s t ∧ t.exmut = none ∧ ImeAside s t := by
  intro todo
  induction todo with
  | nil =>
    intro s hd hw
    have hnext : imeNext o s .unlockWr = some { s with exmut := none, writer := .sleeping } := by
      simp [imeNext, imeMainNext, imeRdNext, imeWrNext, hd, hw]
    exact ⟨_, .step trivial hnext (.refl _), rfl, rfl, rfl, rfl, rfl, rfl⟩
  | cons m todo ih =>
    intro s hd hw
    cases hb : s.broken with
    | true =>
      have hnext : imeNext o s .msgHdr = some { s with writer := .passing todo } := by
        simp [imeNext, imeMainNext, imeRdNext, imeWrNext, hd, hw, hb]
      obtain ⟨t, hreach, hfree, haside⟩ := ih (s := { s with writer := .passing todo }) hd rfl
      exact ⟨t, .step trivial hnext hreach, hfree,
        .trans (t := { s with writer := .passing todo }) ⟨rfl, rfl, rfl, rfl, rfl⟩ haside⟩
    | false =>
      have hhead : imeNext o s .msgHdr
          = some { s with writer := .body m todo, out := s.out ++ [msgHeader o m] } := by
        simp [imeNext, imeMainNext, imeRdNext, imeWrNext, hd, hw, hb]
      have hbody : imeNext o { s with writer := .body m todo, out := s.out ++ [msgHeader o m] }
          .msgBody =
            some { s with writer := .passing todo, out := s.out ++ [msgHeader o m] ++ [m] } := by
        simp [imeNext, imeMainNext, imeRdNext, imeWrNext, ImeSys.sent, hd, hb]
      obtain ⟨t, hreach, hfree, haside⟩ := ih
        (s := { s with writer := .passing todo, out := s.out ++ [msgHeader o m] ++ [m] }) hd rfl
      refine ⟨t, .step trivial hhead (.step trivial hbody hreach), hfree, .trans ?_ haside⟩
      exact ⟨rfl, rfl, rfl, rfl, rfl⟩

/-- The lock comes free for the reading thread. -/
theorem lock_comes (hl : ImeLocks s) (hr : ¬ s.reader.Late) (hown : s.exmut ≠ some .rd) :
    ∃ t, ImeReaches o s t ∧ t.exmut = none ∧ ImeAside s t := by
  have hd : s.dead = false := by
    by_contra hd
    exact hr (hl.late.mp (hl.dead (by simpa using hd)))
  cases hx : s.exmut with
  | none => exact ⟨s, .refl s, hx, rfl, rfl, rfl, rfl, rfl⟩
  | some side =>
    cases side with
    | rd => exact absurd hx hown
    | wr =>
      have hw := hl.wr.mp hx
      cases hwr : s.writer with
      | sleeping => simp [hwr, ImeWriter.Holds] at hw
      | locking => simp [hwr, ImeWriter.Holds] at hw
      | scanning =>
        have hnext : imeNext o s (.scan []) = some { s with writer := .passing [] } := by
          simp [imeNext, imeMainNext, imeRdNext, imeWrNext, hd, hwr]
        obtain ⟨t, hreach, hfree, haside⟩ :=
          pass_ends (o := o) (s := { s with writer := .passing [] }) hd rfl
        exact ⟨t, .step trivial hnext hreach, hfree,
          .trans (t := { s with writer := .passing [] }) ⟨rfl, rfl, rfl, rfl, rfl⟩ haside⟩
      | passing todo => exact pass_ends hd hwr
      | body m todo =>
        have hnext : imeNext o s .msgBody
            = some { s with writer := .passing todo, out := s.sent m } := by
          simp [imeNext, imeMainNext, imeRdNext, imeWrNext, hd, hwr]
        obtain ⟨t, hreach, hfree, haside⟩ :=
          pass_ends (o := o) (s := { s with writer := .passing todo, out := s.sent m }) hd rfl
        refine ⟨t, .step trivial hnext hreach, hfree, .trans ?_ haside⟩
        exact ⟨rfl, rfl, rfl, rfl, rfl⟩

/-! ### The end of the reading thread -/

/-- The reading thread can come to its end. -/
def ReaderEnds (o : Endian) (s : ImeSys) : Prop :=
  ∃ t, ImeReaches o s t ∧ ImeLocks t ∧ t.reader = .done

theorem readerEnds_of_next {a : ImeAct} (hl : ImeLocks s) (hnext : imeNext o s a = some t)
    (h : ImeLocks t → ReaderEnds o t) : ReaderEnds o s := by
  obtain ⟨u, hreach, hu, hdone⟩ := h ((imeNext_step hnext).locks hl)
  exact ⟨u, .step trivial hnext hreach, hu, hdone⟩

theorem ends_of_unlockingExit (hl : ImeLocks s) (hr : s.reader = .unlockingExit) :
    ReaderEnds o s := by
  have hnext : imeNext o s .unlockRd = some { s with exmut := none, reader := .done } := by
    simp [imeNext, imeMainNext, imeRdNext, hr]
  exact readerEnds_of_next hl hnext fun hl => ⟨_, .refl _, hl, rfl⟩

theorem ends_of_writingExit (hl : ImeLocks s) (hr : s.reader = .writingExit) : ReaderEnds o s := by
  cases hs : s.opcsnd with
  | none =>
    have hnext : imeNext o s .writeopc = some { s with reader := .unlockingExit } := by
      simp [imeNext, imeMainNext, imeRdNext, hr, hs]
    exact readerEnds_of_next hl hnext fun hl => ends_of_unlockingExit hl rfl
  | some r =>
    cases hb : s.broken with
    | true =>
      have hnext : imeNext o s .writeopc = some { s with reader := .unlockingExit } := by
        simp [imeNext, imeMainNext, imeRdNext, hr, hs, hb]
      exact readerEnds_of_next hl hnext fun hl => ends_of_unlockingExit hl rfl
    | false =>
      have hnext : imeNext o s .writeopc = some { s with
          opcsnd := none, reader := .unlockingExit, out := s.out ++ [r.block o] } := by
        simp [imeNext, imeMainNext, imeRdNext, hr, hs, hb]
      exact readerEnds_of_next hl hnext fun hl => ends_of_unlockingExit hl rfl

theorem ends_of_sendingExit (hl : ImeLocks s) (hr : s.reader = .sendingExit) : ReaderEnds o s := by
  have hs : s.opcsnd = none := by
    by_contra hfull
    simpa [hr, ImeReader.Filled] using hl.filled hfull
  have hnext : imeNext o s .sendopc
      = some { s with opcsnd := some exitReply, reader := .writingExit } := by
    simp [imeNext, imeMainNext, imeRdNext, hr, hs]
  exact readerEnds_of_next hl hnext fun hl => ends_of_writingExit hl rfl

theorem ends_of_cancelling (hl : ImeLocks s) (hr : s.reader = .cancelling) : ReaderEnds o s := by
  have hnext : imeNext o s .cancel
      = some { s with cancelled := true, reader := .sendingExit } := by
    simp [imeNext, imeMainNext, imeRdNext, hr]
  exact readerEnds_of_next hl hnext fun hl => ends_of_sendingExit hl rfl

/-- Behind its loop the reading thread ends if no reply is left. -/
theorem ends_of_leaving (hl : ImeLocks s) (hr : s.reader = .leaving) (hs : s.opcsnd = none) :
    ReaderEnds o s := by
  have hown : s.exmut ≠ some .rd := fun hx => by simpa [hr, hs, ImeReader.Holds] using hl.rd.mp hx
  obtain ⟨t, hreach, hfree, haside⟩ := lock_comes hl (by simp [hr, ImeReader.Late]) hown
  have hlt : ImeLocks t := by
    obtain ⟨acts, -, hrun⟩ := hreach
    exact run_locks hl hrun
  have hnext : imeNext o t .lockRd
      = some { t with exmut := some .rd, reader := .cancelling } := by
    simp [imeNext, imeMainNext, imeRdNext, haside.reader, hr, hfree]
  obtain ⟨u, hreach', hu, hdone⟩ := readerEnds_of_next hlt hnext fun hl => ends_of_cancelling hl rfl
  exact ⟨u, hreach.trans hreach', hu, hdone⟩

/-- A thread that reads ends when the client goes. -/
theorem ends_of_reading (hl : ImeLocks s) (hr : s.reader = .reading) : ReaderEnds o s := by
  have hs : s.opcsnd = none := by
    by_contra hfull
    simpa [hr, ImeReader.Filled] using hl.filled hfull
  have hhang : imeNext o s .hangup = some { s with broken := true } := rfl
  refine readerEnds_of_next hl hhang fun hl => ?_
  have hlose : imeNext o { s with broken := true } .lose
      = some { s with broken := true, reader := .leaving } := by
    simp [imeNext, imeMainNext, imeRdNext, hr]
  exact readerEnds_of_next hl hlose fun hl => ends_of_leaving hl rfl hs

theorem ends_of_unlocking (hl : ImeLocks s) (hr : s.reader = .unlocking) : ReaderEnds o s := by
  have hnext : imeNext o s .unlockRd = some { s with exmut := none, reader := .reading } := by
    simp [imeNext, imeMainNext, imeRdNext, hr]
  exact readerEnds_of_next hl hnext fun hl => ends_of_reading hl rfl

/-- A reply can be written while the connection stands. -/
theorem ends_of_writing (hl : ImeLocks s) (hr : s.reader = .writing)
    (hs : s.broken = true → s.opcsnd = none) : ReaderEnds o s := by
  cases hfull : s.opcsnd with
  | none =>
    have hnext : imeNext o s .writeopc = some { s with reader := .unlocking } := by
      simp [imeNext, imeMainNext, imeRdNext, hr, hfull]
    exact readerEnds_of_next hl hnext fun hl => ends_of_unlocking hl rfl
  | some r =>
    have hb : s.broken = false := by
      by_contra hb
      rw [hs (by simpa using hb)] at hfull
      cases hfull
    have hnext : imeNext o s .writeopc = some { s with
        opcsnd := none, reader := .unlocking, out := s.out ++ [r.block o] } := by
      simp [imeNext, imeMainNext, imeRdNext, hr, hfull, hb]
    exact readerEnds_of_next hl hnext fun hl => ends_of_unlocking hl rfl

theorem ends_of_locking (hl : ImeLocks s) (hr : s.reader = .locking)
    (hs : s.broken = true → s.opcsnd = none) : ReaderEnds o s := by
  have hown : s.exmut ≠ some .rd := fun hx => by simpa [hr, ImeReader.Holds] using hl.rd.mp hx
  obtain ⟨t, hreach, hfree, haside⟩ := lock_comes hl (by simp [hr, ImeReader.Late]) hown
  have hlt : ImeLocks t := by
    obtain ⟨acts, -, hrun⟩ := hreach
    exact run_locks hl hrun
  have hnext : imeNext o t .lockRd = some { t with exmut := some .rd, reader := .writing } := by
    simp [imeNext, imeMainNext, imeRdNext, haside.reader, hr, hfree]
  obtain ⟨u, hreach', hu, hdone⟩ := readerEnds_of_next hlt hnext fun hl =>
    ends_of_writing hl rfl fun hb => haside.opcsnd.trans (hs (haside.broken ▸ hb))
  exact ⟨u, hreach.trans hreach', hu, hdone⟩

/-- The reading thread comes to its end unless it is stuck. -/
theorem reader_ends (hl : ImeLocks s) (h : ¬ (s.broken = true ∧ s.owes = true)) :
    ReaderEnds o s := by
  have hnone : s.owes = s.opcsnd.isSome → s.broken = true → s.opcsnd = none := by
    intro ho hb
    by_contra hfull
    exact h ⟨hb, ho.trans (Option.isSome_iff_ne_none.mpr hfull)⟩
  cases hr : s.reader with
  | reading => exact ends_of_reading hl hr
  | sending r =>
    have hb : s.broken = false := by simpa [ImeSys.owes, hr] using h
    have hs : s.opcsnd = none := by
      by_contra hfull
      simpa [hr, ImeReader.Filled] using hl.filled hfull
    have hnext : imeNext o s .sendopc = some { s with opcsnd := some r, reader := .locking } := by
      simp [imeNext, imeMainNext, imeRdNext, hr, hs]
    refine readerEnds_of_next hl hnext fun hl => ends_of_locking hl rfl fun hbroken => ?_
    have hbroken : s.broken = true := hbroken
    rw [hb] at hbroken
    cases hbroken
  | locking => exact ends_of_locking hl hr (hnone (by simp [ImeSys.owes, hr]))
  | writing => exact ends_of_writing hl hr (hnone (by simp [ImeSys.owes, hr]))
  | unlocking => exact ends_of_unlocking hl hr
  | leaving =>
    refine ends_of_leaving hl hr ?_
    by_contra hfull
    exact hfull (hnone (by simp [ImeSys.owes, hr]) (hl.lost hfull (.inl hr)))
  | cancelling => exact ends_of_cancelling hl hr
  | sendingExit => exact ends_of_sendingExit hl hr
  | writingExit => exact ends_of_writingExit hl hr
  | unlockingExit => exact ends_of_unlockingExit hl hr
  | done => exact ⟨s, .refl s, hl, hr⟩

/-! ### The end -/

/-- `xsime_start` returns once the reading thread has ended. -/
theorem main_returns (hl : ImeLocks s) (hr : s.reader = .done) :
    ∃ t, ImeReaches o s t ∧ t.main = .cleaned := by
  have hc : s.cancelled = true := hl.late.mpr (by simp [hr, ImeReader.Late])
  -- the cancelled thread ends
  obtain ⟨u, hreach, hd, hru, hmain⟩ : ∃ u, ImeReaches o s u ∧ u.dead = true ∧
      u.reader = .done ∧ u.main = s.main := by
    cases hd : s.dead with
    | true => exact ⟨s, .refl s, hd, hr, rfl⟩
    | false =>
      have hnext : imeNext o s .die = some { s with dead := true } := by
        simp [imeNext, imeMainNext, imeRdNext, imeWrNext, hd, hc]
      exact ⟨_, .step trivial hnext (.refl _), rfl, hr, rfl⟩
  have hjoin : ∀ {v : ImeSys}, v.main = .joining → v.reader = .done → v.dead = true →
      ∃ t, ImeReaches o v t ∧ t.main = .cleaned := by
    intro v hm hr hd
    have hnext : imeNext o v .join = some { v with main := .cleaned } := by
      simp [imeNext, imeMainNext, hm, hr, hd]
    exact ⟨_, .step trivial hnext (.refl _), rfl⟩
  have hbody : ∀ {v : ImeSys}, v.main = .okBody → v.reader = .done → v.dead = true →
      ∃ t, ImeReaches o v t ∧ t.main = .cleaned := by
    intro v hm hr hd
    have hnext : imeNext o v .okBody
        = some { v with main := .joining, out := v.sent cmdOkText } := by
      simp [imeNext, imeMainNext, hm]
    obtain ⟨t, hreach, ht⟩ :=
      hjoin (v := { v with main := .joining, out := v.sent cmdOkText }) rfl hr hd
    exact ⟨t, .step trivial hnext hreach, ht⟩
  obtain ⟨t, hreach', ht⟩ : ∃ t, ImeReaches o u t ∧ t.main = .cleaned := by
    cases hm : u.main with
    | okHdr =>
      have hnext : imeNext o u .okHdr = some { u with
          main := .okBody, out := u.sent (hdrsetsz o cmdOkText.length) } := by
        simp [imeNext, imeMainNext, hm]
      obtain ⟨t, hreach, ht⟩ := hbody
        (v := { u with main := .okBody, out := u.sent (hdrsetsz o cmdOkText.length) }) rfl hru hd
      exact ⟨t, .step trivial hnext hreach, ht⟩
    | okBody => exact hbody hm hru hd
    | joining => exact hjoin hm hru hd
    | cleaned => exact ⟨u, .refl u, hm⟩
  exact ⟨t, hreach.trans hreach', ht⟩

/-- **When the subsystem comes to its end.**  From every reachable state `xsime_start` can return
if and only if it is not so that the connection broke while a reply was due. -/
theorem ime_ends {acts : List ImeAct} (hrun : Runs.run (imeNext o) (.start rd) acts = some s) :
    (∃ more t, Runs.run (imeNext o) s more = some t ∧ t.main = .cleaned) ↔
      ¬ (s.broken = true ∧ s.owes = true) := by
  have hl := run_locks (imeLocks_start rd) hrun
  constructor
  · rintro ⟨more, t, hmore, hmain⟩ ⟨hb, ho⟩
    have hinv : ∀ (s : ImeSys) (a : ImeAct) (t : ImeSys),
        (ImeLocks s ∧ s.broken = true ∧ s.owes = true) → imeNext o s a = some t →
          ImeLocks t ∧ t.broken = true ∧ t.owes = true := fun s a t h hnext =>
      ⟨(imeNext_step hnext).locks h.1, (imeNext_step hnext).owes h.1 h.2.1 h.2.2⟩
    have ht := Runs.inv_of_all hinv ⟨hl, hb, ho⟩ hmore
    exact not_cleaned_of_owes ht.1 ht.2.2 hmain
  · intro h
    obtain ⟨u, hreach, hu, hdone⟩ := reader_ends hl h
    obtain ⟨t, hreach', hmain⟩ := main_returns (o := o) hu hdone
    obtain ⟨more, -, hmore⟩ := hreach.trans hreach'
    exact ⟨more, t, hmore, hmain⟩

/-- The client goes while its unit is looked up. -/
theorem ime_ends_stuck : ∃ s : ImeSys,
    Runs.run (imeNext .little) (.start exampleImeRd) (exampleImeActs.take 7 ++ [.hangup]) = some s ∧
      ¬ ∃ more t, Runs.run (imeNext .little) s more = some t ∧ t.main = .cleaned := by
  obtain ⟨s, hrun⟩ := Option.isSome_iff_exists.mp
    (show (Runs.run (imeNext .little) (.start exampleImeRd)
      (exampleImeActs.take 7 ++ [.hangup])).isSome = true from rfl)
  have hs : (Runs.run (imeNext .little) (.start exampleImeRd)
      (exampleImeActs.take 7 ++ [.hangup])).map (fun s => (s.broken, s.owes)) = some (true, true) :=
    rfl
  rw [hrun] at hs
  obtain ⟨hb, ho⟩ := Prod.mk.inj (Option.some.inj hs)
  exact ⟨s, hrun, fun h => (ime_ends hrun).mp h ⟨hb, ho⟩⟩

/-! ### The transcript -/

/-- A step of the writing thread, except for its end. -/
def ImeAct.writes : ImeAct → Bool
  | wake => true
  | lockWr => true
  | scan _ => true
  | msgHdr => true
  | msgBody => true
  | unlockWr => true
  | _ => false

/-- The client waits for `OK`, and a cancelled thread takes no more steps. -/
def ImeObeys (s : ImeSys) (a : ImeAct) : Prop :=
  ImeWaits s a ∧ (s.cancelled = true → a.writes = false)

instance (s : ImeSys) (a : ImeAct) : Decidable (ImeObeys s a) :=
  inferInstanceAs (Decidable (_ ∧ (_ → _)))

/-- What holds while the reading thread ends. -/
structure ImeClosing (o : Endian) (rd : ImeRd) (acts : List ImeAct) (s : ImeSys) : Prop where
  history : ImeHistory o rd acts s
  aside : s.cancelled = true → ¬ s.writer.Holds
  filled : s.reader = .writingExit → s.opcsnd = some exitReply
  closed : s.reader = .unlockingExit ∨ s.reader = .done → s.broken = false →
    ∃ ps : List ImePacket,
      s.out = s.main.sent o ++ ps.flatMap (ImePacket.blocks o) ++ [exitReply.block o] ∧
      ps.filterMap ImePacket.reply? = (served o rd (acts.filterMap ImeAct.arrival)).2 ∧
      ps.filterMap ImePacket.msg? = acts.flatMap ImeAct.files

theorem ImeStep.aside {a : ImeAct} (hl : ImeLocks s)
    (hs : s.cancelled = true → ¬ s.writer.Holds) (hobeys : ImeObeys s a) (h : ImeStep o s a t)
    (hc : t.cancelled = true) : ¬ t.writer.Holds := by
  have hsilent : s.cancelled = true → a.writes = false := hobeys.2
  cases h with
  | cancel hr =>
    have hheld := hl.rd.mpr (.inl (by simp [hr, ImeReader.Holds]))
    intro hw
    rw [hl.wr.mpr hw] at hheld
    cases hheld
  | wake hw => exact absurd (hsilent hc) (by simp [ImeAct.writes])
  | lockWr hw hx => exact absurd (hsilent hc) (by simp [ImeAct.writes])
  | scan files hw => exact absurd (hsilent hc) (by simp [ImeAct.writes])
  | header m todo hw hb => exact absurd (hsilent hc) (by simp [ImeAct.writes])
  | next m todo hw hb => exact absurd (hsilent hc) (by simp [ImeAct.writes])
  | body m todo hw => exact absurd (hsilent hc) (by simp [ImeAct.writes])
  | unlockWr hw => exact absurd (hsilent hc) (by simp [ImeAct.writes])
  | _ => exact hs hc

theorem ImeStep.closed {acts : List ImeAct} {a : ImeAct} (h : ImeClosing o rd acts s)
    (hobeys : ImeObeys s a) (hstep : ImeStep o s a t)
    (ht : t.reader = .unlockingExit ∨ t.reader = .done) (hb : t.broken = false) :
    ∃ ps : List ImePacket,
      t.out = t.main.sent o ++ ps.flatMap (ImePacket.blocks o) ++ [exitReply.block o] ∧
      ps.filterMap ImePacket.reply?
        = (served o rd ((acts ++ [a]).filterMap ImeAct.arrival)).2 ∧
      ps.filterMap ImePacket.msg? = (acts ++ [a]).flatMap ImeAct.files := by
  have hfine := hstep.broken hb
  have hl := h.history.locks
  obtain ⟨-, hearly, qs, hout, hreplies, hmsgs⟩ := h.history.wire hfine
  have hsilent : s.cancelled = true → a.writes = false := hobeys.2
  have hlate : s.reader = .unlockingExit ∨ s.reader = .done → s.cancelled = true := fun hr =>
    hl.late.mpr (by rcases hr with hr | hr <;> simp [hr, ImeReader.Late])
  have same : a.arrival = none → a.files = [] → t.out = s.out → t.main.sent o = s.main.sent o →
      s.reader = .unlockingExit ∨ s.reader = .done → ∃ ps : List ImePacket,
        t.out = t.main.sent o ++ ps.flatMap (ImePacket.blocks o) ++ [exitReply.block o] ∧
        ps.filterMap ImePacket.reply?
          = (served o rd ((acts ++ [a]).filterMap ImeAct.arrival)).2 ∧
        ps.filterMap ImePacket.msg? = (acts ++ [a]).flatMap ImeAct.files := by
    intro ha hf hto htm hr
    obtain ⟨ps, hps, hrep, hmsg⟩ := h.closed hr hfine
    exact ⟨ps, by rw [hto, htm, hps], by simp [ha, hrep], by simp [hf, hmsg]⟩
  cases hstep with
  | okHdr hm =>
    have hr := (hearly (.inl hm)).reader
    simp [hr] at ht
  | okBody hm =>
    have hr := (hearly (.inr hm)).reader
    simp [hr] at ht
  | join hm hr hd =>
    refine same rfl rfl rfl ?_ ht
    rw [hm]
    rfl
  | hangup => cases hb
  | spin hfull => exact same rfl rfl rfl rfl ht
  | replyExit r hr hfull hbroken =>
    have hexit : r = exitReply := by simpa [hfull] using h.filled hr
    have haside := h.aside (hl.late.mpr (by simp [hr, ImeReader.Late]))
    have hpart : s.writer.part o = [] := by
      cases hw : s.writer <;> simp [hw, ImeWriter.Holds, ImeWriter.part] at haside ⊢
    have htodo : s.writer.todo = [] := by
      cases hw : s.writer <;> simp [hw, ImeWriter.Holds, ImeWriter.todo] at haside ⊢
    refine ⟨qs, ?_, ?_, ?_⟩
    · simp only [hout, hpart, hexit, List.append_nil]
    · have hpend : s.pending = [exitReply] := by
        simp [ImeSys.pending, hr, hfull, hexit, ImeReader.asked]
      rw [hpend, hr] at hreplies
      have hsame : (acts ++ [ImeAct.writeopc]).filterMap ImeAct.arrival
          = acts.filterMap ImeAct.arrival := by simp [ImeAct.arrival]
      rw [hsame]
      exact List.append_cancel_right hreplies
    · rw [htodo, List.append_nil] at hmsgs
      simp [ImeAct.files, hmsgs]
  | silentExit hr hempty =>
    rw [h.filled hr] at hempty
    cases hempty
  | failExit r hr hfull hbroken =>
    rw [hfine] at hbroken
    cases hbroken
  | unlockExit hr => exact same rfl rfl rfl rfl (.inl hr)
  | wake hw => exact absurd (hsilent (hlate ht)) (by simp [ImeAct.writes])
  | lockWr hw hx => exact absurd (hsilent (hlate ht)) (by simp [ImeAct.writes])
  | scan files hw => exact absurd (hsilent (hlate ht)) (by simp [ImeAct.writes])
  | header m todo hw hb => exact absurd (hsilent (hlate ht)) (by simp [ImeAct.writes])
  | next m todo hw hb => exact absurd (hsilent (hlate ht)) (by simp [ImeAct.writes])
  | body m todo hw => exact absurd (hsilent (hlate ht)) (by simp [ImeAct.writes])
  | unlockWr hw => exact absurd (hsilent (hlate ht)) (by simp [ImeAct.writes])
  | die hc => exact same rfl rfl rfl rfl ht
  | read e behind rd' hr h =>
    cases hrep : rdReply o e s.rd <;> simp [hrep] at ht
  | _ => simp at ht

theorem imeNext_closing {acts : List ImeAct} {a : ImeAct} (h : ImeClosing o rd acts s)
    (hobeys : ImeObeys s a) (hnext : imeNext o s a = some t) :
    ImeClosing o rd (acts ++ [a]) t := by
  have hstep := imeNext_step hnext
  refine ⟨imeNext_history h.history hobeys.1 hnext,
    hstep.aside h.history.locks h.aside hobeys, fun hr => ?_, hstep.closed h hobeys⟩
  have hfilled := h.filled
  cases hstep with
  | fillExit hr' hempty => rfl
  | read e behind rd' hr' h =>
    cases hrep : rdReply o e s.rd <;> simp [hrep] at hr
  | _ => first | exact hfilled hr | cases hr

/-- **The transcript of a session.**  When the reading thread has ended and the connection stands,
the client has received `OK`, the replies to its packets served one by one and the messages of all
passes, each whole and in their order, and `OPC_EXIT` as the last, provided that it waited for
`OK` and that a cancelled thread takes no more steps. -/
theorem ime_transcript (hidle : chkrdy rd.ime = false) {acts : List ImeAct}
    (hobeys : Runs.Meets (imeNext o) ImeObeys (.start rd) acts)
    (hrun : Runs.run (imeNext o) (.start rd) acts = some t) (hb : t.broken = false)
    (hdone : t.reader = .done) :
    ∃ ps : List ImePacket,
      t.out = [hdrsetsz o cmdOkText.length, cmdOkText] ++ ps.flatMap (ImePacket.blocks o)
        ++ [exitReply.block o] ∧
      ps.filterMap ImePacket.reply? = (served o rd (acts.filterMap ImeAct.arrival)).2 ∧
      ps.filterMap ImePacket.msg? = acts.flatMap ImeAct.files := by
  have hstart : ImeClosing o rd [] (.start rd) :=
    ⟨⟨imeLocks_start rd, fun _ => imeWire_start hidle⟩, by simp [ImeSys.start],
      by simp [ImeSys.start], by simp [ImeSys.start]⟩
  have hinv := Runs.inv_of_history (fun _ _ _ _ h hob hnext => imeNext_closing h hob hnext)
    hstart hobeys hrun
  have hsent : t.main.sent o = [hdrsetsz o cmdOkText.length, cmdOkText] := by
    have hearly := (hinv.history.wire hb).early
    cases hm : t.main with
    | okHdr => simpa [hdone] using (hearly (.inl hm)).reader
    | okBody => simpa [hdone] using (hearly (.inr hm)).reader
    | _ => rfl
  rw [← hsent]
  exact hinv.closed (.inr hdone) hb

/-- The session of the example to its end. -/
def exampleImeSession : List ImeAct :=
  exampleImeActs ++
    [.read imeHost [], .lockRd, .cancel, .sendopc, .writeopc, .unlockRd, .die, .join]

theorem ime_transcript_example : ∃ t : ImeSys,
    Runs.run (imeNext .little) (.start exampleImeRd) exampleImeSession = some t ∧
    ∃ ps : List ImePacket,
      t.out = [hdrsetsz .little cmdOkText.length, cmdOkText]
        ++ ps.flatMap (ImePacket.blocks .little) ++ [exitReply.block .little] ∧
      ps.filterMap ImePacket.reply?
        = (served .little exampleImeRd (exampleImeSession.filterMap ImeAct.arrival)).2 ∧
      ps.filterMap ImePacket.msg? = exampleImeSession.flatMap ImeAct.files := by
  obtain ⟨t, hrun⟩ := Option.isSome_iff_exists.mp
    (show (Runs.run (imeNext .little) (.start exampleImeRd) exampleImeSession).isSome = true from rfl)
  have hend : (Runs.run (imeNext .little) (.start exampleImeRd) exampleImeSession).map
      (fun t => (t.broken, t.reader)) = some (false, .done) := rfl
  rw [hrun] at hend
  obtain ⟨hb, hdone⟩ := Prod.mk.inj (Option.some.inj hend)
  exact ⟨t, hrun, ime_transcript rfl (by decide) hrun hb hdone⟩

end TFProtocol
