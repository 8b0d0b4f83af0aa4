import TFProtocol.Gateway

/-!
# The end of the gateway

When the session leaves the gateway, `uxlisten` waits until no thread is counted in `gw->sem`
and frees the structure.  The threads that are counted come to their ends, one after the other
under `wrmut`, so the listener does not wait for ever.  A thread counts itself only after it
was created, and until then the listener does not know of it.

## Main definitions

* `GwReaches` — the states that one can come to by steps whose writes the client receives.
* `GwSys.Has` — the connections that the gateway has taken on.

## Main results

* `gateway_ends` — the gateway can always be brought to its end, with every message it took on
  delivered once.
* `gateway_memory` — the structure can be used after it was freed if and only if a thread was
  not counted when that happened.
-/

namespace TFProtocol

open Bytes

variable {o : Endian} {inp : ℕ → List Byte} {s t : GwSys}

/-! ### The ends of the threads -/

/-- The steps a thread has before it. -/
def GwThr.left : GwThr → ℕ
  | .created => 10
  | .loaded _ => 9
  | .counting _ => 8
  | .locking _ => 7
  | .readHdr _ => 6
  | .readBody _ _ => 5
  | .writeHdr _ _ _ => 4
  | .writeBody _ _ => 3
  | .unlocking _ => 2
  | .closing _ => 1
  | _ => 0

/-- What the steps of one thread leave alone. -/
structure GwAside (i : ℕ) (s t : GwSys) : Prop where
  thr : ∀ j, j ≠ i → t.thr j = s.thr j
  lst : t.lst = s.lst
  main : t.main = s.main
  freed : t.freed = s.freed
  conns : t.conns = s.conns
  wrmut : t.wrmut = none ∨ t.wrmut = some i

theorem GwAside.trans {i : ℕ} {u : GwSys} (h : GwAside i s t) (h' : GwAside i t u) :
    GwAside i s u where
  thr := fun j hj => (h'.thr j hj).trans (h.thr j hj)
  lst := h'.lst.trans h.lst
  main := h'.main.trans h.main
  freed := h'.freed.trans h.freed
  conns := h'.conns.trans h.conns
  wrmut := h'.wrmut

theorem gwNext_of_uxcomm {a : GwAct} (h : uxcommNext o inp s a = some t) :
    gwNext o inp s a = some t := by
  cases a <;> first | exact h | cases h

/-- A thread that can have the lock has a next step. -/
theorem uxcomm_progress {i : ℕ} (h : GwInv o inp s) (habs : s.thr i ≠ .absent)
    (hdone : s.thr i ≠ .done) (hlock : s.wrmut = none ∨ s.wrmut = some i) :
    ∃ a t, uxcommNext o inp s a = some t ∧ a.sends = true ∧ GwAside i s t ∧
      t.thr i ≠ .absent ∧ (t.thr i).left < (s.thr i).left := by
  have hown := h.own i
  have hother : ∀ (p : GwThr) (j : ℕ), j ≠ i → (s.become i p).thr j = s.thr j := fun p j hj => by
    simp [hj]
  cases hi : s.thr i with
  | absent => exact absurd hi habs
  | done => exact absurd hi hdone
  | crashed => simp [hi, GwThr.Own] at hown
  | created =>
    have hux : s.ux = some i := (h.slot i).mpr (.inr (by simp [hi, GwThr.Takes]))
    refine ⟨.load i, s.become i (.loaded i), by simp [uxcommNext, hi, hux], rfl,
      ⟨hother _, rfl, rfl, rfl, rfl, hlock⟩, ?_, ?_⟩
    · simp
    · simp [GwThr.left]
  | loaded c =>
    refine ⟨.clear i, { s.become i (.counting c) with ux := none }, by simp [uxcommNext, hi], rfl,
      ⟨hother _, rfl, rfl, rfl, rfl, hlock⟩, ?_, ?_⟩
    · simp
    · simp [GwThr.left]
  | counting c =>
    refine ⟨.count i, { s.become i (.locking c) with sem := s.sem + 1 },
      by simp [uxcommNext, hi], rfl, ⟨hother _, rfl, rfl, rfl, rfl, hlock⟩, ?_, ?_⟩
    · simp
    · simp [GwThr.left]
  | locking c =>
    have hfree : s.wrmut = none := hlock.resolve_right fun hw => by
      simpa [hi, GwThr.Holds] using (h.lock i).mp hw
    refine ⟨.lock i, { s.become i (.readHdr c) with wrmut := some i },
      by simp [uxcommNext, hi, hfree], rfl, ⟨hother _, rfl, rfl, rfl, rfl, .inr rfl⟩, ?_, ?_⟩
    · simp
    · simp [GwThr.left]
  | readHdr c =>
    refine ⟨.readHdr i, _, by rw [uxcommNext, hi], rfl,
      ⟨hother _, rfl, rfl, rfl, rfl, hlock⟩, ?_, ?_⟩
    · cases hh : peerHdr o (inp c) <;> simp
    · cases hh : peerHdr o (inp c) <;> simp [GwThr.left]
  | readBody c hdr =>
    refine ⟨.readBody i, _, by rw [uxcommNext, hi], rfl,
      ⟨hother _, rfl, rfl, rfl, rfl, hlock⟩, ?_, ?_⟩
    · by_cases hfit : PeerOverruns (inp c) hdr
      · simp [hfit]
      · cases hm : peerBody (inp c) hdr <;> simp [hfit]
    · by_cases hfit : PeerOverruns (inp c) hdr
      · simp [hfit, GwThr.left]
      · cases hm : peerBody (inp c) hdr <;> simp [hfit, GwThr.left]
  | writeHdr c hdr m =>
    refine ⟨.writeHdr i true,
      { s.become i (.writeBody c m) with out := s.received (hdrsetsz o hdr) },
      by simp [uxcommNext, hi], rfl, ⟨hother _, rfl, rfl, rfl, rfl, hlock⟩, ?_, ?_⟩
    · simp
    · simp [GwThr.left]
  | writeBody c m =>
    refine ⟨.writeBody i true, { s.become i (.unlocking c) with out := s.received m },
      by simp [uxcommNext, hi], rfl, ⟨hother _, rfl, rfl, rfl, rfl, hlock⟩, ?_, ?_⟩
    · simp
    · simp [GwThr.left]
  | unlocking c =>
    refine ⟨.unlock i, { s.become i (.closing c) with wrmut := none },
      by simp [uxcommNext, hi], rfl, ⟨hother _, rfl, rfl, rfl, rfl, .inl rfl⟩, ?_, ?_⟩
    · simp
    · simp [GwThr.left]
  | closing c =>
    refine ⟨.finish i, { s.become i .done with sem := s.sem - 1 },
      by simp [uxcommNext, hi], rfl, ⟨hother _, rfl, rfl, rfl, rfl, hlock⟩, ?_, ?_⟩
    · simp
    · simp [GwThr.left]

/-- The states that one can come to by steps whose writes the client receives. -/
abbrev GwReaches (o : Endian) (inp : ℕ → List Byte) (s t : GwSys) : Prop :=
  Runs.Reaches (gwNext o inp) (fun a => a.sends = true) s t

theorem gwInv_of_reaches (hfit : ∀ c, PeerFits o (inp c)) (h : GwInv o inp s)
    (hr : GwReaches o inp s t) : GwInv o inp t := by
  obtain ⟨acts, -, hrun⟩ := hr
  exact Runs.inv_of_all (fun _ _ _ => gwNext_gwInv hfit) h hrun

/-- A thread that can have the lock comes to its end by its own steps. -/
theorem thread_ends (hfit : ∀ c, PeerFits o (inp c)) {i : ℕ} : ∀ {s : GwSys}, GwInv o inp s →
    s.thr i ≠ .absent → s.wrmut = none ∨ s.wrmut = some i →
      ∃ t, GwReaches o inp s t ∧ t.thr i = .done ∧ t.wrmut = none ∧ GwAside i s t := by
  intro s
  induction hn : (s.thr i).left using Nat.strong_induction_on generalizing s with
  | _ n ih =>
    intro h habs hlock
    by_cases hdone : s.thr i = .done
    · have hfree : s.wrmut = none := hlock.resolve_right fun hw => by
        simpa [hdone, GwThr.Holds] using (h.lock i).mp hw
      exact ⟨s, .refl s, hdone, hfree, fun _ _ => rfl, rfl, rfl, rfl, rfl, hlock⟩
    · obtain ⟨a, t, ht, hsend, haside, habs', hlt⟩ := uxcomm_progress h habs hdone hlock
      obtain ⟨u, hreach, hdone', hfree, haside'⟩ := ih _ (hn ▸ hlt) rfl
        (uxcommNext_gwInv hfit h ht) habs' haside.wrmut
      exact ⟨u, .step hsend (gwNext_of_uxcomm ht) hreach, hdone', hfree, haside.trans haside'⟩

/-- Nobody is at work for a connection below `n`. -/
def GwIdle (n : ℕ) (s : GwSys) : Prop := ∀ i < n, s.thr i = .absent ∨ s.thr i = .done

/-- What the threads leave alone on their way to their ends. -/
structure GwSettled (s t : GwSys) : Prop where
  thr : ∀ i, s.thr i ≠ .absent → t.thr i ≠ .absent
  lst : t.lst = s.lst
  main : t.main = s.main
  freed : t.freed = s.freed
  conns : t.conns = s.conns

theorem GwSettled.trans {u : GwSys} (h : GwSettled s t) (h' : GwSettled t u) : GwSettled s u where
  thr := fun i hi => h'.thr i (h.thr i hi)
  lst := h'.lst.trans h.lst
  main := h'.main.trans h.main
  freed := h'.freed.trans h.freed
  conns := h'.conns.trans h.conns

theorem GwAside.settled {i : ℕ} (h : GwAside i s t) (hdone : t.thr i = .done) :
    GwSettled s t where
  thr := fun j hj => by
    by_cases hji : j = i
    · simp [hji, hdone]
    · rwa [h.thr j hji]
  lst := h.lst
  main := h.main
  freed := h.freed
  conns := h.conns

/-- The threads come to their ends one after the other, with the lock free. -/
theorem threads_end_of_free (hfit : ∀ c, PeerFits o (inp c)) (h : GwInv o inp s)
    (hfree : s.wrmut = none) (n : ℕ) :
    ∃ t, GwReaches o inp s t ∧ GwIdle n t ∧ t.wrmut = none ∧ GwSettled s t := by
  induction n with
  | zero => exact ⟨s, .refl s, nofun, hfree, fun _ => id, rfl, rfl, rfl, rfl⟩
  | succ n ih =>
    obtain ⟨t, hreach, hidle, hfree', hset⟩ := ih
    by_cases habs : t.thr n = .absent
    · refine ⟨t, hreach, fun i hi => ?_, hfree', hset⟩
      rcases Nat.lt_succ_iff_lt_or_eq.mp hi with hlt | rfl
      · exact hidle i hlt
      · exact .inl habs
    · obtain ⟨u, hreach', hdone, hfree'', haside⟩ :=
        thread_ends hfit (gwInv_of_reaches hfit h hreach) habs (.inl hfree')
      refine ⟨u, hreach.trans hreach', fun i hi => ?_, hfree'', hset.trans (haside.settled hdone)⟩
      by_cases hin : i = n
      · exact .inr (hin ▸ hdone)
      · rw [haside.thr i hin]
        exact hidle i (by omega)

/-- All threads have come to their ends. -/
def GwSys.Quiet (s : GwSys) : Prop := ∀ i, s.thr i = .absent ∨ s.thr i = .done

/-- **All threads come to their ends**, the one that holds the lock before the others. -/
theorem threads_end (hfit : ∀ c, PeerFits o (inp c)) (h : GwInv o inp s) :
    ∃ t, GwReaches o inp s t ∧ t.Quiet ∧ t.wrmut = none ∧
      GwSettled s t := by
  have hall : ∀ {t : GwSys}, GwInv o inp t → GwIdle t.conns t → t.Quiet := fun {t} ht hidle i => by
    by_cases hi : i < t.conns
    · exact hidle i hi
    · exact .inl (by_contra fun habs => hi (ht.bound i habs))
  cases hw : s.wrmut with
  | none =>
    obtain ⟨t, hreach, hidle, hfree, hset⟩ := threads_end_of_free hfit h hw s.conns
    exact ⟨t, hreach, hall (gwInv_of_reaches hfit h hreach) (hset.conns ▸ hidle), hfree, hset⟩
  | some i =>
    have habs : s.thr i ≠ .absent := fun habs => by
      simpa [habs, GwThr.Holds] using (h.lock i).mp hw
    obtain ⟨t, hreach, hdone, hfree, haside⟩ := thread_ends hfit h habs (.inr hw)
    obtain ⟨u, hreach', hidle, hfree', hset⟩ :=
      threads_end_of_free hfit (gwInv_of_reaches hfit h hreach) hfree t.conns
    have hinv := gwInv_of_reaches hfit h (hreach.trans hreach')
    exact ⟨u, hreach.trans hreach', hall hinv (hset.conns ▸ hidle), hfree',
      (haside.settled hdone).trans hset⟩

/-! ### The end of the listener -/

/-- The gateway has taken on a connection: it has a thread, or the listener has it at hand. -/
def GwSys.Has (s : GwSys) (i : ℕ) : Prop :=
  s.thr i ≠ .absent ∨ s.lst = .alloc (some i) ∨ s.lst = .create i

/-- Where all threads have ended, `gw->ux` is clear unless the listener has just set it. -/
theorem ux_of_quiet (h : GwInv o inp s) (hquiet : s.Quiet) (hlst : ∀ c, s.lst ≠ .create c) :
    s.ux = none := by
  by_contra hux
  obtain ⟨c, hc⟩ := Option.ne_none_iff_exists'.mp hux
  have htakes := ((h.slot c).mp hc).resolve_left (hlst c)
  rcases hquiet c with hi | hi <;> simp [hi, GwThr.Takes] at htakes

/-- The listener comes back to `select`, with a thread for the connection it had at hand. -/
theorem lst_selects (h : GwInv o inp s) (hquiet : s.Quiet) (hend : s.lst ≠ .ended)
    (hdrain : s.lst ≠ .draining) :
    ∃ t, GwReaches o inp s t ∧ t.lst = .select ∧ t.main = s.main ∧ t.freed = s.freed ∧
      ∀ i, s.Has i → t.thr i ≠ .absent := by
  have start : ∀ {u : GwSys} (c : ℕ), u.lst = .create c → u.main = s.main → u.freed = s.freed →
      (∀ i, s.Has i → u.thr i ≠ .absent ∨ i = c) →
      ∃ t, GwReaches o inp u t ∧ t.lst = .select ∧ t.main = s.main ∧ t.freed = s.freed ∧
        ∀ i, s.Has i → t.thr i ≠ .absent := fun {u} c hlst hmain hfreed hhas => by
    refine ⟨{ u.become c .created with lst := .select }, .step (a := .create true) rfl ?_ (.refl _),
      rfl, hmain, hfreed, fun i hi => ?_⟩
    · simp [gwNext, uxlistenNext, hlst]
    · by_cases hic : i = c
      · simp [hic]
      · simpa [hic] using (hhas i hi).resolve_right hic
  cases hlst : s.lst with
  | ended => exact absurd hlst hend
  | draining => exact absurd hlst hdrain
  | select =>
    refine ⟨s, .refl s, hlst, rfl, rfl, fun i hi => ?_⟩
    simpa [GwSys.Has, hlst] using hi
  | accept =>
    have hux := ux_of_quiet h hquiet (by simp [hlst])
    refine ⟨{ s with lst := .select }, .step (a := .accept false) (t := { s with lst := .alloc none })
      rfl ?_ (.step (a := .alloc false) rfl ?_ (.refl _)), rfl, rfl, rfl, fun i hi => ?_⟩
    · simp [gwNext, uxlistenNext, hlst]
    · simp [gwNext, uxlistenNext, hux]
    · simpa [GwSys.Has, hlst] using hi
  | alloc c =>
    have hux := ux_of_quiet h hquiet (by simp [hlst])
    cases c with
    | none =>
      refine ⟨{ s with lst := .select }, .step (a := .alloc false) rfl ?_ (.refl _), rfl, rfl, rfl,
        fun i hi => ?_⟩
      · simp [gwNext, uxlistenNext, hlst, hux]
      · simpa [GwSys.Has, hlst] using hi
    | some c =>
      obtain ⟨t, hreach, hsel, hmain, hfreed, hhas⟩ :=
        start (u := { s with ux := some c, lst := .create c }) c rfl rfl rfl fun i hi => by
          simpa [GwSys.Has, hlst, eq_comm] using hi
      refine ⟨t, .step (a := .alloc true) rfl ?_ hreach, hsel, hmain, hfreed, hhas⟩
      simp [gwNext, uxlistenNext, hlst, hux]
  | create c =>
    exact start c hlst rfl rfl fun i hi => by simpa [GwSys.Has, hlst, eq_comm] using hi

/-- The listener comes to wait for the threads. -/
theorem lst_drains (h : GwInv o inp s) (hquiet : s.Quiet) (hfreed : s.freed = false)
    (hmain : s.main ≠ .net) :
    ∃ t, GwReaches o inp s t ∧ t.lst = .draining ∧ ∀ i, s.Has i → t.thr i ≠ .absent := by
  by_cases hdrain : s.lst = .draining
  · exact ⟨s, .refl s, hdrain, fun i hi => by simpa [GwSys.Has, hdrain] using hi⟩
  · have hend : s.lst ≠ .ended := fun hend => by simp [h.ended.mpr hend] at hfreed
    obtain ⟨t, hreach, hsel, hmain', -, hhas⟩ := lst_selects h hquiet hend hdrain
    refine ⟨{ t with lst := .draining }, hreach.trans (.step (a := .select false) rfl ?_ (.refl _)),
      rfl, hhas⟩
    simp [gwNext, uxlistenNext, hsel, hmain', hmain]

/-- With all threads at their ends the listener frees the structure. -/
theorem lst_frees (h : GwInv o inp s) (hquiet : s.Quiet) (hdrain : s.lst = .draining) :
    ∃ t, GwReaches o inp s t ∧ t.freed = true ∧ t.thr = s.thr ∧ t.wrmut = s.wrmut := by
  have hsem : s.sem = 0 := by
    obtain ⟨S, hS, hcard⟩ := h.sem
    rw [hcard, Finset.card_eq_zero, Finset.eq_empty_iff_forall_notMem]
    intro i hi
    rcases hquiet i with hd | hd <;> simp [hS, hd, GwThr.Counted] at hi
  refine ⟨{ s with freed := true, lst := .ended }, .step (a := .free) rfl ?_ (.refl _), rfl, rfl, rfl⟩
  simp [gwNext, uxlistenNext, hdrain, hsem]

/-- The session leaves the gateway. -/
theorem main_leaves (o : Endian) (inp : ℕ → List Byte) (s : GwSys) :
    ∃ t, GwReaches o inp s t ∧ t.main ≠ .net ∧ t.lst = s.lst ∧ t.freed = s.freed ∧ t.thr = s.thr := by
  by_cases hmain : s.main = .net
  · refine ⟨{ s with main := .left }, .step (a := .leave) rfl ?_ (.refl _), nofun, rfl, rfl, rfl⟩
    simp [gwNext, uxlistenNext, gwMainNext, hmain]
  · exact ⟨s, .refl s, hmain, rfl, rfl, rfl⟩

/-- **The gateway can always be brought to its end.**  Whatever happened so far, there is a way on
that ends with the structure freed and all threads at their ends, on which the client receives
the message of every connection the gateway has taken on, each once and nothing else. -/
theorem gateway_ends {acts : List GwAct} (hfit : ∀ c, PeerFits o (inp c))
    (hrun : Runs.run (gwNext o inp) .start acts = some s) (hsend : ∀ a ∈ acts, a.sends = true)
    (hfreed : s.freed = false) :
    ∃ (t : GwSys) (served : List ℕ), GwReaches o inp s t ∧ t.freed = true ∧ t.Quiet ∧
      served.Nodup ∧ (∀ i, s.Has i → i ∈ served) ∧
      t.out = served.flatMap fun i => gwFrame o (inp i) := by
  have hinv := run_gwInv hfit hrun
  obtain ⟨u₁, h₁, hmain, hlst₁, hfreed₁, hthr₁⟩ := main_leaves o inp s
  have hinv₁ := gwInv_of_reaches hfit hinv h₁
  obtain ⟨u₂, h₂, hquiet₂, -, hset₂⟩ := threads_end hfit hinv₁
  have hinv₂ := gwInv_of_reaches hfit hinv₁ h₂
  obtain ⟨u₃, h₃, hdrain, hhas₃⟩ :=
    lst_drains hinv₂ hquiet₂ (by rw [hset₂.freed, hfreed₁, hfreed]) (by rwa [hset₂.main])
  have hinv₃ := gwInv_of_reaches hfit hinv₂ h₃
  obtain ⟨u₄, h₄, hquiet₄, hfree₄, hset₄⟩ := threads_end hfit hinv₃
  have hinv₄ := gwInv_of_reaches hfit hinv₃ h₄
  obtain ⟨t, h₅, hfreed₅, hthr₅, hwrmut₅⟩ := lst_frees hinv₄ hquiet₄ (hset₄.lst.trans hdrain)
  have hreach := (h₁.trans h₂).trans ((h₃.trans h₄).trans h₅)
  have ⟨more, hmore, hrun'⟩ := hreach
  have hall : Runs.run (gwNext o inp) .start (acts ++ more) = some t := by
    rw [Runs.run_append, hrun, Option.bind_some, hrun']
  obtain ⟨secs, hnodup, hout, hmem, -⟩ :=
    run_sections hfit hall fun a ha => (List.mem_append.mp ha).elim (hsend a) (hmore a)
  obtain ⟨hserved, hframes⟩ :=
    frames_of_free (gwInv_of_reaches hfit hinv hreach) (hwrmut₅.trans hfree₄) hout hmem
  refine ⟨t, secs.map Prod.fst, hreach, hfreed₅, fun i => hthr₅ ▸ hquiet₄ i, hnodup,
    fun i hi => (hserved i).mpr ?_, hframes⟩
  have hhas : u₂.Has i := by
    rcases hi with hthr | hlst
    · exact .inl (hset₂.thr i (hthr₁ ▸ hthr))
    · exact .inr (by rwa [hset₂.lst, hlst₁])
  have hdone := (hquiet₄ i).resolve_left (hset₄.thr i (hhas₃ i hhas))
  simp [hthr₅, hdone, GwThr.Released]

/-- Two connections, one served and one with its length sent, and a third that was accepted. -/
theorem gateway_ends_halfway : ∃ s : GwSys,
    Runs.run (gwNext .little exampleInp) .start exampleActs = some s ∧
    ∃ (t : GwSys) (served : List ℕ), GwReaches .little exampleInp s t ∧ t.freed = true ∧ t.Quiet ∧
      served.Nodup ∧ (∀ i, s.Has i → i ∈ served) ∧
      t.out = served.flatMap fun i => gwFrame .little (exampleInp i) := by
  obtain ⟨s, hrun⟩ := Option.isSome_iff_exists.mp
    (show (Runs.run (gwNext .little exampleInp) .start exampleActs).isSome = true from rfl)
  have hfreed : (Runs.run (gwNext .little exampleInp) .start exampleActs).map GwSys.freed
      = some false := rfl
  rw [hrun] at hfreed
  exact ⟨s, hrun, gateway_ends exampleInp_fits hrun (by decide) (Option.some.inj hfreed)⟩

/-! ### The structure after it was freed -/

/-- The step uses the shared structure; a thread reads the length into a variable of its own. -/
def GwAct.uses : GwAct → Bool
  | load _ => true
  | clear _ => true
  | count _ => true
  | lock _ => true
  | readBody _ => true
  | writeHdr _ _ => true
  | writeBody _ _ => true
  | unlock _ => true
  | finish _ => true
  | _ => false

/-- Nobody is left to use the structure. -/
structure GwDead (s : GwSys) : Prop where
  lst : s.lst = .ended
  quiet : s.Quiet

theorem GwDead.no_uxcomm (h : GwDead s) (a : GwAct) : uxcommNext o inp s a = none := by
  have hno : ∀ i, s.thr i = .absent ∨ s.thr i = .done := h.quiet
  cases a with
  | load i => rcases hno i with hi | hi <;> simp [uxcommNext, hi]
  | clear i => rcases hno i with hi | hi <;> simp [uxcommNext, hi]
  | count i => rcases hno i with hi | hi <;> simp [uxcommNext, hi]
  | lock i => rcases hno i with hi | hi <;> simp [uxcommNext, hi]
  | readHdr i => rcases hno i with hi | hi <;> simp [uxcommNext, hi]
  | readBody i => rcases hno i with hi | hi <;> simp [uxcommNext, hi]
  | writeHdr i ok => rcases hno i with hi | hi <;> simp [uxcommNext, hi]
  | writeBody i ok => rcases hno i with hi | hi <;> simp [uxcommNext, hi]
  | unlock i => rcases hno i with hi | hi <;> simp [uxcommNext, hi]
  | finish i => rcases hno i with hi | hi <;> simp [uxcommNext, hi]
  | _ => rfl

theorem GwDead.no_uxlisten (h : GwDead s) (a : GwAct) : uxlistenNext s a = none := by
  cases a <;> simp [uxlistenNext, h.lst]

/-- What is left is a step of the main thread. -/
theorem GwDead.step {a : GwAct} (h : GwDead s) (hnext : gwNext o inp s a = some t) :
    GwDead t ∧ a.uses = false := by
  obtain hl | hm | hu := gwNext_cases hnext
  · rw [h.no_uxlisten] at hl
    cases hl
  · cases a with
    | leave =>
      simp only [gwMainNext] at hm
      split at hm
      · obtain rfl := Option.some.inj hm
        exact ⟨⟨h.lst, h.quiet⟩, rfl⟩
      · cases hm
    | close =>
      simp only [gwMainNext] at hm
      split at hm
      · obtain rfl := Option.some.inj hm
        exact ⟨⟨h.lst, h.quiet⟩, rfl⟩
      · cases hm
    | _ => cases hm
  · rw [h.no_uxcomm] at hu
    cases hu

/-- A thread that is not counted yet goes on to use the structure. -/
theorem pending_uses (o : Endian) (inp : ℕ → List Byte) {i : ℕ} (h : (t.thr i).Pending) :
    ∃ a u, gwNext o inp t a = some u ∧ a.uses = true := by
  cases hi : t.thr i with
  | created => exact ⟨.load i, _, gwNext_of_uxcomm (by rw [uxcommNext, if_pos hi]), rfl⟩
  | loaded c => exact ⟨.clear i, _, gwNext_of_uxcomm (by rw [uxcommNext, hi]), rfl⟩
  | counting c => exact ⟨.count i, _, gwNext_of_uxcomm (by rw [uxcommNext, hi]), rfl⟩
  | _ => simp [hi, GwThr.Pending] at h

/-- **The structure can be used after it was freed if and only if a thread that was created had
not counted itself when that happened.** -/
theorem gateway_memory {acts : List GwAct} (hfit : ∀ c, PeerFits o (inp c))
    (hrun : Runs.run (gwNext o inp) .start acts = some s)
    (hfree : gwNext o inp s .free = some t) :
    (∃ (more : List GwAct) (a : GwAct) (u v : GwSys), Runs.run (gwNext o inp) t more = some u ∧
      gwNext o inp u a = some v ∧ a.uses = true) ↔ ∃ i, (s.thr i).Pending := by
  have hinv := run_gwInv hfit hrun
  obtain ⟨⟨hdrain, hsem⟩, rfl⟩ :
      (s.lst = .draining ∧ s.sem = 0) ∧ { s with freed := true, lst := .ended } = t := by
    simpa [gwNext, uxlistenNext, gwMainNext, uxcommNext] using hfree
  constructor
  · rintro ⟨more, a, u, v, hmore, hnext, huses⟩
    by_contra hpend
    -- nobody is counted and nobody is on the way to it
    have hdead : GwDead { s with freed := true, lst := .ended } := by
      refine ⟨rfl, fun i => ?_⟩
      obtain ⟨S, hS, hcard⟩ := hinv.sem
      have hcounted : ¬ (s.thr i).Counted := fun hi => by
        rw [hsem, eq_comm, Finset.card_eq_zero] at hcard
        simpa [hcard] using (hS i).mpr hi
      have hpend : ¬ (s.thr i).Pending := fun hi => hpend ⟨i, hi⟩
      have hown := hinv.own i
      cases hi : s.thr i <;> simp_all [GwThr.Counted, GwThr.Pending, GwThr.Own]
    have hdead' : GwDead u :=
      Runs.inv_of_all (fun _ _ _ h hn => (GwDead.step h hn).1) hdead hmore
    simp [(hdead'.step hnext).2] at huses
  · rintro ⟨i, hi⟩
    obtain ⟨a, u, hnext, huses⟩ :=
      pending_uses o inp (t := { s with freed := true, lst := .ended }) hi
    exact ⟨[], a, _, u, rfl, hnext, huses⟩

/-- A connection was accepted and its thread created when the session left. -/
def exampleHandover : GwSys :=
  { GwSys.start.become 0 .created with ux := some 0, conns := 1, main := .left, lst := .draining }

/-- The thread of that connection finds the structure freed. -/
theorem gateway_memory_handover :
    ∃ (more : List GwAct) (a : GwAct) (u v : GwSys),
      Runs.run (gwNext .little fun _ => [])
        { exampleHandover with freed := true, lst := .ended } more = some u ∧
      gwNext .little (fun _ => []) u a = some v ∧ a.uses = true := by
  have hrun : Runs.run (gwNext .little fun _ => []) .start
      [.select true, .accept true, .alloc true, .create true, .leave, .select false]
      = some exampleHandover := rfl
  refine (gateway_memory (fun _ => peerFits_of_length (by decide)) hrun rfl).mpr ⟨0, ?_⟩
  trivial

end TFProtocol
