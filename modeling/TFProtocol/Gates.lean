import TFProtocol.Server

/-!
# The order of the gates

Which handlers a session can enter, and when.  The events of a run are read from
the left with the steps of the handshake passed so far: `Ordered` says that every
handler outside the gates is entered behind a complete handshake, after the login and
with all flags of the configuration cleared.

## Main definitions

* `Exempt` — the handlers that open a gate, and the ones open to everybody.
* `passedOf` — the steps of the handshake that succeeded.
* `Stage` — what a phase of `mainloop` says about them.
* `Gates.Closer` — the login stays and cleared flags stay cleared.

## Main results

* `gates_ordered` — the order of the gates in every session.
-/

namespace TFProtocol

open Bytes CStr

/-- `END`, `LOGIN`, `KEEPALIVE`, `PROCKEY`, `INJAIL`, `LOCKSYS` and `FLYCONTEXT`. -/
def Exempt (h : Handler) : Prop :=
  h ∈ [Handler.endcomm, .login, .keepalive, .prockey, .injail, .locksys, .flycontext]

instance (h : Handler) : Decidable (Exempt h) := inferInstanceAs (Decidable (_ ∈ _))

/-- Logged in, and every flag of the configuration is cleared. -/
def Gates.Open (g : Gates) : Prop :=
  g.logged = true ∧ g.injail = false ∧ g.locksys = false ∧ g.flycontext = false

/-- From one state to the next, the login stays and cleared flags stay cleared. -/
structure Gates.Closer (g g' : Gates) : Prop where
  logged : g.logged = true → g'.logged = true
  injail : g.injail = false → g'.injail = false
  locksys : g.locksys = false → g'.locksys = false
  flycontext : g.flycontext = false → g'.flycontext = false

theorem Gates.Closer.refl (g : Gates) : g.Closer g := ⟨id, id, id, id⟩

/-! ### Reading events -/

/-- The steps of the handshake that succeeded, in order. -/
def passedOf (es : List Event) : List Gate :=
  es.filterMap fun e => match e with
    | .passed g => some g
    | _ => none

/-- The version, the key and the hash in this order, or a FAI token. -/
def Shaken (hist : List Gate) : Prop := hist = [.version, .key, .hash] ∨ hist = [.fai]

/-- Behind the steps `hist`, every handler but the exempt ones is entered in
order. -/
def Ordered : List Gate → List Event → Prop
  | _, [] => True
  | hist, .passed g :: es => Ordered (hist ++ [g]) es
  | hist, .store _ _ :: es => Ordered hist es
  | hist, .enter h g :: es => (¬ Exempt h → Shaken hist ∧ g.Open) ∧ Ordered hist es

theorem passedOf_append (es fs : List Event) : passedOf (es ++ fs) = passedOf es ++ passedOf fs :=
  List.filterMap_append ..

theorem ordered_append : ∀ {es fs : List Event} {hist : List Gate},
    Ordered hist es → Ordered (hist ++ passedOf es) fs → Ordered hist (es ++ fs) := by
  intro es
  induction es with
  | nil => intro fs hist _ h; simpa [passedOf] using h
  | cons e es ih =>
    intro fs hist he hf
    -- only a passed step moves `hist` on
    cases e with
    | store a n => exact ih he hf
    | passed g => exact ih he (by simpa [passedOf] using hf)
    | enter h g => exact ⟨he.1, ih he.2 hf⟩

/-- What `Ordered` says about a handler that is entered somewhere. -/
theorem Ordered.enter : ∀ {pre : List Event} {hist : List Gate} {h : Handler} {g : Gates}
    {post : List Event}, Ordered hist (pre ++ .enter h g :: post) → ¬ Exempt h →
    Shaken (hist ++ passedOf pre) ∧ g.Open := by
  intro pre
  induction pre with
  | nil => intro hist h g post ho; simpa [passedOf] using ho.1
  | cons e pre ih =>
    intro hist h g post ho hne
    cases e with
    | store a n =>
      have hrest : Ordered hist (pre ++ .enter h g :: post) := ho
      exact ih hrest hne
    | passed p =>
      have hrest : Ordered (hist ++ [p]) (pre ++ .enter h g :: post) := ho
      simpa [passedOf] using ih hrest hne
    | enter h' g' =>
      have hrest : Ordered hist (pre ++ .enter h g :: post) := ho.2
      exact ih hrest hne

/-- Nothing but stores. -/
def StoresOnly (es : List Event) : Prop := ∀ e ∈ es, ∃ a n, e = Event.store a n

theorem StoresOnly.passedOf {es : List Event} (h : StoresOnly es) : passedOf es = [] := by
  rw [TFProtocol.passedOf, List.filterMap_eq_nil_iff]
  intro e he
  obtain ⟨a, n, rfl⟩ := h e he
  rfl

theorem StoresOnly.ordered : ∀ {es : List Event}, StoresOnly es → ∀ hist, Ordered hist es := by
  intro es
  induction es with
  | nil => intro _ _; trivial
  | cons e es ih =>
    intro h hist
    obtain ⟨a, n, rfl⟩ := h e List.mem_cons_self
    exact ih (fun e he => h e (List.mem_cons_of_mem _ he)) hist

theorem StoresOnly.append {es fs : List Event} (h : StoresOnly es) (h' : StoresOnly fs) :
    StoresOnly (es ++ fs) := by
  intro e he
  rcases List.mem_append.mp he with he | he
  · exact h e he
  · exact h' e he

theorem storesOnly_nil : StoresOnly [] := by
  intro e he
  cases he

theorem StoresOnly.cons {es : List Event} (a : Arr) (n : ℕ) (h : StoresOnly es) :
    StoresOnly (.store a n :: es) := by
  intro e he
  rcases List.mem_cons.mp he with rfl | he
  · exact ⟨a, n, rfl⟩
  · exact h e he

/-! ### The events of the functions -/

section Layer

variable (o : Endian) (aes : Aes)

theorem readbufStores_storesOnly (s : Sess) : StoresOnly (readbufStores o aes s) := by
  unfold readbufStores
  refine StoresOnly.cons _ _ ?_
  split
  · exact storesOnly_nil
  · split
    · exact (storesOnly_nil.cons _ _).append (storesOnly_nil.cons _ _)
    · exact storesOnly_nil.cons _ _

theorem chkproto_storesOnly (cfg : Config) (w : World) (s : Sess) :
    StoresOnly (chkproto o aes cfg w s).events := by
  have hread := readbufStores_storesOnly o aes s
  simp only [chkproto]
  split
  · exact hread
  · split
    · exact hread
    · split
      · split <;> exact hread.append (storesOnly_nil.cons _ _)
      · exact hread

theorem getkey_storesOnly (s : Sess) (enkey : List Byte) :
    StoresOnly (getkey o aes s enkey).events := by
  have hread := readbufStores_storesOnly o aes s
  simp only [getkey]
  split
  · exact hread
  · exact hread.append (storesOnly_nil.cons _ _)

theorem cutStores_storesOnly (offs : List ℕ) : StoresOnly (cutStores offs) := by
  intro e he
  obtain ⟨i, -, rfl⟩ := List.mem_map.mp he
  exact ⟨_, _, rfl⟩

theorem cmdKeepalive_storesOnly (w : World) (s : Sess) :
    StoresOnly (cmdKeepalive o aes w s).events := by
  have hzip : ∀ (as : List Arr) (ts : List (List Byte)),
      StoresOnly (List.zipWith (fun a t => Event.store a (t.length + 1)) as ts) := by
    intro as
    induction as with
    | nil => intro ts; exact storesOnly_nil
    | cons a as ih =>
      intro ts
      cases ts with
      | nil => exact storesOnly_nil
      | cons t ts => exact (ih ts).cons _ _
  simp only [cmdKeepalive]
  split
  · exact (cutStores_storesOnly _).append (hzip _ _)
  · split <;> exact (cutStores_storesOnly _).append (hzip _ _)

theorem runLogin_storesOnly (w : World) (s : Srv) : StoresOnly (runLogin o aes w s).2 := by
  simp only [runLogin]
  refine (cutStores_storesOnly _).append ?_
  split
  · exact storesOnly_nil
  · unfold loginCopies
    split
    · exact storesOnly_nil
    · exact (storesOnly_nil.cons _ _).cons _ _

theorem runHandler_storesOnly (cfg : Config) (w : World) (s : Srv) (h : Handler) :
    StoresOnly (runHandler o aes cfg w s h).2 := by
  cases h with
  | login => exact runLogin_storesOnly o aes w s
  | keepalive => exact cmdKeepalive_storesOnly o aes w s.sess
  | _ => exact storesOnly_nil

/-! ### The dispatcher -/

/-- **Behind which gates `cmd_parse` runs a handler.** -/
theorem cmdParse_run {g : Gates} {cmd : List Byte} {h : Handler} (hrun : cmdParse g cmd = .run h) :
    Exempt h ∨ g.Open := by
  unfold cmdParse at hrun
  split at hrun
  -- before the login
  · left
    split_ifs at hrun <;> cases hrun <;> decide
  · rename_i hlogged
    split at hrun
    · cases hrun
      exact .inl (by decide)
    · split at hrun
      -- `INJAIL` is still to come
      · left
        split_ifs at hrun
        cases hrun
        decide
      · rename_i hinjail
        split at hrun
        -- `LOCKSYS` is still to come
        · left
          split_ifs at hrun
          cases hrun
          decide
        · rename_i hlocksys
          split at hrun
          -- `FLYCONTEXT` is still to come
          · left
            split_ifs at hrun
            cases hrun
            decide
          · rename_i hfly
            right
            exact ⟨by simpa using hlogged, by simpa using hinjail, by simpa using hlocksys,
              by simpa using hfly⟩

/-! ### The order of one step -/

/-- What a phase says about the steps passed before it. -/
def Stage : Phase → List Gate → Prop
  | .version, hist => hist = []
  | .key, hist => hist = [.version]
  | .hash, hist => hist = [.version, .key]
  | .loop, hist => Shaken hist
  | .closed, _ => True

/-- A step without a handler: what it leaves has to fit the steps it passed. -/
theorem ordered_of_storesOnly {es : List Event} (h : StoresOnly es) (hist gs : List Gate) :
    Ordered hist (es ++ gs.map .passed) ∧ passedOf (es ++ gs.map .passed) = gs := by
  constructor
  · refine ordered_append (h.ordered hist) ?_
    generalize hist ++ passedOf es = hist'
    induction gs generalizing hist' with
    | nil => trivial
    | cons g gs ih => exact ih _
  · rw [passedOf_append, h.passedOf, List.nil_append]
    induction gs with
    | nil => rfl
    | cons g gs ih => simp [passedOf]

theorem mainloopFai_phase (w : World) (s : Srv) (faikey : List Byte) :
    (mainloopFai o aes w s faikey).phase = .loop ∨
      (mainloopFai o aes w s faikey).phase = .closed := by
  simp only [mainloopFai]
  split
  · exact .inr rfl
  · split
    · split
      · exact .inl rfl
      · exact .inr rfl
    · exact .inr rfl

/-- One step is in order, and its phase is reached by the steps passed so far. -/
structure StepOrder (hist : List Gate) (r : Srv × List Event) : Prop where
  ordered : Ordered hist r.2
  stage : Stage r.1.phase (hist ++ passedOf r.2)

theorem stepVersion_order (cfg : Config) (w : World) (s : Srv) :
    StepOrder [] (stepVersion o aes cfg w s) := by
  have hs := chkproto_storesOnly o aes cfg w s.sess
  have hv := ordered_of_storesOnly hs [] [.version]
  have hf := ordered_of_storesOnly hs [] [.fai]
  simp only [stepVersion]
  split
  · exact ⟨hv.1, hv.2⟩
  · rename_i faikey _
    have hstage : ∀ phase, phase = .loop ∨ phase = .closed → Stage phase
        (passedOf ((chkproto o aes cfg w s.sess).events ++ [Gate.fai].map .passed)) := by
      rintro phase (rfl | rfl)
      · exact .inr hf.2
      · trivial
    exact ⟨hf.1, hstage _ (mainloopFai_phase o aes w _ faikey)⟩
  · exact ⟨hs.ordered [], trivial⟩
  · exact ⟨hs.ordered [], trivial⟩

theorem stepKey_order (w : World) (s : Srv) : StepOrder [.version] (stepKey o aes w s) := by
  have hs := getkey_storesOnly o aes s.sess s.enkey
  have hk := ordered_of_storesOnly hs [.version] [.key]
  simp only [stepKey]
  split
  · exact ⟨hs.ordered _, trivial⟩
  · split
    · exact ⟨hs.ordered _, trivial⟩
    · split
      · exact ⟨hk.1, congrArg ([Gate.version] ++ ·) hk.2⟩
      · exact ⟨hs.ordered _, trivial⟩

theorem stepHash_order (cfg : Config) (w : World) (s : Srv) :
    StepOrder [.version, .key] (stepHash o aes cfg w s) := by
  have hs : StoresOnly (chkhash o aes cfg s.sess).events := readbufStores_storesOnly o aes s.sess
  have hh := ordered_of_storesOnly hs [.version, .key] [.hash]
  simp only [stepHash]
  split
  · exact ⟨hh.1, .inl (congrArg ([Gate.version, .key] ++ ·) hh.2)⟩
  · exact ⟨hs.ordered _, trivial⟩

/-- No handler changes the phase. -/
theorem runHandler_phase (cfg : Config) (w : World) (s : Srv) (h : Handler) :
    (runHandler o aes cfg w s h).1.phase = s.phase := by
  cases h <;> rfl

theorem dispatch_order (cfg : Config) (w : World) {s : Srv} {hist : List Gate}
    (hhist : Shaken hist) (hphase : s.phase = .loop) :
    StepOrder hist (dispatch o aes cfg w s) := by
  have hstored : StoresOnly [Event.store .commBuf commbuflen,
      .store .cmd ((excmd s.sess.buf).length + 1)] := (storesOnly_nil.cons _ _).cons _ _
  have hstage : ∀ s' : Srv, s'.phase = s.phase → Stage s'.phase hist := by
    intro s' h
    rw [h, hphase]
    exact hhist
  simp only [dispatch]
  split
  · rename_i h hrun
    have hes := runHandler_storesOnly o aes cfg w s h
    constructor
    -- the flags in the event are the ones `cmd_parse` looked at
    · refine ordered_append (hstored.ordered hist) ⟨?_, hes.ordered _⟩
      intro hne
      rw [hstored.passedOf, List.append_nil]
      exact ⟨hhist, (cmdParse_run hrun).resolve_left hne⟩
    · have hnil : passedOf ([Event.store .commBuf commbuflen,
          .store .cmd ((excmd s.sess.buf).length + 1)] ++
            Event.enter h s.gates :: (runHandler o aes cfg w s h).2) = [] := by
        rw [passedOf_append, hstored.passedOf]
        exact hes.passedOf
      rw [hnil, List.append_nil]
      exact hstage _ (runHandler_phase o aes cfg w s h)
  · exact ⟨hstored.ordered hist, by rw [hstored.passedOf, List.append_nil]; exact hstage _ rfl⟩
  · exact ⟨hstored.ordered hist, by rw [hstored.passedOf, List.append_nil]; exact hstage _ rfl⟩

theorem cmdifce_order (cfg : Config) (w : World) {s : Srv} {hist : List Gate}
    (hhist : Shaken hist) (hphase : s.phase = .loop) :
    StepOrder hist (cmdifce o aes cfg w s) := by
  have hs := readbufStores_storesOnly o aes s.sess
  simp only [cmdifce]
  split
  · refine ⟨hs.ordered hist, ?_⟩
    rw [hs.passedOf, List.append_nil, hphase]
    exact hhist
  · refine ⟨ordered_append (hs.ordered hist) ?_, ?_⟩
    · rw [hs.passedOf, List.append_nil]
      exact (dispatch_order o aes cfg w hhist (by exact hphase)).ordered
    · rw [passedOf_append, hs.passedOf, List.nil_append]
      exact (dispatch_order o aes cfg w hhist (by exact hphase)).stage

/-- **One step keeps the order of the gates.** -/
theorem srvStep_order (cfg : Config) (s : Srv) (w : World) {hist : List Gate}
    (h : Stage s.phase hist) : StepOrder hist (srvStep o aes cfg s w) := by
  unfold srvStep
  cases hphase : s.phase with
  | version =>
    rw [hphase] at h
    obtain rfl : hist = [] := h
    exact stepVersion_order o aes cfg w s
  | key =>
    rw [hphase] at h
    obtain rfl : hist = [.version] := h
    exact stepKey_order o aes w s
  | hash =>
    rw [hphase] at h
    obtain rfl : hist = [.version, .key] := h
    exact stepHash_order o aes cfg w s
  | loop =>
    rw [hphase] at h
    simp only
    split
    · exact cmdifce_order o aes cfg w h hphase
    · exact ⟨trivial, trivial⟩
  | closed => exact ⟨trivial, by rw [hphase]; trivial⟩

/-- **Every run keeps the order of the gates.** -/
theorem srvRun_ordered (cfg : Config) : ∀ (ws : List World) (s : Srv) (hist : List Gate),
    Stage s.phase hist → Ordered hist (srvRun o aes cfg s ws).2.flatten := by
  intro ws
  induction ws with
  | nil => intro s hist _; trivial
  | cons w ws ih =>
    intro s hist h
    obtain ⟨hord, hstage⟩ := srvStep_order o aes cfg s w h
    exact ordered_append hord (ih _ _ hstage)

/-! ### The flags -/

theorem cmdLogin_keeps (env : LoginEnv) (mem : List Byte) :
    (cmdLogin env true mem).logged = true := rfl

theorem runInjail_closer (w : World) (s : Srv) : s.gates.Closer (runInjail o aes w s).gates := by
  simp only [runInjail, runRoot, Srv.gates, cmdInjail]
  split
  · exact Gates.Closer.refl _
  · split
    · exact Gates.Closer.refl _
    · split
      · exact Gates.Closer.refl _
      · split
        · exact Gates.Closer.refl _
        · split
          · exact ⟨id, fun _ => rfl, id, id⟩
          · exact Gates.Closer.refl _

theorem runHandler_closer (cfg : Config) (w : World) (s : Srv) (h : Handler) :
    s.gates.Closer (runHandler o aes cfg w s h).1.gates := by
  cases h with
  | login =>
    refine ⟨?_, id, id, id⟩
    intro hlogged
    simp only [Srv.gates] at hlogged
    simp only [runHandler, runLogin, Srv.gates, hlogged, cmdLogin_keeps]
  | injail => exact runInjail_closer o aes w s
  -- the three commands that clear a flag clear only their own
  | locksys =>
    simp only [runHandler, runRoot, Srv.gates, cmdLocksys]
    split
    · exact Gates.Closer.refl _
    · split
      · exact Gates.Closer.refl _
      · exact ⟨id, id, fun _ => rfl, id⟩
  | flycontext =>
    simp only [runHandler, runRoot, Srv.gates, cmdFlycontext]
    split
    · exact Gates.Closer.refl _
    · split
      · exact Gates.Closer.refl _
      · exact ⟨id, id, id, fun _ => rfl⟩
  | _ => exact Gates.Closer.refl _

/-- The handshake only ever raises the login. -/
theorem enterLoop_closer (w : World) (s : Srv) : s.gates.Closer (enterLoop w s).gates :=
  ⟨fun h => by simp only [Srv.gates] at h; simp [enterLoop, Srv.gates, h], id, id, id⟩

theorem mainloopFai_closer (w : World) (s : Srv) (faikey : List Byte) :
    s.gates.Closer (mainloopFai o aes w s faikey).gates := by
  simp only [mainloopFai]
  split
  · exact Gates.Closer.refl _
  · split
    · split
      · exact enterLoop_closer w { s with sess := _ }
      · exact Gates.Closer.refl _
    · exact Gates.Closer.refl _

theorem dispatch_closer (cfg : Config) (w : World) (s : Srv) :
    s.gates.Closer (dispatch o aes cfg w s).1.gates := by
  simp only [dispatch]
  split
  · exact runHandler_closer o aes cfg w s _
  · exact Gates.Closer.refl _
  · exact Gates.Closer.refl _

theorem cmdifce_closer (cfg : Config) (w : World) (s : Srv) :
    s.gates.Closer (cmdifce o aes cfg w s).1.gates := by
  have hgates : ∀ sess : Sess, ({ s with sess := sess } : Srv).gates = s.gates := fun _ => rfl
  simp only [cmdifce]
  split
  · exact Gates.Closer.refl _
  · rw [← hgates]
    exact dispatch_closer o aes cfg w _

/-- **No step takes the login back or sets a cleared flag.** -/
theorem srvStep_closer (cfg : Config) (s : Srv) (w : World) :
    s.gates.Closer (srvStep o aes cfg s w).1.gates := by
  unfold srvStep
  cases s.phase with
  | version =>
    simp only [stepVersion]
    split
    · exact Gates.Closer.refl _
    · exact mainloopFai_closer o aes w { s with sess := (chkproto o aes cfg w s.sess).sess } _
    · exact Gates.Closer.refl _
    · exact Gates.Closer.refl _
  | key =>
    simp only [stepKey]
    split
    · exact Gates.Closer.refl _
    · split
      · exact Gates.Closer.refl _
      · split <;> exact Gates.Closer.refl _
  | hash =>
    simp only [stepHash]
    split
    · exact enterLoop_closer w { s with sess := _ }
    · exact Gates.Closer.refl _
  | loop =>
    simp only
    split
    · exact cmdifce_closer o aes cfg w s
    · exact Gates.Closer.refl _
  | closed => exact Gates.Closer.refl _

end Layer

/-- A client that sends the version, a key, the hash and a command reaches the
handler of the command. -/
example : (srvRun .little Aes.sample exampleConfig (connect exampleConfig (exampleNet
      (clearFrame (lit "0.0") ++ clearFrame (lit "key") ++ sealedFrames [lit "h", lit "echo x"])))
      (List.replicate 4 exampleWorld)).2.flatten.filter (fun e => e matches .passed _ | .enter _ _) =
    [.passed .version, .passed .key, .passed .hash, .enter .echo ⟨true, false, false, false⟩] := by
  decide +kernel

end TFProtocol
