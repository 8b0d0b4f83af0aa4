import TFProtocol.Lib.Runs
import TFProtocol.Session

/-!
# The watchdog of a lock

Each lock that `NETLOCK` takes has a thread, `netlock_wdg`, that ends the process when the
client has been silent for the time-out of the lock.  Every `read` and `write` on the
connection adds one to `comm.act`, and the thread compares the counter with the value it
had when it last looked.  The counter is a `char`.

The system here is the counter and the threads of all locks, and a run is any sequence of
calls on the connection, threads that start and end, and looks.

## Main definitions

* `WdgSys`, `wdgNext` — the counter, the threads and their steps.
* `quietNext` — the same with the numbers of calls themselves.
* `Unwrapped` — no number of calls between two looks is a multiple of 256.

## Main results

* `watchdog_real_iff` — the process ends exactly on real silence if and only if the run is
  unwrapped.
-/

namespace TFProtocol

/-! ### The threads -/

/-- What happens, in the order in which it happens. -/
inductive WdgEv
  /-- A `read` or a `write` in `rdfd` or `wrfd` returned. -/
  | io
  /-- `netlock_switch` starts the thread of a lock. -/
  | create (i : ℕ)
  /-- `cmd_netunlock` cancels the thread of a lock. -/
  | cancel (i : ℕ)
  /-- The thread of a lock wakes up. -/
  | sample (i : ℕ)
  deriving DecidableEq, Repr

/-- The counter, and the local `act` of the thread of each lock. -/
structure WdgSys where
  act : BitVec 8
  wdg : ℕ → Option (BitVec 8)

/-- A step; nothing is left when the process has ended. -/
def wdgNext (s : WdgSys) : WdgEv → Option WdgSys
  | .io => some { s with act := s.act + 1 }
  | .create i => some { s with wdg := Function.update s.wdg i (some s.act) }
  | .cancel i => some { s with wdg := Function.update s.wdg i none }
  | .sample i =>
    match s.wdg i with
    | none => some s
    | some act =>
      if s.act = act then none else some { s with wdg := Function.update s.wdg i (some s.act) }

/-- The number of calls since each thread started or last looked.  The process ends when a
thread looks and there was none. -/
def quietNext (since : ℕ → Option ℕ) : WdgEv → Option (ℕ → Option ℕ)
  | .io => some fun i => (since i).map (· + 1)
  | .create i => some (Function.update since i (some 0))
  | .cancel i => some (Function.update since i none)
  | .sample i =>
    match since i with
    | none => some since
    | some n => if n = 0 then none else some (Function.update since i (some 0))

/-- A thread that looks finds no number of calls, other than zero, that the counter cannot
tell from zero. -/
def Unwrapped (since : ℕ → Option ℕ) (e : WdgEv) : Prop :=
  ∀ i n, e = .sample i → since i = some n → 256 ∣ n → n = 0

/-- **The process ends exactly on silence**, at every point of a run. -/
def EndsOnSilence (s : WdgSys) (since : ℕ → Option ℕ) (run : List WdgEv) : Prop :=
  ∀ before, before <+: run →
    (Runs.run wdgNext s before = none ↔ Runs.run quietNext since before = none)

/-! ### Calls on the connection -/

/-- A number of calls. -/
theorem run_io (s : WdgSys) : ∀ n, Runs.run wdgNext s (List.replicate n .io) =
    some { s with act := s.act + BitVec.ofNat 8 n } := by
  intro n
  induction n generalizing s with
  | zero => simp [Runs.run]
  | succ n ih =>
    rw [List.replicate_succ, Runs.run]
    simp only [wdgNext, Option.bind_some, ih]
    congr 2
    rw [BitVec.add_assoc, Nat.add_comm n 1, BitVec.ofNat_add]
    rfl

theorem run_quiet_io (since : ℕ → Option ℕ) : ∀ n,
    Runs.run quietNext since (List.replicate n .io) = some fun i => (since i).map (· + n) := by
  intro n
  induction n generalizing since with
  | zero => simp [Runs.run]
  | succ n ih =>
    rw [List.replicate_succ, Runs.run]
    simp only [quietNext, Option.bind_some, ih, Option.map_map]
    congr 2
    funext i
    congr 1
    funext k
    simp only [Function.comp_apply]
    omega

/-- What `wrfd` does to the counter. -/
theorem run_wrfd (s : Sess) (buf : List Byte) (wdg : ℕ → Option (BitVec 8)) :
    Runs.run wdgNext ⟨s.act, wdg⟩ (List.replicate (wrLoop s.wsched buf).calls .io) =
      some ⟨(wrfd s buf).2.act, wdg⟩ :=
  run_io _ _

/-- What `rdfd` does to the counter. -/
theorem run_rdfd (s : Sess) (len : ℤ) (wdg : ℕ → Option (BitVec 8)) :
    Runs.run wdgNext ⟨s.act, wdg⟩ (List.replicate (rdLoop s.rsched len.toNat s.inp).calls .io) =
      some ⟨(rdfd s len).sess.act, wdg⟩ :=
  run_io _ _

/-! ### Counting modulo 256 -/

/-- Every thread keeps the counter as it was that many calls ago. -/
def Tracks (s : WdgSys) (since : ℕ → Option ℕ) : Prop :=
  ∀ i, s.wdg i = (since i).map fun n => s.act - BitVec.ofNat 8 n

theorem eq_sub_ofNat_iff (a : BitVec 8) (n : ℕ) : a = a - BitVec.ofNat 8 n ↔ 256 ∣ n := by
  constructor
  · intro h
    have hzero : BitVec.ofNat 8 n = 0#8 := by
      have := congrArg (fun x => a - x) h
      simpa using this.symm
    have hnat : n % 256 = 0 := by
      have := congrArg BitVec.toNat hzero
      simpa using this
    exact Nat.dvd_of_mod_eq_zero hnat
  · rintro ⟨k, rfl⟩
    have hzero : BitVec.ofNat 8 (256 * k) = 0#8 := by
      apply BitVec.eq_of_toNat_eq
      simp [BitVec.toNat_ofNat, Nat.mul_mod_right]
    rw [hzero, BitVec.sub_zero]

/-- A thread that looks cannot tell a multiple of 256 calls from none. -/
theorem wdgNext_sample {s : WdgSys} {i n : ℕ} (hi : s.wdg i = some (s.act - BitVec.ofNat 8 n)) :
    wdgNext s (.sample i) =
      if 256 ∣ n then none else some { s with wdg := Function.update s.wdg i (some s.act) } := by
  simp only [wdgNext, hi, eq_sub_ofNat_iff]

/-- A step of both systems: the process ends in both or in neither, unless the counter went
round, and the threads keep track. -/
theorem Tracks.next {s : WdgSys} {since : ℕ → Option ℕ} (h : Tracks s since) {e : WdgEv}
    (hok : Unwrapped since e) :
    (wdgNext s e = none ∧ quietNext since e = none) ∨
      ∃ t since', wdgNext s e = some t ∧ quietNext since e = some since' ∧ Tracks t since' := by
  cases e with
  | io =>
    refine .inr ⟨_, _, rfl, rfl, fun i => ?_⟩
    simp only [h i, Option.map_map]
    cases since i with
    | none => rfl
    | some n =>
      simp only [Option.map_some, Function.comp_apply, BitVec.ofNat_add, Option.some.injEq]
      bv_omega
  | create i =>
    refine .inr ⟨_, _, rfl, rfl, fun j => ?_⟩
    by_cases hj : j = i
    · simp [hj]
    · simpa [hj] using h j
  | cancel i =>
    refine .inr ⟨_, _, rfl, rfl, fun j => ?_⟩
    by_cases hj : j = i
    · simp [hj]
    · simpa [hj] using h j
  | sample i =>
    have hi := h i
    cases hn : since i with
    | none =>
      rw [hn, Option.map_none] at hi
      exact .inr ⟨s, since, by simp [wdgNext, hi], by simp [quietNext, hn], h⟩
    | some n =>
      rw [hn, Option.map_some] at hi
      by_cases hdvd : 256 ∣ n
      · have hzero : n = 0 := hok i n rfl hn hdvd
        exact .inl ⟨by rw [wdgNext_sample hi, if_pos hdvd], by simp [quietNext, hn, hzero]⟩
      · have hne : n ≠ 0 := by
          rintro rfl
          exact hdvd (Nat.dvd_zero 256)
        refine .inr ⟨{ s with wdg := Function.update s.wdg i (some s.act) },
          Function.update since i (some 0), by rw [wdgNext_sample hi, if_neg hdvd],
          by simp [quietNext, hn, hne], fun j => ?_⟩
        by_cases hj : j = i
        · simp [hj]
        · simpa [hj] using h j

/-- Where the counter went round, the process ends although there were calls. -/
theorem Tracks.next_wrapped {s : WdgSys} {since : ℕ → Option ℕ} (h : Tracks s since) {e : WdgEv}
    (hok : ¬ Unwrapped since e) : wdgNext s e = none ∧ quietNext since e ≠ none := by
  simp only [Unwrapped, not_forall] at hok
  obtain ⟨i, n, rfl, hn, hdvd, hne⟩ := hok
  have hi := h i
  rw [hn, Option.map_some] at hi
  exact ⟨by rw [wdgNext_sample hi, if_pos hdvd], by simp [quietNext, hn, hne]⟩

theorem endsOnSilence_cons {s : WdgSys} {since : ℕ → Option ℕ} {e : WdgEv} {run : List WdgEv} :
    EndsOnSilence s since (e :: run) ↔ ∀ before, before <+: run →
      (Runs.run wdgNext s (e :: before) = none ↔ Runs.run quietNext since (e :: before) = none) := by
  constructor
  · intro h before hbefore
    exact h _ (List.cons_prefix_cons.mpr ⟨rfl, hbefore⟩)
  · intro h before hbefore
    cases before with
    | nil => simp [Runs.run]
    | cons b before =>
      obtain ⟨rfl, hpre⟩ := List.cons_prefix_cons.mp hbefore
      exact h before hpre

theorem Tracks.endsOnSilence_iff : ∀ (run : List WdgEv) {s : WdgSys} {since : ℕ → Option ℕ},
    Tracks s since → (EndsOnSilence s since run ↔ Runs.Meets quietNext Unwrapped since run) := by
  intro run
  induction run with
  | nil =>
    intro s since _
    refine ⟨fun _ => trivial, fun _ before hbefore => ?_⟩
    rw [List.prefix_nil.mp hbefore]
    simp [Runs.run]
  | cons e run ih =>
    intro s since h
    rw [endsOnSilence_cons, Runs.Meets]
    by_cases hok : Unwrapped since e
    · rcases h.next hok with ⟨hwdg, hquiet⟩ | ⟨t, since', hwdg, hquiet, ht⟩
      · simp [Runs.run, hwdg, hquiet, hok]
      · simp only [Runs.run, hwdg, hquiet, hok, Option.bind_some, true_and, Option.mem_def,
          Option.some.injEq, forall_eq']
        exact ih ht
    · obtain ⟨hwdg, hquiet⟩ := h.next_wrapped hok
      refine ⟨fun hends => ?_, fun hmeets => absurd hmeets.1 hok⟩
      have hfirst := (hends [] List.nil_prefix).mp (by simp [Runs.run, hwdg])
      obtain ⟨since', hsince'⟩ := Option.ne_none_iff_exists'.mp hquiet
      simp [Runs.run, hsince'] at hfirst

/-- **When the watchdogs fire on real silence only**: in exactly the runs in which no thread
finds, between two looks, a number of calls that is a multiple of 256 and not zero. -/
theorem watchdog_real_iff (act : BitVec 8) (run : List WdgEv) :
    EndsOnSilence ⟨act, fun _ => none⟩ (fun _ => none) run ↔
      Runs.Meets quietNext Unwrapped (fun _ => none) run :=
  Tracks.endsOnSilence_iff run fun _ => rfl

/-- After 256 calls the counter is where it was, and the thread ends the process. -/
theorem watchdog_wraps :
    ¬ EndsOnSilence ⟨0, fun _ => none⟩ (fun _ => none)
      (.create 0 :: (List.replicate 256 .io ++ [.sample 0])) := by
  intro h
  have hwdg : Runs.run wdgNext ⟨0, fun _ => none⟩
      (.create 0 :: (List.replicate 256 .io ++ [.sample 0])) = none := by
    rw [Runs.run, wdgNext, Option.bind_some, Runs.run_append, run_io]
    rfl
  have hquiet := (h _ List.prefix_rfl).mp hwdg
  rw [Runs.run, quietNext, Option.bind_some, Runs.run_append, run_quiet_io] at hquiet
  simp [Runs.run, quietNext] at hquiet

end TFProtocol
