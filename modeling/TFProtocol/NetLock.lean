import TFProtocol.Lib.RecordLocks
import TFProtocol.Lib.Runs
import TFProtocol.NetMutex

/-!
# The table of file locks

`NETLOCK` and `NETLOCK_TRY` open a file, lock it and start a thread that watches the client;
the descriptor is kept in a slot of a table of eight, and the client gets the number of the
slot.  `NETUNLOCK` takes such a number and gives the lock up.

A slot is used from the moment the thread runs.  Locks are those of the process: two slots
may stand for one file, and then giving up one of them releases the lock of both.

## Main definitions

* `Slot`, `NetTable` — the table, and the process it belongs to.
* `netlockSwitch`, `cmdNetunlock` — the handlers.
* `netNext` — one command.
* `NetAllowed` — what a command must meet for the table to stay right.

## Main results

* `netlockSwitch_cases`, `cmdNetunlock_cases` — everything a command can do.
* `netlock_table` — **the table is right in every run of allowed commands.**
-/

namespace TFProtocol

open Bytes CStr RecordLocks

variable {ι : Type} [DecidableEq ι]

/-! ### The handlers -/

/-- `NETLOCK_LEN`. -/
def netlockLen : ℕ := 8

/-- `CMD_ENETLOCK`. -/
def cmdEnetlock : List Byte := lit "54 : Failed to acquire or release NETLOCK."

/-- `struct netlock_d`, without the handle of the thread. -/
structure Slot where
  fd : ℤ
  used : Bool
  tmout : BitVec 32
  deriving DecidableEq, Repr

/-- The table `netlck` with the memory behind it, the process, and the indices that were
read or written so far. -/
structure NetTable (ι : Type) where
  slots : ℕ → Slot
  proc : Proc ι
  touched : List ℤ

/-- The outcomes of the calls a command makes. -/
structure NetEnv (ι : Type) where
  /-- `jaildir` lets the path through. -/
  jailed : Bool
  /-- The descriptor and the file of `open`, if it succeeds. -/
  opens : Option (ℕ × ι)
  locks : Bool
  /-- The thread is created. -/
  thread : Bool
  unlocks : Bool
  /-- `pthread_cancel` returns zero or the number of an error. -/
  cancel : ℕ
  deriving DecidableEq, Repr

/-- The descriptor in a slot, as the kernel takes it. -/
def Slot.num (s : Slot) : ℕ := s.fd.toNat

/-- `crtlock(fd, UNLOCK)`: whether it succeeds, and the process. -/
def crtunlock (e : NetEnv ι) (p : Proc ι) (fd : ℤ) : Bool × Proc ι :=
  if e.unlocks ∧ 0 ≤ fd ∧ (p.fds fd.toNat).isSome then (true, p.unlocked fd.toNat) else (false, p)

/-- A table with a slot replaced. -/
def NetTable.put (s : NetTable ι) (i : ℕ) (slot : Slot) : NetTable ι :=
  { s with slots := Function.update s.slots i slot }

/-- A table in which an index was used. -/
def NetTable.touch (s : NetTable ι) (is : List ℤ) : NetTable ι :=
  { s with touched := s.touched ++ is }

/-- The first slot that is not used. -/
def NetTable.vacant (s : NetTable ι) : Option ℕ :=
  (List.range netlockLen).find? fun i => !(s.slots i).used

/-- What a command leaves: the reply and the table. -/
abbrev NetOut (ι : Type) := List Byte × NetTable ι

/-- The part of `netlock_switch` behind `open`, which returned `fd` for the file `f`. -/
def netlockAcquire (s : NetTable ι) (e : NetEnv ι) (i fd : ℕ) (f : ι) (tmout : ℤ) : NetOut ι :=
  let slot : Slot := ⟨fd, (s.slots i).used, BitVec.ofInt 32 tmout⟩
  let s := { s with proc := s.proc.opened fd f }.put i slot
  if !e.locks then (cmdFailText cmdEnetlock, s)
  else
    let s := { s with proc := s.proc.locked fd }
    if !e.thread then
      (cmdFailText cmdEnetlock, { s with proc := (crtunlock e s.proc fd).2 })
    else (cmdOkText ++ lit " " ++ udec i, s.put i { slot with used := true })

/-- `netlock_switch`, on the text behind the command name; both commands differ only in
whether the lock is waited for. -/
def netlockSwitch (s : NetTable ι) (e : NetEnv ι) (arg : List Byte) : NetOut ι :=
  match strchr (ofChar ' ') arg with
  | none => (cmdFailText (lit "16 : Missing parameter from command."), s)
  | some (pt, _) =>
    if !e.jailed then (cmdFailText cmdEaccess, s)
    else
      match s.vacant with
      | none => (cmdFailText cmdEnetlock, s.touch ((List.range netlockLen).map Nat.cast))
      | some i =>
        let s := s.touch ((List.range (i + 1)).map Nat.cast)
        match e.opens with
        | none => (cmdFailText cmdEnetlock, s.put i { s.slots i with fd := -1 })
        | some (fd, f) => netlockAcquire s e i fd f (atoi pt)

/-- `cmd_netunlock`, on the text behind the command name.  The bound is checked with `>`. -/
def cmdNetunlock (s : NetTable ι) (e : NetEnv ι) (arg : List Byte) : NetOut ι :=
  let i := atoi arg
  if i < 0 ∨ i > netlockLen then (cmdFailText cmdEnetlock, s)
  else
    let s := s.touch [i]
    let slot := s.slots i.toNat
    if !slot.used then (cmdFailText cmdEnetlock, s)
    else
      let r := crtunlock e s.proc slot.fd
      let s := { s with proc := r.2 }
      if !r.1 ∨ (e.cancel : ℤ) = -1 then (cmdFailText cmdEnetlock, s)
      else (cmdOkText, { s with proc := s.proc.closed slot.num }.put i.toNat
        { slot with used := false })

/-! ### Commands -/

/-- A command, with the text behind its name. -/
inductive NetCmd (ι : Type)
  | netlock (arg : List Byte) (e : NetEnv ι)
  | netlockTry (arg : List Byte) (e : NetEnv ι)
  | netunlock (arg : List Byte) (e : NetEnv ι)
  deriving DecidableEq, Repr

/-- The outcomes of the calls of a command. -/
def NetCmd.env : NetCmd ι → NetEnv ι
  | .netlock _ e => e
  | .netlockTry _ e => e
  | .netunlock _ e => e

/-- What a command does. -/
def netOut (s : NetTable ι) : NetCmd ι → NetOut ι
  | .netlock arg e => netlockSwitch s e arg
  | .netlockTry arg e => netlockSwitch s e arg
  | .netunlock arg e => cmdNetunlock s e arg

/-- One command.  `open` returns a descriptor that is not open. -/
def netNext (s : NetTable ι) (c : NetCmd ι) : Option (NetTable ι) :=
  if c.env.opens.any fun r => (s.proc.fds r.1).isSome then none else some (netOut s c).2

/-- The table of a new process: no slot is used; the memory behind the table is anything. -/
def NetTable.fresh (behind : ℕ → Slot) (fds : ℕ → Option ι) : NetTable ι where
  slots := fun i => if i < netlockLen then ⟨0, false, 0⟩ else behind i
  proc := ⟨fds, fun _ => false⟩
  touched := []

/-! ### What the table should be -/

/-- Every index was one of the table, and every slot that is used stands for a file that is
open and locked. -/
structure NetState (s : NetTable ι) : Prop where
  indices : ∀ i ∈ s.touched, 0 ≤ i ∧ i < netlockLen
  guards : ∀ i < netlockLen, (s.slots i).used = true → s.proc.Guards (s.slots i).num

/-- `NETUNLOCK` changes no other slot and leaves the locks of the others, and a `NETLOCK`
that fails leaves no descriptor. -/
structure NetStep (s t : NetTable ι) (c : NetCmd ι) : Prop where
  others : ∀ arg e, c = .netunlock arg e → ∀ j : ℕ, (j : ℤ) ≠ atoi arg → t.slots j = s.slots j
  locks : ∀ arg e, c = .netunlock arg e → ∀ j < netlockLen, (j : ℤ) ≠ atoi arg →
    (s.slots j).used = true → t.proc.Guards (s.slots j).num
  leak : ∀ arg e, c = .netlock arg e ∨ c = .netlockTry arg e →
    (∃ err, (netOut s c).1 = cmdFailText err) → t.proc.fds = s.proc.fds

/-- What must hold of a `NETLOCK` that opens a file: it is locked, and the thread starts. -/
def LockAllowed (s : NetTable ι) (arg : List Byte) (e : NetEnv ι) : Prop :=
  (strchr (ofChar ' ') arg).isSome → e.jailed → s.vacant.isSome → e.opens.isSome →
    e.locks ∧ e.thread

/-- No other slot that is used stands for the file of this one. -/
def SoleSlot (s : NetTable ι) (i : ℕ) : Prop :=
  ∀ j < netlockLen, j ≠ i → (s.slots j).used = true →
    s.proc.fds (s.slots j).num ≠ s.proc.fds (s.slots i).num

/-- What must hold of a command: a `NETLOCK` that opens a file succeeds, and a `NETUNLOCK`
names a slot of the table whose file no other slot stands for. -/
def NetAllowed (s : NetTable ι) : NetCmd ι → Prop
  | .netlock arg e => LockAllowed s arg e
  | .netlockTry arg e => LockAllowed s arg e
  | .netunlock arg e => atoi arg ≠ netlockLen ∧
    ∀ i < netlockLen, (i : ℤ) = atoi arg → (s.slots i).used = true → e.unlocks = true → SoleSlot s i

instance (s : NetTable ι) (i : ℕ) : Decidable (SoleSlot s i) :=
  inferInstanceAs (Decidable (∀ j < netlockLen, _))

instance (s : NetTable ι) (arg : List Byte) (e : NetEnv ι) : Decidable (LockAllowed s arg e) :=
  inferInstanceAs (Decidable (_ → _ → _ → _ → _ ∧ _))

instance (s : NetTable ι) : ∀ c, Decidable (NetAllowed s c)
  | .netlock .. => inferInstanceAs (Decidable (LockAllowed ..))
  | .netlockTry .. => inferInstanceAs (Decidable (LockAllowed ..))
  | .netunlock .. => inferInstanceAs (Decidable (_ ∧ _))

/-! ### What a command does -/

/-- The slots that are used, and the process, are as they were. -/
structure Idle (s t : NetTable ι) : Prop where
  proc : t.proc = s.proc
  used : ∀ j, (t.slots j).used = (s.slots j).used
  slots : ∀ j, (s.slots j).used = true → t.slots j = s.slots j
  touched : ∃ is, t.touched = s.touched ++ is ∧ ∀ i ∈ is, 0 ≤ i ∧ i < (netlockLen : ℤ)

omit [DecidableEq ι] in
theorem NetTable.vacant_spec {s : NetTable ι} {i : ℕ} (h : s.vacant = some i) :
    i < netlockLen ∧ (s.slots i).used = false := by
  have hmem := List.mem_range.mp (List.mem_of_find?_eq_some h)
  have hused := List.find?_some h
  exact ⟨hmem, by simpa using hused⟩

theorem range_in_table {n : ℕ} (h : n ≤ netlockLen) :
    ∀ i ∈ (List.range n).map (Nat.cast : ℕ → ℤ), 0 ≤ i ∧ i < (netlockLen : ℤ) := by
  intro i hi
  obtain ⟨k, hk, rfl⟩ := List.mem_map.mp hi
  have := List.mem_range.mp hk
  omega

/-- **What `NETLOCK` does**: it fails before a file is open, or it goes on with a file that
it opened for a slot that is not used. -/
theorem netlockSwitch_cases (s : NetTable ι) (e : NetEnv ι) (arg : List Byte) :
    (∃ err, (netlockSwitch s e arg).1 = cmdFailText err ∧ Idle s (netlockSwitch s e arg).2) ∨
      ∃ pt rest i fd f, strchr (ofChar ' ') arg = some (pt, rest) ∧ e.jailed = true ∧
        s.vacant = some i ∧ e.opens = some (fd, f) ∧
        netlockSwitch s e arg
          = netlockAcquire (s.touch ((List.range (i + 1)).map Nat.cast)) e i fd f (atoi pt) := by
  rcases hpt : strchr (ofChar ' ') arg with _ | ⟨pt, rest⟩
  · refine .inl ⟨_, by rw [netlockSwitch, hpt], ?_⟩
    rw [netlockSwitch, hpt]
    exact ⟨rfl, fun _ => rfl, fun _ _ => rfl, [], by simp, by simp⟩
  rcases hj : e.jailed with _ | _
  · refine .inl ⟨cmdEaccess, by simp [netlockSwitch, hpt, hj], ?_⟩
    simp only [netlockSwitch, hpt, hj, Bool.not_false, if_true]
    exact ⟨rfl, fun _ => rfl, fun _ _ => rfl, [], by simp, by simp⟩
  rcases hv : s.vacant with _ | i
  · refine .inl ⟨cmdEnetlock, by simp [netlockSwitch, hpt, hj, hv], ?_⟩
    simp only [netlockSwitch, hpt, hj, hv, Bool.not_true, Bool.false_eq_true, if_false]
    exact ⟨rfl, fun _ => rfl, fun _ _ => rfl, _, rfl, range_in_table le_rfl⟩
  obtain ⟨hi, hunused⟩ := NetTable.vacant_spec hv
  rcases ho : e.opens with _ | ⟨fd, f⟩
  · refine .inl ⟨cmdEnetlock, by simp [netlockSwitch, hpt, hj, hv, ho], ?_⟩
    simp only [netlockSwitch, hpt, hj, hv, ho, Bool.not_true, Bool.false_eq_true, if_false]
    refine ⟨rfl, fun j => ?_, fun j hj => ?_, _, rfl, range_in_table hi⟩
    · by_cases hji : j = i
      · subst hji
        simp [NetTable.put, NetTable.touch]
      · simp [NetTable.put, NetTable.touch, Function.update_of_ne hji]
    · have hji : j ≠ i := fun heq => by simp [heq, hunused] at hj
      simp [NetTable.put, NetTable.touch, Function.update_of_ne hji]
  · refine .inr ⟨pt, rest, i, fd, f, rfl, rfl, rfl, rfl, ?_⟩
    simp only [netlockSwitch, hpt, hj, hv, ho, Bool.not_true, Bool.false_eq_true, if_false]

/-- **What `NETUNLOCK` does** with a number other than the bound: it fails and changes
nothing, or it gives up the lock and the descriptor of a slot that is used. -/
theorem cmdNetunlock_cases (s : NetTable ι) (e : NetEnv ι) {arg : List Byte}
    (hlen : atoi arg ≠ netlockLen) :
    ((cmdNetunlock s e arg).2.slots = s.slots ∧ Idle s (cmdNetunlock s e arg).2) ∨
      ∃ i < netlockLen, (i : ℤ) = atoi arg ∧ (s.slots i).used = true ∧ e.unlocks = true ∧
        cmdNetunlock s e arg = (cmdOkText,
          { s.touch [(i : ℤ)] with
            proc := (s.proc.unlocked (s.slots i).num).closed (s.slots i).num }.put i
              { s.slots i with used := false }) := by
  by_cases hbound : atoi arg < 0 ∨ atoi arg > netlockLen
  · rw [cmdNetunlock, if_pos hbound]
    exact .inl ⟨rfl, rfl, fun _ => rfl, fun _ _ => rfl, [], by simp, by simp⟩
  obtain ⟨i, hi⟩ : ∃ i : ℕ, (i : ℤ) = atoi arg := ⟨(atoi arg).toNat, by omega⟩
  have hlt : i < netlockLen := by omega
  have htouched : ∃ is, s.touched ++ [(i : ℤ)] = s.touched ++ is ∧
      ∀ k ∈ is, 0 ≤ k ∧ k < (netlockLen : ℤ) := ⟨_, rfl, by simpa using hlt⟩
  rw [cmdNetunlock, if_neg hbound, ← hi]
  dsimp only [NetTable.touch]
  rw [Int.toNat_natCast]
  cases hused : (s.slots i).used with
  | false => exact .inl ⟨rfl, rfl, fun _ => rfl, fun _ _ => rfl, htouched⟩
  | true =>
    rw [if_neg (by simp)]
    by_cases hun : e.unlocks ∧ 0 ≤ (s.slots i).fd ∧ (s.proc.fds (s.slots i).fd.toNat).isSome
    · refine .inr ⟨i, hlt, rfl, hused, hun.1, ?_⟩
      have hcancel : ¬ ((e.cancel : ℤ) = -1) := by omega
      simp [crtunlock, hun, hcancel, Slot.num]
    · rw [crtunlock, if_neg hun, if_pos (.inl (by simp))]
      exact .inl ⟨rfl, rfl, fun _ => rfl, fun _ _ => rfl, htouched⟩

/-! ### The invariant -/

/-- What the table should be, and no two slots that are used have the same descriptor. -/
structure NetInv (s : NetTable ι) : Prop extends NetState s where
  distinct : ∀ i < netlockLen, ∀ j < netlockLen, (s.slots i).used = true →
    (s.slots j).used = true → i ≠ j → (s.slots i).num ≠ (s.slots j).num

section

variable {s t : NetTable ι}

omit [DecidableEq ι] in
theorem NetInv.of_idle (h : NetInv s) (ht : Idle s t) : NetInv t := by
  obtain ⟨is, his, hin⟩ := ht.touched
  have hslot : ∀ i, (t.slots i).used = true → t.slots i = s.slots i := fun i hu =>
    ht.slots i (ht.used i ▸ hu)
  refine ⟨⟨?_, ?_⟩, ?_⟩
  · intro i hi
    rw [his] at hi
    rcases List.mem_append.mp hi with hi | hi
    · exact h.indices i hi
    · exact hin i hi
  · intro i hi hu
    rw [ht.proc, hslot i hu]
    exact h.guards i hi (ht.used i ▸ hu)
  · intro i hi j hj hui huj hij
    rw [hslot i hui, hslot j huj]
    exact h.distinct i hi j hj (ht.used i ▸ hui) (ht.used j ▸ huj) hij

omit [DecidableEq ι] in
/-- A table in which one slot was replaced. -/
theorem NetInv.put (h : NetInv s) {i : ℕ} (hi : i < netlockLen) {slot : Slot} {p : Proc ι}
    {is : List ℤ} (his : ∀ k ∈ is, 0 ≤ k ∧ k < (netlockLen : ℤ))
    (hothers : ∀ j < netlockLen, j ≠ i → (s.slots j).used = true → p.Guards (s.slots j).num)
    (hslot : slot.used = true → p.Guards slot.num ∧
      ∀ j < netlockLen, j ≠ i → (s.slots j).used = true → (s.slots j).num ≠ slot.num) :
    NetInv ({ s.touch is with proc := p }.put i slot) := by
  have hself : ({ s.touch is with proc := p }.put i slot).slots i = slot :=
    Function.update_self ..
  have hother : ∀ j, j ≠ i → ({ s.touch is with proc := p }.put i slot).slots j = s.slots j :=
    fun j hji => Function.update_of_ne hji ..
  refine ⟨⟨?_, ?_⟩, ?_⟩
  · intro k hk
    rcases List.mem_append.mp hk with hk | hk
    · exact h.indices k hk
    · exact his k hk
  · intro j hj hu
    by_cases hji : j = i
    · subst hji
      rw [hself] at hu ⊢
      exact (hslot hu).1
    · rw [hother j hji] at hu ⊢
      exact hothers j hj hji hu
  · intro j hj k hk huj huk hjk
    by_cases hji : j = i
    · subst hji
      rw [hself] at huj ⊢
      rw [hother k (Ne.symm hjk)] at huk ⊢
      exact ((hslot huj).2 k hk (Ne.symm hjk) huk).symm
    · rw [hother j hji] at huj ⊢
      by_cases hki : k = i
      · subst hki
        rw [hself] at huk ⊢
        exact (hslot huk).2 j hj hji huj
      · rw [hother k hki] at huk ⊢
        exact h.distinct j hj k hk huj huk hjk

/-- **A `NETLOCK` that is allowed.** -/
theorem NetInv.netlock (h : NetInv s) {e : NetEnv ι} {arg : List Byte}
    (hok : LockAllowed s arg e) (hfresh : ∀ r ∈ e.opens, s.proc.fds r.1 = none) :
    NetInv (netlockSwitch s e arg).2 ∧
      ((∃ err, (netlockSwitch s e arg).1 = cmdFailText err) →
        (netlockSwitch s e arg).2.proc.fds = s.proc.fds) := by
  rcases netlockSwitch_cases s e arg with ⟨err, -, hidle⟩ |
    ⟨pt, rest, i, fd, f, hpt, hj, hv, ho, heq⟩
  · exact ⟨h.of_idle hidle, fun _ => by rw [hidle.proc]⟩
  · obtain ⟨hlocks, hthread⟩ := hok (by rw [hpt]; rfl) hj (by rw [hv]; rfl) (by rw [ho]; rfl)
    obtain ⟨hi, hunused⟩ := NetTable.vacant_spec hv
    have hnone : s.proc.fds fd = none := hfresh _ ho
    have hfd : ∀ j < netlockLen, (s.slots j).used = true → (s.slots j).num ≠ fd :=
      fun j hj hu => (h.guards j hj hu).fd_ne hnone
    have hout : netlockSwitch s e arg = (cmdOkText ++ lit " " ++ udec i,
        { s.touch ((List.range (i + 1)).map Nat.cast) with
          proc := (s.proc.opened fd f).locked fd }.put i ⟨fd, true, BitVec.ofInt 32 (atoi pt)⟩) := by
      rw [heq, netlockAcquire]
      simp [hlocks, hthread, NetTable.put, NetTable.touch]
    rw [hout]
    constructor
    · apply h.put hi (range_in_table hi)
      · intro j hj _ hu
        exact (h.guards j hj hu).opened_locked (hfd j hj hu) f
      · intro _
        exact ⟨Proc.guards_opened_locked s.proc fd f, fun j hj _ hu => hfd j hj hu⟩
    · rintro ⟨err, herr⟩
      have hhead := congrArg List.head? herr
      simp [cmdOkText, cmdFailText, lit, ofChar] at hhead

/-- **A `NETUNLOCK` that is allowed.** -/
theorem NetInv.netunlock (h : NetInv s) {e : NetEnv ι} {arg : List Byte}
    (hok : NetAllowed s (.netunlock arg e)) :
    NetInv (cmdNetunlock s e arg).2 ∧
      (∀ j : ℕ, (j : ℤ) ≠ atoi arg → (cmdNetunlock s e arg).2.slots j = s.slots j) ∧
      ∀ j < netlockLen, (j : ℤ) ≠ atoi arg → (s.slots j).used = true →
        (cmdNetunlock s e arg).2.proc.Guards (s.slots j).num := by
  obtain ⟨hlen, halone⟩ := hok
  rcases cmdNetunlock_cases s e hlen with ⟨hslots, hidle⟩ | ⟨i, hi, hatoi, hused, hun, heq⟩
  · refine ⟨h.of_idle hidle, fun j _ => congrFun hslots j, fun j hj _ hu => ?_⟩
    rw [hidle.proc]
    exact h.guards j hj hu
  · have hne := halone i hi hatoi hused hun
    -- the file of another slot is neither unlocked nor closed
    have hguards : ∀ j < netlockLen, j ≠ i → (s.slots j).used = true →
        ((s.proc.unlocked (s.slots i).num).closed (s.slots i).num).Guards (s.slots j).num := by
      intro j hj hji hu
      have hfds := hne j hj hji hu
      exact ((h.guards j hj hu).unlocked hfds).closed (by simpa using hfds)
    rw [heq]
    refine ⟨?_, ?_, ?_⟩
    · apply h.put hi
      · intro k hk
        rw [List.mem_singleton.mp hk]
        omega
      · exact hguards
      · intro hu
        exact absurd hu (by simp)
    · intro j hj
      exact Function.update_of_ne (fun hji => hj (by rw [hji, hatoi])) ..
    · intro j hj hja hu
      exact hguards j hj (fun hji => hja (by rw [hji, hatoi])) hu

/-- **One command.** -/
theorem netNext_ok (h : NetInv s) {c : NetCmd ι} (hok : NetAllowed s c)
    (hnext : netNext s c = some t) : NetInv t ∧ NetStep s t c := by
  rw [netNext] at hnext
  split at hnext
  next => cases hnext
  next hfresh =>
    obtain rfl := Option.some.inj hnext
    have hfresh : ∀ r ∈ c.env.opens, s.proc.fds r.1 = none := by
      intro r hr
      have hr : c.env.opens = some r := hr
      rw [hr] at hfresh
      simpa using hfresh
    cases c with
    | netlock arg e =>
      obtain ⟨hinv, hleak⟩ := h.netlock hok hfresh
      refine ⟨hinv, ⟨fun _ _ hc => ?_, fun _ _ hc => ?_, fun _ _ _ => hleak⟩⟩
      · cases hc
      · cases hc
    | netlockTry arg e =>
      obtain ⟨hinv, hleak⟩ := h.netlock hok hfresh
      refine ⟨hinv, ⟨fun _ _ hc => ?_, fun _ _ hc => ?_, fun _ _ _ => hleak⟩⟩
      · cases hc
      · cases hc
    | netunlock arg e =>
      obtain ⟨hinv, hothers, hlocks⟩ := h.netunlock hok
      refine ⟨hinv, fun arg' e' hc => ?_, fun arg' e' hc => ?_, fun arg' e' hc => ?_⟩
      · cases hc
        exact hothers
      · cases hc
        exact hlocks
      · rcases hc with hc | hc <;> cases hc

omit [DecidableEq ι] in
theorem NetInv.fresh (behind : ℕ → Slot) (fds : ℕ → Option ι) :
    NetInv (NetTable.fresh behind fds) := by
  have hunused : ∀ i < netlockLen, ((NetTable.fresh behind fds).slots i).used ≠ true := by
    intro i hi
    simp [NetTable.fresh, hi]
  refine ⟨⟨?_, fun i hi hu => absurd hu (hunused i hi)⟩, fun i hi _ _ hu => absurd hu (hunused i hi)⟩
  intro i hi
  exact absurd hi List.not_mem_nil

end

/-- **The table is right in every run of allowed commands**: whatever the arguments and the
outcomes of the calls, every index is one of the table and every slot that is used stands
for a file that is open and locked; an allowed `NETUNLOCK` leaves the other slots and their
locks alone, and an allowed `NETLOCK` that fails leaves no descriptor open. -/
theorem netlock_table (behind : ℕ → Slot) (fds : ℕ → Option ι) (cmds : List (NetCmd ι))
    (s : NetTable ι) (hmeets : Runs.Meets netNext NetAllowed (.fresh behind fds) cmds)
    (hrun : Runs.run netNext (.fresh behind fds) cmds = some s) :
    NetState s ∧ ∀ c t, NetAllowed s c → netNext s c = some t → NetStep s t c := by
  have hinv := Runs.inv_of_run (fun _ _ _ h hc hnext => (netNext_ok h hc hnext).1)
    (NetInv.fresh behind fds) hmeets hrun
  exact ⟨hinv.toNetState, fun c t hc hnext => (netNext_ok hinv hc hnext).2⟩

/-- A command that opens the file `f` as the descriptor `fd`, and whose calls all succeed. -/
def calmNet (fd f : ℕ) : NetEnv ℕ := ⟨true, some (fd, f), true, true, true, 0⟩

/-- A process with the table at its start. -/
def exampleLocks : NetTable ℕ := .fresh (fun _ => ⟨0, false, 0⟩) fun _ => none

theorem netlock_table_two : ∃ s,
    Runs.run netNext exampleLocks [.netlock (lit "5 a") (calmNet 3 0),
      .netlockTry (lit "5 b") (calmNet 4 1), .netunlock (lit "0") (calmNet 9 9)] = some s ∧
      (s.slots 1).used = true ∧ NetState s := by
  refine ⟨_, rfl, by decide, (netlock_table (fun _ => ⟨0, false, 0⟩) (fun _ => none)
    [.netlock (lit "5 a") (calmNet 3 0), .netlockTry (lit "5 b") (calmNet 4 1),
      .netunlock (lit "0") (calmNet 9 9)] _ (by decide) rfl).1⟩

/-- Two slots stand for one file.  When the first is given up, the second is still used, but
the process has no lock any more. -/
theorem netlock_table_broken : ¬ ∀ (cmds : List (NetCmd ℕ)) (s : NetTable ℕ),
    Runs.run netNext exampleLocks cmds = some s →
      NetState s ∧ ∀ c t, netNext s c = some t → NetStep s t c := by
  intro h
  have hs := (h [.netlock (lit "5 a") (calmNet 3 0), .netlockTry (lit "5 a") (calmNet 4 0),
    .netunlock (lit "0") (calmNet 9 9)] _ rfl).1
  obtain ⟨f, hf, hheld⟩ := hs.guards 1 (by decide) (by decide)
  obtain rfl : f = 0 := Option.some.inj (hf.symm.trans (by decide))
  exact absurd hheld (by decide)

end TFProtocol
