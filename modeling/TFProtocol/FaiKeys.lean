import TFProtocol.Lib.Base64
import TFProtocol.Lib.Runs
import TFProtocol.Fai

/-!
# One key, one session

The key in a token file opens a session, and `mainloop_fai` then replaces it by a new one
for the next session.  Reading the file, granting the entrance, truncating the file and
writing the new line are separate steps of a process of its own for each client, and no
lock is held between them.

The system here is a token file and any number of such processes, with every interleaving
of their steps.  The file under the name can be replaced: `chkfaitok` unlinks an expired
token, and a process that opened the file before writes to the one that was unlinked.

## Main definitions

* `Entrance`, `FaiSys`, `faiNext` — the processes, the system and its steps.
* `FreshKey` — generated keys are new.
* `Orderly` — no process reads the token while another is between its read and its
  rewrite, and a granted key can be replaced.

## Main results

* `fai_key_once` — in an orderly run no key opens two sessions.
-/

namespace TFProtocol

open Bytes CStr

/-! ### The file -/

/-- `FAIMIN_KEYLEN`. -/
def faiminKeylen : ℕ := 128

/-- `KEYMAX`, which is `FAIMAX_KEYLEN`. -/
def keymax : ℕ := 2048 / 8 - 42

/-- `LLONG_MAX`. -/
def llongMax : ℕ := 2 ^ 63 - 1

/-- The line `savefai` and `renewfaikey` write. -/
def tokenLine (texp : ℕ) (key : List Byte) : List Byte :=
  udec texp ++ [blank] ++ Base64.en key ++ [newline]

/-- The text that stands for a key in a token file. -/
def keyText (content : List Byte) : Option (List Byte) := (faiLine content).map fun l => chop l.2

theorem udec_plain {n : ℕ} {b : Byte} (h : b ∈ udec n) : 48 ≤ b.toNat ∧ b.toNat ≤ 57 := by
  have hdigit := isDigit_of_mem_udec h
  rwa [isDigit, Bool.and_eq_true, decide_eq_true_eq, decide_eq_true_eq] at hdigit

theorem en_plain {k : List Byte} {b : Byte} (h : b ∈ Base64.en k) : 33 ≤ b.toNat := by
  have halphabet : (Base64.alphabet.all fun b => 33 ≤ b.toNat) = true := by
    rw [Base64.alphabet, lit_ofList]
    decide
  rcases Base64.mem_en h with rfl | ⟨i, hi, rfl⟩
  · decide
  · exact of_decide_eq_true (List.all_eq_true.mp halphabet _ (Base64.sym_mem_alphabet hi))

/-- The first line of a token file as `savefai` writes it. -/
theorem faiLine_tokenLine {texp : ℕ} {key : List Byte} (htexp : texp ≤ llongMax)
    (hkey : key.length ≤ keymax) :
    faiLine (tokenLine texp key) = some (udec texp, Base64.en key ++ [newline]) := by
  have hdigits : (udec texp).length ≤ 19 := by
    rw [udec, List.length_map]
    exact (Nat.length_toDigits_le_iff (by decide) (by decide)).mpr
      (lt_of_le_of_lt htexp (by decide))
  have htext : ∀ b ∈ Base64.en key, b ≠ 0 ∧ b ≠ newline := by
    intro b hb
    have := en_plain hb
    constructor <;> rintro rfl <;> revert this <;> decide
  have hnum : ∀ b ∈ udec texp, b ≠ 0 ∧ b ≠ newline ∧ b ≠ blank := by
    intro b hb
    have := (udec_plain hb).1
    refine ⟨?_, ?_, ?_⟩ <;> rintro rfl <;> revert this <;> decide
  have hline : tokenLine texp key = (udec texp ++ [blank] ++ Base64.en key) ++ newline :: [] := rfl
  have hnl : newline ∉ udec texp ++ [blank] ++ Base64.en key := by
    intro h
    simp only [List.mem_append, List.mem_singleton] at h
    rcases h with (h | h) | h
    · exact (hnum _ h).2.1 rfl
    · exact absurd h (by decide)
    · exact (htext _ h).2 rfl
  have h0 : 0 ∉ udec texp ++ [blank] ++ Base64.en key ++ [newline] := by
    intro h
    simp only [List.mem_append, List.mem_singleton] at h
    rcases h with ((h | h) | h) | h
    · exact (hnum _ h).1 rfl
    · exact absurd h (by decide)
    · exact (htext _ h).1 rfl
    · exact absurd h (by decide)
  have hlen : (udec texp ++ [blank] ++ Base64.en key).length < lineMax - 1 := by
    simp only [List.length_append, List.length_singleton, Base64.length_en]
    have : keymax = 214 := rfl
    have : lineMax = 2048 := rfl
    omega
  have hlines : lines newline lineMax (tokenLine texp key) = [tokenLine texp key] := by
    rw [hline, lines, chunks_line [] _ [] hnl (by simpa using hlen)]
    rfl
  simp only [faiLine, hlines]
  rw [tokenLine, cstr_eq_self h0, List.append_assoc, List.append_assoc]
  exact strchr_append (fun h => (hnum _ h).2.2 rfl) _

/-- The text of a key in front of the end of its line. -/
theorem chop_en (key : List Byte) : chop (Base64.en key ++ [newline]) = Base64.en key := by
  rw [chop, strchr_append]
  intro h
  have := en_plain h
  revert this
  decide

/-- **A token line is read back as it was written.** -/
theorem keyText_tokenLine {texp : ℕ} {key : List Byte} (htexp : texp ≤ llongMax)
    (hkey : key.length ≤ keymax) : keyText (tokenLine texp key) = some (Base64.en key) := by
  rw [keyText, faiLine_tokenLine htexp hkey, Option.map_some, chop_en]

theorem strtol_udec (n : ℕ) : strtol (udec n) = min (2 ^ 63 - 1) (n : ℤ) := by
  have h : strtol (udec n ++ []) = min (2 ^ 63 - 1) (digitsVal (udec n) : ℤ) :=
    strtol_digits (udec_ne_nil n) (fun _ hd => isDigit_of_mem_udec hd) nofun
  rwa [List.append_nil, digitsVal_udec] at h

/-- A token lapses at the time it was stored with. -/
theorem lapsed_tokenLine {texp : ℕ} {key : List Byte} (htexp : texp ≤ llongMax)
    (hkey : key.length ≤ keymax) (time : ℕ) : Lapsed time (tokenLine texp key) ↔ texp ≤ time := by
  have hmax : (texp : ℤ) ≤ 2 ^ 63 - 1 := by
    have : llongMax = 2 ^ 63 - 1 := rfl
    omega
  rw [Lapsed, faiLine_tokenLine htexp hkey]
  simp only [Option.mem_some_iff, exists_eq_left', strtol_udec, min_eq_right hmax, Nat.cast_le]

/-! ### The system -/

/-- The process of one client, with what it keeps from step to step. -/
inductive Entrance
  /-- Connected, nothing read. -/
  | start
  /-- `chkfaitok` returned `0`: `faitexp`, the text of the key and the key. -/
  | holding (texp : ℕ) (text key : List Byte)
  /-- `mainloop_fai` replied `OK` and switched to the key. -/
  | granted (texp : ℕ)
  /-- `renewfaikey` opened the file, which truncated it: the identity of the file. -/
  | rewriting (texp : ℕ) (ino : ℕ)
  /-- The new key was written and is to be sent. -/
  | renewed
  /-- In the command loop. -/
  | inside
  | closed
  deriving DecidableEq, Repr

/-- Between the read of the token and its rewrite. -/
def Entrance.Active : Entrance → Prop
  | .holding .. => True
  | .granted _ => True
  | .rewriting .. => True
  | _ => False

instance : DecidablePred Entrance.Active
  | .holding .. => .isTrue trivial
  | .granted _ => .isTrue trivial
  | .rewriting .. => .isTrue trivial
  | .start => .isFalse id
  | .renewed => .isFalse id
  | .inside => .isFalse id
  | .closed => .isFalse id

/-- A token file and the processes of its clients. -/
structure FaiSys where
  /-- The content of the file under the name, if there is one. -/
  file : Option (List Byte)
  /-- The identity of that file. -/
  ino : ℕ
  procs : List Entrance
  /-- The texts of the keys that opened a session, the latest first. -/
  accepted : List (List Byte)
  /-- The keys that were ever stored in the file. -/
  keys : List (List Byte)
  deriving DecidableEq, Repr

/-- A step of a process. -/
inductive FaiAct
  /-- `chkfaitok`, at a given time. -/
  | check (i : ℕ) (time : ℕ)
  /-- `mainloop_fai` up to its reply; both calls of `dup_crypt` succeed, or not. -/
  | grant (i : ℕ) (dup : Bool)
  /-- `fopen(faifile, "w")` succeeds, or not. -/
  | reopen (i : ℕ) (ok : Bool)
  /-- The new key, if it could be generated and encoded. -/
  | renew (i : ℕ) (key : Option (List Byte))
  /-- The new key is sent. -/
  | send (i : ℕ) (ok : Bool)
  deriving DecidableEq, Repr

/-- A process moves on. -/
def FaiSys.become (s : FaiSys) (i : ℕ) (p : Entrance) : FaiSys :=
  { s with procs := s.procs.set i p }

/-- The text of a token, its key and its expiry, if `chkfaitok` accepts it. -/
def readToken (dec : List Byte → Option (List Byte)) (time : ℕ) (content : List Byte) :
    Option (ℕ × List Byte × List Byte) :=
  if Lapsed time content then none
  else (faiLine content).bind fun l =>
    -- `atoll` ends at the largest number it can return
    (dec (chop l.2)).map fun key => (min (strtol l.1).toNat llongMax, chop l.2, key)

/-- **The token that `savefai` or `renewfaikey` wrote is accepted** until it lapses. -/
theorem readToken_tokenLine {dec : List Byte → Option (List Byte)} {texp time : ℕ}
    {key k : List Byte} (htexp : texp ≤ llongMax) (hkey : key.length ≤ keymax) (htime : time < texp)
    (hdec : dec (Base64.en key) = some k) :
    readToken dec time (tokenLine texp key) = some (texp, Base64.en key, k) := by
  have hmax : (texp : ℤ) ≤ 2 ^ 63 - 1 := by
    have : llongMax = 2 ^ 63 - 1 := rfl
    omega
  have hlapsed : ¬ Lapsed time (tokenLine texp key) := by
    rw [lapsed_tokenLine htexp hkey]
    omega
  rw [readToken, if_neg hlapsed, faiLine_tokenLine htexp hkey, Option.bind_some, chop_en, hdec,
    Option.map_some, strtol_udec, min_eq_right hmax, Int.toNat_natCast, min_eq_left htexp]

/-- One step. -/
def faiNext (dec : List Byte → Option (List Byte)) (s : FaiSys) : FaiAct → Option FaiSys
  | .check i time =>
    match s.procs[i]? with
    | some .start =>
      match s.file with
      | none => some (s.become i .closed)
      | some content =>
        match readToken dec time content with
        | some (texp, text, key) => some (s.become i (.holding texp text key))
        | none =>
          some { s.become i .closed with file := if Lapsed time content then none else s.file }
    | _ => none
  | .grant i dup =>
    match s.procs[i]? with
    | some (.holding texp text key) =>
      if keymin ≤ key.length ∧ dup then
        some { s.become i (.granted texp) with accepted := text :: s.accepted }
      else some (s.become i .closed)
    | _ => none
  | .reopen i ok =>
    match s.procs[i]? with
    | some (.granted texp) =>
      if ok then
        -- a file that was unlinked is created again
        let ino := if s.file.isSome then s.ino else s.ino + 1
        some { s.become i (.rewriting texp ino) with file := some [], ino := ino }
      else some (s.become i .closed)
    | _ => none
  | .renew i key =>
    match s.procs[i]? with
    | some (.rewriting texp ino) =>
      match key with
      | none => some (s.become i .closed)
      | some k =>
        some { s.become i .renewed with
          file := if ino = s.ino then s.file.map fun c => overlay c (tokenLine texp k) else s.file
          keys := k :: s.keys }
    | _ => none
  | .send i ok =>
    match s.procs[i]? with
    | some .renewed => some (s.become i (if ok then .inside else .closed))
    | _ => none

/-- A token that `FAITOK` stored, and clients that have just connected. -/
def FaiSys.begin (texp : ℕ) (key : List Byte) (clients : ℕ) : FaiSys where
  file := some (tokenLine texp key)
  ino := 0
  procs := List.replicate clients .start
  accepted := []
  keys := [key]

/-- Generated keys are new, and of a length `renewfaikey` asks for. -/
def FreshKey (s : FaiSys) : FaiAct → Prop
  | .renew _ (some k) => k ∉ s.keys ∧ faiminKeylen ≤ k.length ∧ k.length ≤ keymax
  | _ => True

/-- The token is read only while no other process is between its read and its rewrite,
and the file can be opened for the rewrite. -/
def Orderly (s : FaiSys) : FaiAct → Prop
  | .check _ _ => ∀ p ∈ s.procs, ¬ p.Active
  | .reopen _ ok => ok = true
  | _ => True

instance (s : FaiSys) : ∀ a, Decidable (FreshKey s a)
  | .renew _ (some _) => inferInstanceAs (Decidable (_ ∧ _ ∧ _))
  | .renew _ none => .isTrue trivial
  | .check .. => .isTrue trivial
  | .grant .. => .isTrue trivial
  | .reopen .. => .isTrue trivial
  | .send .. => .isTrue trivial

instance (s : FaiSys) : ∀ a, Decidable (Orderly s a)
  | .check .. => inferInstanceAs (Decidable (∀ _ ∈ _, _))
  | .reopen .. => inferInstanceAs (Decidable (_ = _))
  | .grant .. => .isTrue trivial
  | .renew .. => .isTrue trivial
  | .send .. => .isTrue trivial

/-! ### The invariant -/

/-- What a process knows about the token. -/
def Entrance.Ok (s : FaiSys) : Entrance → Prop
  | .holding texp text _ =>
    texp ≤ llongMax ∧ text ∉ s.accepted ∧ ∃ k ∈ s.keys, text = Base64.en k
  | .granted texp => texp ≤ llongMax
  | .rewriting texp ino => texp ≤ llongMax ∧ ino = s.ino ∧ s.file = some []
  | _ => True

/-- The keys that were accepted, the key in the file and the processes in between. -/
structure FaiInv (s : FaiSys) : Prop where
  /-- One process at most is between its read and its rewrite. -/
  single : ∀ (i j : ℕ) (p q : Entrance), s.procs[i]? = some p → s.procs[j]? = some q →
    p.Active → q.Active → i = j
  nodup : s.accepted.Nodup
  known : ∀ t ∈ s.accepted, ∃ k ∈ s.keys, t = Base64.en k
  stored : ∀ content ∈ s.file, ∀ t ∈ keyText content, ∃ k ∈ s.keys, t = Base64.en k
  /-- The key in the file opened no session, except where it is about to be replaced. -/
  unused : (∀ i texp : ℕ, s.procs[i]? ≠ some (.granted texp)) →
    ∀ content ∈ s.file, ∀ t ∈ keyText content, t ∉ s.accepted
  procs : ∀ (i : ℕ) (p : Entrance), s.procs[i]? = some p → p.Ok s

/-- All the other processes are outside the critical part. -/
def Alone (s : FaiSys) (i : ℕ) : Prop :=
  ∀ (j : ℕ) (p : Entrance), j ≠ i → s.procs[j]? = some p → ¬ p.Active

theorem FaiInv.alone {s : FaiSys} (h : FaiInv s) {i : ℕ} {p : Entrance}
    (hi : s.procs[i]? = some p) (hp : p.Active) : Alone s i := by
  intro j q hj hq hact
  exact hj (h.single j i q p hq hi hact hp)

/-- What a process becomes, and what the others are. -/
theorem become_cases {s : FaiSys} {i j : ℕ} {p q : Entrance}
    (h : (s.become i p).procs[j]? = some q) : (j = i ∧ q = p) ∨ (j ≠ i ∧ s.procs[j]? = some q) := by
  simp only [FaiSys.become, List.getElem?_set] at h
  split at h
  · next hij =>
    left
    split at h
    · exact ⟨hij.symm, by simpa using h.symm⟩
    · cases h
  · next hij => exact .inr ⟨fun hj => hij hj.symm, h⟩

theorem Entrance.ok_of_not_active {s : FaiSys} {p : Entrance} (h : ¬ p.Active) : p.Ok s := by
  cases p with
  | holding texp text key => exact absurd trivial h
  | granted texp => exact absurd trivial h
  | rewriting texp ino => exact absurd trivial h
  | start => trivial
  | renewed => trivial
  | inside => trivial
  | closed => trivial

/-- A step of a process that is alone: only its own new state has to be looked at. -/
theorem FaiInv.of_alone {s t : FaiSys} {i : ℕ} {p : Entrance} (halone : Alone s i)
    (hprocs : t.procs = (s.become i p).procs) (hnodup : t.accepted.Nodup)
    (hknown : ∀ x ∈ t.accepted, ∃ k ∈ t.keys, x = Base64.en k)
    (hstored : ∀ content ∈ t.file, ∀ x ∈ keyText content, ∃ k ∈ t.keys, x = Base64.en k)
    (hunused : (∃ texp, p = .granted texp) ∨
      ∀ content ∈ t.file, ∀ x ∈ keyText content, x ∉ t.accepted)
    (hi : i < s.procs.length) (hp : p.Ok t) : FaiInv t := by
  have hcases : ∀ (j : ℕ) (q : Entrance), t.procs[j]? = some q →
      (j = i ∧ q = p) ∨ (j ≠ i ∧ ¬ q.Active) := by
    intro j q hq
    rw [hprocs] at hq
    rcases become_cases hq with h | ⟨hj, hq⟩
    · exact .inl h
    · exact .inr ⟨hj, halone j q hj hq⟩
  refine ⟨?_, hnodup, hknown, hstored, fun hnone => ?_, ?_⟩
  · intro j j' q q' hq hq' hact hact'
    rcases hcases j q hq with ⟨rfl, -⟩ | ⟨-, hno⟩
    · rcases hcases j' q' hq' with ⟨rfl, -⟩ | ⟨-, hno⟩
      · rfl
      · exact absurd hact' hno
    · exact absurd hact hno
  · rcases hunused with ⟨texp, rfl⟩ | hunused
    · refine absurd ?_ (hnone i texp)
      rw [hprocs]
      simp [FaiSys.become, hi]
    · exact hunused
  · intro j q hq
    rcases hcases j q hq with ⟨-, rfl⟩ | ⟨-, hno⟩
    · exact hp
    · exact Entrance.ok_of_not_active hno

/-! ### Steps -/

variable {dec : List Byte → Option (List Byte)} {s t : FaiSys}

theorem lt_of_getElem? {i : ℕ} {p : Entrance} (h : s.procs[i]? = some p) : i < s.procs.length :=
  (List.getElem?_eq_some_iff.mp h).1

/-- A token that is accepted has the text that stands in the file. -/
theorem readToken_some {time texp : ℕ} {content text key : List Byte}
    (h : readToken dec time content = some (texp, text, key)) :
    text ∈ keyText content ∧ texp ≤ llongMax := by
  unfold readToken at h
  split at h
  · cases h
  · obtain ⟨l, hl, hkey⟩ := Option.bind_eq_some_iff.mp h
    obtain ⟨k, -, hk⟩ := Option.map_eq_some_iff.mp hkey
    obtain ⟨rfl, rfl, rfl⟩ : min (strtol l.1).toNat llongMax = texp ∧ chop l.2 = text ∧ k = key := by
      simpa using hk
    exact ⟨by simp [keyText, hl], min_le_right _ _⟩

theorem check_inv {i time : ℕ} (h : FaiInv s) (horder : Orderly s (.check i time))
    (hnext : faiNext dec s (.check i time) = some t) : FaiInv t := by
  have halone : Alone s i := fun j p _ hp => horder p (List.mem_of_getElem? hp)
  have hquiet : ∀ j texp : ℕ, s.procs[j]? ≠ some (.granted texp) := by
    intro j texp hj
    exact horder _ (List.mem_of_getElem? hj) trivial
  simp only [faiNext] at hnext
  split at hnext
  · next hi =>
    have hlt := lt_of_getElem? hi
    split at hnext
    · obtain rfl := Option.some.inj hnext
      exact .of_alone halone rfl h.nodup h.known h.stored (.inr (h.unused hquiet)) hlt trivial
    · next content hfile =>
      split at hnext
      · next texp text key hread =>
        obtain rfl := Option.some.inj hnext
        obtain ⟨htext, htexp⟩ := readToken_some hread
        exact .of_alone halone rfl h.nodup h.known h.stored (.inr (h.unused hquiet)) hlt
          ⟨htexp, h.unused hquiet content hfile text htext, h.stored content hfile text htext⟩
      · obtain rfl := Option.some.inj hnext
        have hsub : ∀ c ∈ (if Lapsed time content then none else s.file), c ∈ s.file := by
          intro c hc
          split at hc
          · cases hc
          · exact hc
        exact .of_alone halone rfl h.nodup h.known (fun c hc => h.stored c (hsub c hc))
          (.inr fun c hc => h.unused hquiet c (hsub c hc)) hlt trivial
  · cases hnext

theorem grant_inv {i : ℕ} {dup : Bool} (h : FaiInv s)
    (hnext : faiNext dec s (.grant i dup) = some t) : FaiInv t := by
  simp only [faiNext] at hnext
  split at hnext
  · next texp text key hi =>
    have halone := h.alone hi trivial
    obtain ⟨htexp, htext, hkey⟩ := h.procs i _ hi
    split at hnext
    · obtain rfl := Option.some.inj hnext
      refine .of_alone halone rfl (List.nodup_cons.mpr ⟨htext, h.nodup⟩) ?_ h.stored
        (.inl ⟨texp, rfl⟩) (lt_of_getElem? hi) htexp
      intro x hx
      rcases List.mem_cons.mp hx with rfl | hx
      · exact hkey
      · exact h.known x hx
    · obtain rfl := Option.some.inj hnext
      have hquiet : ∀ j texp' : ℕ, s.procs[j]? ≠ some (.granted texp') := by
        intro j texp' hj
        obtain rfl := h.single j i _ _ hj hi trivial trivial
        rw [hi] at hj
        cases hj
      exact .of_alone halone rfl h.nodup h.known h.stored (.inr (h.unused hquiet))
        (lt_of_getElem? hi) trivial
  · cases hnext

theorem keyText_nil : keyText [] = none := rfl

theorem reopen_inv {i : ℕ} {ok : Bool} (h : FaiInv s) (horder : Orderly s (.reopen i ok))
    (hnext : faiNext dec s (.reopen i ok) = some t) : FaiInv t := by
  obtain rfl : ok = true := horder
  simp only [faiNext, if_true] at hnext
  split at hnext
  · next texp hi =>
    obtain rfl := Option.some.inj hnext
    have hempty : ∀ content ∈ some ([] : List Byte), ∀ x, x ∉ keyText content := by
      intro content hc x hx
      obtain rfl : [] = content := by simpa using hc
      rw [keyText_nil] at hx
      cases hx
    exact .of_alone (h.alone hi trivial) rfl h.nodup h.known
      (fun c hc x hx => absurd hx (hempty c hc x)) (.inr fun c hc x hx => absurd hx (hempty c hc x))
      (lt_of_getElem? hi) ⟨h.procs i _ hi, rfl, rfl⟩
  · cases hnext

theorem renew_inv {i : ℕ} {key : Option (List Byte)} (h : FaiInv s)
    (hfresh : FreshKey s (.renew i key)) (hnext : faiNext dec s (.renew i key) = some t) :
    FaiInv t := by
  simp only [faiNext] at hnext
  split at hnext
  · next texp ino hi =>
    have halone := h.alone hi trivial
    obtain ⟨htexp, hino, hfile⟩ := h.procs i _ hi
    cases key with
    | none =>
      obtain rfl := Option.some.inj hnext
      have hempty : ∀ content ∈ s.file, ∀ x, x ∉ keyText content := by
        intro content hc x hx
        obtain rfl : [] = content := by simpa [hfile] using hc
        rw [keyText_nil] at hx
        cases hx
      exact .of_alone halone rfl h.nodup h.known h.stored
        (.inr fun c hc x hx => absurd hx (hempty c hc x)) (lt_of_getElem? hi) trivial
    | some k =>
      obtain ⟨hk, -, hlen⟩ := hfresh
      obtain rfl := Option.some.inj hnext
      -- the file was empty, so it now holds the new line and nothing else
      have hline : ∀ content ∈ (if ino = s.ino
          then s.file.map fun c => overlay c (tokenLine texp k) else s.file),
          ∀ x ∈ keyText content, x = Base64.en k := by
        intro content hc x hx
        rw [if_pos hino, hfile] at hc
        obtain rfl : tokenLine texp k = content := by simpa [overlay] using hc
        rw [keyText_tokenLine htexp hlen] at hx
        simpa using hx.symm
      refine .of_alone halone rfl h.nodup ?_ ?_ (.inr ?_) (lt_of_getElem? hi) trivial
      · intro x hx
        obtain ⟨k', hk', rfl⟩ := h.known x hx
        exact ⟨k', List.mem_cons_of_mem _ hk', rfl⟩
      · intro content hc x hx
        exact ⟨k, List.mem_cons_self, hline content hc x hx⟩
      · intro content hc x hx hacc
        obtain ⟨k', hk', hx'⟩ := h.known x hacc
        rw [hline content hc x hx] at hx'
        exact hk (Base64.en_injective hx' ▸ hk')
  · cases hnext

theorem send_inv {i : ℕ} {ok : Bool} (h : FaiInv s)
    (hnext : faiNext dec s (.send i ok) = some t) : FaiInv t := by
  simp only [faiNext] at hnext
  split at hnext
  · next hi =>
    obtain rfl := Option.some.inj hnext
    have hnew : ¬ (if ok then Entrance.inside else .closed).Active := by
      split <;> exact id
    refine ⟨?_, h.nodup, h.known, h.stored, fun hnone => h.unused ?_, ?_⟩
    · intro j j' q q' hq hq' hact hact'
      rcases become_cases hq with ⟨-, rfl⟩ | ⟨-, hq⟩
      · exact absurd hact hnew
      · rcases become_cases hq' with ⟨-, rfl⟩ | ⟨-, hq'⟩
        · exact absurd hact' hnew
        · exact h.single j j' q q' hq hq' hact hact'
    · intro j texp hj
      refine hnone j texp ?_
      have hne : i ≠ j := by
        rintro rfl
        rw [hi] at hj
        cases hj
      simpa [FaiSys.become, List.getElem?_set_ne hne] using hj
    · intro j q hq
      rcases become_cases hq with ⟨-, rfl⟩ | ⟨-, hq⟩
      · exact Entrance.ok_of_not_active hnew
      · exact h.procs j q hq
  · cases hnext

/-- **One step of an orderly run.** -/
theorem faiNext_inv {a : FaiAct} (h : FaiInv s) (hok : FreshKey s a ∧ Orderly s a)
    (hnext : faiNext dec s a = some t) : FaiInv t := by
  cases a with
  | check i time => exact check_inv h hok.2 hnext
  | grant i dup => exact grant_inv h hnext
  | reopen i ok => exact reopen_inv h hok.2 hnext
  | renew i key => exact renew_inv h hok.1 hnext
  | send i ok => exact send_inv h hnext

theorem begin_inv {texp : ℕ} {key : List Byte} (htexp : texp ≤ llongMax)
    (hkey : key.length ≤ keymax) (clients : ℕ) : FaiInv (.begin texp key clients) := by
  have hstart : ∀ (i : ℕ) (p : Entrance), (FaiSys.begin texp key clients).procs[i]? = some p →
      p = .start := by
    intro i p hp
    exact List.eq_of_mem_replicate (List.mem_of_getElem? hp)
  refine ⟨?_, List.nodup_nil, nofun, ?_, nofun, ?_⟩
  · intro i j p q hp _ hact
    rw [hstart i p hp] at hact
    cases hact
  · intro content hc t ht
    obtain rfl : tokenLine texp key = content := by simpa [FaiSys.begin] using hc
    rw [keyText_tokenLine htexp hkey] at ht
    exact ⟨key, List.mem_singleton_self _, by simpa using ht.symm⟩
  · intro i p hp
    rw [hstart i p hp]
    trivial

/-- **Each key opens at most one session.**  For every number of clients and every
interleaving of their steps in which generated keys are new, no process reads the token
while another is between its read and its rewrite, and the rewrite can open the file: the
keys that were accepted are pairwise distinct in every state reached. -/
theorem fai_key_once {texp : ℕ} {key : List Byte} (htexp : texp ≤ llongMax)
    (hkey : key.length ≤ keymax) {clients : ℕ} {acts : List FaiAct} {t : FaiSys}
    (hmeets : Runs.Meets (faiNext dec) (fun s a => FreshKey s a ∧ Orderly s a)
      (.begin texp key clients) acts)
    (hrun : Runs.run (faiNext dec) (.begin texp key clients) acts = some t) :
    t.accepted.Nodup :=
  (Runs.inv_of_run (fun _ _ _ h hok hnext => faiNext_inv h hok hnext)
    (begin_inv htexp hkey clients) hmeets hrun).nodup

/-! ### Two clients -/

/-- A key of the examples. -/
def faiKey (b : Byte) : List Byte := List.replicate 129 b

/-- The decoder of the examples; it meets no padding. -/
def faiDec (text : List Byte) : Option (List Byte) := some (Base64.de text)

/-- An entrance from its read to the new key, with nothing in between. -/
def entranceOf (i : ℕ) (key : List Byte) : List FaiAct :=
  [.check i 0, .grant i true, .reopen i true, .renew i (some key), .send i true]

section Steps

variable {content : List Byte} {file : Option (List Byte)} {ino : ℕ} {procs : List Entrance}
  {accepted keys : List (List Byte)} {i texp time : ℕ} {text key : List Byte}

theorem set_self {p q : Entrance} (hi : procs[i]? = some q) : (procs.set i p)[i]? = some p :=
  List.getElem?_set_self (List.getElem?_eq_some_iff.mp hi).1

theorem next_check (hi : procs[i]? = some .start)
    (hread : readToken dec time content = some (texp, text, key)) :
    faiNext dec ⟨some content, ino, procs, accepted, keys⟩ (.check i time) =
      some ⟨some content, ino, procs.set i (.holding texp text key), accepted, keys⟩ := by
  simp only [faiNext, hi, hread, FaiSys.become]

theorem next_grant (hi : procs[i]? = some (.holding texp text key)) (hmin : keymin ≤ key.length) :
    faiNext dec ⟨file, ino, procs, accepted, keys⟩ (.grant i true) =
      some ⟨file, ino, procs.set i (.granted texp), text :: accepted, keys⟩ := by
  simp only [faiNext, hi, hmin, and_self, if_true, FaiSys.become]

theorem next_reopen (hi : procs[i]? = some (.granted texp)) :
    faiNext dec ⟨some content, ino, procs, accepted, keys⟩ (.reopen i true) =
      some ⟨some [], ino, procs.set i (.rewriting texp ino), accepted, keys⟩ := by
  simp only [faiNext, hi, if_true, Option.isSome_some, FaiSys.become]

theorem next_renew (hi : procs[i]? = some (.rewriting texp ino)) :
    faiNext dec ⟨some [], ino, procs, accepted, keys⟩ (.renew i (some key)) =
      some ⟨some (tokenLine texp key), ino, procs.set i .renewed, accepted, key :: keys⟩ := by
  simp only [faiNext, hi, if_true, Option.map_some, overlay, List.drop_nil, List.append_nil,
    FaiSys.become]

theorem next_send (hi : procs[i]? = some .renewed) :
    faiNext dec ⟨file, ino, procs, accepted, keys⟩ (.send i true) =
      some ⟨file, ino, procs.set i .inside, accepted, keys⟩ := by
  simp only [faiNext, hi, if_true, FaiSys.become]

/-- An entrance with nothing in between replaces the key, and it is orderly where no other
process is between its read and its rewrite. -/
theorem run_entranceOf {new : List Byte} (hi : procs[i]? = some .start) (htexp : texp ≤ llongMax)
    (hpos : 0 < texp) (hmin : keymin ≤ key.length) (hkey : key.length ≤ keymax)
    (hdec : dec (Base64.en key) = some key) (hquiet : ∀ p ∈ procs, ¬ p.Active)
    (hnew : new ∉ keys) (hlen : faiminKeylen ≤ new.length ∧ new.length ≤ keymax) :
    Runs.run (faiNext dec) ⟨some (tokenLine texp key), ino, procs, accepted, keys⟩
        (entranceOf i new) =
      some ⟨some (tokenLine texp new), ino, procs.set i .inside, Base64.en key :: accepted,
        new :: keys⟩ ∧
    Runs.Meets (faiNext dec) (fun s a => FreshKey s a ∧ Orderly s a)
      ⟨some (tokenLine texp key), ino, procs, accepted, keys⟩ (entranceOf i new) := by
  have hread : readToken dec 0 (tokenLine texp key) = some (texp, Base64.en key, key) :=
    readToken_tokenLine htexp hkey hpos hdec
  have hheld := set_self (p := .holding texp (Base64.en key) key) hi
  have hgranted := set_self (p := .granted texp) hheld
  have hopened := set_self (p := .rewriting texp ino) hgranted
  have hrenewed := set_self (p := .renewed) hopened
  constructor
  · rw [entranceOf, Runs.run_cons (next_check hi hread), Runs.run_cons (next_grant hheld hmin),
      Runs.run_cons (next_reopen hgranted), Runs.run_cons (next_renew hopened),
      Runs.run_cons (next_send hrenewed), Runs.run]
    simp only [List.set_set]
  · exact Runs.meets_cons (next_check hi hread) ⟨trivial, hquiet⟩ <|
      Runs.meets_cons (next_grant hheld hmin) ⟨trivial, trivial⟩ <|
      Runs.meets_cons (next_reopen hgranted) ⟨trivial, rfl⟩ <|
      Runs.meets_cons (next_renew hopened) ⟨⟨hnew, hlen⟩, trivial⟩ <|
      Runs.meets_cons (next_send hrenewed) ⟨trivial, trivial⟩ trivial

end Steps

theorem faiDec_en (key : List Byte) : faiDec (Base64.en key) = some key := by
  rw [faiDec, Base64.de_en]

theorem length_faiKey (b : Byte) : keymin ≤ (faiKey b).length ∧
    faiminKeylen ≤ (faiKey b).length ∧ (faiKey b).length ≤ keymax := by
  rw [faiKey, List.length_replicate]
  decide

theorem faiKey_inj {a b : Byte} : faiKey a = faiKey b ↔ a = b := List.replicate_right_inj (by decide)

theorem fai_key_once_two :
    ∃ t, Runs.run (faiNext faiDec) (.begin 9 (faiKey 1) 2)
        (entranceOf 0 (faiKey 2) ++ entranceOf 1 (faiKey 3)) = some t ∧
      t.accepted = [Base64.en (faiKey 2), Base64.en (faiKey 1)] ∧ t.accepted.Nodup := by
  obtain ⟨hfirst, hmeets⟩ := @run_entranceOf faiDec 0 [.start, .start] [] [faiKey 1] 0 9 (faiKey 1)
    (faiKey 2) rfl (by decide) (by decide) (length_faiKey 1).1 (length_faiKey 1).2.2 (faiDec_en _)
    (by decide) (by simp [faiKey_inj]) (length_faiKey 2).2
  obtain ⟨hsecond, hmeets'⟩ := @run_entranceOf faiDec 0 [.inside, .start] [Base64.en (faiKey 1)]
    [faiKey 2, faiKey 1] 1 9 (faiKey 2) (faiKey 3) rfl (by decide) (by decide) (length_faiKey 2).1
    (length_faiKey 2).2.2 (faiDec_en _) (by decide) (by simp [faiKey_inj]) (length_faiKey 3).2
  rw [List.set_cons_zero] at hfirst
  rw [List.set_cons_succ, List.set_cons_zero] at hsecond
  have hboth : Runs.Meets (faiNext faiDec) (fun s a => FreshKey s a ∧ Orderly s a)
      (.begin 9 (faiKey 1) 2) (entranceOf 0 (faiKey 2) ++ entranceOf 1 (faiKey 3)) := by
    refine Runs.meets_append hmeets fun t ht => ?_
    cases hfirst.symm.trans ht
    exact hmeets'
  have hrun : Runs.run (faiNext faiDec) (.begin 9 (faiKey 1) 2)
      (entranceOf 0 (faiKey 2) ++ entranceOf 1 (faiKey 3)) =
        some ⟨some (tokenLine 9 (faiKey 3)), 0, [.inside, .inside],
          [Base64.en (faiKey 2), Base64.en (faiKey 1)], [faiKey 3, faiKey 2, faiKey 1]⟩ := by
    rw [Runs.run_append, FaiSys.begin, List.replicate_succ, List.replicate_one, hfirst,
      Option.bind_some, hsecond]
  exact ⟨_, hrun, rfl,
    @fai_key_once faiDec 9 (faiKey 1) (by decide) (length_faiKey 1).2.2 2 _ _ hboth hrun⟩

/-- Two clients that read the token before either of them replaced it are both let in with
the same key. -/
theorem fai_key_twice :
    ∃ t, Runs.Meets (faiNext faiDec) FreshKey (.begin 9 (faiKey 1) 2)
        [.check 0 0, .check 1 0, .grant 0 true, .grant 1 true, .reopen 0 true,
          .renew 0 (some (faiKey 2)), .reopen 1 true, .renew 1 (some (faiKey 3)), .send 0 true,
          .send 1 true] ∧
      Runs.run (faiNext faiDec) (.begin 9 (faiKey 1) 2)
        [.check 0 0, .check 1 0, .grant 0 true, .grant 1 true, .reopen 0 true,
          .renew 0 (some (faiKey 2)), .reopen 1 true, .renew 1 (some (faiKey 3)), .send 0 true,
          .send 1 true] = some t ∧
      t.procs = [.inside, .inside] ∧
      t.accepted = [Base64.en (faiKey 1), Base64.en (faiKey 1)] ∧ ¬ t.accepted.Nodup := by
  have hread : readToken faiDec 0 (tokenLine 9 (faiKey 1)) =
      some (9, Base64.en (faiKey 1), faiKey 1) :=
    readToken_tokenLine (by decide) (length_faiKey 1).2.2 (by decide) (faiDec_en _)
  have hmin := (length_faiKey 1).1
  have hnew : faiKey 2 ∉ [faiKey 1] ∧ faiKey 3 ∉ [faiKey 2, faiKey 1] := by simp [faiKey_inj]
  refine ⟨⟨some (tokenLine 9 (faiKey 3)), 0, [.inside, .inside],
    [Base64.en (faiKey 1), Base64.en (faiKey 1)], [faiKey 3, faiKey 2, faiKey 1]⟩, ?_, ?_, rfl, rfl,
    fun h => (List.nodup_cons.mp h).1 List.mem_cons_self⟩
  · exact Runs.meets_cons (next_check rfl hread) trivial <|
      Runs.meets_cons (next_check rfl hread) trivial <|
      Runs.meets_cons (next_grant rfl hmin) trivial <|
      Runs.meets_cons (next_grant rfl hmin) trivial <|
      Runs.meets_cons (next_reopen rfl) trivial <|
      Runs.meets_cons (next_renew rfl) ⟨hnew.1, (length_faiKey 2).2⟩ <|
      Runs.meets_cons (next_reopen rfl) trivial <|
      Runs.meets_cons (next_renew rfl) ⟨hnew.2, (length_faiKey 3).2⟩ <|
      Runs.meets_cons (next_send rfl) trivial <| Runs.meets_cons (next_send rfl) trivial trivial
  · rw [FaiSys.begin, Runs.run_cons (next_check rfl hread), Runs.run_cons (next_check rfl hread),
      Runs.run_cons (next_grant rfl hmin), Runs.run_cons (next_grant rfl hmin),
      Runs.run_cons (next_reopen rfl), Runs.run_cons (next_renew rfl),
      Runs.run_cons (next_reopen rfl), Runs.run_cons (next_renew rfl),
      Runs.run_cons (next_send rfl), Runs.run_cons (next_send rfl)]
    rfl

end TFProtocol
