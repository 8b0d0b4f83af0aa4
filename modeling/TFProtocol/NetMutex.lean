import TFProtocol.Jail
import TFProtocol.Lib.Runs
import TFProtocol.Session

/-!
# The mutex in a file

`NETMUTACQ_TRY` and `NETMUTREL` keep a mutex in a file: the file is empty, or it holds the
token of the holder.  A command locks the file for as long as it runs, so commands on one
file take place one after the other.  An attempt to acquire an empty file writes the token;
otherwise both commands read the file into a buffer of 255 bytes, end it there with a NUL
and compare it with the token.

## Main definitions

* `cmdNetmutacqtry`, `cmdNetmutrel` — the handlers, once the file is locked.
* `Mut`, `mutNext` — the file with the tokens that are held, and one command on it.
* `MutAllowed` — what a command must be for the file to be a mutex.

## Main results

* `netmut_is_mutex` — under that condition it is one.
-/

namespace TFProtocol

open Bytes CStr

/-! ### The handlers -/

/-- `STDSTR`. -/
def stdstr : ℕ := 255

/-- `CMD_EACCESS`. -/
def cmdEaccess : List Byte := lit "1 : Access denied to location."

/-- `CMD_ENETMUTEX`. -/
def cmdEnetmutex : List Byte := lit "55 : Failed to acquire or release NETMUT."

/-- A token, as a C string: the text behind the second blank of the command. -/
abbrev Token := { tok : List Byte // 0 ∉ tok }

/-- The outcomes of the calls a command makes. -/
structure MutEnv where
  /-- `jaildir` lets the path through. -/
  jailed : Bool
  opens : Bool
  locks : Bool
  stats : Bool
  reads : Bool
  writes : List SysRes
  truncates : Bool
  deriving DecidableEq, Repr

/-- Every call succeeds, and the path is allowed. -/
def MutEnv.Works (e : MutEnv) : Prop :=
  e.jailed ∧ e.opens ∧ e.locks ∧ e.stats ∧ e.reads ∧ e.truncates

instance (e : MutEnv) : Decidable e.Works := inferInstanceAs (Decidable (_ ∧ _ ∧ _ ∧ _ ∧ _ ∧ _))

/-- What a command leaves: its reply, the file, and whether it stored outside `tok`. -/
structure MutOut where
  reply : List Byte
  content : List Byte
  outside : Bool
  deriving DecidableEq, Repr

/-- The calls both handlers begin with: the error they end in, if any. -/
def netmutOpen (e : MutEnv) : Option (List Byte) :=
  if !e.jailed then some cmdEaccess
  else if !e.opens || !e.locks || !e.stats then some cmdEnetmutex
  else none

/-- The second half of both handlers: the token in the file is read and compared, and a
match continues with `onMatch`. -/
def netmutCompare (e : MutEnv) (content tok onMatch : List Byte) : MutOut :=
  if !e.reads then ⟨cmdFailText cmdEnetmutex, content, false⟩
  else
    let got := content.take stdstr
    -- `tok[rb] = '\0'` in an array of `STDSTR` bytes
    let outside := decide (stdstr ≤ got.length)
    if cstr got = tok then ⟨cmdOkText, onMatch, outside⟩
    else ⟨cmdFailText cmdEnetmutex, content, outside⟩

/-- `cmd_netmutacqtry`. -/
def cmdNetmutacqtry (e : MutEnv) (content tok : List Byte) : MutOut :=
  match netmutOpen e with
  | some err => ⟨cmdFailText err, content, false⟩
  | none =>
    if content = [] then
      let w := writechunk e.writes tok
      ⟨if w.1 = -1 then cmdFailText cmdEnetmutex else cmdOkText, w.2, false⟩
    else netmutCompare e content tok content

/-- `cmd_netmutrel`: the value of `ftruncate` is not looked at. -/
def cmdNetmutrel (e : MutEnv) (content tok : List Byte) : MutOut :=
  match netmutOpen e with
  | some err => ⟨cmdFailText err, content, false⟩
  | none =>
    if content = [] then ⟨cmdOkText, content, false⟩
    else netmutCompare e content tok (if e.truncates then [] else content)

/-! ### The system -/

/-- The file, the tokens that are held, and whether a store went outside an array. -/
structure Mut where
  content : List Byte
  held : List Token
  outside : Bool
  deriving DecidableEq, Repr

/-- A command of any client. -/
inductive MutCmd
  | acqtry (tok : Token) (e : MutEnv)
  | rel (tok : Token) (e : MutEnv)
  deriving DecidableEq, Repr

/-- The token of a command. -/
def MutCmd.token : MutCmd → Token
  | .acqtry tok _ => tok
  | .rel tok _ => tok

/-- What a command does in a state. -/
def mutOut (s : Mut) : MutCmd → MutOut
  | .acqtry tok e => cmdNetmutacqtry e s.content tok
  | .rel tok e => cmdNetmutrel e s.content tok

/-- The tokens that are held after a command: a token is held from a successful
`NETMUTACQ_TRY` to the next successful `NETMUTREL` with it. -/
def mutHeld (s : Mut) (c : MutCmd) : List Token :=
  if (mutOut s c).reply = cmdOkText then
    match c with
    | .acqtry tok _ => if tok ∈ s.held then s.held else tok :: s.held
    | .rel tok _ => s.held.filter (· ≠ tok)
  else s.held

/-- One command. -/
def mutNext (s : Mut) (c : MutCmd) : Option Mut :=
  some ⟨(mutOut s c).content, mutHeld s c, s.outside || (mutOut s c).outside⟩

/-- A free mutex. -/
def Mut.free : Mut := ⟨[], [], false⟩

/-- What a command must be for the file to stay a mutex: a token that is to be written is
not empty and leaves room for a NUL in the buffer, and the calls made for the holder
succeed. -/
def MutAllowed (s : Mut) : MutCmd → Prop
  | .acqtry tok e =>
    (s.content = [] → netmutOpen e = none → tok.1 ≠ [] ∧ tok.1.length < stdstr) ∧
      (tok ∈ s.held → e.Works)
  | .rel tok e => tok ∈ s.held → e.Works

instance (s : Mut) : ∀ c, Decidable (MutAllowed s c)
  | .acqtry .. => inferInstanceAs (Decidable ((_ → _ → _ ∧ _) ∧ (_ → _)))
  | .rel .. => inferInstanceAs (Decidable (_ → _))

/-- At most one token is held, and every store was inside its array. -/
structure MutexState (s : Mut) : Prop where
  single : ∀ a ∈ s.held, ∀ b ∈ s.held, a = b
  inside : s.outside = false

/-- What a command does: the holder can acquire again, the holder can release, and
commands with other tokens leave the holder alone. -/
structure MutexStep (s t : Mut) (c : MutCmd) : Prop where
  again : ∀ tok e, c = .acqtry tok e → tok ∈ s.held →
    (mutOut s c).reply = cmdOkText ∧ t.held = s.held
  release : ∀ tok e, c = .rel tok e → tok ∈ s.held →
    (mutOut s c).reply = cmdOkText ∧ t.held = [] ∧ t.content = []
  others : ∀ tok ∈ s.held, tok ≠ c.token → t.held = s.held ∧ t.content = s.content

/-! ### The invariant -/

/-- What is held is what the file says, and the file fits the buffer. -/
structure MutInv (s : Mut) : Prop where
  fits : s.content.length < stdstr
  text : 0 ∉ s.content
  held : ∀ tok ∈ s.held, tok.1 = s.content ∧ tok.1 ≠ []
  inside : s.outside = false

theorem MutInv.mutexState {s : Mut} (h : MutInv s) : MutexState s where
  single := fun a ha b hb => Subtype.ext ((h.held a ha).1.trans (h.held b hb).1.symm)
  inside := h.inside

theorem MutEnv.Works.netmutOpen {e : MutEnv} (h : e.Works) : netmutOpen e = none := by
  obtain ⟨h1, h2, h3, h4, -, -⟩ := h
  simp [TFProtocol.netmutOpen, h1, h2, h3, h4]

/-- The comparison, on a file that fits the buffer. -/
theorem netmutCompare_eq {content : List Byte} (hfits : content.length < stdstr)
    (htext : 0 ∉ content) (e : MutEnv) (tok onMatch : List Byte) :
    netmutCompare e content tok onMatch
      = if e.reads ∧ content = tok then ⟨cmdOkText, onMatch, false⟩
        else ⟨cmdFailText cmdEnetmutex, content, false⟩ := by
  have htake : content.take stdstr = content := List.take_of_length_le hfits.le
  have hout : decide (stdstr ≤ content.length) = false := decide_eq_false (by omega)
  simp only [netmutCompare, htake, cstr_eq_self htext, hout]
  cases e.reads with
  | false => simp
  | true => simp

/-- What a command can do in a state of the invariant: nothing, store the start of its
token in a free file, find its own token, or clear it. -/
theorem mutOut_cases {s : Mut} (h : MutInv s) (c : MutCmd) (hc : MutAllowed s c) :
    (mutOut s c).outside = false ∧
      (((mutOut s c).reply ≠ cmdOkText ∧ (mutOut s c).content = s.content) ∨
        (∃ tok e, c = .acqtry tok e ∧ s.content = [] ∧ tok.1 ≠ [] ∧ tok.1.length < stdstr ∧
          (mutOut s c).content <+: tok.1 ∧
          ((mutOut s c).reply = cmdOkText → (mutOut s c).content = tok.1)) ∨
        (∃ tok e, c = .acqtry tok e ∧ s.content ≠ [] ∧ s.content = tok.1 ∧
          (mutOut s c).reply = cmdOkText ∧ (mutOut s c).content = s.content) ∨
        (∃ tok e, c = .rel tok e ∧ (s.content = [] ∨ s.content = tok.1) ∧
          (mutOut s c).reply = cmdOkText ∧
          (mutOut s c).content = if e.truncates then [] else s.content)) := by
  cases c with
  | acqtry tok e =>
    cases hopen : netmutOpen e with
    | some err =>
      have hout : mutOut s (.acqtry tok e) = ⟨cmdFailText err, s.content, false⟩ := by
        simp only [mutOut, cmdNetmutacqtry, hopen]
      rw [hout]
      exact ⟨rfl, .inl ⟨cmdFailText_ne_ok err, rfl⟩⟩
    | none =>
      by_cases hempty : s.content = []
      · obtain ⟨hpre, hall⟩ := writechunk_spec e.writes tok.1
        obtain ⟨hne, hlen⟩ := hc.1 hempty hopen
        have hout : mutOut s (.acqtry tok e)
            = ⟨if (writechunk e.writes tok.1).1 = -1 then cmdFailText cmdEnetmutex else cmdOkText,
              (writechunk e.writes tok.1).2, false⟩ := by
          simp only [mutOut, cmdNetmutacqtry, hopen, hempty, if_true]
        rw [hout]
        refine ⟨rfl, .inr (.inl ⟨tok, e, rfl, hempty, hne, hlen, hpre, fun hok => ?_⟩)⟩
        refine hall fun hret => ?_
        rw [if_pos hret] at hok
        exact cmdFailText_ne_ok _ hok
      · have hout : mutOut s (.acqtry tok e) = netmutCompare e s.content tok s.content := by
          simp only [mutOut, cmdNetmutacqtry, hopen, hempty, if_false]
        rw [hout, netmutCompare_eq h.fits h.text]
        split
        · next hm => exact ⟨rfl, .inr (.inr (.inl ⟨tok, e, rfl, hempty, hm.2, rfl, rfl⟩))⟩
        · exact ⟨rfl, .inl ⟨cmdFailText_ne_ok _, rfl⟩⟩
  | rel tok e =>
    cases hopen : netmutOpen e with
    | some err =>
      have hout : mutOut s (.rel tok e) = ⟨cmdFailText err, s.content, false⟩ := by
        simp only [mutOut, cmdNetmutrel, hopen]
      rw [hout]
      exact ⟨rfl, .inl ⟨cmdFailText_ne_ok err, rfl⟩⟩
    | none =>
      by_cases hempty : s.content = []
      · have hout : mutOut s (.rel tok e) = ⟨cmdOkText, s.content, false⟩ := by
          simp only [mutOut, cmdNetmutrel, hopen, hempty, if_true]
        rw [hout]
        exact ⟨rfl, .inr (.inr (.inr ⟨tok, e, rfl, .inl hempty, rfl, by simp [hempty]⟩))⟩
      · have hout : mutOut s (.rel tok e)
            = netmutCompare e s.content tok (if e.truncates then [] else s.content) := by
          simp only [mutOut, cmdNetmutrel, hopen, hempty, if_false]
        rw [hout, netmutCompare_eq h.fits h.text]
        split
        · next hm => exact ⟨rfl, .inr (.inr (.inr ⟨tok, e, rfl, .inr hm.2, rfl, rfl⟩))⟩
        · exact ⟨rfl, .inl ⟨cmdFailText_ne_ok _, rfl⟩⟩

/-- The holder's calls succeed, so its commands do. -/
theorem reply_of_held {s : Mut} (h : MutInv s) {c : MutCmd} (hc : MutAllowed s c)
    (hheld : c.token ∈ s.held) : (mutOut s c).reply = cmdOkText := by
  obtain ⟨htok, hne⟩ := h.held _ hheld
  have hcontent : s.content ≠ [] := htok ▸ hne
  cases c with
  | acqtry tok e =>
    have hworks := hc.2 hheld
    have htok : s.content = tok.1 := htok.symm
    simp only [mutOut, cmdNetmutacqtry, hworks.netmutOpen, hcontent, if_false,
      netmutCompare_eq h.fits h.text]
    rw [if_pos ⟨hworks.2.2.2.2.1, htok⟩]
  | rel tok e =>
    have hworks := hc hheld
    have htok : s.content = tok.1 := htok.symm
    simp only [mutOut, cmdNetmutrel, hworks.netmutOpen, hcontent, if_false,
      netmutCompare_eq h.fits h.text]
    rw [if_pos ⟨hworks.2.2.2.2.1, htok⟩]

/-- The state a command leaves. -/
def mutAfter (s : Mut) (c : MutCmd) : Mut :=
  ⟨(mutOut s c).content, mutHeld s c, s.outside || (mutOut s c).outside⟩

section

variable {s : Mut} (h : MutInv s)

include h

/-- Nothing is held while the file is empty. -/
theorem MutInv.held_eq_nil (hempty : s.content = []) : s.held = [] := by
  rw [List.eq_nil_iff_forall_not_mem]
  intro tok htok
  obtain ⟨htext, hne⟩ := h.held tok htok
  rw [hempty] at htext
  exact hne htext

/-- What is held is the token in the file. -/
theorem MutInv.eq_of_content {tok tok' : Token} (htok : s.content = tok.1) (hmem : tok' ∈ s.held) :
    tok' = tok :=
  Subtype.ext ((h.held tok' hmem).1.trans htok)

/-- A command that is refused changes nothing, and it was not the holder's. -/
theorem MutInv.refused {c : MutCmd} (hc : MutAllowed s c) (hfail : (mutOut s c).reply ≠ cmdOkText)
    (hsame : (mutAfter s c).content = s.content) (hin : (mutAfter s c).outside = false) :
    MutInv (mutAfter s c) ∧ MutexStep s (mutAfter s c) c := by
  have hheld : mutHeld s c = s.held := if_neg hfail
  have hreply := reply_of_held h hc
  refine ⟨⟨hsame ▸ h.fits, hsame ▸ h.text, ?_, hin⟩, ?_, ?_, fun _ _ _ => ⟨hheld, hsame⟩⟩
  · show ∀ tok ∈ mutHeld s c, _
    rw [hheld, hsame]
    exact h.held
  · rintro tok e rfl hmem
    exact absurd (hreply hmem) hfail
  · rintro tok e rfl hmem
    exact absurd (hreply hmem) hfail

/-- A free mutex is acquired, or some of the token is written and it is not. -/
theorem MutInv.acquired {tok : Token} {e : MutEnv} (hempty : s.content = []) (hne : tok.1 ≠ [])
    (hlen : tok.1.length < stdstr) (hpre : (mutOut s (.acqtry tok e)).content <+: tok.1)
    (hall : (mutOut s (.acqtry tok e)).reply = cmdOkText →
      (mutOut s (.acqtry tok e)).content = tok.1)
    (hin : (mutAfter s (.acqtry tok e)).outside = false) :
    MutInv (mutAfter s (.acqtry tok e)) ∧
      MutexStep s (mutAfter s (.acqtry tok e)) (.acqtry tok e) := by
  have hnone := h.held_eq_nil hempty
  refine ⟨⟨lt_of_le_of_lt hpre.length_le hlen, fun h0 => tok.2 (hpre.subset h0), ?_, hin⟩,
    ?_, ?_, ?_⟩
  · show ∀ tok' ∈ mutHeld s (.acqtry tok e), _
    simp only [mutHeld, hnone, List.not_mem_nil, if_false]
    split
    · next hok =>
      intro tok' htok'
      obtain rfl := List.mem_singleton.mp htok'
      exact ⟨(hall hok).symm, hne⟩
    · nofun
  · intro tok' e' _ hmem
    rw [hnone] at hmem
    cases hmem
  · nofun
  · intro tok' hmem
    rw [hnone] at hmem
    cases hmem

/-- The token is already in the file. -/
theorem MutInv.again {tok : Token} {e : MutEnv} (hne : s.content ≠ []) (htok : s.content = tok.1)
    (hok : (mutOut s (.acqtry tok e)).reply = cmdOkText)
    (hsame : (mutAfter s (.acqtry tok e)).content = s.content)
    (hin : (mutAfter s (.acqtry tok e)).outside = false) :
    MutInv (mutAfter s (.acqtry tok e)) ∧
      MutexStep s (mutAfter s (.acqtry tok e)) (.acqtry tok e) := by
  have hheld : ∀ tok' ∈ mutHeld s (.acqtry tok e), tok' = tok := by
    intro tok' htok'
    simp only [mutHeld, hok, if_true] at htok'
    split at htok'
    · exact h.eq_of_content htok htok'
    · rcases List.mem_cons.mp htok' with rfl | htok'
      · rfl
      · exact h.eq_of_content htok htok'
  refine ⟨⟨hsame ▸ h.fits, hsame ▸ h.text, ?_, hin⟩, ?_, nofun, ?_⟩
  · intro tok' htok'
    rw [hheld tok' htok', hsame, ← htok]
    exact ⟨rfl, hne⟩
  · intro tok' e' heq hmem
    obtain ⟨rfl, rfl⟩ : tok = tok' ∧ e = e' := by simpa using heq
    refine ⟨hok, ?_⟩
    show mutHeld s (.acqtry tok e) = s.held
    simp only [mutHeld, hok, hmem, if_true]
  · intro tok' hmem hne'
    exact absurd (h.eq_of_content htok hmem) hne'

/-- A release empties the file, or finds it empty. -/
theorem MutInv.released {tok : Token} {e : MutEnv} (hc : MutAllowed s (.rel tok e))
    (htok : s.content = [] ∨ s.content = tok.1) (hok : (mutOut s (.rel tok e)).reply = cmdOkText)
    (hcont : (mutOut s (.rel tok e)).content = if e.truncates then [] else s.content)
    (hin : (mutAfter s (.rel tok e)).outside = false) :
    MutInv (mutAfter s (.rel tok e)) ∧ MutexStep s (mutAfter s (.rel tok e)) (.rel tok e) := by
  have heq : ∀ tok' ∈ s.held, tok' = tok := by
    intro tok' hmem
    rcases htok with hempty | htok
    · rw [h.held_eq_nil hempty] at hmem
      cases hmem
    · exact h.eq_of_content htok hmem
  have hnone : mutHeld s (.rel tok e) = [] := by
    simp only [mutHeld, hok, if_true]
    rw [List.filter_eq_nil_iff]
    intro tok' htok'
    simpa using heq tok' htok'
  have hsub : (mutOut s (.rel tok e)).content = [] ∨
      (mutOut s (.rel tok e)).content = s.content := by
    rw [hcont]
    split
    · exact .inl rfl
    · exact .inr rfl
  refine ⟨⟨?_, ?_, ?_, hin⟩, nofun, ?_, ?_⟩
  · show (mutOut s (.rel tok e)).content.length < stdstr
    rcases hsub with h' | h' <;> rw [h']
    · decide
    · exact h.fits
  · show 0 ∉ (mutOut s (.rel tok e)).content
    rcases hsub with h' | h' <;> rw [h']
    · exact List.not_mem_nil
    · exact h.text
  · show ∀ tok' ∈ mutHeld s (.rel tok e), _
    rw [hnone]
    nofun
  · intro tok' e' hcmd hmem
    obtain ⟨rfl, rfl⟩ : tok = tok' ∧ e = e' := by simpa using hcmd
    refine ⟨hok, hnone, ?_⟩
    show (mutOut s (.rel tok e)).content = []
    rw [hcont, if_pos (hc hmem).2.2.2.2.2]
  · intro tok' hmem hne
    exact absurd (heq tok' hmem) hne

end

/-- **One command.** -/
theorem mutNext_ok {s t : Mut} (h : MutInv s) {c : MutCmd} (hc : MutAllowed s c)
    (hnext : mutNext s c = some t) : MutInv t ∧ MutexStep s t c := by
  obtain rfl : mutAfter s c = t := Option.some.inj hnext
  obtain ⟨hinside, hcases⟩ := mutOut_cases h c hc
  have hin : (mutAfter s c).outside = false := by
    show (s.outside || (mutOut s c).outside) = false
    rw [h.inside, hinside]
    rfl
  rcases hcases with ⟨hfail, hsame⟩ | ⟨tok, e, rfl, hempty, hne, hlen, hpre, hall⟩ |
      ⟨tok, e, rfl, hne, htok, hok, hsame⟩ | ⟨tok, e, rfl, htok, hok, hcont⟩
  · exact h.refused hc hfail hsame hin
  · exact h.acquired hempty hne hlen hpre hall hin
  · exact h.again hne htok hok hsame hin
  · exact h.released hc htok hok hcont hin

/-- **The file is a mutex.**  After every sequence of allowed commands of any clients, at
most one token is held and no store went outside an array; and for every allowed command
that comes next, the holder acquires again, the holder's release succeeds and frees the
mutex, and no other token changes the holder. -/
theorem netmut_is_mutex {cmds : List MutCmd} {s : Mut}
    (hmeets : Runs.Meets mutNext MutAllowed .free cmds)
    (hrun : Runs.run mutNext .free cmds = some s) :
    MutexState s ∧ ∀ c t, MutAllowed s c → mutNext s c = some t → MutexStep s t c := by
  have hfree : MutInv .free := ⟨by decide, List.not_mem_nil, nofun, rfl⟩
  have hinv := Runs.inv_of_run (fun _ _ _ h hc hnext => (mutNext_ok h hc hnext).1) hfree hmeets hrun
  exact ⟨hinv.mutexState, fun c t hc hnext => (mutNext_ok hinv hc hnext).2⟩

/-- A command whose calls all succeed. -/
def calmEnv : MutEnv := ⟨true, true, true, true, true, [], true⟩

/-- The tokens of the examples. -/
def tokenA : Token := ⟨lit "a", by decide⟩

@[inherit_doc tokenA]
def tokenB : Token := ⟨lit "b", by decide⟩

theorem netmut_is_mutex_two :
    let s : Mut := ⟨lit "a", [tokenA], false⟩
    let t : Mut := ⟨[], [], false⟩
    Runs.run mutNext .free [.acqtry tokenA calmEnv, .acqtry tokenB calmEnv] = some s ∧
      mutNext s (.rel tokenA calmEnv) = some t ∧
      MutexState s ∧ MutexStep s t (.rel tokenA calmEnv) := by
  intro s t
  have hrun : Runs.run mutNext .free [.acqtry tokenA calmEnv, .acqtry tokenB calmEnv] = some s := by
    decide
  have hnext : mutNext s (.rel tokenA calmEnv) = some t := by decide
  obtain ⟨hstate, hstep⟩ := netmut_is_mutex (by decide) hrun
  exact ⟨hrun, hnext, hstate, hstep _ _ (by decide) hnext⟩

/-- A client acquires the mutex with an empty token, which writes nothing, and then another
client acquires it with a token of its own. -/
theorem netmut_two_holders :
    let empty : Token := ⟨[], List.not_mem_nil⟩
    ∃ s, Runs.run mutNext .free [.acqtry empty calmEnv, .acqtry tokenA calmEnv] = some s ∧
      s.held = [tokenA, empty] ∧ ¬ MutexState s := by
  intro empty
  refine ⟨⟨lit "a", [tokenA, empty], false⟩, by decide, rfl, fun h => ?_⟩
  exact absurd (h.single tokenA (by decide) empty (by decide)) (by decide)

end TFProtocol
