import TFProtocol.Lib.SlotTable
import TFProtocol.OkReplies
import TFProtocol.Server

/-!
# The descriptors of the extended subsystem

The subsystem `xs1` keeps the files a client has opened in a table, and the client names them
by the numbers of their slots.  A new descriptor goes into the first free slot, and its number
is found by looking for the descriptor.  A number in the text of a command goes through a
buffer of 22 bytes, through `atoll`, and into an `int32_t`.

## Main definitions

* `Xs1`, `xs1Getfd`, `xs1Getidx`, `xs1Chkidx` — the table, and the functions on it.
* `Xs1Req`, `xs1Step` — the commands, with what their calls return.
* `Xs1StepOk` — what a command may do to the table, and when.
* `Xs1Clear` — the condition: a number is read as it is written.

## Main results

* `xs1_table_ok` — in every run of commands that are clear each of them is in order.
-/

namespace TFProtocol

open Bytes CStr

/-! ### The table -/

/-- `struct ds`, with the descriptors that are open in the process. -/
structure Xs1 where
  fds : List ℤ
  isOpen : ℤ → Bool

/-- `INT_MAX`. -/
def intMax : ℕ := 2 ^ 31 - 1

/-- `xs1_getfd`: the number of the slot, and the table; `grows` if `realloc` succeeds. -/
def xs1Getfd (grows : Bool) (fds : List ℤ) : Option (ℕ × List ℤ) :=
  if -1 ∈ fds then some (SlotTable.claim (-1) fds)
  else if fds.length = intMax ∨ !grows then none
  else some (SlotTable.claim (-1) fds)

/-- `xs1_getidx`, unless it returns `-1`. -/
def xs1Getidx (fd : ℤ) (fds : List ℤ) : Option ℕ := fds.findIdx? (· = fd)

/-- `LLDIGITS`. -/
def lldigits : ℕ := 8 / 2 * 3 + 8 + 2

/-- `xs1_chkidx_int64`, unless it returns `-1`. -/
def xs1ChkidxInt64 (fds : List ℤ) (idx : ℤ) : Option ℕ :=
  if idx < 0 ∨ (fds.length : ℤ) ≤ idx ∨ fds[idx.toNat]? = some (-1) then none else some idx.toNat

/-- The number `xs1_chkidx` reads. -/
def xs1Number (mem : List Byte) : ℤ := cint (strtol (strcpySec (cstr mem) lldigits))

/-- `xs1_chkidx`, unless it returns `-1`. -/
def xs1Chkidx (fds : List ℤ) (mem : List Byte) : Option ℕ :=
  if strcpySec (cstr mem) lldigits = [] then none else xs1ChkidxInt64 fds (xs1Number mem)

/-! ### Calls on a descriptor -/

/-- The whence constants. -/
inductive Whence
  | set | cur | end_
  deriving DecidableEq, Repr

/-- The types of locks. -/
inductive LockType
  | lock | lockw | unlock
  deriving DecidableEq, Repr

/-- What a command does with a descriptor. -/
inductive FdCall
  | close
  | ftruncate (len : ℤ)
  | lseek (offset : ℤ) (whence : Whence)
  | fcntl (type : LockType)
  | read (sz : ℕ)
  | write (bytes : List Byte)
  deriving DecidableEq, Repr

/-- What the call returns. -/
structure FdAns where
  ret : ℤ
  errno : ℕ
  /-- What a read stored. -/
  data : List Byte
  /-- The reply can be written. -/
  sent : Bool
  deriving DecidableEq, Repr

/-- `ENOSPC`. -/
def enospc : ℕ := 28

/-- `READ_MAX`. -/
def readMax : ℕ := commbuflen - 3

/-- `WRITE_MAX`, as `xs1_parse` computes it. -/
def writeMax : ℕ := commbuflen - (10 + (4 / 2 * 3 + 4) + 1 + (udec commbuflen).length + 1)

/-- The text behind the first blank. -/
def behindBlank (text : List Byte) : Checks (List Byte) :=
  match strstr (lit " ") text with
  | some (_, rest) => .ok rest
  | none => refuse cmdEparam

/-- The commands that name a descriptor in their text, other than `XS1_CLOSE`. -/
inductive FdCmd
  | trunc | seek | lock | read | write
  deriving DecidableEq, Repr

/-- `xs1_cmdtrunc` between the check of the index and `ftruncate`. -/
def xs1TruncCall (mem : List Byte) : Checks FdCall := do
  let rest ← behindBlank (cstr mem)
  let num := strcpySec rest lldigits
  demand (num ≠ []) (lit "XS1 4 : Invalid value for truncation.")
  demand (0 ≤ strtol num) (lit "XS1 4 : Invalid value for truncation.")
  return .ftruncate (strtol num)

/-- `xs1_cmdseek` between the check of the index and `lseek`. -/
def xs1SeekCall (mem : List Byte) : Checks FdCall := do
  let rest ← behindBlank (cstr mem)
  let num := strcpySec rest lldigits
  demand (num ≠ []) (lit "XS1 6 : Invalid value for seek.")
  let rest ← behindBlank rest
  let wh := cmdtoupper (strcpySec rest lldigits)
  if wh = lit "SET" then return .lseek (strtol num) .set
  else if wh = lit "CUR" then return .lseek (strtol num) .cur
  else if wh = lit "END" then return .lseek (strtol num) .end_
  else refuse (lit "XS1 7 : Invalid whence constant.")

/-- `xs1_cmdlock` between the check of the index and `fcntl`. -/
def xs1LockCall (mem : List Byte) : Checks FdCall := do
  let rest ← behindBlank (cstr mem)
  let lckt := cmdtoupper (strcpySec rest lldigits)
  if lckt = lit "LOCK" then return .fcntl .lock
  else if lckt = lit "LOCKW" then return .fcntl .lockw
  else if lckt = lit "UNLOCK" then return .fcntl .unlock
  else refuse (lit "XS1 9 : Lock type unknown.")

/-- `xs1_cmdread` between the check of the index and `read`. -/
def xs1ReadCall (mem : List Byte) : Checks FdCall := do
  let rest ← behindBlank (cstr mem)
  let num := strcpySec rest lldigits
  demand (num ≠ []) (lit "XS1 12 : Invalid length value for read.")
  -- a negative number is a large `size_t`
  demand (0 ≤ strtol num ∧ strtol num ≤ readMax) (lit "XS1 12 : Invalid length value for read.")
  return .read (strtol num).toNat

/-- `xs1_cmdwrite` between the check of the index and `write`: the bytes behind the second
blank, as many as the size says, whatever is there. -/
def xs1WriteCall (mem : List Byte) : Checks FdCall := do
  let (idx, rest) ← need (strstr (lit " ") (cstr mem)) cmdEparam
  let (size, _) ← need (strstr (lit " ") rest) cmdEparam
  let num := strcpySec size lldigits
  demand (num ≠ []) (lit "XS1 15 : Invalid size value for write.")
  demand (0 ≤ strtol num ∧ strtol num ≤ writeMax) (lit "XS1 15 : Invalid size value for write.")
  return .write ((mem.drop (idx.length + 1 + size.length + 1)).take (strtol num).toNat)

/-- What a command does between the check of the index and its call. -/
def FdCmd.call : FdCmd → List Byte → Checks FdCall
  | .trunc => xs1TruncCall
  | .seek => xs1SeekCall
  | .lock => xs1LockCall
  | .read => xs1ReadCall
  | .write => xs1WriteCall

/-- The reply to what the call returned. -/
def FdCall.answered (a : FdAns) : FdCall → List Byte
  | .close => cmdOkText
  | .ftruncate _ =>
    if a.ret = -1 then cmdFailText (lit "XS1 5 : Error while truncating the file.") else cmdOkText
  | .lseek _ _ =>
    if a.ret = -1 then cmdFailText (lit "XS1 8 : Error while seeking in the file.")
    else cmdOkText ++ lit " " ++ udec a.ret.toNat
  | .fcntl type =>
    if a.ret = -1 then
      if type = .lockw then cmdFailText (lit "XS1 10 : Error while locking the file.")
      else cmdFailText (lit "XS1 11 : Unable to acquire the lock.")
    else cmdOkText
  | .read _ =>
    if a.ret = -1 then cmdFailText (lit "XS1 13 : Error while reading the file.")
    else if a.sent then cmdOkText ++ lit " " ++ a.data
    else cmdFailText (lit "XS1 14 : Network operation error.")
  | .write bytes =>
    if a.ret = -1 ∧ a.errno = enospc then cmdFailText (lit "13 : Quota exceeded.")
    else if a.ret = -1 ∨ a.ret < bytes.length then
      cmdFailText (lit "XS1 16 : Error while writing the file.")
    else cmdOkText

/-! ### The commands -/

/-- A command as it arrives, with what its calls return.  `mem` is the memory behind the
command name. -/
inductive Xs1Req
  /-- `XS1_OPEN`: `realloc` succeeds, `open` returns `fd`, the reply can be written. -/
  | openFd (e : OkEnv) (mem : List Byte) (grows : Bool) (fd : ℤ) (sent : Bool)
  | closeFd (mem : List Byte)
  | onFd (cmd : FdCmd) (mem : List Byte) (a : FdAns)
  /-- `XS1_READV2`, with the index in its header, if that arrives. -/
  | readv2 (idx : Option (BitVec 32)) (bytes : ℕ) (alloc : Bool) (a : FdAns)
  /-- `XS1_WRITEV2`, with the bytes that arrive behind the header, if they do. -/
  | writev2 (idx : Option (BitVec 32)) (alloc : Bool) (bytes : Option (List Byte)) (a : FdAns)

/-- What the client gets. -/
inductive Xs1Reply
  | text (t : List Byte)
  /-- The length and the bytes of version 2, or `-1` and the text of an error. -/
  | v2 (sz : ℤ) (bytes : List Byte)
  /-- The session ends without a reply. -/
  | ends
  deriving DecidableEq, Repr

/-- What a command leaves: its reply, the slot whose descriptor it used and how, and the
table. -/
structure Xs1Out where
  reply : Xs1Reply
  acted : Option (ℕ × FdCall)
  ds : Xs1

/-- `XS1_EINVFD`. -/
def xs1Einvfd : List Byte := lit "XS1 3 : Invalid file descriptor."

/-- `XS1_EBUFALLOC`. -/
def xs1Ebufalloc : List Byte := lit "XS1 17 : Error allocating buffer."

/-- `xs1_cmdopen` up to the search for a slot. -/
def xs1OpenChecks (e : OkEnv) (mem : List Byte) : Checks (List Byte) := do
  let c ← e.jaildir e.jail .xs1Open (cstr mem)
  demand (e.trylck c.dst true) cmdElocked
  demand (e.fs.access c.dst) (lit "17 : Source file does not exist.")
  demand (!e.fs.isDir c.dst) (lit "8 : Requested file is a directory.")
  return c.dst

/-- `xs1_cmdopen`. -/
def xs1Open (s : Xs1) (e : OkEnv) (mem : List Byte) (grows : Bool) (fd : ℤ) (sent : Bool) :
    Xs1Out :=
  match xs1OpenChecks e mem with
  | .error reply => ⟨.text reply, none, s⟩
  | .ok _ =>
    match xs1Getfd grows s.fds with
    | none => ⟨.text (cmdFailText (lit "XS1 1 : No file descriptor hole available.")), none, s⟩
    | some (slot, fds) =>
      if fd = -1 then
        ⟨.text (cmdFailText (lit "XS1 2 : Failed to open requested file.")), none,
          { s with fds := fds.set slot fd }⟩
      else
        let fds := fds.set slot fd
        let isOpen := Function.update s.isOpen fd true
        let i := match xs1Getidx fd fds with
          | some i => udec i
          | none => lit "-1"
        if sent then ⟨.text (cmdOkText ++ lit " " ++ i), none, ⟨fds, isOpen⟩⟩
        else
          -- the descriptor is closed, and stays in its slot
          ⟨.text (cmdFailText (lit "XS1 2 : Failed to open requested file.")), none,
            ⟨fds, Function.update isOpen fd false⟩⟩

/-- `xs1_cmdclose`. -/
def xs1Close (s : Xs1) (mem : List Byte) : Xs1Out :=
  match xs1Chkidx s.fds mem with
  | none => ⟨.text (cmdFailText xs1Einvfd), none, s⟩
  | some i =>
    ⟨.text cmdOkText, some (i, .close),
      ⟨s.fds.set i (-1), Function.update s.isOpen (s.fds.getD i (-1)) false⟩⟩

/-- `xs1_cmdtrunc`, `xs1_cmdseek`, `xs1_cmdlock`, `xs1_cmdread` and `xs1_cmdwrite`. -/
def xs1OnFd (s : Xs1) (cmd : FdCmd) (mem : List Byte) (a : FdAns) : Xs1Out :=
  match xs1Chkidx s.fds mem with
  | none => ⟨.text (cmdFailText xs1Einvfd), none, s⟩
  | some i =>
    match cmd.call mem with
    | .error reply => ⟨.text reply, none, s⟩
    | .ok c => ⟨.text (c.answered a), some (i, c), s⟩

/-- `xs1_cmdreadv2`. -/
def xs1Readv2 (s : Xs1) (idx : Option (BitVec 32)) (bytes : ℕ) (alloc : Bool) (a : FdAns) :
    Xs1Out :=
  match idx with
  | none => ⟨.ends, none, s⟩
  | some idx =>
    match xs1ChkidxInt64 s.fds idx.toInt with
    | none => ⟨.v2 (-1) xs1Einvfd, none, s⟩
    | some i =>
      if !alloc then ⟨.v2 (-1) xs1Ebufalloc, none, s⟩
      else if a.ret = -1 then
        ⟨.v2 (-1) (lit "XS1 13 : Error while reading the file."), some (i, .read bytes), s⟩
      else ⟨.v2 a.ret a.data, some (i, .read bytes), s⟩

/-- `xs1_cmdwritev2`. -/
def xs1Writev2 (s : Xs1) (idx : Option (BitVec 32)) (alloc : Bool) (bytes : Option (List Byte))
    (a : FdAns) : Xs1Out :=
  match idx with
  | none => ⟨.ends, none, s⟩
  | some idx =>
    -- the buffer is allocated and filled before the index is looked at
    if !alloc then ⟨.v2 (-1) xs1Ebufalloc, none, s⟩
    else
      match bytes with
      | none => ⟨.ends, none, s⟩
      | some bytes =>
        match xs1ChkidxInt64 s.fds idx.toInt with
        | none => ⟨.v2 (-1) xs1Einvfd, none, s⟩
        | some i =>
          if a.ret = -1 then
            ⟨.v2 (-1) (lit "XS1 16 : Error while writing the file."), some (i, .write bytes), s⟩
          else ⟨.v2 a.ret [], some (i, .write bytes), s⟩

/-- A command. -/
def xs1Step (s : Xs1) : Xs1Req → Xs1Out
  | .openFd e mem grows fd sent => xs1Open s e mem grows fd sent
  | .closeFd mem => xs1Close s mem
  | .onFd cmd mem a => xs1OnFd s cmd mem a
  | .readv2 idx bytes alloc a => xs1Readv2 s idx bytes alloc a
  | .writev2 idx alloc bytes a => xs1Writev2 s idx alloc bytes a

/-! ### What is wanted -/

/-- The first word of the text. -/
def firstArg (mem : List Byte) : List Byte := (cstr mem).takeWhile (· ≠ ofChar ' ')

/-- A decimal numeral, of any length, with its value. -/
def Numeral (w : List Byte) (i : ℕ) : Prop :=
  w ≠ [] ∧ (∀ d ∈ w, isDigit d = true) ∧ digitsVal w = i

/-- A slot that holds a descriptor. -/
def Xs1.Slot (s : Xs1) (i : ℕ) : Prop := ∃ fd, s.fds[i]? = some fd ∧ fd ≠ -1

/-- The descriptors in the table are open, and no two slots hold the same. -/
structure Xs1Inv (s : Xs1) : Prop where
  distinct : SlotTable.Distinct (-1) s.fds
  opened : ∀ fd ∈ s.fds, fd ≠ -1 → s.isOpen fd = true

/-- The slot a command names: in decimal, or in the header of version 2. -/
def Xs1Req.Names : Xs1Req → ℕ → Prop
  | .openFd .., _ => False
  | .closeFd mem, i => Numeral (firstArg mem) i
  | .onFd _ mem _, i => Numeral (firstArg mem) i
  | .readv2 idx .., i => ∃ v ∈ idx, v.toInt = i
  | .writev2 idx .., i => ∃ v ∈ idx, v.toInt = i

/-- The reply to a command that takes an index, all of which has arrived, if the index is
refused. -/
def Xs1Req.refusal : Xs1Req → Option Xs1Reply
  | .openFd .. => none
  | .closeFd _ => some (.text (cmdFailText xs1Einvfd))
  | .onFd .. => some (.text (cmdFailText xs1Einvfd))
  | .readv2 idx .. => idx.map fun _ => .v2 (-1) xs1Einvfd
  | .writev2 idx .. => idx.map fun _ => .v2 (-1) xs1Einvfd

/-- The two tables hold the same descriptors in the same slots, and the same are open. -/
def SameSlots (s t : Xs1) : Prop :=
  t.isOpen = s.isOpen ∧ ∀ (i : ℕ) (fd : ℤ), fd ≠ -1 → (t.fds[i]? = some fd ↔ s.fds[i]? = some fd)

/-- **A command is in order**: the table is as it should be, `XS1_OPEN` replies with a slot
that was free and holds the new descriptor, or with a failure that changes no slot, and the
others act on the slot they name, and on nothing if they name none. -/
structure Xs1StepOk (s : Xs1) (r : Xs1Req) : Prop where
  table : Xs1Inv (xs1Step s r).ds
  opened : ∀ e mem grows fd sent i, r = .openFd e mem grows fd sent →
    (xs1Step s r).reply = .text (cmdOkText ++ lit " " ++ udec i) →
      ¬ s.Slot i ∧ (xs1Step s r).ds.fds[i]? = some fd
  unopened : ∀ e mem grows fd sent, r = .openFd e mem grows fd sent →
    (∀ i, (xs1Step s r).reply ≠ .text (cmdOkText ++ lit " " ++ udec i)) →
      (∃ err, (xs1Step s r).reply = .text (cmdFailText err)) ∧ SameSlots s (xs1Step s r).ds
  acted : ∀ i c, (xs1Step s r).acted = some (i, c) → r.Names i ∧ s.Slot i
  refused : ∀ reply ∈ r.refusal, (∀ i, r.Names i → ¬ s.Slot i) →
    (xs1Step s r).reply = reply ∧ (xs1Step s r).acted = none ∧ (xs1Step s r).ds = s

theorem SameSlots.refl (s : Xs1) : SameSlots s s := ⟨rfl, fun _ _ _ => Iff.rfl⟩

/-- `open` returns a descriptor that is not open yet, or `-1`. -/
def Xs1Fresh (s : Xs1) : Xs1Req → Prop
  | .openFd _ _ _ fd _ => fd = -1 ∨ 0 ≤ fd ∧ s.isOpen fd = false
  | _ => True

/-- The number in the text is read as it is written: the first word is a decimal numeral of
at most 21 digits that fits an `int32_t`, or of any length if it is zero; or else there is no
text, or what is read names no descriptor. -/
def IdxClear (s : Xs1) (mem : List Byte) : Prop :=
  (∃ v, Numeral (firstArg mem) v ∧ (v = 0 ∨ (firstArg mem).length < lldigits ∧ v < 2 ^ 31)) ∨
    cstr mem = [] ∨ ∀ i : ℕ, xs1Number mem = i → ¬ s.Slot i

/-- **The condition**: a number is read as it is written, the reply of `XS1_OPEN` can be sent,
and `XS1_WRITEV2` gets to look at its index, if it is wrong. -/
def Xs1Clear (s : Xs1) : Xs1Req → Prop
  | .openFd _ _ _ fd sent => fd = -1 ∨ sent = true
  | .closeFd mem => IdxClear s mem
  | .onFd _ mem _ => IdxClear s mem
  | .readv2 .. => True
  | .writev2 idx alloc bytes _ =>
    alloc = true ∧ bytes.isSome = true ∨ ∀ v ∈ idx, ∃ i : ℕ, v.toInt = i ∧ s.Slot i

/-! ### Numbers -/

theorem xs1ChkidxInt64_eq_some_iff {s : Xs1} {idx : ℤ} {i : ℕ} :
    xs1ChkidxInt64 s.fds idx = some i ↔ idx = i ∧ s.Slot i := by
  constructor
  · intro h
    unfold xs1ChkidxInt64 at h
    split at h
    · cases h
    · next hidx =>
      rw [not_or, not_or] at hidx
      obtain ⟨hneg, hlt, hfree⟩ := hidx
      obtain rfl := Option.some.inj h
      have hlen : idx.toNat < s.fds.length := by omega
      rw [List.getElem?_eq_getElem hlen] at hfree
      refine ⟨by omega, s.fds[idx.toNat], List.getElem?_eq_getElem hlen, fun heq => hfree ?_⟩
      rw [heq]
  · rintro ⟨rfl, fd, hfd, hne⟩
    obtain ⟨hlen, -⟩ := List.getElem?_eq_some_iff.mp hfd
    have hidx : ¬ ((i : ℤ) < 0 ∨ (s.fds.length : ℤ) ≤ i ∨ s.fds[(i : ℤ).toNat]? = some (-1)) := by
      rw [not_or, not_or, Int.toNat_natCast, hfd]
      refine ⟨by omega, by omega, fun heq => hne (Option.some.inj heq)⟩
    rw [xs1ChkidxInt64, if_neg hidx, Int.toNat_natCast]

theorem digitsVal_le_append (a b : List Byte) : digitsVal a ≤ digitsVal (a ++ b) := by
  induction b using List.reverseRecOn with
  | nil => simp
  | append_singleton b d ih =>
    have hlast : digitsVal (a ++ (b ++ [d])) = 10 * digitsVal (a ++ b) + (d.toNat - 48) := by
      simp [digitsVal, List.foldl_append]
    omega

theorem firstArg_prefix (mem : List Byte) : ∃ rest, cstr mem = firstArg mem ++ rest ∧
    ∀ b, rest.head? = some b → b = ofChar ' ' := by
  refine ⟨(cstr mem).dropWhile (· ≠ ofChar ' '), (List.takeWhile_append_dropWhile ..).symm, ?_⟩
  intro b hb
  by_contra hne
  have := List.head?_dropWhile_not (fun x : Byte => decide (x ≠ ofChar ' ')) (cstr mem)
  rw [hb] at this
  simp [hne] at this

/-- **The number that is read** from a numeral that is not too long, or zero. -/
theorem xs1Number_eq {mem : List Byte} {v : ℕ} (hnum : Numeral (firstArg mem) v)
    (hv : v = 0 ∨ (firstArg mem).length < lldigits ∧ v < 2 ^ 31) : xs1Number mem = v := by
  obtain ⟨hne, hdigits, hval⟩ := hnum
  obtain ⟨rest, htext, hrest⟩ := firstArg_prefix mem
  have hblank : ∀ b, rest.head? = some b → isDigit b = false := by
    intro b hb
    rw [hrest b hb]
    decide
  by_cases hlen : (firstArg mem).length < lldigits
  · -- all of the numeral is copied, with something of what follows it
    have hcopy : strcpySec (cstr mem) lldigits =
        firstArg mem ++ rest.take (lldigits - 1 - (firstArg mem).length) := by
      rw [strcpySec, htext, List.take_append, List.take_of_length_le (by omega)]
    have hhead : ∀ b, (rest.take (lldigits - 1 - (firstArg mem).length)).head? = some b →
        isDigit b = false := by
      intro b hb
      rw [List.head?_take] at hb
      split at hb
      · cases hb
      · exact hblank b hb
    have hlt : v < 2 ^ 31 := by
      rcases hv with rfl | hv
      · decide
      · exact hv.2
    rw [xs1Number, hcopy, strtol_digits hne hdigits hhead, hval, min_eq_right (by omega)]
    exact cint_of_lt hlt
  · -- only zeros are copied
    have hzero : v = 0 := by
      rcases hv with hv | hv
      · exact hv
      · exact absurd hv.1 hlen
    have hcopy : strcpySec (cstr mem) lldigits = (firstArg mem).take (lldigits - 1) := by
      rw [strcpySec, htext, List.take_append_of_le_length (by omega)]
    have hnonempty : (firstArg mem).take (lldigits - 1) ≠ [] := by
      rw [ne_eq, List.take_eq_nil_iff, not_or]
      exact ⟨by decide, hne⟩
    have hprefix : digitsVal ((firstArg mem).take (lldigits - 1)) = 0 := by
      have := digitsVal_le_append ((firstArg mem).take (lldigits - 1))
        ((firstArg mem).drop (lldigits - 1))
      rw [List.take_append_drop, hval, hzero] at this
      omega
    have hread : strtol ((firstArg mem).take (lldigits - 1) ++ []) =
        min (2 ^ 63 - 1) (digitsVal ((firstArg mem).take (lldigits - 1)) : ℤ) :=
      strtol_digits hnonempty (fun d hd => hdigits d (List.mem_of_mem_take hd)) (by simp)
    rw [List.append_nil, hprefix] at hread
    rw [xs1Number, hcopy, hread, hzero]
    decide

/-- **A clear index is the one the text names.** -/
theorem xs1Chkidx_of_clear {s : Xs1} {mem : List Byte} {i : ℕ} (hclear : IdxClear s mem)
    (h : xs1Chkidx s.fds mem = some i) : Numeral (firstArg mem) i ∧ s.Slot i := by
  unfold xs1Chkidx at h
  split at h
  · cases h
  · next hne =>
    obtain ⟨hnumber, hslot⟩ := xs1ChkidxInt64_eq_some_iff.mp h
    rcases hclear with ⟨v, hnum, hv⟩ | hempty | hnone
    · rw [xs1Number_eq hnum hv] at hnumber
      obtain rfl : v = i := by exact_mod_cast hnumber
      exact ⟨hnum, hslot⟩
    · rw [hempty] at hne
      exact absurd rfl hne
    · exact absurd hslot (hnone i hnumber)

/-! ### The commands -/

/-- A failure is no `OK` with a number. -/
theorem cmdFailText_ne_index (arg t : List Byte) :
    cmdFailText arg ≠ cmdOkText ++ lit " " ++ t := by
  intro h
  have hhead := congrArg List.head? h
  have hok : (cmdOkText ++ lit " " ++ t).head? = some (ofChar 'O') := rfl
  have hfail : (cmdFailText arg).head? = some (ofChar 'F') := rfl
  rw [hok, hfail] at hhead
  exact absurd hhead (by decide)

theorem refuses_xs1OpenChecks (e : OkEnv) (mem : List Byte) : Refuses (xs1OpenChecks e mem) := by
  refine Refuses.bind (refuses_jaildir _ _ _ _) fun c => ?_
  refine Refuses.bind (refuses_demand _ _) fun _ => ?_
  refine Refuses.bind (refuses_demand _ _) fun _ => ?_
  refine Refuses.bind (refuses_demand _ _) fun _ => ?_
  exact refuses_ok _

theorem eq_claim_of_xs1Getfd {grows : Bool} {fds : List ℤ} {r : ℕ × List ℤ}
    (h : xs1Getfd grows fds = some r) : r = SlotTable.claim (-1) fds := by
  unfold xs1Getfd at h
  split at h
  · exact (Option.some.inj h).symm
  · split at h
    · cases h
    · exact (Option.some.inj h).symm

section

variable {s : Xs1} (hs : Xs1Inv s)

include hs in
/-- The table with a slot for a new descriptor, which is given back. -/
theorem Xs1Inv.unused : Xs1Inv { s with
    fds := (SlotTable.claim (-1) s.fds).2.set (SlotTable.claim (-1) s.fds).1 (-1) } := by
  refine ⟨hs.distinct.claim.release _, fun fd hfd hne => ?_⟩
  rcases List.mem_or_eq_of_mem_set hfd with hmem | rfl
  · rcases SlotTable.mem_of_mem_claim hmem with hmem | rfl
    · exact hs.opened fd hmem hne
    · exact absurd rfl hne
  · exact absurd rfl hne

include hs in
theorem Xs1Inv.not_mem {fd : ℤ} (hne : fd ≠ -1) (hclosed : s.isOpen fd = false) :
    fd ∉ (SlotTable.claim (-1) s.fds).2 := by
  intro hmem
  rcases SlotTable.mem_of_mem_claim hmem with hmem | rfl
  · rw [hs.opened fd hmem hne] at hclosed
    cases hclosed
  · exact hne rfl

include hs in
/-- **A new descriptor** in the slot that was claimed for it. -/
theorem Xs1Inv.store {fd : ℤ} (hne : fd ≠ -1) (hclosed : s.isOpen fd = false) :
    Xs1Inv ⟨(SlotTable.claim (-1) s.fds).2.set (SlotTable.claim (-1) s.fds).1 fd,
      Function.update s.isOpen fd true⟩ := by
  refine ⟨hs.distinct.claim.store (hs.not_mem hne hclosed) _, fun x hx hxne => ?_⟩
  by_cases hxfd : x = fd
  · simp [hxfd]
  · show Function.update s.isOpen fd true x = true
    rw [Function.update_of_ne hxfd]
    rcases List.mem_or_eq_of_mem_set hx with hmem | rfl
    · rcases SlotTable.mem_of_mem_claim hmem with hmem | rfl
      · exact hs.opened x hmem hxne
      · exact absurd rfl hxne
    · exact absurd rfl hxfd

include hs in
/-- **A descriptor is closed** and its slot is free. -/
theorem Xs1Inv.close {i : ℕ} {fd : ℤ} (hfd : s.fds[i]? = some fd) :
    Xs1Inv ⟨s.fds.set i (-1), Function.update s.isOpen fd false⟩ := by
  refine ⟨hs.distinct.release i, fun x hx hxne => ?_⟩
  obtain ⟨j, hj⟩ := List.mem_iff_getElem?.mp hx
  rw [List.getElem?_set] at hj
  split at hj
  · split at hj
    · exact absurd (Option.some.inj hj).symm hxne
    · cases hj
  · next hij =>
    have hxfd : x ≠ fd := by
      rintro rfl
      exact hij (hs.distinct i j x hfd hj hxne)
    show Function.update s.isOpen fd false x = true
    rw [Function.update_of_ne hxfd]
    exact hs.opened x (List.mem_of_getElem? hj) hxne

/-- `XS1_OPEN` acts on no descriptor of the table. -/
theorem xs1Open_acted (s : Xs1) (e : OkEnv) (mem : List Byte) (grows : Bool) (fd : ℤ)
    (sent : Bool) : (xs1Open s e mem grows fd sent).acted = none := by
  unfold xs1Open
  split
  · rfl
  · split
    · rfl
    · split
      · rfl
      · simp only
        split <;> rfl

/-- The slot that is claimed was free, or not there. -/
theorem not_slot_claim (s : Xs1) : ¬ s.Slot (SlotTable.claim (-1) s.fds).1 := by
  rintro ⟨x, hx, hxne⟩
  rcases @SlotTable.claim_before ℤ _ (-1) s.fds with hbefore | hbefore
  · rw [hbefore] at hx
    exact hxne (Option.some.inj hx).symm
  · rw [hbefore] at hx
    cases hx

include hs in
/-- **`XS1_OPEN`** stores the descriptor in a slot that was free and replies its number. -/
theorem xs1Open_ok {e : OkEnv} {mem : List Byte} {grows sent : Bool} {fd : ℤ}
    (hfresh : Xs1Fresh s (.openFd e mem grows fd sent))
    (hclear : Xs1Clear s (.openFd e mem grows fd sent)) :
    Xs1StepOk s (.openFd e mem grows fd sent) := by
  suffices h : Xs1Inv (xs1Open s e mem grows fd sent).ds ∧
      (∀ i, (xs1Open s e mem grows fd sent).reply = .text (cmdOkText ++ lit " " ++ udec i) →
        ¬ s.Slot i ∧ (xs1Open s e mem grows fd sent).ds.fds[i]? = some fd) ∧
      ((∀ i, (xs1Open s e mem grows fd sent).reply ≠ .text (cmdOkText ++ lit " " ++ udec i)) →
        (∃ err, (xs1Open s e mem grows fd sent).reply = .text (cmdFailText err)) ∧
          SameSlots s (xs1Open s e mem grows fd sent).ds) by
    refine ⟨h.1, ?_, ?_, fun i c hacted => ?_,
      fun reply hreply => absurd hreply (by simp [Xs1Req.refusal])⟩
    · intro e' mem' grows' fd' sent' i heq hreply
      obtain ⟨rfl, rfl, rfl, rfl, rfl⟩ := Xs1Req.openFd.inj heq
      exact h.2.1 i hreply
    · intro e' mem' grows' fd' sent' heq hreply
      obtain ⟨rfl, rfl, rfl, rfl, rfl⟩ := Xs1Req.openFd.inj heq
      exact h.2.2 hreply
    · have hnone := xs1Open_acted s e mem grows fd sent
      cases hnone.symm.trans hacted
  unfold xs1Open
  cases hchecks : xs1OpenChecks e mem with
  | error reply =>
    obtain ⟨arg, rfl⟩ := refuses_xs1OpenChecks e mem reply hchecks
    exact ⟨hs, fun i hi => absurd (Xs1Reply.text.inj hi) (cmdFailText_ne_index _ _),
      fun _ => ⟨⟨arg, rfl⟩, .refl s⟩⟩
  | ok path =>
    simp only
    cases hget : xs1Getfd grows s.fds with
    | none =>
      exact ⟨hs, fun i hi => absurd (Xs1Reply.text.inj hi) (cmdFailText_ne_index _ _),
        fun _ => ⟨⟨_, rfl⟩, .refl s⟩⟩
    | some r =>
      obtain rfl := eq_claim_of_xs1Getfd hget
      simp only
      split
      · next hfail =>
        subst hfail
        exact ⟨hs.unused, fun i hi => absurd (Xs1Reply.text.inj hi) (cmdFailText_ne_index _ _),
          fun _ => ⟨⟨_, rfl⟩, rfl, fun i fd hfd => SlotTable.getElem?_unclaim hfd⟩⟩
      · next hne =>
        have hclosed : s.isOpen fd = false := (hfresh.resolve_left hne).2
        have hsent : sent = true := hclear.resolve_left hne
        have hidx : xs1Getidx fd ((SlotTable.claim (-1) s.fds).2.set
            (SlotTable.claim (-1) s.fds).1 fd) = some (SlotTable.claim (-1) s.fds).1 :=
          SlotTable.findIdx?_store (hs.not_mem hne hclosed) (SlotTable.claim_lt s.fds)
        simp only [if_pos hsent, hidx]
        -- the reply names the slot
        refine ⟨hs.store hne hclosed, fun i hi => ?_, fun hno => absurd rfl (hno _)⟩
        obtain rfl : (SlotTable.claim (-1) s.fds).1 = i :=
          udec_injective (List.append_cancel_left (Xs1Reply.text.inj hi))
        exact ⟨not_slot_claim s, List.getElem?_set_self (SlotTable.claim_lt s.fds)⟩

/-- A command that looks at one index is in order, if it acts on that slot only and refuses
when there is none. -/
theorem Xs1StepOk.of_idx {r : Xs1Req} (idx : Option ℕ)
    (hopen : ∀ e mem grows fd sent, r ≠ .openFd e mem grows fd sent)
    (htable : Xs1Inv (xs1Step s r).ds) (hidx : ∀ i, idx = some i → r.Names i ∧ s.Slot i)
    (hacted : ∀ i c, (xs1Step s r).acted = some (i, c) → idx = some i)
    (hrefused : ∀ reply ∈ r.refusal, (∀ i, r.Names i → ¬ s.Slot i) → idx = none →
      (xs1Step s r).reply = reply ∧ (xs1Step s r).acted = none ∧ (xs1Step s r).ds = s) :
    Xs1StepOk s r := by
  refine ⟨htable, fun e mem grows fd sent i h => absurd h (hopen e mem grows fd sent),
    fun e mem grows fd sent h => absurd h (hopen e mem grows fd sent),
    fun i c h => hidx i (hacted i c h), fun reply hreply hnone => hrefused reply hreply hnone ?_⟩
  rw [Option.eq_none_iff_forall_ne_some]
  intro i hi
  exact hnone i (hidx i hi).1 (hidx i hi).2

include hs in
/-- **`XS1_CLOSE`** frees the slot it names. -/
theorem xs1Close_ok {mem : List Byte} (hclear : Xs1Clear s (.closeFd mem)) :
    Xs1StepOk s (.closeFd mem) := by
  refine .of_idx (xs1Chkidx s.fds mem) (fun _ _ _ _ _ => Xs1Req.noConfusion) ?_
    (fun i hi => xs1Chkidx_of_clear hclear hi) (fun i c hacted => ?_) fun reply hreply _ hidx => ?_
  · simp only [xs1Step, xs1Close]
    cases hidx : xs1Chkidx s.fds mem with
    | none => exact hs
    | some i =>
      obtain ⟨-, fd, hfd, hne⟩ := xs1Chkidx_of_clear hclear hidx
      simp only [List.getD_eq_getElem?_getD, hfd, Option.getD_some]
      exact hs.close hfd
  · simp only [xs1Step, xs1Close] at hacted
    cases hidx : xs1Chkidx s.fds mem with
    | none => simp [hidx] at hacted
    | some j =>
      simp only [hidx, Option.some.injEq, Prod.mk.injEq] at hacted
      rw [hacted.1]
  · obtain rfl : Xs1Reply.text (cmdFailText xs1Einvfd) = reply := by
      simpa [Xs1Req.refusal] using hreply
    simp [xs1Step, xs1Close, hidx]

include hs in
theorem xs1OnFd_ok {cmd : FdCmd} {mem : List Byte} {a : FdAns}
    (hclear : Xs1Clear s (.onFd cmd mem a)) : Xs1StepOk s (.onFd cmd mem a) := by
  refine .of_idx (xs1Chkidx s.fds mem) (fun _ _ _ _ _ => Xs1Req.noConfusion) ?_
    (fun i hi => xs1Chkidx_of_clear hclear hi) (fun i c hacted => ?_) fun reply hreply _ hidx => ?_
  · simp only [xs1Step, xs1OnFd]
    cases xs1Chkidx s.fds mem with
    | none => exact hs
    | some i =>
      cases cmd.call mem with
      | error reply => exact hs
      | ok c => exact hs
  · simp only [xs1Step, xs1OnFd] at hacted
    cases hidx : xs1Chkidx s.fds mem with
    | none => simp [hidx] at hacted
    | some j =>
      cases hcall : cmd.call mem with
      | error reply => simp [hidx, hcall] at hacted
      | ok c' =>
        simp only [hidx, hcall, Option.some.injEq, Prod.mk.injEq] at hacted
        rw [hacted.1]
  · obtain rfl : Xs1Reply.text (cmdFailText xs1Einvfd) = reply := by
      simpa [Xs1Req.refusal] using hreply
    simp [xs1Step, xs1OnFd, hidx]

/-- The index in a header is the slot it names. -/
theorem xs1ChkidxInt64_names {v : BitVec 32} {i : ℕ} (h : xs1ChkidxInt64 s.fds v.toInt = some i) :
    (∃ w ∈ some v, w.toInt = (i : ℤ)) ∧ s.Slot i := by
  obtain ⟨hnum, hslot⟩ := xs1ChkidxInt64_eq_some_iff.mp h
  exact ⟨⟨v, rfl, hnum⟩, hslot⟩

include hs in
theorem xs1Readv2_ok {idx : Option (BitVec 32)} {bytes : ℕ} {alloc : Bool} {a : FdAns} :
    Xs1StepOk s (.readv2 idx bytes alloc a) := by
  cases idx with
  | none =>
    exact .of_idx none (fun _ _ _ _ _ => Xs1Req.noConfusion) hs (fun _ h => (nomatch h))
      (fun _ _ h => (nomatch h)) fun reply hreply => absurd hreply (by simp [Xs1Req.refusal])
  | some v =>
    refine .of_idx (xs1ChkidxInt64 s.fds v.toInt) (fun _ _ _ _ _ => Xs1Req.noConfusion) ?_
      (fun i hi => xs1ChkidxInt64_names hi) (fun i c hacted => ?_) fun reply hreply _ hidx => ?_
    · simp only [xs1Step, xs1Readv2]
      cases xs1ChkidxInt64 s.fds v.toInt with
      | none => exact hs
      | some i =>
        simp only
        split
        · exact hs
        · split <;> exact hs
    · simp only [xs1Step, xs1Readv2] at hacted
      cases hidx : xs1ChkidxInt64 s.fds v.toInt with
      | none => simp [hidx] at hacted
      | some j =>
        simp only [hidx] at hacted
        split at hacted
        · cases hacted
        · split at hacted <;> rw [(Prod.mk.inj (Option.some.inj hacted)).1]
    · obtain rfl : Xs1Reply.v2 (-1) xs1Einvfd = reply := by simpa [Xs1Req.refusal] using hreply
      simp [xs1Step, xs1Readv2, hidx]

include hs in
theorem xs1Writev2_ok {idx : Option (BitVec 32)} {alloc : Bool} {bytes : Option (List Byte)}
    {a : FdAns} (hclear : Xs1Clear s (.writev2 idx alloc bytes a)) :
    Xs1StepOk s (.writev2 idx alloc bytes a) := by
  cases idx with
  | none =>
    exact .of_idx none (fun _ _ _ _ _ => Xs1Req.noConfusion) hs (fun _ h => (nomatch h))
      (fun _ _ h => (nomatch h)) fun reply hreply => absurd hreply (by simp [Xs1Req.refusal])
  | some v =>
    refine .of_idx (xs1ChkidxInt64 s.fds v.toInt) (fun _ _ _ _ _ => Xs1Req.noConfusion) ?_
      (fun i hi => xs1ChkidxInt64_names hi) (fun i c hacted => ?_) fun reply hreply hnone hidx => ?_
    · simp only [xs1Step, xs1Writev2]
      split
      · exact hs
      · cases bytes with
        | none => exact hs
        | some bytes =>
          cases xs1ChkidxInt64 s.fds v.toInt with
          | none => exact hs
          | some i =>
            simp only
            split <;> exact hs
    · simp only [xs1Step, xs1Writev2] at hacted
      split at hacted
      · cases hacted
      · cases bytes with
        | none => cases hacted
        | some bytes =>
          cases hidx : xs1ChkidxInt64 s.fds v.toInt with
          | none => simp [hidx] at hacted
          | some j =>
            simp only [hidx] at hacted
            split at hacted <;> rw [(Prod.mk.inj (Option.some.inj hacted)).1]
    · obtain rfl : Xs1Reply.v2 (-1) xs1Einvfd = reply := by simpa [Xs1Req.refusal] using hreply
      -- the index is wrong, so the command gets to look at it
      have hgets : alloc = true ∧ bytes.isSome = true := by
        refine hclear.resolve_right fun h => ?_
        obtain ⟨i, hi, hslot⟩ := h v rfl
        exact hnone i ⟨v, rfl, hi⟩ hslot
      obtain ⟨rfl, hsome⟩ := hgets
      obtain ⟨bytes, rfl⟩ := Option.isSome_iff_exists.mp hsome
      simp only [xs1Step, xs1Writev2, hidx]
      exact ⟨rfl, rfl, rfl⟩

include hs in
/-- **One command**, in a table that is as it should be. -/
theorem xs1Step_ok {r : Xs1Req} (hfresh : Xs1Fresh s r) (hclear : Xs1Clear s r) :
    Xs1StepOk s r := by
  cases r with
  | openFd e mem grows fd sent => exact xs1Open_ok hs hfresh hclear
  | closeFd mem => exact xs1Close_ok hs hclear
  | onFd cmd mem a => exact xs1OnFd_ok hs hclear
  | readv2 idx bytes alloc a => exact xs1Readv2_ok hs
  | writev2 idx alloc bytes a => exact xs1Writev2_ok hs hclear

end

/-! ### Runs -/

/-- The table after a command. -/
def xs1Next (s : Xs1) (r : Xs1Req) : Option Xs1 := some (xs1Step s r).ds

/-- **The descriptor table.**  In every run of commands, from an empty table, each of which
is clear when it is carried out, every command is in order. -/
theorem xs1_table_ok (isOpen : ℤ → Bool) (before after : List Xs1Req) (r : Xs1Req) (s : Xs1)
    (hmeets : Runs.Meets xs1Next (fun s r => Xs1Fresh s r ∧ Xs1Clear s r) ⟨[], isOpen⟩
      (before ++ r :: after))
    (hrun : Runs.run xs1Next ⟨[], isOpen⟩ before = some s) : Xs1Inv s ∧ Xs1StepOk s r := by
  have hstart : Xs1Inv ⟨[], isOpen⟩ :=
    ⟨SlotTable.distinct_nil, fun fd hfd => absurd hfd List.not_mem_nil⟩
  have hstep : ∀ s r t, Xs1Inv s → Xs1Fresh s r ∧ Xs1Clear s r → xs1Next s r = some t →
      Xs1Inv t := by
    intro s r t hs hr hnext
    obtain rfl := Option.some.inj hnext
    exact (xs1Step_ok hs hr.1 hr.2).table
  obtain ⟨hs, hfresh, hclear⟩ := Runs.step_of_run hstep hstart hmeets hrun
  exact ⟨hs, xs1Step_ok hs hfresh hclear⟩

/-- A server with one file below its root. -/
def exampleXs1Env : OkEnv :=
  { exampleOkEnv (.ok 0) with
    fs := ⟨fun p => p = lit "/srv/", fun p => p = lit "/srv/" ∨ p = lit "/srv/a", fun _ => none⟩ }

/-- A file is opened, and its slot is closed. -/
theorem xs1_table_ok_example :
    Xs1Inv (xs1Step ⟨[], fun _ => false⟩ (.openFd exampleXs1Env (lit "a") true 5 true)).ds ∧
      Xs1StepOk (xs1Step ⟨[], fun _ => false⟩ (.openFd exampleXs1Env (lit "a") true 5 true)).ds
        (.closeFd (lit "0")) := by
  refine xs1_table_ok (fun _ => false) [.openFd exampleXs1Env (lit "a") true 5 true] []
    (.closeFd (lit "0")) _ ⟨⟨.inr ⟨by decide, rfl⟩, .inr rfl⟩, fun t ht => ⟨⟨trivial, ?_⟩, ?_⟩⟩ rfl
  · exact .inl ⟨0, ⟨by decide, List.all_eq_true.mp (by decide), by decide⟩, .inl rfl⟩
  · exact fun _ _ => trivial

/-- A file is open in slot `0`, and three texts that do not name it close it: no number, a
number that is `0` modulo `2 ^ 32`, and one that is cut off behind 21 digits. -/
theorem xs1_closes_unnamed :
    ∃ s, Runs.run xs1Next ⟨[], fun _ => false⟩
        [.openFd exampleXs1Env (lit "a") true 5 true] = some s ∧
      Xs1Fresh ⟨[], fun _ => false⟩ (.openFd exampleXs1Env (lit "a") true 5 true) ∧
      ¬ Xs1StepOk s (.closeFd (lit "abc")) ∧ ¬ Xs1StepOk s (.closeFd (lit "4294967296")) ∧
      ¬ Xs1StepOk s (.closeFd (lit "0000000000000000000007")) := by
  refine ⟨_, rfl, .inr ⟨by decide, rfl⟩, fun h => ?_, fun h => ?_, fun h => ?_⟩
  · obtain ⟨⟨-, hdigits, -⟩, -⟩ := h.acted 0 .close (by decide)
    exact absurd (List.all_eq_true.mpr hdigits) (by decide)
  · obtain ⟨⟨-, -, hval⟩, -⟩ := h.acted 0 .close (by decide)
    revert hval
    decide +kernel
  · obtain ⟨⟨-, -, hval⟩, -⟩ := h.acted 0 .close (by decide)
    revert hval
    decide +kernel

end TFProtocol
