import TFProtocol.Lib.Blocks
import TFProtocol.Lib.Runs
import TFProtocol.Login
import TFProtocol.Uploads

/-!
# The state of the ACE module

The module keeps two pairs of buffers and an argument list between its commands, and over
`GOBACK` and re-entry.  The buffers are allocated in pairs: when one of two allocations fails
the other block is freed, and the pointer to it stays.  `SETARGS` counts the blanks of its
text to know how long the list is, and fills the list with what `strtok` finds.

Only the variables that hold memory are in the model, with the heap they point into.  An
invalid `free`, an access through a null pointer and a store behind the end of an array or a
block crash the process: what stands there are the other variables.  The `RUN` commands read
the variables and change them in a child only; in the parent they copy the path to an array,
`chkacl` joins the path and the arguments in another, and the chunks of the client come to
the buffers.

## Main definitions

* `Ace`, `aceNext` — the variables, and one command.
* `AceInv` — the list is the list of arguments, and every buffer is null or live.
* `AceAllowed` — both allocations of a pair end alike, `SETARGS` finds an argument behind
  every blank, and texts and chunks fit.

## Main results

* `aceNext_own` — one command.
* `ace_inv` — **in every run of allowed commands the invariant holds.**
* `setargs_trailing_blank` — an argument with a blank behind it.
-/

namespace TFProtocol

open Bytes CStr

/-! ### The variables -/

/-- A cell of the argument list. -/
inductive AceCell
  | uninit
  | null
  | ptr (p : ℕ)
  deriving DecidableEq, Repr

/-- A block of memory. -/
inductive AceBlock
  | buf (size : ℕ)
  | str (text : List Byte)
  | ptrs (cells : List AceCell)
  deriving DecidableEq, Repr

/-- The variables of `xs_ace.c` that hold memory. -/
structure Ace where
  heap : Blocks AceBlock
  pbuftx : Option ℕ
  pbufrx : Option ℕ
  pbufsz : ℤ
  rxbuf : Option ℕ
  txbuf : Option ℕ
  lnbufsz : ℤ
  argls : Option ℕ
  arglen : ℕ
  keyset : Bool
  /-- In the loop of `xs_ace`, until `exitmod` is set. -/
  inside : Bool
  /-- What stood behind the name of the last `SETARGS`. -/
  last : List Byte
  reply : Option (List Byte)
  crashed : Bool
  deriving DecidableEq, Repr

/-- Before the module is entered for the first time. -/
def Ace.initial : Ace where
  heap := []
  pbuftx := none
  pbufrx := none
  pbufsz := 0
  rxbuf := none
  txbuf := none
  lnbufsz := 0
  argls := none
  arglen := 0
  keyset := false
  inside := false
  last := []
  reply := none
  crashed := false

/-- `PIPE_BUF`. -/
def pipeBuf : ℕ := 4096

/-- `BUFSIZ`. -/
def bufsiz : ℕ := 8192

/-- `XS_ACE_EKEYREAD`. -/
def aceEkeyread : List Byte := lit "1 : Failed to read key's database."

/-- `XS_ACE_EKEYNOTSET`. -/
def aceEkeynotset : List Byte := lit "2 : Failed to set the key."

/-- `XS_ACE_EKEYSET`. -/
def aceEkeyset : List Byte := lit "3 : Key already set."

/-- `XS_ACE_EPERM`. -/
def aceEperm : List Byte := lit "5 : Access key is not installed yet."

/-- `XS_ACE_EARGS`. -/
def aceEargs : List Byte := lit "6 : Failed to set argument list."

/-- `XS_ACE_EBUF`. -/
def aceEbuf : List Byte := lit "7 : Failed to create comm buffers."

/-- `XS_ACE_EWDIR`. -/
def aceEwdir : List Byte := lit "8 : Failed setting working directory."

/-- `cmd_ok`. -/
def Ace.ok (s : Ace) : Ace := { s with reply := some cmdOkText }

/-- `cmd_fail`. -/
def Ace.fail (s : Ace) (msg : List Byte) : Ace := { s with reply := some (cmdFailText msg) }

/-! ### Pairs of buffers -/

/-- Two pointers behind their allocation. -/
structure NewPair where
  heap : Blocks AceBlock
  fst : Option ℕ
  snd : Option ℕ
  ok : Bool
  deriving DecidableEq, Repr

/-- Two buffers of one size are allocated.  If one of the calls fails both pointers are freed,
and they keep their values. -/
def newPair (size : ℕ) (ok₁ ok₂ : Bool) (h : Blocks AceBlock) : Option NewPair :=
  let a := h.malloc ok₁ (.buf size)
  let b := a.1.malloc ok₂ (.buf size)
  if a.2.isNone || b.2.isNone then
    (b.1.free a.2).bind fun h => (h.free b.2).map fun h => ⟨h, a.2, b.2, false⟩
  else some ⟨b.1, a.2, b.2, true⟩

/-- Two buffers are freed and allocated again. -/
def remakePair (size : ℕ) (p q : Option ℕ) (ok₁ ok₂ : Bool) (h : Blocks AceBlock) :
    Option NewPair :=
  (h.free p).bind fun h => (h.free q).bind fun h => newPair size ok₁ ok₂ h

/-- The first half of the entry of `xs_ace`: the buffers of `RUN_BUF`, unless they are there. -/
def enterPipes (s : Ace) (tx rx : Bool) : Option Ace :=
  if s.pbufrx.isNone || s.pbuftx.isNone then
    (newPair pipeBuf tx rx s.heap).map fun p =>
      let s := { s with heap := p.heap, pbuftx := p.fst, pbufrx := p.snd }
      if p.ok then { s with pbufsz := pipeBuf, inside := true } else s.fail aceEbuf
  else some { s with inside := true }

/-- The second half: the buffers of `RUN_NL`. -/
def enterLines (s : Ace) (rx tx : Bool) : Option Ace :=
  if s.rxbuf.isNone || s.txbuf.isNone then
    (newPair bufsiz rx tx s.heap).map fun p =>
      let s := { s with heap := p.heap, rxbuf := p.fst, txbuf := p.snd }
      if p.ok then { s with lnbufsz := bufsiz }.ok else { s with inside := false }.fail aceEbuf
  else some s.ok

/-- The entry of `xs_ace`. -/
def xsAceEnter (s : Ace) (ptx prx rx tx : Bool) : Option Ace :=
  (enterPipes s ptx prx).bind fun s => if s.inside then enterLines s rx tx else some s

/-- `xs_ace_set_runbuf`, with the value of `atoll`.  The comparison is unsigned. -/
def xsAceSetRunbuf (s : Ace) (newsz : BitVec 64) (rx tx : Bool) : Option Ace :=
  if !s.keyset then some (s.fail aceEkeynotset)
  else if newsz.toNat < 8 then some (s.fail aceEbuf)
  else
    (remakePair newsz.toNat s.pbufrx s.pbuftx rx tx s.heap).map fun p =>
      let s := { s with heap := p.heap, pbufsz := newsz.toInt, pbufrx := p.fst, pbuftx := p.snd }
      if p.ok then s.ok else s.fail aceEbuf

/-- `xs_ace_set_runnl`. -/
def xsAceSetRunnl (s : Ace) (newsz : BitVec 64) (rx tx : Bool) : Option Ace :=
  if !s.keyset then some (s.fail aceEkeynotset)
  else if newsz.toNat < 8 then some (s.fail aceEbuf)
  else
    (remakePair newsz.toNat s.rxbuf s.txbuf rx tx s.heap).map fun p =>
      let s := { s with heap := p.heap, lnbufsz := newsz.toInt, rxbuf := p.fst, txbuf := p.snd }
      if p.ok then s.ok else s.fail aceEbuf

/-! ### The argument list -/

/-- The strings `strtok(text, " ")` returns one after the other. -/
def strtokArgs (text : List Byte) : List (List Byte) :=
  ((cstr text).splitOn blank).filter fun c => decide (c ≠ [])

/-- The blanks `xs_ace_setargs` counts. -/
def blanks (tail : List Byte) : ℕ := (cstr tail).count blank

/-- The cells of a list are freed. -/
def freeCells : List AceCell → Blocks AceBlock → Option (Blocks AceBlock)
  | [], h => some h
  | .uninit :: _, _ => none
  | .null :: cs, h => freeCells cs h
  | .ptr p :: cs, h => (h.free (some p)).bind (freeCells cs)

/-- `freeargs`. -/
def freeargs (s : Ace) : Option Ace :=
  match s.argls with
  | none => some s
  | some p =>
    match s.heap.get p with
    | some (.ptrs cells) =>
      if cells.length < s.arglen then none
      else
        (freeCells (cells.take s.arglen) s.heap).bind fun h =>
          (h.free (some p)).map fun h => { s with heap := h, argls := none, arglen := 0 }
    | _ => none

/-- A pointer is stored in a cell of the list at `p`. -/
def setCell (h : Blocks AceBlock) (p c q : ℕ) : Option (Blocks AceBlock) :=
  match h.get p with
  | some (.ptrs cells) =>
    if c < cells.length then some (h.store p (.ptrs (cells.set c (.ptr q)))) else none
  | _ => none

/-- The last loop of `xs_ace_setargs`, from the cell `c` on and with `k` cells to go.  When
`strtok` has found nothing more, `strlen` is called on the null pointer; when `malloc` fails,
`strcpy` is. -/
def fillArgs (p : ℕ) :
    ℕ → ℕ → List (List Byte) → List Bool → Blocks AceBlock → Option (Blocks AceBlock)
  | 0, _, _, _, h => some h
  | _ + 1, _, [], _, _ => none
  | k + 1, c, t :: ts, oks, h =>
    let m := h.malloc (oks.headD true) (.str t)
    m.2.bind fun q => (setCell m.1 p c q).bind fun h => fillArgs p k (c + 1) ts oks.tail h

/-- `xs_ace_setargs` on the memory behind the name of the command. -/
def xsAceSetargs (s : Ace) (tail : List Byte) (argv : Bool) (oks : List Bool) : Option Ace :=
  if !s.keyset then some (s.fail aceEperm)
  else
    (freeargs s).bind fun s =>
      let s := { s with arglen := s.arglen + blanks tail, last := tail }
      if s.arglen = 0 then some s.ok
      else
        let m := s.heap.malloc argv (.ptrs (List.replicate s.arglen .uninit ++ [.null]))
        let s := { s with heap := m.1, argls := m.2 }
        match m.2 with
        | none => some (s.fail aceEargs)
        | some p =>
          if strtokArgs (tail.drop 1) = [] then some (s.fail aceEargs)
          else
            (fillArgs p s.arglen 0 (strtokArgs (tail.drop 1)) oks s.heap).map fun h =>
              { s with heap := h }.ok

/-! ### The commands that start a program -/

/-- `KEYLEN` of `xs_ace.c`. -/
def aceKeylen : ℕ := 255

/-- A command that starts a program, with the headers the client sends to it. -/
inductive AceRun
  | run
  | runBk
  | runNl (hdrs : List ℤ)
  | runBuf (hdrs : List ℤ)
  deriving DecidableEq, Repr

/-- The text behind the name of the command fits the arrays for the path; `RUN` splits it at
the first blank. -/
def pathsFit (text : List Byte) : AceRun → Bool
  | .run =>
    (text.takeWhile (· ≠ blank)).length < pathMax &&
      ((text.dropWhile (· ≠ blank)).drop 1).length < pathMax
  | _ => text.length < pathMax

/-- The strings of a list, up to the null pointer. -/
def cellStrs (h : Blocks AceBlock) : List AceCell → Option (List (List Byte))
  | [] => none
  | .uninit :: _ => none
  | .null :: _ => some []
  | .ptr p :: cs =>
    match h.get p with
    | some (.str t) => (cellStrs h cs).map (t :: ·)
    | _ => none

/-- The length of what `chkacl` joins: a path and arguments, each with a blank behind it. -/
def joinLength (path : List Byte) (args : List (List Byte)) : ℕ :=
  path.length + 1 + (args.map fun a => a.length + 1).sum

/-- The array `args` of `chkacl` is large enough. -/
def aclRoom (s : Ace) (path : List Byte) : Bool :=
  match s.argls with
  | none => true
  | some p =>
    match s.heap.get p with
    | some (.ptrs cells) => (cellStrs s.heap cells).any fun as => joinLength path as < lineMax
    | _ => false

/-- The size of the buffer at a pointer. -/
def bufRoom (h : Blocks AceBlock) (p : Option ℕ) : Option ℕ :=
  p.bind fun q =>
    match h.get q with
    | some (.buf n) => some n
    | _ => none

/-- The chunks the reading thread stores fit a buffer.  A header is the end, a signal or the
length of a chunk. -/
def chunksFit (room : Option ℕ) : List ℤ → Bool
  | [] => true
  | hdr :: hdrs =>
    if hdr = xsAceOk then true
    else if (aceSignal hdr).isSome then chunksFit room hdrs
    else room.any (fun n : ℕ => decide (0 ≤ hdr ∧ hdr ≤ n)) && chunksFit room hdrs

/-- The two threads store in the buffers.  Those of `RUN_NL` are cleared over the recorded size
before each line; the writing thread of `RUN_BUF` reads 8 bytes at a time, and `read` refuses
a null pointer. -/
def threadsFit (s : Ace) : AceRun → Bool
  | .runNl hdrs =>
    (bufRoom s.heap s.txbuf).any (fun n : ℕ => decide (s.lnbufsz ≤ n)) &&
      chunksFit ((bufRoom s.heap s.rxbuf).filter fun n : ℕ => decide (s.lnbufsz ≤ n)) hdrs
  | .runBuf hdrs =>
    (s.pbuftx.isNone || (bufRoom s.heap s.pbuftx).any (fun n : ℕ => decide (8 ≤ n))) &&
      chunksFit (bufRoom s.heap s.pbufrx) hdrs
  | _ => true

/-- `xs_ace_run`, `xs_ace_runbk`, `xs_ace_runnl` and `xs_ace_runbuf` in the parent.  `listed`
is whether `chkacl` can read the list, which `RUN` asks by another function; `started`, whether
there is a program in the end; `ended`, whether the session ends. -/
def xsAceRun (s : Ace) (r : AceRun) (text : List Byte) (listed started ended : Bool) :
    Option Ace :=
  let done := some { s with inside := !ended, reply := none }
  if !s.keyset then done
  else if !pathsFit text r then none
  else if r ≠ .run ∧ listed ∧ !aclRoom s text then none
  else if started ∧ !threadsFit s r then none
  else done

/-! ### Commands -/

/-- `xs_ace_inskey`: the name of the key file, the key, and whether it is in the file, if that
can be read. -/
def xsAceInskeyStep (s : Ace) (xsace key : List Byte) (found : Option Bool) : Option Ace :=
  if s.keyset then some (s.fail aceEkeyset)
  else if aceKeylen ≤ key.length then none
  else
    match found with
    | none => some (s.fail aceEkeyread)
    | some false => some (s.fail aceEkeynotset)
    | some true =>
      if (xsace ++ lit "." ++ key ++ lit ".acl").length < pathMax then
        some { s with keyset := true }.ok
      else none

/-- `xs_ace_setwdir`; whether `chdir` takes the path. -/
def xsAceSetwdir (s : Ace) (path : List Byte) (ok : Bool) : Option Ace :=
  if !s.keyset then some (s.fail aceEkeynotset)
  else if !ok then some (s.fail aceEwdir)
  else if path.length < lineMax then some s.ok
  else none

/-- `xs_ace_exit`. -/
def xsAceExit (s : Ace) : Option Ace :=
  (s.heap.free s.rxbuf).bind fun h => (h.free s.txbuf).bind fun h => (h.free s.pbufrx).bind fun h =>
    (h.free s.pbuftx).bind fun h =>
      (freeargs { s with
        heap := h, pbuftx := none, pbufrx := none, pbufsz := 0, rxbuf := none, txbuf := none,
        lnbufsz := 0, keyset := false, inside := false }).map Ace.ok

/-- A command, with the outcomes of its allocations. -/
inductive AceAct
  | enter (ptx prx rx tx : Bool)
  | inskey (xsace key : List Byte) (found : Option Bool)
  | setargs (tail : List Byte) (argv : Bool) (oks : List Bool)
  | setwdir (path : List Byte) (ok : Bool)
  | setRunbuf (newsz : BitVec 64) (rx tx : Bool)
  | setRunnl (newsz : BitVec 64) (rx tx : Bool)
  | run (r : AceRun) (text : List Byte) (listed started ended : Bool)
  /-- `RUNNL_SZ`, `RUNBUF_SZ` and unknown commands; whether the session ends. -/
  | other (ended : Bool)
  | goback
  | exit
  /-- `getcmd` fails. -/
  | lost
  deriving DecidableEq, Repr

/-- The command `xs_ace` itself. -/
def AceAct.isEnter : AceAct → Bool
  | .enter .. => true
  | _ => false

/-- What a command does, unless it crashes. -/
def aceStep (s : Ace) : AceAct → Option Ace
  | .enter ptx prx rx tx => xsAceEnter s ptx prx rx tx
  | .inskey xsace key found => xsAceInskeyStep s xsace key found
  | .setargs tail argv oks => xsAceSetargs s tail argv oks
  | .setwdir path ok => xsAceSetwdir s path ok
  | .setRunbuf newsz rx tx => xsAceSetRunbuf s newsz rx tx
  | .setRunnl newsz rx tx => xsAceSetRunnl s newsz rx tx
  | .run r text listed started ended => xsAceRun s r text listed started ended
  | .other ended => some { s with inside := !ended, reply := none }
  | .goback => some { s with inside := false }.ok
  | .exit => xsAceExit s
  | .lost => some { s with inside := false, reply := none }

/-- One command.  The module is entered from outside, and a process that crashed does nothing
more. -/
def aceNext (s : Ace) (a : AceAct) : Option Ace :=
  if s.crashed then none
  else if s.inside = a.isEnter then none
  else some ((aceStep s a).getD { s with crashed := true })

/-! ### The invariant -/

/-- A pointer is null, or to a live buffer of at least the recorded size. -/
def BufOk (h : Blocks AceBlock) (p : Option ℕ) (sz : ℤ) : Prop :=
  ∀ q, p = some q → ∃ n : ℕ, h.get q = some (.buf n) ∧ sz ≤ n

/-- What is said of the variables. -/
structure AceInv (s : Ace) : Prop where
  /-- Nothing was freed twice, no null pointer was followed, and nothing was stored behind the
  end of an array or a block. -/
  alive : s.crashed = false
  args : s.argls = none ∧ s.arglen = 0 ∨
    ∃ (p : ℕ) (qs : List ℕ), s.argls = some p ∧
      s.heap.get p = some (.ptrs (qs.map .ptr ++ [.null])) ∧ s.arglen = qs.length ∧
      qs.map s.heap.get = (strtokArgs (s.last.drop 1)).map fun t => some (.str t)
  pbufrx : BufOk s.heap s.pbufrx s.pbufsz
  pbuftx : BufOk s.heap s.pbuftx s.pbufsz
  rxbuf : BufOk s.heap s.rxbuf s.lnbufsz
  txbuf : BufOk s.heap s.txbuf s.lnbufsz

/-- The buffers of a program are there, and every chunk is as long as the recorded size at
most. -/
def StreamsFit (s : Ace) : AceRun → Prop
  | .runNl hdrs =>
    s.txbuf ≠ none ∧ chunksFit (s.rxbuf.map fun _ => s.lnbufsz.toNat) hdrs = true
  | .runBuf hdrs => chunksFit (s.pbufrx.map fun _ => s.pbufsz.toNat) hdrs = true
  | _ => True

/-- The allocations of a pair end alike.  `SETARGS` gets its list and its strings, and there is
an argument for every blank, unless there is no blank.  A text is no longer than the array it
is copied to, and a chunk no longer than its buffer. -/
def AceAllowed (s : Ace) : AceAct → Prop
  | .enter ptx prx rx tx =>
    (s.pbufrx.isNone || s.pbuftx.isNone → ptx = prx) ∧ (s.rxbuf.isNone || s.txbuf.isNone → rx = tx)
  | .inskey xsace key found =>
    s.keyset = false → key.length < aceKeylen ∧
      (found = some true → (xsace ++ lit "." ++ key ++ lit ".acl").length < pathMax)
  | .setwdir path ok => s.keyset = true → ok = true → path.length < lineMax
  | .run r text listed started _ =>
    s.keyset = true → pathsFit text r = true ∧
      (r ≠ .run → listed = true → s.argls ≠ none →
        joinLength text (strtokArgs (s.last.drop 1)) < lineMax) ∧
      (started = true → StreamsFit s r)
  | .setargs tail argv oks => s.keyset = true → blanks tail = 0 ∨
      argv = true ∧ (strtokArgs (tail.drop 1)).length = blanks tail ∧
        ∀ ok ∈ oks.take (blanks tail), ok = true
  | .setRunbuf newsz rx tx => s.keyset = true → 8 ≤ newsz.toNat → rx = tx
  | .setRunnl newsz rx tx => s.keyset = true → 8 ≤ newsz.toNat → rx = tx
  | _ => True

instance decidableStreamsFit (s : Ace) : ∀ r, Decidable (StreamsFit s r)
  | .runNl _ => inferInstanceAs (Decidable (_ ∧ _))
  | .runBuf _ => inferInstanceAs (Decidable (_ = _))
  | .run => .isTrue trivial
  | .runBk => .isTrue trivial

instance decidableAceAllowed (s : Ace) : ∀ a, Decidable (AceAllowed s a)
  | .enter .. => inferInstanceAs (Decidable ((_ → _) ∧ (_ → _)))
  | .inskey .. => inferInstanceAs (Decidable (_ → _ ∧ (_ → _)))
  | .setargs .. => inferInstanceAs (Decidable (_ → _ ∨ _ ∧ _ ∧ ∀ _ ∈ _, _))
  | .setwdir .. => inferInstanceAs (Decidable (_ → _ → _))
  | .setRunbuf .. => inferInstanceAs (Decidable (_ → _ → _))
  | .setRunnl .. => inferInstanceAs (Decidable (_ → _ → _))
  | .run .. => inferInstanceAs (Decidable (_ → _ ∧ (_ → _ → _ → _) ∧ (_ → _)))
  | .other _ => .isTrue trivial
  | .goback => .isTrue trivial
  | .exit => .isTrue trivial
  | .lost => .isTrue trivial

/-! ### Ownership -/

/-- The blocks behind a pair of buffers. -/
def PairOwns (p q : Option ℕ) (sz : ℤ) (l : List (ℕ × AceBlock)) : Prop :=
  p = none ∧ q = none ∧ l = [] ∨
    ∃ (a b n : ℕ), p = some a ∧ q = some b ∧ (sz ≤ n ∧ 8 ≤ n) ∧ l = [(a, .buf n), (b, .buf n)]

/-- The blocks behind the argument list. -/
def ArgsOwn (argls : Option ℕ) (arglen : ℕ) (ts : List (List Byte)) (l : List (ℕ × AceBlock)) :
    Prop :=
  argls = none ∧ arglen = 0 ∧ l = [] ∨
    ∃ (p : ℕ) (qs : List ℕ), argls = some p ∧ arglen = qs.length ∧ qs.length = ts.length ∧
      l = (p, .ptrs (qs.map .ptr ++ [.null])) :: qs.zip (ts.map .str)

/-- The variables own what they point to. -/
structure AceOwn (s : Ace) (lp ll la : List (ℕ × AceBlock)) : Prop where
  alive : s.crashed = false
  pipes : PairOwns s.pbufrx s.pbuftx s.pbufsz lp
  lines : PairOwns s.rxbuf s.txbuf s.lnbufsz ll
  args : ArgsOwn s.argls s.arglen (strtokArgs (s.last.drop 1)) la
  owns : s.heap.Owns (lp ++ (ll ++ la))

theorem PairOwns.bufOk {h : Blocks AceBlock} {p q : Option ℕ} {sz : ℤ} {l : List (ℕ × AceBlock)}
    (hp : PairOwns p q sz l) (hl : ∀ x ∈ l, h.get x.1 = some x.2) :
    BufOk h p sz ∧ BufOk h q sz := by
  obtain ⟨rfl, rfl, -⟩ | ⟨a, b, n, rfl, rfl, hsz, rfl⟩ := hp
  · exact ⟨nofun, nofun⟩
  · constructor
    · intro x hx
      obtain rfl := Option.some.inj hx
      exact ⟨n, hl (a, .buf n) (by simp), hsz.1⟩
    · intro x hx
      obtain rfl := Option.some.inj hx
      exact ⟨n, hl (b, .buf n) (by simp), hsz.1⟩

/-- Looking up a list of addresses next to what is there. -/
theorem map_get_zip {h : Blocks AceBlock} : ∀ {qs : List ℕ} {bs : List AceBlock},
    qs.length = bs.length → (∀ x ∈ qs.zip bs, h.get x.1 = some x.2) →
      qs.map h.get = bs.map some := by
  intro qs
  induction qs with
  | nil =>
    intro bs hlen _
    rw [List.length_eq_zero_iff.mp hlen.symm]
    rfl
  | cons q qs ih =>
    intro bs hlen hget
    cases bs with
    | nil => cases hlen
    | cons b bs =>
      rw [List.map_cons, List.map_cons, hget (q, b) (by simp),
        ih (by simpa using hlen) fun x hx => hget x (by simp [hx])]

/-- **Ownership gives the invariant.** -/
theorem AceOwn.inv {s : Ace} {lp ll la : List (ℕ × AceBlock)} (h : AceOwn s lp ll la) :
    AceInv s := by
  have hall := h.owns.2
  obtain ⟨hprx, hptx⟩ := h.pipes.bufOk fun x hx => hall x (by simp [hx])
  obtain ⟨hrx, htx⟩ := h.lines.bufOk fun x hx => hall x (by simp [hx])
  refine ⟨h.alive, ?_, hprx, hptx, hrx, htx⟩
  obtain ⟨hnone, hlen, -⟩ | ⟨p, qs, hp, hlen, hts, rfl⟩ := h.args
  · exact .inl ⟨hnone, hlen⟩
  · refine .inr ⟨p, qs, hp, hall (p, _) (by simp), hlen, ?_⟩
    have hstrs := @map_get_zip s.heap qs ((strtokArgs (s.last.drop 1)).map .str) (by simp [hts])
      fun x hx => hall x (List.mem_append_right _ (List.mem_append_right _ (.tail _ hx)))
    rw [hstrs, List.map_map]
    rfl

/-! ### What the operations do to what is owned -/

section

variable {h : Blocks AceBlock} {p q : Option ℕ} {sz : ℤ} {l m : List (ℕ × AceBlock)}

/-- Where one of the pointers is null, nothing is owned. -/
theorem PairOwns.of_isNone (hp : PairOwns p q sz l) (h : (p.isNone || q.isNone) = true) :
    l = [] := by
  obtain ⟨-, -, rfl⟩ | ⟨a, b, n, rfl, rfl, -, -⟩ := hp
  · rfl
  · cases h

theorem PairOwns.swap (hp : PairOwns p q sz l) : ∃ l', PairOwns q p sz l' ∧ l.Perm l' := by
  obtain ⟨rfl, rfl, rfl⟩ | ⟨a, b, n, rfl, rfl, hsz, rfl⟩ := hp
  · exact ⟨[], .inl ⟨rfl, rfl, rfl⟩, .refl _⟩
  · exact ⟨_, .inr ⟨b, a, n, rfl, rfl, hsz, rfl⟩, .swap ..⟩

/-- A pair is freed. -/
theorem PairOwns.free (hp : PairOwns p q sz l) (ho : h.Owns (l ++ m)) :
    ∃ h', ((h.free p).bind fun h => h.free q) = some h' ∧ h'.Owns m := by
  obtain ⟨rfl, rfl, rfl⟩ | ⟨a, b, n, rfl, rfl, hsz, rfl⟩ := hp
  · exact ⟨h, rfl, ho⟩
  · obtain ⟨h₁, hfree₁, ho₁⟩ := ho.free
    obtain ⟨h₂, hfree₂, ho₂⟩ := ho₁.free
    exact ⟨h₂, by rw [hfree₁, Option.bind_some, hfree₂], ho₂⟩

/-- Two allocations that end alike. -/
theorem newPair_owns (ho : h.Owns m) {n : ℕ} (hn : 8 ≤ n) (ok : Bool) :
    ∃ r l, newPair n ok ok h = some r ∧ r.ok = ok ∧
      (∀ sz : ℤ, (ok = true → sz ≤ n) → PairOwns r.fst r.snd sz l) ∧ r.heap.Owns (l ++ m) := by
  cases ok with
  | false =>
    exact ⟨⟨h, none, none, false⟩, [], rfl, rfl, fun _ _ => .inl ⟨rfl, rfl, rfl⟩, ho⟩
  | true =>
    have ho₁ := ho.malloc (AceBlock.buf n)
    have ho₂ := ho₁.malloc (AceBlock.buf n)
    exact ⟨⟨_, _, _, true⟩, _, rfl, rfl, fun _ hsz => .inr ⟨_, _, n, rfl, rfl, ⟨hsz rfl, hn⟩, rfl⟩,
      ho₂.perm (.swap ..)⟩

theorem remakePair_owns (hp : PairOwns p q sz l) (ho : h.Owns (l ++ m)) {sz' : ℤ} {n : ℕ}
    (hsz : sz' ≤ n) (hn : 8 ≤ n) (ok : Bool) :
    ∃ r l', remakePair n p q ok ok h = some r ∧ r.ok = ok ∧ PairOwns r.fst r.snd sz' l' ∧
      r.heap.Owns (l' ++ m) := by
  obtain ⟨h', hfree, ho'⟩ := hp.free ho
  obtain ⟨r, l', hnew, hok, hpair, howns⟩ := newPair_owns ho' hn ok
  refine ⟨r, l', ?_, hok, hpair sz' fun _ => hsz, howns⟩
  rw [remakePair, ← hnew, ← Option.bind_assoc, hfree, Option.bind_some]

/-- Pointers are freed one after the other. -/
theorem freeCells_ptrs : ∀ (qs : List ℕ) (h : Blocks AceBlock),
    freeCells (qs.map .ptr) h = h.freeAll qs := by
  intro qs
  induction qs with
  | nil => intro h; rfl
  | cons q qs ih =>
    intro h
    rw [List.map_cons, freeCells, Blocks.freeAll]
    congr 1
    exact funext ih

/-- The argument list is freed. -/
theorem freeargs_owns {s : Ace} {ts : List (List Byte)}
    (ha : ArgsOwn s.argls s.arglen ts l) (ho : s.heap.Owns (l ++ m)) :
    ∃ h', freeargs s = some { s with heap := h', argls := none, arglen := 0 } ∧ h'.Owns m := by
  obtain ⟨hnone, hlen, rfl⟩ | ⟨p, qs, hp, hlen, hts, rfl⟩ := ha
  · refine ⟨s.heap, ?_, ho⟩
    rw [freeargs, hnone]
    show some s = _
    rw [← hnone, ← hlen]
  · have hget : s.heap.get p = some (.ptrs (qs.map .ptr ++ [.null])) := ho.get
    have hzip : (qs.zip (ts.map AceBlock.str)).map Prod.fst = qs :=
      List.map_fst_zip (by simp [hts])
    obtain ⟨h₁, hall, ho₁⟩ := Blocks.Owns.freeAll (ho.perm List.perm_middle.symm)
    obtain ⟨h₂, hfree, ho₂⟩ := ho₁.free
    rw [hzip] at hall
    refine ⟨h₂, ?_, ho₂⟩
    have htake : (qs.map AceCell.ptr ++ [AceCell.null]).take s.arglen = qs.map .ptr := by
      rw [hlen, List.take_left' (by simp)]
    simp only [freeargs, hp, hget]
    rw [if_neg (by simp [hlen]), htake, freeCells_ptrs, hall, Option.bind_some, hfree]
    rfl

/-- A pointer goes into the first cell that has none. -/
theorem setCell_owns {pre : List ℕ} {cells : List AceCell} {p q : ℕ}
    (ho : h.Owns ((p, .ptrs (pre.map .ptr ++ .uninit :: cells)) :: m)) :
    ∃ h', setCell h p pre.length q = some h' ∧
      h'.Owns ((p, .ptrs ((pre ++ [q]).map .ptr ++ cells)) :: m) := by
  refine ⟨_, ?_, ho.store _⟩
  have hset : (pre.map AceCell.ptr ++ .uninit :: cells).set pre.length (.ptr q)
      = (pre ++ [q]).map AceCell.ptr ++ cells := by
    rw [List.set_append_right _ _ (by simp)]
    simp
  rw [setCell, ho.get]
  simp only [hset]
  rw [if_pos (by simp)]

/-- **The list is filled**, when there is a string for every cell and every allocation gives
memory. -/
theorem fillArgs_owns {p : ℕ} : ∀ (ts : List (List Byte)) {pre : List ℕ} {us : List (List Byte)}
    {oks : List Bool} {h : Blocks AceBlock}, pre.length = us.length →
    (∀ ok ∈ oks.take ts.length, ok = true) →
    h.Owns ((p, .ptrs (pre.map .ptr ++ (List.replicate ts.length .uninit ++ [.null]))) ::
      (pre.zip (us.map .str) ++ m)) →
    ∃ (h' : Blocks AceBlock) (qs : List ℕ), fillArgs p ts.length pre.length ts oks h = some h' ∧
      qs.length = (us ++ ts).length ∧
      h'.Owns ((p, .ptrs (qs.map .ptr ++ [.null])) :: (qs.zip ((us ++ ts).map .str) ++ m)) := by
  intro ts
  induction ts with
  | nil =>
    intro pre us oks h hlen _ ho
    exact ⟨h, pre, rfl, by simpa using hlen, by simpa using ho⟩
  | cons t ts ih =>
    intro pre us oks h hlen hoks ho
    have hok : oks.headD true = true := by
      cases oks with
      | nil => rfl
      | cons ok oks => exact hoks ok (by simp)
    have htail : ∀ ok ∈ oks.tail.take ts.length, ok = true := by
      cases oks with
      | nil => simp
      | cons ok oks => exact fun b hb => hoks b (by simp [show b ∈ oks.take ts.length from hb])
    -- the string is allocated, and the pointer to it stored
    have ho₁ := (ho.malloc (.str t)).perm (.swap ..)
    obtain ⟨h₂, hset, ho₂⟩ := @setCell_owns _ _ pre _ p h.length ho₁
    have hzip : (pre ++ [h.length]).zip ((us ++ [t]).map AceBlock.str)
        = pre.zip (us.map .str) ++ [(h.length, .str t)] := by
      rw [List.map_append, List.zip_append (by simpa using hlen)]
      rfl
    have ho₃ : h₂.Owns ((p, .ptrs ((pre ++ [h.length]).map .ptr ++
        (List.replicate ts.length .uninit ++ [.null]))) ::
          ((pre ++ [h.length]).zip ((us ++ [t]).map .str) ++ m)) := by
      rw [hzip, List.append_assoc]
      exact ho₂.perm (List.perm_middle.symm.cons _)
    obtain ⟨h', qs, hfill, hqs, ho'⟩ := ih (by simpa using hlen) htail ho₃
    refine ⟨h', qs, ?_, by simpa using hqs, by simpa using ho'⟩
    rw [List.length_append, List.length_singleton] at hfill
    rw [List.length_cons, fillArgs]
    simp only [Blocks.malloc, hok, if_true, Option.bind_some]
    rw [hset, Option.bind_some, hfill]

/-- The whole loop. -/
theorem fillArgs_all {p : ℕ} {ts : List (List Byte)} {oks : List Bool}
    (hoks : ∀ ok ∈ oks.take ts.length, ok = true)
    (ho : h.Owns ((p, .ptrs (List.replicate ts.length .uninit ++ [.null])) :: m)) :
    ∃ (h' : Blocks AceBlock) (qs : List ℕ), fillArgs p ts.length 0 ts oks h = some h' ∧
      qs.length = ts.length ∧
      h'.Owns ((p, .ptrs (qs.map .ptr ++ [.null])) :: (qs.zip (ts.map .str) ++ m)) :=
  @fillArgs_owns m p ts [] [] oks h rfl hoks ho

end

/-! ### Commands under ownership -/

section

variable {s : Ace} {lp ll la : List (ℕ × AceBlock)}

theorem enterPipes_own (h : AceOwn s lp ll la) {ptx prx : Bool}
    (hpair : (s.pbufrx.isNone || s.pbuftx.isNone) = true → ptx = prx) :
    ∃ t lp', enterPipes s ptx prx = some t ∧ AceOwn t lp' ll la ∧ t.rxbuf = s.rxbuf ∧
      t.txbuf = s.txbuf := by
  unfold enterPipes
  split
  next hmiss =>
    obtain rfl := h.pipes.of_isNone hmiss
    obtain rfl := hpair hmiss
    obtain ⟨r, l, hnew, hok, hown, ho⟩ := newPair_owns h.owns (show 8 ≤ pipeBuf by decide) ptx
    rw [List.nil_append] at ho
    rw [hnew, Option.map_some]
    cases ptx with
    | true =>
      obtain ⟨l', hswap, hperm⟩ := (hown pipeBuf fun _ => le_rfl).swap
      refine ⟨_, l', rfl, ?_⟩
      rw [hok]
      exact ⟨⟨h.alive, hswap, h.lines, h.args, ho.perm (hperm.append_right _)⟩, rfl, rfl⟩
    | false =>
      obtain ⟨l', hswap, hperm⟩ := (hown s.pbufsz nofun).swap
      refine ⟨_, l', rfl, ?_⟩
      rw [hok]
      exact ⟨⟨h.alive, hswap, h.lines, h.args, ho.perm (hperm.append_right _)⟩, rfl, rfl⟩
  next => exact ⟨_, lp, rfl, ⟨h.alive, h.pipes, h.lines, h.args, h.owns⟩, rfl, rfl⟩

theorem enterLines_own (h : AceOwn s lp ll la) {rx tx : Bool}
    (hpair : (s.rxbuf.isNone || s.txbuf.isNone) = true → rx = tx) :
    ∃ t ll', enterLines s rx tx = some t ∧ AceOwn t lp ll' la := by
  unfold enterLines
  split
  next hmiss =>
    obtain rfl := h.lines.of_isNone hmiss
    obtain rfl := hpair hmiss
    obtain ⟨r, l, hnew, hok, hown, ho⟩ := newPair_owns h.owns (show 8 ≤ bufsiz by decide) rx
    rw [hnew, Option.map_some]
    refine ⟨_, l, rfl, ?_⟩
    have howns : r.heap.Owns (lp ++ (l ++ la)) := ho.perm (List.perm_append_comm_assoc ..)
    cases rx with
    | true =>
      rw [hok]
      exact ⟨h.alive, h.pipes, hown bufsiz fun _ => le_rfl, h.args, howns⟩
    | false =>
      rw [hok]
      exact ⟨h.alive, h.pipes, hown s.lnbufsz nofun, h.args, howns⟩
  next => exact ⟨_, ll, rfl, ⟨h.alive, h.pipes, h.lines, h.args, h.owns⟩⟩

theorem xsAceEnter_own (h : AceOwn s lp ll la) {ptx prx rx tx : Bool}
    (hpipes : (s.pbufrx.isNone || s.pbuftx.isNone) = true → ptx = prx)
    (hlines : (s.rxbuf.isNone || s.txbuf.isNone) = true → rx = tx) :
    ∃ t lp' ll', xsAceEnter s ptx prx rx tx = some t ∧ AceOwn t lp' ll' la := by
  obtain ⟨t, lp', ht, hown, hrx, htx⟩ := enterPipes_own h hpipes
  rw [xsAceEnter, ht, Option.bind_some]
  split
  · rw [← hrx, ← htx] at hlines
    obtain ⟨u, ll', hu, hown'⟩ := enterLines_own hown hlines
    exact ⟨u, lp', ll', hu, hown'⟩
  · exact ⟨t, lp', ll, rfl, hown⟩

/-- The recorded size is no more than the size that is asked for. -/
theorem toInt_le_toNat (v : BitVec 64) : v.toInt ≤ v.toNat := by
  rw [BitVec.toInt_eq_toNat_cond]
  split <;> omega

theorem xsAceSetRunbuf_own (h : AceOwn s lp ll la) {newsz : BitVec 64} {rx tx : Bool}
    (hpair : s.keyset = true → 8 ≤ newsz.toNat → rx = tx) :
    ∃ t lp', xsAceSetRunbuf s newsz rx tx = some t ∧ AceOwn t lp' ll la := by
  unfold xsAceSetRunbuf
  split
  · exact ⟨_, lp, rfl, ⟨h.alive, h.pipes, h.lines, h.args, h.owns⟩⟩
  next hkey =>
    split
    · exact ⟨_, lp, rfl, ⟨h.alive, h.pipes, h.lines, h.args, h.owns⟩⟩
    next hsz =>
      obtain rfl := hpair (by simpa using hkey) (by omega)
      obtain ⟨r, l, hnew, hok, hown, ho⟩ :=
        remakePair_owns h.pipes h.owns (toInt_le_toNat newsz) (by omega) rx
      rw [hnew, Option.map_some]
      refine ⟨_, l, rfl, ?_⟩
      dsimp only
      split <;> exact ⟨h.alive, hown, h.lines, h.args, ho⟩

theorem xsAceSetRunnl_own (h : AceOwn s lp ll la) {newsz : BitVec 64} {rx tx : Bool}
    (hpair : s.keyset = true → 8 ≤ newsz.toNat → rx = tx) :
    ∃ t ll', xsAceSetRunnl s newsz rx tx = some t ∧ AceOwn t lp ll' la := by
  unfold xsAceSetRunnl
  split
  · exact ⟨_, ll, rfl, ⟨h.alive, h.pipes, h.lines, h.args, h.owns⟩⟩
  next hkey =>
    split
    · exact ⟨_, ll, rfl, ⟨h.alive, h.pipes, h.lines, h.args, h.owns⟩⟩
    next hsz =>
      obtain rfl := hpair (by simpa using hkey) (by omega)
      obtain ⟨r, l, hnew, hok, hown, ho⟩ :=
        remakePair_owns h.lines (h.owns.perm (List.perm_append_comm_assoc ..))
          (toInt_le_toNat newsz) (by omega) rx
      rw [hnew, Option.map_some]
      refine ⟨_, l, rfl, ?_⟩
      have howns : r.heap.Owns (lp ++ (l ++ la)) := ho.perm (List.perm_append_comm_assoc ..)
      dsimp only
      split <;> exact ⟨h.alive, h.pipes, hown, h.args, howns⟩

/-- The blocks of the argument list, in front of the others. -/
theorem AceOwn.args_front (h : AceOwn s lp ll la) : s.heap.Owns (la ++ (lp ++ ll)) := by
  have ho := h.owns
  rw [← List.append_assoc] at ho
  exact ho.perm List.perm_append_comm

theorem xsAceExit_own (h : AceOwn s lp ll la) :
    ∃ t, xsAceExit s = some t ∧ AceOwn t [] [] [] := by
  obtain ⟨h₁, hfree₁, ho₁⟩ := h.lines.free (h.owns.perm (List.perm_append_comm_assoc ..))
  obtain ⟨h₂, hfree₂, ho₂⟩ := h.pipes.free ho₁
  rw [← List.append_nil la] at ho₂
  obtain ⟨h₃, hfree₃, ho₃⟩ := @freeargs_owns la [] { s with
    heap := h₂, pbuftx := none, pbufrx := none, pbufsz := 0, rxbuf := none, txbuf := none,
    lnbufsz := 0, keyset := false, inside := false } _ h.args ho₂
  rw [xsAceExit, ← Option.bind_assoc, hfree₁, Option.bind_some, ← Option.bind_assoc, hfree₂,
    Option.bind_some, hfree₃]
  exact ⟨_, rfl, h.alive, .inl ⟨rfl, rfl, rfl⟩, .inl ⟨rfl, rfl, rfl⟩, .inl ⟨rfl, rfl, rfl⟩, ho₃⟩

theorem xsAceSetargs_own (h : AceOwn s lp ll la) {tail : List Byte} {argv : Bool} {oks : List Bool}
    (hallow : s.keyset = true → blanks tail = 0 ∨
      argv = true ∧ (strtokArgs (tail.drop 1)).length = blanks tail ∧
        ∀ ok ∈ oks.take (blanks tail), ok = true) :
    ∃ t la', xsAceSetargs s tail argv oks = some t ∧ AceOwn t lp ll la' := by
  unfold xsAceSetargs
  split
  · exact ⟨_, la, rfl, ⟨h.alive, h.pipes, h.lines, h.args, h.owns⟩⟩
  next hkey =>
    obtain ⟨h₁, hfree, ho₁⟩ := freeargs_owns h.args h.args_front
    rw [hfree, Option.bind_some]
    dsimp only
    rw [Nat.zero_add]
    by_cases hzero : blanks tail = 0
    · rw [if_pos hzero]
      refine ⟨_, [], rfl, h.alive, h.pipes, h.lines, .inl ⟨rfl, hzero, rfl⟩, ?_⟩
      rwa [List.append_nil]
    · obtain ⟨rfl, hlen, hoks⟩ := (hallow (by simpa using hkey)).resolve_left hzero
      rw [← hlen] at hzero hoks ⊢
      have hne : strtokArgs (tail.drop 1) ≠ [] := fun hnil => hzero (by rw [hnil]; rfl)
      rw [if_neg hzero]
      simp only [Blocks.malloc, if_true, hne, if_false]
      obtain ⟨h₂, qs, hfill, hqs, ho₂⟩ := fillArgs_all hoks (ho₁.malloc _)
      rw [hfill, Option.map_some]
      refine ⟨_, _, rfl, h.alive, h.pipes, h.lines, .inr ⟨_, qs, rfl, hqs.symm, hqs, rfl⟩, ?_⟩
      rw [← List.append_assoc]
      exact ho₂.perm (@List.perm_append_comm _ (_ :: _) _)

/-! ### Texts and chunks -/

theorem xsAceInskeyStep_own (h : AceOwn s lp ll la) {xsace key : List Byte} {found : Option Bool}
    (hallow : AceAllowed s (.inskey xsace key found)) :
    ∃ t, xsAceInskeyStep s xsace key found = some t ∧ AceOwn t lp ll la := by
  unfold xsAceInskeyStep
  split
  · exact ⟨_, rfl, h.alive, h.pipes, h.lines, h.args, h.owns⟩
  next hkey =>
    obtain ⟨hlen, hacl⟩ := hallow (by simpa using hkey)
    rw [if_neg (by omega)]
    split
    · exact ⟨_, rfl, h.alive, h.pipes, h.lines, h.args, h.owns⟩
    · exact ⟨_, rfl, h.alive, h.pipes, h.lines, h.args, h.owns⟩
    · rw [if_pos (hacl rfl)]
      exact ⟨_, rfl, h.alive, h.pipes, h.lines, h.args, h.owns⟩

theorem xsAceSetwdir_own (h : AceOwn s lp ll la) {path : List Byte} {ok : Bool}
    (hallow : AceAllowed s (.setwdir path ok)) :
    ∃ t, xsAceSetwdir s path ok = some t ∧ AceOwn t lp ll la := by
  unfold xsAceSetwdir
  split
  · exact ⟨_, rfl, h.alive, h.pipes, h.lines, h.args, h.owns⟩
  next hkey =>
    split
    · exact ⟨_, rfl, h.alive, h.pipes, h.lines, h.args, h.owns⟩
    next hok =>
      rw [if_pos (hallow (by simpa using hkey) (by simpa using hok))]
      exact ⟨_, rfl, h.alive, h.pipes, h.lines, h.args, h.owns⟩

/-- The strings of a list that is owned. -/
theorem cellStrs_of_get {h : Blocks AceBlock} : ∀ {qs : List ℕ} {ts : List (List Byte)},
    qs.length = ts.length → (∀ x ∈ qs.zip (ts.map AceBlock.str), h.get x.1 = some x.2) →
      cellStrs h (qs.map .ptr ++ [.null]) = some ts := by
  intro qs
  induction qs with
  | nil =>
    intro ts hlen _
    rw [List.eq_nil_of_length_eq_zero hlen.symm]
    rfl
  | cons q qs ih =>
    intro ts hlen hget
    cases ts with
    | nil => cases hlen
    | cons t ts =>
      rw [List.map_cons, List.cons_append, cellStrs, hget (q, .str t) (by simp)]
      simp only
      rw [ih (by simpa using hlen) fun x hx => hget x (by simp [hx]), Option.map_some]

theorem AceOwn.aclRoom (h : AceOwn s lp ll la) {path : List Byte}
    (hlen : s.argls ≠ none → joinLength path (strtokArgs (s.last.drop 1)) < lineMax) :
    TFProtocol.aclRoom s path = true := by
  unfold TFProtocol.aclRoom
  obtain ⟨hnone, -, -⟩ | ⟨p, qs, hp, -, hts, rfl⟩ := h.args
  · rw [hnone]
  · have hget : s.heap.get p = some (.ptrs (qs.map .ptr ++ [.null])) := h.args_front.get
    have hstrs := cellStrs_of_get hts fun x hx =>
      h.args_front.2 x (List.mem_append_left _ (List.mem_cons_of_mem _ hx))
    rw [hp]
    simp only [hget, hstrs, Option.any_some]
    exact decide_eq_true (hlen (by rw [hp]; nofun))

/-- The room behind the pointers of a pair. -/
theorem PairOwns.bufRoom {h : Blocks AceBlock} {p q : Option ℕ} {sz : ℤ}
    {l : List (ℕ × AceBlock)} (hp : PairOwns p q sz l) (hl : ∀ x ∈ l, h.get x.1 = some x.2) :
    p = none ∧ q = none ∨ ∃ n : ℕ, p ≠ none ∧ TFProtocol.bufRoom h p = some n ∧
      TFProtocol.bufRoom h q = some n ∧ sz ≤ n ∧ 8 ≤ n := by
  obtain ⟨rfl, rfl, -⟩ | ⟨a, b, n, rfl, rfl, ⟨hsz, hn⟩, rfl⟩ := hp
  · exact .inl ⟨rfl, rfl⟩
  · have ha := hl (a, .buf n) (by simp)
    have hb := hl (b, .buf n) (by simp)
    refine .inr ⟨n, by nofun, ?_, ?_, hsz, hn⟩
    · simp [TFProtocol.bufRoom, ha]
    · simp [TFProtocol.bufRoom, hb]

/-- Chunks that fit a buffer fit a larger one. -/
theorem chunksFit_mono {room room' : Option ℕ}
    (hroom : ∀ n, room = some n → ∃ m, room' = some m ∧ n ≤ m) :
    ∀ {hdrs : List ℤ}, chunksFit room hdrs = true → chunksFit room' hdrs = true := by
  intro hdrs
  induction hdrs with
  | nil => exact id
  | cons hdr hdrs ih =>
    intro h
    rw [chunksFit] at h ⊢
    split
    · rfl
    next hend =>
      rw [if_neg hend] at h
      split
      next hsig =>
        rw [if_pos hsig] at h
        exact ih h
      next hsig =>
        rw [if_neg hsig, Bool.and_eq_true] at h
        obtain ⟨hfit, hrest⟩ := h
        cases room with
        | none => cases hfit
        | some n =>
          obtain ⟨m, rfl, hle⟩ := hroom n rfl
          have hn : 0 ≤ hdr ∧ hdr ≤ n := of_decide_eq_true hfit
          rw [Option.any_some, ih hrest, Bool.and_true, decide_eq_true_eq]
          omega

theorem AceOwn.threadsFit (h : AceOwn s lp ll la) {r : AceRun} (hfit : StreamsFit s r) :
    TFProtocol.threadsFit s r = true := by
  have hpipes := h.pipes.bufRoom fun x hx => h.owns.2 x (List.mem_append_left _ hx)
  have hlines := h.lines.bufRoom fun x hx =>
    h.owns.2 x (List.mem_append_right _ (List.mem_append_left _ hx))
  cases r with
  | run => rfl
  | runBk => rfl
  | runNl hdrs =>
    obtain ⟨htx, hchunks⟩ := hfit
    obtain ⟨-, hnone⟩ | ⟨n, -, hrx, htx, hsz, -⟩ := hlines
    · exact absurd hnone htx
    · unfold TFProtocol.threadsFit
      simp only
      rw [hrx, htx, Option.any_some, Option.filter_some, decide_eq_true hsz, if_pos rfl,
        Bool.true_and]
      refine chunksFit_mono (fun k hk => ⟨n, rfl, ?_⟩) hchunks
      obtain ⟨-, -, rfl⟩ := Option.map_eq_some_iff.mp hk
      omega
  | runBuf hdrs =>
    unfold TFProtocol.threadsFit
    simp only
    obtain ⟨hrx, htx⟩ | ⟨n, -, hrx, htx, hsz, hn⟩ := hpipes
    · rw [htx, Option.isNone_none, Bool.true_or, Bool.true_and]
      refine chunksFit_mono (fun k hk => ?_) hfit
      rw [hrx] at hk
      cases hk
    · rw [htx, hrx, Option.any_some, decide_eq_true hn, Bool.or_true, Bool.true_and]
      refine chunksFit_mono (fun k hk => ⟨n, rfl, ?_⟩) hfit
      obtain ⟨-, -, rfl⟩ := Option.map_eq_some_iff.mp hk
      omega

theorem xsAceRun_own (h : AceOwn s lp ll la) {r : AceRun} {text : List Byte}
    {listed started ended : Bool} (hallow : AceAllowed s (.run r text listed started ended)) :
    ∃ t, xsAceRun s r text listed started ended = some t ∧ AceOwn t lp ll la := by
  have hdone : AceOwn { s with inside := !ended, reply := none } lp ll la :=
    ⟨h.alive, h.pipes, h.lines, h.args, h.owns⟩
  unfold xsAceRun
  dsimp only
  split
  · exact ⟨_, rfl, hdone⟩
  next hkey =>
    obtain ⟨hpaths, hroom, hstreams⟩ := hallow (by simpa using hkey)
    rw [if_neg (by simp [hpaths]), if_neg, if_neg]
    · exact ⟨_, rfl, hdone⟩
    · rintro ⟨hstart, hno⟩
      simp [h.threadsFit (hstreams hstart)] at hno
    · rintro ⟨hr, hlisted, hno⟩
      simp [h.aclRoom (hroom hr hlisted)] at hno

/-! ### Runs -/

/-- **One allowed command keeps ownership**, and does not crash. -/
theorem aceStep_own (h : AceOwn s lp ll la) {a : AceAct} (hallow : AceAllowed s a) :
    ∃ t lp' ll' la', aceStep s a = some t ∧ AceOwn t lp' ll' la' := by
  cases a with
  | enter ptx prx rx tx =>
    obtain ⟨t, lp', ll', ht, hown⟩ := xsAceEnter_own h hallow.1 hallow.2
    exact ⟨t, lp', ll', la, ht, hown⟩
  | inskey xsace key found =>
    obtain ⟨t, ht, hown⟩ := xsAceInskeyStep_own h hallow
    exact ⟨t, lp, ll, la, ht, hown⟩
  | setargs tail argv oks =>
    obtain ⟨t, la', ht, hown⟩ := xsAceSetargs_own h hallow
    exact ⟨t, lp, ll, la', ht, hown⟩
  | setwdir path ok =>
    obtain ⟨t, ht, hown⟩ := xsAceSetwdir_own h hallow
    exact ⟨t, lp, ll, la, ht, hown⟩
  | setRunbuf newsz rx tx =>
    obtain ⟨t, lp', ht, hown⟩ := xsAceSetRunbuf_own h hallow
    exact ⟨t, lp', ll, la, ht, hown⟩
  | setRunnl newsz rx tx =>
    obtain ⟨t, ll', ht, hown⟩ := xsAceSetRunnl_own h hallow
    exact ⟨t, lp, ll', la, ht, hown⟩
  | run r text listed started ended =>
    obtain ⟨t, ht, hown⟩ := xsAceRun_own h hallow
    exact ⟨t, lp, ll, la, ht, hown⟩
  | other ended => exact ⟨_, lp, ll, la, rfl, ⟨h.alive, h.pipes, h.lines, h.args, h.owns⟩⟩
  | goback => exact ⟨_, lp, ll, la, rfl, ⟨h.alive, h.pipes, h.lines, h.args, h.owns⟩⟩
  | exit =>
    obtain ⟨t, ht, hown⟩ := xsAceExit_own h
    exact ⟨t, [], [], [], ht, hown⟩
  | lost => exact ⟨_, lp, ll, la, rfl, ⟨h.alive, h.pipes, h.lines, h.args, h.owns⟩⟩

end

/-- The variables own what they point to. -/
def Ace.Owning (s : Ace) : Prop := ∃ lp ll la, AceOwn s lp ll la

theorem owning_initial : Ace.initial.Owning :=
  ⟨[], [], [], rfl, .inl ⟨rfl, rfl, rfl⟩, .inl ⟨rfl, rfl, rfl⟩, .inl ⟨rfl, rfl, rfl⟩,
    Blocks.owns_nil _⟩

theorem aceNext_own (s : Ace) (a : AceAct) (t : Ace) (h : s.Owning) (hallow : AceAllowed s a)
    (hnext : aceNext s a = some t) : t.Owning := by
  obtain ⟨lp, ll, la, hown⟩ := h
  obtain ⟨u, lp', ll', la', hu, hown'⟩ := aceStep_own hown hallow
  unfold aceNext at hnext
  split at hnext
  · cases hnext
  · split at hnext
    · cases hnext
    · rw [hu, Option.getD_some] at hnext
      obtain rfl := Option.some.inj hnext
      exact ⟨lp', ll', la', hown'⟩

/-- The module is entered, two arguments and a directory are set, a program gets a chunk, the
buffers of `RUN_BUF` are lost, and the module is left and entered again. -/
def twoArgs : List AceAct :=
  [.enter true true true true, .inskey (lit "/k") (lit "one") (some true),
    .setargs (lit " a b" ++ [0]) true [], .setwdir (lit "/tmp") true,
    .run (.runBuf [5, -131000, 4096, -127000]) (lit "/bin/cat") true true false,
    .setRunbuf 16 false false, .goback, .enter true true true true]

end TFProtocol
