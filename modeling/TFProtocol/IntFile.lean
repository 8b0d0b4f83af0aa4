import TFProtocol.HpfCodes
import TFProtocol.Lib.Runs
import TFProtocol.Jail

/-!
# Reading and replacing a file by its digest

`INTREAD` returns a file with its SHA-256, and `INTWRITE` replaces the file if it still has
the SHA-256 the client supplies.  Both lock the file with `fcntl` and unlock it at the end.
In between they call `sha256sum`, which opens the file once more and closes it: with the
record locks of POSIX this releases the lock.

The system is any number of client processes on one file, one system call at a time in any
order.  `log` is there for the statements only; its newest event comes first.

## Main definitions

* `IntPc`, `intStep`, `IntSys`, `intNext` — where a client stands, its calls, and the system.
* `AnswerOk` — what an answer promises.
* `IntAllowed` — what a step must be for the promises to hold.

## Main results

* `int_atomic` — in a run of such steps every answer keeps its promise.
-/

namespace TFProtocol

open Bytes CStr

/-! ### Digests -/

/-- A digit of `%02x`. -/
def hexDigit (n : ℕ) : Byte := BitVec.ofNat 8 (if n < 10 then 48 + n else 87 + n)

/-- `bytetohex`. -/
def bytetohex (bs : List Byte) : List Byte :=
  bs.flatMap fun b => [hexDigit (b.toNat / 16), hexDigit (b.toNat % 16)]

/-- `HEXPREFIX`. -/
def hexprefix : List Byte := lit "0x"

/-! ### The clients -/

/-- A command on the file. -/
inductive IntOp
  /-- `INTREAD`, with `st_size`. -/
  | read (size : ℕ)
  /-- `INTWRITE`, with the digest and the bytes it received. -/
  | write (src bytes : List Byte)
  deriving DecidableEq, Repr

/-- An answer. -/
inductive IntAns
  /-- `-1`. -/
  | fail
  /-- `0`. -/
  | done
  /-- The digest and the bytes `INTREAD` returns. -/
  | data (digest bytes : List Byte)
  deriving DecidableEq, Repr

/-- Where a client stands: the call it makes next. -/
inductive IntPc
  | idle
  /-- At `crtlock`; the file is open. -/
  | lock (op : IntOp)
  /-- At `stat`, which only `INTREAD` calls. -/
  | stat
  /-- At the `open` of `sha256sum`. -/
  | sumOpen (op : IntOp)
  /-- In the loop of `sha256sum`, with what it has read. -/
  | sum (op : IntOp) (acc : List Byte)
  /-- At the `close` of `sha256sum`, with the digest unless it failed. -/
  | sumClose (op : IntOp) (digest : Option (List Byte))
  | read (size : ℕ) (digest : List Byte)
  | truncate (src bytes : List Byte)
  /-- In `writechunk`, with what it has written. -/
  | write (src bytes : List Byte) (written : ℕ)
  /-- About to answer, and then to unlock the file if `held`. -/
  | answer (op : IntOp) (ans : IntAns) (held : Bool)
  /-- At `crtlock(fd, UNLOCK)`; `INTREAD` may have an answer to give after that. -/
  | unlock (next : Option (IntOp × IntAns))
  | close (next : Option (IntOp × IntAns))
  deriving DecidableEq, Repr

/-- A call, with its outcome. -/
inductive IntAct
  /-- A command arrives; `ok` if its path is allowed, memory is there and the file opens. -/
  | start (op : IntOp) (ok : Bool)
  | lock (ok : Bool)
  /-- `mem` if there is memory for the file. -/
  | stat (ok mem : Bool)
  | sumOpen (ok : Bool)
  | sumRead (r : Option ℕ)
  | sumClose
  | read (r : Option ℕ)
  | truncate (ok : Bool)
  | write (r : SysRes)
  | answer
  | unlock
  | close
  /-- The process ends. -/
  | quit
  deriving DecidableEq, Repr

/-- What happened on the file, by the client of a number below `n`. -/
inductive IntEvent (n : ℕ)
  | began (i : Fin n)
  /-- The client looked at the content. -/
  | saw (i : Fin n) (content : List Byte)
  /-- With the content before. -/
  | truncated (i : Fin n) (content : List Byte)
  /-- With the content after. -/
  | wrote (i : Fin n) (content : List Byte)
  | answered (i : Fin n) (op : IntOp) (ans : IntAns)
  deriving DecidableEq, Repr

/-- The file, the holder of the lock, the clients, and what happened. -/
structure IntSys (n : ℕ) where
  content : List Byte
  owner : Option (Fin n)
  client : Fin n → IntPc
  log : List (IntEvent n)

/-- What one call of a client leaves: the file, the lock, where the client stands, and the
event. -/
structure IntOut (n : ℕ) where
  content : List Byte
  owner : Option (Fin n)
  pc : IntPc
  event : Option (IntEvent n) := none

section

variable {n : ℕ}

/-- A process closes a descriptor of the file, so its lock is gone. -/
def released (owner : Option (Fin n)) (i : Fin n) : Option (Fin n) :=
  if owner = some i then none else owner

/-- The command at the start: `struct stat st = { 0 }`. -/
def IntOp.init : IntOp → IntOp
  | .read _ => .read 0
  | .write src bytes => .write src bytes

-- `sha256` is SHA-256, and `bufsz` the size of the buffer of `sha256sum`.
variable (sha256 : List Byte → List Byte) (bufsz : ℕ)

/-- The text of a digest. -/
def digestText (content : List Byte) : List Byte := hexprefix ++ bytetohex (sha256 content)

/-- Behind `sha256sum`: a failure is answered, `INTREAD` reads the file, and `INTWRITE`
compares the digests. -/
def afterSum : IntOp → Option (List Byte) → IntPc
  | op, none => .answer op .fail true
  | .read size, some digest => .read size digest
  | .write src bytes, some digest =>
    if cstr src = digest then .truncate src bytes else .answer (.write src bytes) .fail true

/-- One call of client `i`. -/
def intStep (i : Fin n) (content : List Byte) (owner : Option (Fin n)) :
    IntPc → IntAct → Option (IntOut n)
  | .idle, .start op ok =>
    some ⟨content, owner, if ok then .lock op.init else .answer op.init .fail false,
      some (.began i)⟩
  | .lock op, .lock ok =>
    if ok then
      -- the call waits while another process has the lock
      if owner = none ∨ owner = some i then
        some { content, owner := some i
               pc := match op with
                 | .read _ => .stat
                 | .write src bytes => .sumOpen (.write src bytes) }
      else none
    else some { content, owner, pc := .answer op .fail false }
  | .stat, .stat ok mem =>
    let size := if ok then content.length else 0
    some ⟨content, owner,
      if mem then .sumOpen (.read size) else .answer (.read size) .fail true,
      some (.saw i content)⟩
  | .sumOpen op, .sumOpen ok =>
    some { content, owner, pc := if ok then .sum op [] else afterSum op none }
  | .sum op acc, .sumRead r =>
    match fileChunk bufsz (content.drop acc.length) r with
    | none => some { content, owner, pc := .sumClose op none }
    | some [] =>
      some ⟨content, owner, .sumClose op (some (digestText sha256 acc)), some (.saw i content)⟩
    | some c => some ⟨content, owner, .sum op (acc ++ c), some (.saw i content)⟩
  | .sumClose op digest, .sumClose =>
    some { content, owner := released owner i, pc := afterSum op digest }
  | .read size digest, .read r =>
    some ⟨content, owner,
      .unlock (some (.read size,
        match fileChunk size content r with
        | none => .fail
        | some c => .data digest c)),
      some (.saw i content)⟩
  | .truncate src bytes, .truncate ok =>
    some (if ok then ⟨[], owner, .write src bytes 0, some (.truncated i content)⟩
      else { content, owner, pc := .answer (.write src bytes) .fail true })
  | .write src bytes written, .write r =>
    match r with
    | .eintr => some { content, owner, pc := .write src bytes written }
    | .err => some { content, owner, pc := .answer (.write src bytes) .fail true }
    | .cnt k =>
      let c := (bytes.drop written).take (k + 1)
      let content' := storedAt content written c
      some ⟨content', owner,
        if written + c.length < bytes.length then .write src bytes (written + c.length)
        -- `writechunk` returns the count of the last call
        else .answer (.write src bytes) (if c.length = bytes.length then .done else .fail) true,
        some (.wrote i content')⟩
  | .answer op ans held, .answer =>
    some ⟨content, owner, if held then .unlock none else .idle, some (.answered i op ans)⟩
  | .unlock next, .unlock => some { content, owner := released owner i, pc := .close next }
  | .close next, .close =>
    some { content, owner := released owner i
           pc := match next with
             | none => .idle
             | some (op, ans) => .answer op ans false }
  | _, .quit => some { content, owner := released owner i, pc := .idle }
  | _, _ => none

/-- One call of one of the clients. -/
def intNext (s : IntSys n) (a : Fin n × IntAct) : Option (IntSys n) :=
  (intStep sha256 bufsz a.1 s.content s.owner (s.client a.1) a.2).map fun r =>
    ⟨r.content, r.owner, Function.update s.client a.1 r.pc, r.event.toList ++ s.log⟩

end

/-- A file, and no client at work on it. -/
def IntSys.start {n : ℕ} (content : List Byte) : IntSys n := ⟨content, none, fun _ => .idle, []⟩

/-! ### What the answers promise -/

section

variable {n : ℕ}

/-- The client of an event. -/
def IntEvent.client : IntEvent n → Fin n
  | .began i => i
  | .saw i _ => i
  | .truncated i _ => i
  | .wrote i _ => i
  | .answered i _ _ => i

/-- A step on the content of the file. -/
def IntEvent.onContent : IntEvent n → Bool
  | .saw _ _ => true
  | .truncated _ _ => true
  | .wrote _ _ => true
  | _ => false

/-- A step that changes the content. -/
def IntEvent.changes : IntEvent n → Bool
  | .truncated _ _ => true
  | .wrote _ _ => true
  | _ => false

/-- The start of a command. -/
def IntEvent.begins : IntEvent n → Bool
  | .began _ => true
  | _ => false

/-- The log from the last event of a client back. -/
def lastOf (i : Fin n) (log : List (IntEvent n)) : List (IntEvent n) :=
  log.dropWhile (·.client ≠ i)

/-- The log from the last step on the content back. -/
def lastOnContent (log : List (IntEvent n)) : List (IntEvent n) :=
  log.dropWhile (!·.onContent)

/-- Since it began its command, the client has not changed the content. -/
def NoChange (i : Fin n) (log : List (IntEvent n)) : Prop :=
  ∀ e ∈ (log.filter (·.client = i)).takeWhile (!·.begins), e.changes = false

instance (i : Fin n) (log : List (IntEvent n)) : Decidable (NoChange i log) :=
  inferInstanceAs (Decidable (∀ e ∈ _, _))

variable (sha256 : List Byte → List Byte)

/-- The last step on the content was a truncation by the client, of a content with the
digest. -/
def TruncatedLast (i : Fin n) (src : List Byte) (log : List (IntEvent n)) : Prop :=
  match lastOnContent log with
  | .truncated j content :: _ => j = i ∧ digestText sha256 content = cstr src
  | _ => False

instance (i : Fin n) (src : List Byte) (log : List (IntEvent n)) :
    Decidable (TruncatedLast sha256 i src log) := by
  unfold TruncatedLast
  split <;> infer_instance

/-- What an answer promises, by the log before it.  `INTWRITE` that is answered `0` has
replaced a content with the digest by its bytes, with no other step on the content in
between; `INTWRITE` that is answered `-1` has not changed the content; the digest and the
bytes `INTREAD` returns are those of the content it has looked at last. -/
def AnswerOk (log : List (IntEvent n)) (i : Fin n) : IntOp → IntAns → Prop
  | .write src bytes, .done =>
    match lastOf i log with
    | .wrote _ content :: older => content = bytes ∧ TruncatedLast sha256 i src older
    | _ => False
  | .write _ _, .fail => NoChange i log
  | .read _, .data digest bytes =>
    match lastOf i log with
    | .saw _ content :: _ => bytes = content ∧ digest = digestText sha256 content
    | _ => False
  | _, _ => True

instance (log : List (IntEvent n)) (i : Fin n) (op : IntOp) (ans : IntAns) :
    Decidable (AnswerOk sha256 log i op ans) := by
  unfold AnswerOk
  split
  · split <;> infer_instance
  · infer_instance
  · split <;> infer_instance
  · infer_instance

end

/-! ### The condition -/

/-- Between its first look at the content and its last step on it. -/
def IntPc.looks : IntPc → Bool
  | .sumOpen (.read _) => true
  | .sum _ _ => true
  | .sumClose _ (some _) => true
  | .read _ _ => true
  | .truncate _ _ => true
  | .write _ _ _ => true
  | _ => false

/-- Between its truncation and the end of its write. -/
def IntPc.writes : IntPc → Bool
  | .write _ _ _ => true
  | _ => false

/-- What a call must be for the answers to keep their promises.  While a client truncates or
writes, no other client is between its first look at the content and its last step on it;
while a client looks at the content, no other client is between its truncation and its write.
A `write` stores everything, and the size and the bytes `INTREAD` takes are not cut short. -/
def IntAllowed {n : ℕ} (s : IntSys n) (a : Fin n × IntAct) : Prop :=
  match s.client a.1, a.2 with
  | .stat, .stat ok _ => ok = true ∧ ∀ j ≠ a.1, (s.client j).writes = false
  | .sum _ _, .sumRead (some _) => ∀ j ≠ a.1, (s.client j).writes = false
  | .read size _, .read r =>
    (∀ k ∈ r, size ≤ min (k + 1) maxRwCount) ∧ ∀ j ≠ a.1, (s.client j).writes = false
  | .truncate _ _, .truncate ok => ok = true → ∀ j ≠ a.1, (s.client j).looks = false
  | .write _ _ _, .write .err => False
  | .write _ bytes _, .write (.cnt k) =>
    bytes.length ≤ k + 1 ∧ ∀ j ≠ a.1, (s.client j).looks = false
  | _, _ => True

instance {n : ℕ} (s : IntSys n) (a : Fin n × IntAct) : Decidable (IntAllowed s a) := by
  unfold IntAllowed
  split <;> infer_instance

/-! ### The invariant -/

section

variable {n : ℕ} {sha256 : List Byte → List Byte} {bufsz : ℕ}

/-- The size `INTREAD` took is that of the content. -/
def IntOp.Sized (content : List Byte) : IntOp → Prop
  | .read size => size = content.length
  | .write _ _ => True

variable (sha256) in
/-- What holds of a client between two steps. -/
def PcOk (content : List Byte) (log : List (IntEvent n)) (i : Fin n) : IntPc → Prop
  | .idle => True
  | .lock _ => NoChange i log
  | .stat => NoChange i log
  | .sumOpen op => NoChange i log ∧ op.Sized content
  | .sum op acc => NoChange i log ∧ op.Sized content ∧ acc <+: content
  | .sumClose _ none => NoChange i log
  | .sumClose op (some digest) =>
    NoChange i log ∧ op.Sized content ∧ digest = digestText sha256 content
  | .read size digest => size = content.length ∧ digest = digestText sha256 content
  | .truncate src _ => NoChange i log ∧ digestText sha256 content = cstr src
  | .write src _ written => written = 0 ∧ content = [] ∧ TruncatedLast sha256 i src log
  | .answer op ans _ => AnswerOk sha256 log i op ans
  | .unlock next => ∀ op ans, next = some (op, ans) → AnswerOk sha256 log i op ans
  | .close next => ∀ op ans, next = some (op, ans) → AnswerOk sha256 log i op ans

variable (sha256) in
/-- Every answer in the log keeps its promise. -/
def AnswersOk : List (IntEvent n) → Prop
  | [] => True
  | .answered i op ans :: older => AnswerOk sha256 older i op ans ∧ AnswersOk older
  | _ :: older => AnswersOk older

variable (sha256) in
/-- The invariant of the system. -/
structure IntInv (s : IntSys n) : Prop where
  answers : AnswersOk sha256 s.log
  pcs : ∀ i, PcOk sha256 s.content s.log i (s.client i)

/-! ### Steps of other clients -/

variable {i : Fin n} {e : IntEvent n} {log : List (IntEvent n)} {content content' : List Byte}

theorem lastOf_cons (h : e.client ≠ i) : lastOf i (e :: log) = lastOf i log := by
  simp [lastOf, h]

theorem NoChange.cons_other (h : e.client ≠ i) (hno : NoChange i log) : NoChange i (e :: log) := by
  unfold NoChange at hno ⊢
  rwa [List.filter_cons_of_neg (by simpa using h)]

theorem NoChange.cons_own (h : e.client = i) (hch : e.changes = false) (hno : NoChange i log) :
    NoChange i (e :: log) := by
  unfold NoChange at hno ⊢
  rw [List.filter_cons_of_pos (by simpa using h), List.takeWhile_cons]
  split
  · intro e' he'
    rcases List.mem_cons.mp he' with rfl | he'
    · exact hch
    · exact hno e' he'
  · nofun

theorem TruncatedLast.cons {src : List Byte} (h : e.onContent = false)
    (hlast : TruncatedLast sha256 i src log) : TruncatedLast sha256 i src (e :: log) := by
  unfold TruncatedLast lastOnContent at hlast ⊢
  rwa [List.dropWhile_cons_of_pos (by simpa using h)]

theorem AnswerOk.cons {op : IntOp} {ans : IntAns} (h : e.client ≠ i)
    (hok : AnswerOk sha256 log i op ans) : AnswerOk sha256 (e :: log) i op ans := by
  cases op with
  | read size =>
    cases ans with
    | data digest bytes =>
      simp only [AnswerOk] at hok ⊢
      rwa [lastOf_cons h]
    | _ => trivial
  | write src bytes =>
    cases ans with
    | fail => exact NoChange.cons_other h hok
    | done =>
      simp only [AnswerOk] at hok ⊢
      rwa [lastOf_cons h]
    | data digest bytes => trivial

/-- What holds of a client stays true when another client makes a step: the content changes
only while the client does not look at it, and no step on the content falls between its
truncation and its write. -/
theorem PcOk.other {pc : IntPc} (hpc : PcOk sha256 content log i pc) (he : e.client ≠ i)
    (hlook : pc.looks = true → content' = content)
    (hwrite : pc.writes = true → e.onContent = false) :
    PcOk sha256 content' (e :: log) i pc := by
  cases pc with
  | idle => trivial
  | lock op => exact NoChange.cons_other he hpc
  | stat => exact NoChange.cons_other he hpc
  | sumOpen op =>
    cases op with
    | read size =>
      rw [hlook rfl]
      exact ⟨hpc.1.cons_other he, hpc.2⟩
    | write src bytes => exact ⟨hpc.1.cons_other he, trivial⟩
  | sum op acc =>
    rw [hlook rfl]
    exact ⟨hpc.1.cons_other he, hpc.2⟩
  | sumClose op digest =>
    cases digest with
    | none => exact NoChange.cons_other he hpc
    | some digest =>
      rw [hlook rfl]
      exact ⟨hpc.1.cons_other he, hpc.2⟩
  | read size digest =>
    rw [hlook rfl]
    exact hpc
  | truncate src bytes =>
    rw [hlook rfl]
    exact ⟨hpc.1.cons_other he, hpc.2⟩
  | write src bytes written =>
    rw [hlook rfl]
    exact ⟨hpc.1, hpc.2.1, hpc.2.2.cons (hwrite rfl)⟩
  | answer op ans held => exact AnswerOk.cons he hpc
  | unlock next => exact fun op ans h => (hpc op ans h).cons he
  | close next => exact fun op ans h => (hpc op ans h).cons he

theorem IntPc.looks_of_writes {pc : IntPc} (h : pc.writes = true) : pc.looks = true := by
  cases pc with
  | write src bytes written => rfl
  | _ => cases h

variable {s t : IntSys n} {r : IntOut n} {act : IntAct}

/-- A call in the way of no other client: its event is its own, it changes the content only
while no other client looks at it, and it is a step on the content only while no other client
writes. -/
structure Apart (s : IntSys n) (i : Fin n) (r : IntOut n) : Prop where
  still : r.event = none → r.content = s.content
  own : ∀ e, r.event = some e → e.client = i
  same : ∀ j ≠ i, (s.client j).looks = true → r.content = s.content
  quiet : ∀ j ≠ i, (s.client j).writes = true → ∀ e, r.event = some e → e.onContent = false

theorem Apart.of_none (hevent : r.event = none) (hcontent : r.content = s.content) :
    Apart s i r := by
  refine ⟨fun _ => hcontent, fun e he => ?_, fun _ _ _ => hcontent, fun _ _ _ e he => ?_⟩ <;>
  · rw [hevent] at he
    cases he

theorem Apart.of_look (hevent : r.event = some (.saw i s.content))
    (hcontent : r.content = s.content) (hothers : ∀ j ≠ i, (s.client j).writes = false) :
    Apart s i r := by
  refine ⟨fun _ => hcontent, fun e he => ?_, fun _ _ _ => hcontent, fun j hj hw => ?_⟩
  · rw [hevent] at he
    obtain rfl := Option.some.inj he
    rfl
  · rw [hothers j hj] at hw
    cases hw

theorem Apart.of_change (hevent : r.event = some e) (he : e.client = i)
    (hothers : ∀ j ≠ i, (s.client j).looks = false) : Apart s i r := by
  refine ⟨fun hnone => ?_, fun e' he' => ?_, fun j hj hl => ?_, fun j hj hw => ?_⟩
  · rw [hevent] at hnone
    cases hnone
  · rw [hevent] at he'
    obtain rfl := Option.some.inj he'
    exact he
  · rw [hothers j hj] at hl
    cases hl
  · have := IntPc.looks_of_writes hw
    rw [hothers j hj] at this
    cases this

theorem Apart.of_note (hevent : r.event = some e) (he : e.client = i) (hon : e.onContent = false)
    (hcontent : r.content = s.content) : Apart s i r := by
  refine ⟨fun _ => hcontent, fun e' he' => ?_, fun _ _ _ => hcontent, fun _ _ _ e' he' => ?_⟩ <;>
  · rw [hevent] at he'
    obtain rfl := Option.some.inj he'
    assumption

/-- A call that is allowed is in the way of no other client. -/
theorem intStep_apart (hok : IntAllowed s (i, act))
    (hstep : intStep sha256 bufsz i s.content s.owner (s.client i) act = some r) :
    Apart s i r := by
  unfold intStep at hstep
  unfold IntAllowed at hok
  split at hstep
  · obtain rfl := Option.some.inj hstep
    exact .of_note rfl rfl rfl rfl
  · -- `crtlock`
    split at hstep
    · split at hstep
      · obtain rfl := Option.some.inj hstep
        exact .of_none rfl rfl
      · cases hstep
    · obtain rfl := Option.some.inj hstep
      exact .of_none rfl rfl
  · next hpc =>
    rw [hpc] at hok
    obtain rfl := Option.some.inj hstep
    exact .of_look rfl rfl hok.2
  · obtain rfl := Option.some.inj hstep
    exact .of_none rfl rfl
  · next op acc k hpc =>
    cases k with
    | none =>
      obtain rfl := Option.some.inj hstep
      exact .of_none rfl rfl
    | some k =>
      rw [hpc] at hok
      split at hstep
      · next hread => cases hread
      · obtain rfl := Option.some.inj hstep
        exact .of_look rfl rfl hok
      · obtain rfl := Option.some.inj hstep
        exact .of_look rfl rfl hok
  · obtain rfl := Option.some.inj hstep
    exact .of_none rfl rfl
  · next hpc =>
    rw [hpc] at hok
    obtain rfl := Option.some.inj hstep
    exact .of_look rfl rfl hok.2
  · next hpc =>
    rw [hpc] at hok
    obtain rfl := Option.some.inj hstep
    split
    · next htrue => exact .of_change rfl rfl (hok htrue)
    · exact .of_none rfl rfl
  · next hpc =>
    rw [hpc] at hok
    split at hstep
    · obtain rfl := Option.some.inj hstep
      exact .of_none rfl rfl
    · obtain rfl := Option.some.inj hstep
      exact .of_none rfl rfl
    · obtain rfl := Option.some.inj hstep
      exact .of_change rfl rfl hok.2
  · obtain rfl := Option.some.inj hstep
    exact .of_note rfl rfl rfl rfl
  · obtain rfl := Option.some.inj hstep
    exact .of_none rfl rfl
  · obtain rfl := Option.some.inj hstep
    exact .of_none rfl rfl
  · obtain rfl := Option.some.inj hstep
    exact .of_none rfl rfl
  · cases hstep

/-! ### Steps of the client -/

theorem noChange_began : NoChange i (.began i :: log) := by
  unfold NoChange
  rw [List.filter_cons_of_pos (by simp [IntEvent.client])]
  nofun

theorem NoChange.answerOk (h : NoChange i log) (op : IntOp) : AnswerOk sha256 log i op .fail := by
  cases op with
  | read size => trivial
  | write src bytes => exact h

theorem lastOf_own (h : e.client = i) : lastOf i (e :: log) = e :: log := by
  simp [lastOf, h]

/-- The digest of everything that was read is the digest of the content. -/
theorem sum_pcOk (hbuf : 0 < bufsz) {op : IntOp} {acc : List Byte}
    (hpc : PcOk sha256 content log i (.sum op acc)) {k : Option ℕ} {c : List Byte}
    (hread : fileChunk bufsz (content.drop acc.length) k = some c) :
    (c = [] → digestText sha256 acc = digestText sha256 content) ∧ acc ++ c <+: content := by
  obtain ⟨-, -, hacc⟩ := hpc
  obtain ⟨rest, hrest, -, hend, -⟩ := fileChunk_some hbuf hread
  have hsplit : acc ++ content.drop acc.length = content := by
    obtain ⟨tail, rfl⟩ := hacc
    simp
  constructor
  · intro hc
    rw [hend hc, List.append_nil] at hsplit
    rw [hsplit]
  · rw [hrest] at hsplit
    exact ⟨rest, by rw [List.append_assoc, hsplit]⟩

theorem afterSum_pcOk {op : IntOp} {digest : Option (List Byte)}
    (hpc : PcOk sha256 content log i (.sumClose op digest)) :
    PcOk sha256 content log i (afterSum op digest) := by
  cases digest with
  | none => exact NoChange.answerOk hpc op
  | some digest =>
    obtain ⟨hno, hsize, rfl⟩ := hpc
    cases op with
    | read size => exact ⟨hsize, rfl⟩
    | write src bytes =>
      show PcOk sha256 content log i
        (if cstr src = digestText sha256 content then .truncate src bytes
          else .answer (.write src bytes) .fail true)
      split
      · next heq => exact ⟨hno, heq.symm⟩
      · exact hno

/-- A `read` that is not cut short delivers the content. -/
theorem fileChunk_whole {k : ℕ} (h : content.length ≤ min (k + 1) maxRwCount) :
    fileChunk content.length content (some k) = some content := by
  show some (content.take (min (k + 1) (min content.length maxRwCount))) = some content
  rw [List.take_of_length_le (by omega)]

theorem storedAt_nil (bs : List Byte) : storedAt [] 0 bs = bs := by
  unfold storedAt
  split
  · next h => rw [h]
  · simp

/-- An answer with the content that was seen last, and its digest. -/
theorem saw_pcOk {size : ℕ} :
    PcOk sha256 content (.saw i content :: log) i
      (.unlock (some (.read size, .data (digestText sha256 content) content))) := by
  intro op ans heq
  obtain ⟨rfl, rfl⟩ : IntOp.read size = op ∧ _ = ans := by simpa using heq
  show match lastOf i (.saw i content :: log) with
    | .saw _ content :: _ => _
    | _ => False
  rw [lastOf_own (show (IntEvent.saw i content).client = i from rfl)]
  exact ⟨rfl, rfl⟩

/-- An answer behind a write that followed the truncation. -/
theorem wrote_pcOk {src bytes : List Byte} (hlast : TruncatedLast sha256 i src log) :
    PcOk sha256 bytes (.wrote i bytes :: log) i (.answer (.write src bytes) .done true) := by
  show match lastOf i (.wrote i bytes :: log) with
    | .wrote _ content :: older => _
    | _ => False
  rw [lastOf_own (show (IntEvent.wrote i bytes).client = i from rfl)]
  exact ⟨rfl, hlast⟩

/-- A call of its own keeps what holds of a client. -/
theorem intStep_own (hbuf : 0 < bufsz) (hok : IntAllowed s (i, act))
    (hpc : PcOk sha256 s.content s.log i (s.client i))
    (hstep : intStep sha256 bufsz i s.content s.owner (s.client i) act = some r) :
    PcOk sha256 r.content (r.event.toList ++ s.log) i r.pc := by
  unfold intStep at hstep
  unfold IntAllowed at hok
  split at hstep
  · -- a command arrives
    obtain rfl := Option.some.inj hstep
    have hbegan : NoChange i (.began i :: s.log) := noChange_began
    dsimp only
    split
    · exact hbegan
    · exact hbegan.answerOk _
  · -- `crtlock`
    next hat =>
    rw [hat] at hpc
    split at hstep
    · split at hstep
      · obtain rfl := Option.some.inj hstep
        dsimp only
        split
        · exact hpc
        · exact ⟨hpc, trivial⟩
      · cases hstep
    · obtain rfl := Option.some.inj hstep
      exact NoChange.answerOk hpc _
  · -- `stat` of `INTREAD`, which is allowed only if it tells the size
    next hat =>
    rw [hat] at hpc hok
    obtain rfl := Option.some.inj hstep
    obtain ⟨rfl, -⟩ := hok
    dsimp only
    split
    · exact ⟨hpc.cons_own rfl rfl, rfl⟩
    · trivial
  · -- `sha256sum` opens the file
    next hat =>
    rw [hat] at hpc
    obtain rfl := Option.some.inj hstep
    dsimp only
    split
    · exact ⟨hpc.1, hpc.2, List.nil_prefix⟩
    · exact hpc.1.answerOk _
  · -- `sha256sum` reads: a failure, the end of the file, or a chunk
    next hat =>
    rw [hat] at hpc
    split at hstep
    · obtain rfl := Option.some.inj hstep
      exact hpc.1
    · next hread =>
      obtain rfl := Option.some.inj hstep
      exact ⟨hpc.1.cons_own rfl rfl, hpc.2.1, (sum_pcOk hbuf hpc hread).1 rfl⟩
    · next hread =>
      obtain rfl := Option.some.inj hstep
      exact ⟨hpc.1.cons_own rfl rfl, hpc.2.1, (sum_pcOk hbuf hpc hread).2⟩
  · -- `sha256sum` closes the file
    next hat =>
    rw [hat] at hpc
    obtain rfl := Option.some.inj hstep
    exact afterSum_pcOk hpc
  · -- `INTREAD` reads the file
    next size digest k hat =>
    rw [hat] at hpc hok
    obtain rfl := Option.some.inj hstep
    obtain ⟨rfl, rfl⟩ := hpc
    cases k with
    | none =>
      intro op ans heq
      obtain ⟨rfl, rfl⟩ : _ = op ∧ _ = ans := by simpa using heq
      trivial
    | some k =>
      dsimp only
      rw [fileChunk_whole (hok.1 k rfl)]
      exact saw_pcOk
  · -- `ftruncate`
    next hat =>
    rw [hat] at hpc
    obtain rfl := Option.some.inj hstep
    split
    · exact ⟨rfl, rfl, rfl, hpc.2⟩
    · exact hpc.1
  · -- `write`, which is allowed only if it stores everything in one call
    next src bytes written k hat =>
    rw [hat] at hpc hok
    obtain ⟨rfl, hnil, hlast⟩ := hpc
    split at hstep
    · obtain rfl := Option.some.inj hstep
      exact ⟨rfl, hnil, hlast⟩
    · exact hok.elim
    · obtain rfl := Option.some.inj hstep
      have htake : (bytes.drop 0).take (_ + 1) = bytes := List.take_of_length_le hok.1
      dsimp only
      rw [htake, hnil, storedAt_nil, if_neg (by omega), if_pos rfl]
      exact wrote_pcOk hlast
  · -- an answer is given
    obtain rfl := Option.some.inj hstep
    dsimp only
    split
    · nofun
    · trivial
  · -- the file is unlocked, and then closed
    next hat =>
    rw [hat] at hpc
    obtain rfl := Option.some.inj hstep
    exact hpc
  · next hat =>
    rw [hat] at hpc
    obtain rfl := Option.some.inj hstep
    dsimp only
    split
    · trivial
    · exact hpc _ _ rfl
  · -- the process ends
    obtain rfl := Option.some.inj hstep
    trivial
  · cases hstep

/-- Only a client that is about to answer does. -/
theorem intStep_answered {j : Fin n} {op : IntOp} {ans : IntAns}
    (hstep : intStep sha256 bufsz i s.content s.owner (s.client i) act = some r)
    (hevent : r.event = some (.answered j op ans)) :
    j = i ∧ ∃ held, s.client i = .answer op ans held := by
  unfold intStep at hstep
  split at hstep
  case h_10 =>
    next op' ans' held hat =>
    obtain rfl := Option.some.inj hstep
    obtain ⟨rfl, rfl, rfl⟩ : i = j ∧ op' = op ∧ ans' = ans := by simpa using hevent
    exact ⟨rfl, held, hat⟩
  -- every other call has another event, or none
  all_goals
    repeat' split at hstep
    all_goals
      cases hstep <;> cases hevent

theorem AnswersOk.cons (hans : AnswersOk sha256 log)
    (he : ∀ j op ans, e = .answered j op ans → AnswerOk sha256 log j op ans) :
    AnswersOk sha256 (e :: log) := by
  cases e with
  | answered j op ans => exact ⟨he j op ans rfl, hans⟩
  | _ => exact hans

/-- **Every call that is allowed keeps the invariant.** -/
theorem intNext_inv (hbuf : 0 < bufsz) (h : IntInv sha256 s) {a : Fin n × IntAct}
    (hok : IntAllowed s a) (hnext : intNext sha256 bufsz s a = some t) : IntInv sha256 t := by
  obtain ⟨i, act⟩ := a
  obtain ⟨r, hstep, rfl⟩ := Option.map_eq_some_iff.mp hnext
  have hapart := intStep_apart hok hstep
  have hown := intStep_own hbuf hok (h.pcs i) hstep
  constructor
  · show AnswersOk sha256 (r.event.toList ++ s.log)
    cases hevent : r.event with
    | none => exact h.answers
    | some e =>
      refine h.answers.cons fun j op ans he => ?_
      rw [he] at hevent
      obtain ⟨rfl, held, hat⟩ := intStep_answered hstep hevent
      have := h.pcs j
      rwa [hat] at this
  · intro j
    show PcOk sha256 r.content (r.event.toList ++ s.log) j (Function.update s.client i r.pc j)
    by_cases hj : j = i
    · subst hj
      rw [Function.update_self]
      exact hown
    · rw [Function.update_of_ne hj]
      cases hevent : r.event with
      | none =>
        rw [hapart.still hevent]
        exact h.pcs j
      | some e =>
        refine (h.pcs j).other ?_ (hapart.same j hj) fun hw => hapart.quiet j hj hw e hevent
        rw [hapart.own e hevent]
        exact fun heq => hj heq.symm

theorem start_intInv (content : List Byte) : IntInv sha256 (.start (n := n) content) :=
  ⟨trivial, fun _ => trivial⟩

theorem AnswersOk.mem : ∀ {newer older : List (IntEvent n)} {j : Fin n} {op : IntOp} {ans : IntAns},
    AnswersOk sha256 (newer ++ .answered j op ans :: older) → AnswerOk sha256 older j op ans := by
  intro newer
  induction newer with
  | nil => intro older j op ans h; exact h.1
  | cons e newer ih =>
    intro older j op ans h
    cases e with
    | answered j' op' ans' => exact ih h.2
    | _ => exact ih h

/-- **The file is replaced only as the clients know it.**  In every run of any number of
clients whose calls are all allowed, every answer keeps its promise: `INTWRITE` answered `0`
has replaced a content with the digest it was given by its bytes, with no other step on the
content in between; `INTWRITE` answered `-1` has not changed the content; and the digest and
the bytes `INTREAD` returns are those of one content. -/
theorem int_atomic (hbuf : 0 < bufsz) {acts : List (Fin n × IntAct)}
    (hmeets : Runs.Meets (intNext sha256 bufsz) IntAllowed (.start content) acts)
    (hrun : Runs.run (intNext sha256 bufsz) (.start content) acts = some s)
    {newer older : List (IntEvent n)} {op : IntOp} {ans : IntAns}
    (hlog : s.log = newer ++ .answered i op ans :: older) : AnswerOk sha256 older i op ans := by
  have hinv := Runs.inv_of_run (fun _ _ _ h hok hnext => intNext_inv hbuf h hok hnext)
    (start_intInv content) hmeets hrun
  have hans := hinv.answers
  rw [hlog] at hans
  exact hans.mem

end

/-! ### Two clients -/

/-- SHA-256 of the contents of the examples below. -/
def sha256At : List Byte → List Byte
  | [] =>
    [0xe3, 0xb0, 0xc4, 0x42, 0x98, 0xfc, 0x1c, 0x14, 0x9a, 0xfb, 0xf4, 0xc8, 0x99, 0x6f, 0xb9, 0x24,
      0x27, 0xae, 0x41, 0xe4, 0x64, 0x9b, 0x93, 0x4c, 0xa4, 0x95, 0x99, 0x1b, 0x78, 0x52, 0xb8, 0x55]
  | [1] =>
    [0x4b, 0xf5, 0x12, 0x2f, 0x34, 0x45, 0x54, 0xc5, 0x3b, 0xde, 0x2e, 0xbb, 0x8c, 0xd2, 0xb7, 0xe3,
      0xd1, 0x60, 0x0a, 0xd6, 0x31, 0xc3, 0x85, 0xa5, 0xd7, 0xcc, 0xe2, 0x3c, 0x77, 0x85, 0x45, 0x9a]
  | [2] =>
    [0xdb, 0xc1, 0xb4, 0xc9, 0x00, 0xff, 0xe4, 0x8d, 0x57, 0x5b, 0x5d, 0xa5, 0xc6, 0x38, 0x04, 0x01,
      0x25, 0xf6, 0x5d, 0xb0, 0xfe, 0x3e, 0x24, 0x49, 0x4b, 0x76, 0xea, 0x98, 0x64, 0x57, 0xd9, 0x86]
  | _ => []

/-- `INTWRITE` of some bytes by a client that knows the content. -/
def knownTo (content bytes : List Byte) : IntOp := .write (digestText sha256At content) bytes

/-- The client locks the file, takes the digest of the content it knows, byte by byte, and
has lost the lock. -/
def lockAndSum (i : Fin 2) (content bytes : List Byte) : List (Fin 2 × IntAct) :=
  [(i, .start (knownTo content bytes) true), (i, .lock true), (i, .sumOpen true)]
    ++ content.map (fun _ => (i, .sumRead (some 0))) ++ [(i, .sumRead (some 0)), (i, .sumClose)]

/-- The client replaces the content and answers. -/
def replaceAndAnswer (i : Fin 2) (r : SysRes) : List (Fin 2 × IntAct) :=
  [(i, .truncate true), (i, .write r), (i, .answer)]

/-- `INTREAD` up to the digest of a content of one byte. -/
def sumOfOne (i : Fin 2) : List (Fin 2 × IntAct) :=
  [(i, .start (.read 0) true), (i, .lock true), (i, .stat true true), (i, .sumOpen true),
    (i, .sumRead (some 0)), (i, .sumRead (some 0)), (i, .sumClose)]

/-- The end of `INTREAD`. -/
def readAndAnswer (i : Fin 2) : List (Fin 2 × IntAct) :=
  [(i, .read (some 0)), (i, .unlock), (i, .close), (i, .answer)]

/-- One client writes, and then another one reads. -/
def oneAfterOther : List (Fin 2 × IntAct) :=
  lockAndSum 0 [] [1] ++ replaceAndAnswer 0 (.cnt 0) ++ sumOfOne 1 ++ readAndAnswer 1

theorem int_atomic_two :
    ∃ (s : IntSys 2) (older : List (IntEvent 2)),
      Runs.run (intNext sha256At 4096) (.start []) oneAfterOther = some s ∧
      s.log = .answered 1 (.read 1) (.data (digestText sha256At [1]) [1]) :: older ∧
      AnswerOk sha256At older 1 (.read 1) (.data (digestText sha256At [1]) [1]) := by
  have hmeets : Runs.Meets (intNext sha256At 4096) IntAllowed (.start []) oneAfterOther := by
    decide +kernel
  have hhead : ((Runs.run (intNext sha256At 4096) (.start []) oneAfterOther).map (·.log.head?))
      = some (some (.answered 1 (.read 1) (.data (digestText sha256At [1]) [1]))) := by
    decide +kernel
  obtain ⟨s, hrun, hs⟩ := Option.map_eq_some_iff.mp hhead
  obtain ⟨older, hlog⟩ := List.head?_eq_some_iff.mp hs
  exact ⟨s, older, hrun, hlog, int_atomic (by decide) hmeets hrun
    (show s.log = [] ++ .answered 1 _ _ :: older from hlog)⟩

/-- The last thing that happened is an answer, and it does not keep its promise. -/
def Broken (s : IntSys 2) (i : Fin 2) (op : IntOp) (ans : IntAns) : Prop :=
  match s.log with
  | e :: older => e = .answered i op ans ∧ ¬ AnswerOk sha256At older i op ans
  | [] => False

instance (s : IntSys 2) (i : Fin 2) (op : IntOp) (ans : IntAns) :
    Decidable (Broken s i op ans) := by
  unfold Broken
  split <;> infer_instance

theorem broken_of_run {content : List Byte} {acts : List (Fin 2 × IntAct)} {i : Fin 2} {op : IntOp}
    {ans : IntAns}
    (h : ((Runs.run (intNext sha256At 4096) (.start content) acts).map fun s =>
      decide (Broken s i op ans)) = some true) :
    ∃ s, Runs.run (intNext sha256At 4096) (.start content) acts = some s ∧ Broken s i op ans := by
  obtain ⟨s, hrun, hs⟩ := Option.map_eq_some_iff.mp h
  exact ⟨s, hrun, of_decide_eq_true hs⟩

/-- None of the promises is kept.  Two clients that know the file as empty are both answered
`0`, and the second one has replaced what the first one wrote; a client whose write fails is
answered `-1`, and the file is empty; the digest a client gets is of the content before
another client's write, and the bytes are of the content after it. -/
theorem int_not_atomic :
    (∃ s, Runs.run (intNext sha256At 4096) (.start [])
        (lockAndSum 0 [] [1] ++ lockAndSum 1 [] [2] ++ replaceAndAnswer 0 (.cnt 0)
          ++ replaceAndAnswer 1 (.cnt 0)) = some s ∧ Broken s 1 (knownTo [] [2]) .done) ∧
    (∃ s, Runs.run (intNext sha256At 4096) (.start [1])
        (lockAndSum 0 [1] [2] ++ replaceAndAnswer 0 .err) = some s ∧
      Broken s 0 (knownTo [1] [2]) .fail) ∧
    ∃ s, Runs.run (intNext sha256At 4096) (.start [1])
        (sumOfOne 0 ++ lockAndSum 1 [1] [2] ++ replaceAndAnswer 1 (.cnt 0) ++ readAndAnswer 0)
          = some s ∧ Broken s 0 (.read 1) (.data (digestText sha256At [1]) [2]) := by
  refine ⟨broken_of_run ?_, broken_of_run ?_, broken_of_run ?_⟩ <;> decide +kernel

end TFProtocol
