import TFProtocol.Lib.Runs
import TFProtocol.PathHandlers
import TFProtocol.SqlFrames

/-!
# The command loop of `xs_sqlite`

A client sends commands as frames, each a 64-bit length and as many bytes.  `read_command`
reads one into a buffer that it enlarges when it has to: it compares the length with the
length of the string in the buffer, which is what `strtok` left of the last command.  When
the buffer cannot be enlarged it returns the value of success without reading the payload.

The receiving side is given by the clear text of what the client sends.  What the library
and the operating system answer to a command is an argument of its step, and so is what
the handle table says of the id in it.

## Main definitions

* `readCommand` — a frame into the buffer.
* `SqlPlan`, `sqlPlan`, `SqlPlan.send` — the handlers.
* `SqlState`, `sqlNext` — the loop, one command at a time.
* `SqlAllowed` — what a frame and its replies must be.

## Main results

* `readCommand_spec` — the buffer after a frame that is allowed.
* `sql_framing` — **the commands executed are the payloads, in order.**
-/

namespace TFProtocol

open Bytes CStr

/-! ### Reading a command -/

/-- The receiving side: what the client still sends, and the answers of the kernel. -/
structure Incoming where
  inp : List Byte
  rsched : List SysRes
  deriving DecidableEq, Repr

/-- `readbuf(buf, len)`: the value returned, the bytes stored and what is left.  A length
that is not positive reads nothing, and the count goes through an `int`. -/
def Incoming.read (i : Incoming) (len : ℤ) : ℤ × List Byte × Incoming :=
  let x := rdLoop i.rsched len.toNat i.inp
  (if x.ok then cint len.toNat else -1, x.bytes, ⟨x.rest, x.sched⟩)

/-- What the system and the library answer while one command is read and executed. -/
structure SqlEnv where
  /-- `realloc` succeeds, and leaves these bytes behind the old ones. -/
  alloc : Bool
  junk : List Byte
  /-- `jaildir` lets the path through. -/
  jailed : Bool
  /-- The table holds the id of the request. -/
  found : Bool
  opens : Bool
  /-- The id `push_back` returns. -/
  newId : ℕ
  closes : Bool
  rowid : ℤ
  softheap : Bool
  /-- The file of a blob can be used, and the statement succeeds. -/
  file : Bool
  stmt : Bool
  /-- The query: the names of its columns, its rows and how it ends. -/
  names : Columns (List Byte)
  rows : List (Columns (Option (List Byte)))
  succeeds : Bool
  deriving DecidableEq, Repr

/-- `realloc(buffer, n)`. -/
def resized (mem junk : List Byte) (n : ℕ) : List Byte :=
  (mem ++ junk ++ List.replicate n 0).take n

/-- What `read_command` leaves: its value, the buffer, the receiving side, and whether it
stored outside the buffer. -/
structure ReadOut where
  ret : ℤ
  mem : List Byte
  io : Incoming
  outside : Bool
  deriving DecidableEq, Repr

/-- The second half of `read_command`: the payload and the NUL behind it. -/
def readPayload (io : Incoming) (mem : List Byte) (size : ℤ) : ReadOut :=
  let r := io.read size
  let past := decide (mem.length < r.2.1.length)
  let mem := overlay mem r.2.1
  if r.1 = -1 then ⟨-1, mem, r.2.2, past⟩
  else if 0 ≤ size ∧ size < mem.length then ⟨0, mem.set size.toNat 0, r.2.2, past⟩
  else ⟨0, mem, r.2.2, true⟩

/-- `read_command`.  The comparison is one of unsigned numbers, and no object is larger
than `PTRDIFF_MAX`. -/
def readCommand (o : Endian) (e : SqlEnv) (io : Incoming) (mem : List Byte) : ReadOut :=
  let h := io.read 8
  if h.1 = -1 then ⟨-1, mem, h.2.2, false⟩
  else
    let size := unwire64 o h.2.1
    let need := (BitVec.ofInt 64 (size + 1)).toNat
    if (cstr mem).length < need then
      if e.alloc ∧ need < 2 ^ 63 then readPayload h.2.2 (resized mem e.junk need) size
      else ⟨0, mem, h.2.2, false⟩
    else readPayload h.2.2 mem size

/-! ### The handlers -/

/-- What a handler sends: nothing, one text, or the reply to a query.  A null pointer that
is followed ends the process. -/
inductive SqlPlan
  | crash
  | silent
  | text (t : List Byte)
  /-- A text whose status goes to a variable of an inner block; the handler returns zero. -/
  | dropped (t : List Byte)
  | exec (out : ExecOutcome)
  | execof (names : Columns (List Byte)) (rows : List (Columns (Option (List Byte))))
      (succeeds : Bool)
  deriving DecidableEq, Repr

/-- `command_open`. -/
def commandOpen (e : SqlEnv) (arg : List Byte) : SqlPlan :=
  if arg = [] then .crash
  else if arg ≠ lit ":memory:" ∧ !e.jailed then .text (lit "3 FAILED OPEN JAILDIR")
  else if !e.opens then .text (lit "2 FAILED OPEN SQLITE")
  else .text (lit "1 BD OPENED OK WITH ID " ++ udec e.newId)

/-- `command_close`. -/
def commandClose (e : SqlEnv) (arg : List Byte) : SqlPlan :=
  if arg = [] then .crash
  else if !e.found then .text (lit "12 FAILED CLOSE BD DOES NOT EXIST")
  else if !e.closes then .text (lit "11 FAILED CLOSE SQLITE")
  else .dropped (lit "10 CLOSE OK")

/-- A number as `%lld` prints it. -/
def sdec (n : ℤ) : List Byte := if n < 0 then lit "-" ++ udec n.natAbs else udec n.natAbs

/-- `command_lastrowid`. -/
def commandLastrowid (e : SqlEnv) (arg : List Byte) : SqlPlan :=
  if arg = [] then .crash
  else if !e.found then .text (lit "15 FAILED LASTROWID BD DOES NOT EXIST")
  else if e.rowid = 0 then .text (lit "14 FAILED LASTROWID SQLITE")
  else .text (lit "13 LASTROWID OK WITH ROWID " ++ sdec e.rowid)

/-- `command_softheap`. -/
def commandSoftheap (e : SqlEnv) (arg : List Byte) : SqlPlan :=
  if arg = [] then .crash
  else if !e.softheap then .text (lit "17 FAILED SOFTHEAP SQLITE")
  else .text (lit "16 SOFTHEAP OK")

/-- `command_hardheap`: the limit is not set. -/
def commandHardheap (arg : List Byte) : SqlPlan :=
  if arg = [] then .crash else .text (lit "18 HARDHEAP OK")

/-- `EXEC`, from the request on. -/
def planExec (e : SqlEnv) (arg : List Byte) : SqlPlan :=
  match strtokBlank arg with
  | none => .crash
  | some _ => .exec (if e.found then .ran e.names e.rows e.succeeds else .missing)

/-- `command_execof`, from the request on.  A path that is refused gets no reply. -/
def planExecof (e : SqlEnv) (arg : List Byte) : SqlPlan :=
  match strtokBlank arg with
  | none => .crash
  | some (_, rest) =>
    if !e.jailed then .silent
    else
      match strtokBlank rest with
      | none => .crash
      | some _ =>
        if !e.found then .text (lit "8 FAILED EXECOF BD DOES NOT EXIST")
        else if !e.file ∧ e.rows ≠ [] then .crash
        else .execof e.names e.rows e.succeeds

/-- What `command_blobin` and `command_blobout` share, with the texts of their replies. -/
def commandBlob (e : SqlEnv) (arg missing file stmt ok : List Byte) : SqlPlan :=
  match strtokBlank arg with
  | none => .crash
  | some _ =>
    if !e.found then .text missing
    else
      match blobArgs arg with
      | none => .crash
      | some _ => if !e.file then .text file else if !e.stmt then .text stmt else .text ok

/-- `command_blobin`. -/
def commandBlobin (e : SqlEnv) (arg : List Byte) : SqlPlan :=
  commandBlob e arg (lit "21 FAILED BLOBIN BD DOES NOT EXIST") (lit "22 FAILED BLOBIN FILESYSTEM")
    (lit "23 FAILED BLOBIN SQLITE") (lit "20 BLOBIN OK")

/-- `command_blobout`. -/
def commandBlobout (e : SqlEnv) (arg : List Byte) : SqlPlan :=
  commandBlob e arg (lit "25 FAILED BLOBOUT BD DOES NOT EXIST")
    (lit "26 FAILED BLOBOUT FILESYSTEM") (lit "27 FAILED BLOBOUT SQLITE") (lit "24 BLOBOUT OK")

/-- The dispatch on the first token. -/
def sqlPlan (e : SqlEnv) (cmd : List Byte) : SqlPlan :=
  match strtokBlank cmd with
  | none => .crash
  | some (ptr, arg) =>
    if ptr = lit "OPEN" then commandOpen e arg
    else if ptr = lit "EXEC" then planExec e arg
    else if ptr = lit "CLOSE" then commandClose e arg
    else if ptr = lit "LASTROWID" then commandLastrowid e arg
    else if ptr = lit "EXECOF" then planExecof e arg
    else if ptr = lit "SOFTHEAP" then commandSoftheap e arg
    else if ptr = lit "HARDHEAP" then commandHardheap arg
    else if ptr = lit "BLOBIN" then commandBlobin e arg
    else if ptr = lit "BLOBOUT" then commandBlobout e arg
    else .text (lit "UNKNOWN COMMAND")

/-- How often a command calls `strtok` with a blank, the first call included. -/
def blankCalls (ptr : List Byte) : ℕ :=
  if ptr = lit "EXEC" then 2
  else if ptr = lit "EXECOF" then 3
  else if ptr = lit "BLOBIN" ∨ ptr = lit "BLOBOUT" then 4
  else 1

/-- `strtok` with a blank, from an offset on: the separator behind the token is overwritten
with a NUL.  The result is the offset of the next call, and the buffer. -/
def strtokAt (mem : List Byte) (start : ℕ) : ℕ × List Byte :=
  let s := cstr (mem.drop start)
  let lead := (s.takeWhile (· = ofChar ' ')).length
  let tok := (s.drop lead).takeWhile (· ≠ ofChar ' ')
  let stop := start + lead + tok.length
  if tok ≠ [] ∧ stop < start + s.length then (stop + 1, mem.set stop 0) else (stop, mem)

/-- The buffer after some calls of `strtok` with a blank. -/
def tokenised : ℕ → ℕ → List Byte → List Byte
  | 0, _, mem => mem
  | n + 1, start, mem => tokenised n (strtokAt mem start).1 (strtokAt mem start).2

/-- What `strtok` leaves of a command. -/
def afterStrtok (mem : List Byte) : List Byte :=
  match strtokBlank (cstr mem) with
  | none => mem
  | some (ptr, _) => tokenised (blankCalls ptr) 0 mem

/-- The texts a handler hands to `write_command`. -/
def SqlPlan.texts : SqlPlan → List (List Byte)
  | .crash => []
  | .silent => []
  | .text t => [t]
  | .dropped t => [t]
  | .exec out => out.texts
  | .execof _ rows succeeds => execofTexts rows succeeds

section Loop

variable (o : Endian) (aes : Aes)

/-- The replies of a handler. -/
def SqlPlan.send (w : Wire) : SqlPlan → Option (ℤ × Wire)
  | .crash => none
  | .silent => some (0, w)
  | .text t => some (writeCommand o aes w t)
  | .dropped t => some (0, (writeCommand o aes w t).2)
  | .exec out => commandExec o aes w out
  | .execof names rows succeeds => commandExecof o aes w names rows succeeds

/-! ### The loop -/

/-- The loop of `xs_sqlite`: the two directions, the command buffer, the commands executed
so far and the texts sent, whether a store went outside the buffer, and whether the loop
was left. -/
structure SqlState where
  io : Incoming
  mem : List Byte
  wire : Wire
  executed : List (List Byte)
  texts : List (List Byte)
  outside : Bool
  ended : Bool
  deriving DecidableEq, Repr

/-- The body of the loop behind `read_command`. -/
def sqlExecute (e : SqlEnv) (s : SqlState) : SqlState :=
  let cmd := cstr s.mem
  let s := { s with executed := s.executed ++ [cmd] }
  if cmd = lit "EXIT" ∨ cmd = lit "TERMINATE" then { s with ended := true }
  else
    match (sqlPlan e cmd).send o aes s.wire with
    | none => { s with ended := true }
    | some r =>
      { s with
        mem := afterStrtok s.mem
        wire := r.2
        texts := s.texts ++ (sqlPlan e cmd).texts
        ended := decide (r.1 = -1) }

/-- One round of the loop. -/
def sqlNext (s : SqlState) (e : SqlEnv) : Option SqlState :=
  if s.ended then none
  else
    let r := readCommand o e s.io s.mem
    let s := { s with io := r.io, mem := r.mem, outside := s.outside || r.outside }
    some (if r.ret = -1 then { s with ended := true } else sqlExecute o aes e s)

end Loop

/-! ### Frames -/

/-- A frame of a client: a length and, unless it is negative, as many bytes. -/
structure SqlFrame where
  size : BitVec 64
  payload : List Byte
  fits : payload.length = size.toInt.toNat

/-- A frame on the wire. -/
def SqlFrame.bytes (f : SqlFrame) : List Byte := wire64 .big f.size.toInt ++ f.payload

/-- The start of the loop, where `malloc` returned a buffer with these bytes, or failed and
the first byte is stored through a null pointer. -/
def SqlState.start (sess : Sess) (rsched : List SysRes) (frames : List SqlFrame)
    (buffer : Option (Fin 10 → Byte)) : SqlState where
  io := ⟨frames.flatMap SqlFrame.bytes, rsched⟩
  mem := match buffer with
    | none => []
    | some bs => (List.ofFn bs).set 0 0
  wire := ⟨sess, [], false⟩
  executed := []
  texts := []
  outside := buffer.isNone
  ended := buffer.isNone

/-- What should hold of the loop at any time: the commands executed are the payloads of the
frames in order, no store went outside the buffer, and while the connection is up every
reply is a length with as many bytes behind it. -/
structure SqlFramed (o : Endian) (frames : List SqlFrame) (s : SqlState) : Prop where
  executed : s.executed <+: frames.map SqlFrame.payload
  inside : s.outside = false
  replies : s.wire.down = false → s.wire.sent = encChunks o s.texts

/-- What the next frame must be: its length is not negative, a larger buffer can be had if
one is needed, the payload has no NUL in it, and the lengths of the replies survive the
cipher. -/
def SqlAllowed (o : Endian) (aes : Aes) (frames : List SqlFrame) (s : SqlState) (e : SqlEnv) :
    Prop :=
  ∀ f ∈ frames[s.executed.length]?, 0 ≤ f.size.toInt ∧
    ((cstr s.mem).length ≤ f.size.toInt → e.alloc = true ∧ f.size.toInt < 2 ^ 63 - 1) ∧
    0 ∉ f.payload ∧ Survives o aes s.wire (sqlPlan e f.payload).texts

instance (o : Endian) (aes : Aes) (frames : List SqlFrame) (s : SqlState) (e : SqlEnv) :
    Decidable (SqlAllowed o aes frames s e) :=
  inferInstanceAs (Decidable (∀ f ∈ frames[s.executed.length]?, _ ∧ (_ → _) ∧ _ ∧ _))

/-! ### Reading a frame -/

theorem Incoming.length_read_le (i : Incoming) (len : ℤ) :
    (i.read len).2.1.length ≤ len.toNat := (rdLoop_le ..).trans (Nat.min_le_left ..)

/-- A read that did not fail. -/
theorem Incoming.read_of_ne {i : Incoming} {len : ℤ} (h : (i.read len).1 ≠ -1) :
    len.toNat ≤ i.inp.length ∧ (i.read len).2.1 = i.inp.take len.toNat ∧
      (i.read len).2.2.inp = i.inp.drop len.toNat := by
  unfold Incoming.read at h ⊢
  dsimp only at h ⊢
  by_cases hok : (rdLoop i.rsched len.toNat i.inp).ok = true
  · exact rdLoop_of_ok _ _ _ hok
  · rw [if_neg hok] at h
    exact absurd rfl h

theorem length_resized (mem junk : List Byte) (n : ℕ) : (resized mem junk n).length = n := by
  rw [resized, List.length_take, List.length_append, List.length_replicate]
  omega

/-- What a read into a buffer of the right size leaves. -/
structure PayloadRead (r : ReadOut) (payload rest : List Byte) : Prop where
  inside : r.outside = false
  text : r.ret ≠ -1 → cstr r.mem = payload
  ends : r.ret ≠ -1 → 0 ∈ r.mem
  left : r.ret ≠ -1 → r.io.inp = rest

theorem readPayload_spec {io : Incoming} {mem payload rest : List Byte} {size : ℤ}
    (hinp : io.inp = payload ++ rest) (hsize : (payload.length : ℤ) = size)
    (hroom : payload.length < mem.length) (htext : 0 ∉ payload) :
    PayloadRead (readPayload io mem size) payload rest := by
  subst hsize
  have hgot := io.length_read_le payload.length
  rw [Int.toNat_natCast] at hgot
  have hover : decide (mem.length < (io.read payload.length).2.1.length) = false :=
    decide_eq_false (by omega)
  have hmem : (overlay mem (io.read payload.length).2.1).length = mem.length := by
    rw [overlay, List.length_append, List.length_drop]
    omega
  rw [readPayload, hover]
  split
  next => exact ⟨rfl, fun h => absurd rfl h, fun h => absurd rfl h, fun h => absurd rfl h⟩
  next hret =>
    obtain ⟨-, hbytes, hrest⟩ := Incoming.read_of_ne hret
    rw [Int.toNat_natCast, hinp, List.take_left] at hbytes
    rw [Int.toNat_natCast, hinp, List.drop_left] at hrest
    rw [if_pos ⟨by omega, by omega⟩, hbytes, overlay, Int.toNat_natCast]
    obtain ⟨b, tl, htl⟩ : ∃ b tl, mem.drop payload.length = b :: tl :=
      List.exists_cons_of_ne_nil (by simpa using hroom)
    have hset : (payload ++ mem.drop payload.length).set payload.length 0
        = payload ++ 0 :: tl := by
      rw [htl, List.set_append_right _ _ le_rfl, Nat.sub_self, List.set_cons_zero]
    rw [hset]
    exact ⟨rfl, fun _ => cstr_of_not_mem htext tl, fun _ => by simp, fun _ => hrest⟩

/-- **Reading a frame that is allowed**: whatever is in the buffer, it holds the payload
afterwards, and the receiving side is behind the frame. -/
theorem readCommand_spec (o : Endian) {e : SqlEnv} {io : Incoming} {mem rest : List Byte}
    {f : SqlFrame} (hinp : io.inp = f.bytes ++ rest) (hmem : 0 ∈ mem) (hpos : 0 ≤ f.size.toInt)
    (halloc : (cstr mem).length ≤ f.size.toInt → e.alloc = true ∧ f.size.toInt < 2 ^ 63 - 1)
    (htext : 0 ∉ f.payload) : PayloadRead (readCommand o e io mem) f.payload rest := by
  have hlen : (f.payload.length : ℤ) = f.size.toInt := by
    rw [f.fits]
    omega
  have hlow := BitVec.le_toInt f.size
  have hhigh := @BitVec.toInt_lt 64 f.size
  rw [readCommand]
  dsimp only
  split
  next => exact ⟨rfl, fun h => absurd rfl h, fun h => absurd rfl h, fun h => absurd rfl h⟩
  next hret =>
    obtain ⟨-, hbytes, hleft⟩ := Incoming.read_of_ne hret
    have htake : io.inp.take 8 = wire64 .big f.size.toInt := by
      rw [hinp, SqlFrame.bytes, List.append_assoc]
      exact List.take_left' (length_wire64 ..)
    have hdrop : io.inp.drop 8 = f.payload ++ rest := by
      rw [hinp, SqlFrame.bytes, List.append_assoc]
      exact List.drop_left' (length_wire64 ..)
    have hsize : unwire64 o (io.read 8).2.1 = f.size.toInt := by
      rw [hbytes, show (8 : ℤ).toNat = 8 from rfl, htake,
        unwire64_wire64 .big o (by omega) (by omega)]
    have hneed : ((BitVec.ofInt 64 (f.size.toInt + 1)).toNat : ℤ) = f.size.toInt + 1 := by
      rw [BitVec.toNat_ofInt]
      omega
    have hinp' : (io.read 8).2.2.inp = f.payload ++ rest := hleft.trans hdrop
    rw [hsize]
    split
    next hlt =>
      have hok := halloc (by omega)
      rw [if_pos ⟨hok.1, by omega⟩]
      exact readPayload_spec hinp' hlen (by rw [length_resized]; omega) htext
    next hlt =>
      -- the string in the buffer is longer than the payload, and so is the buffer
      have hroom : (cstr mem).length < mem.length := by
        obtain ⟨i, hi⟩ := List.mem_iff_getElem?.mp hmem
        have h1 : (cstr mem).length ≤ i := length_cstr_le fun b hb => by
          rw [hi] at hb
          exact (Option.some.inj hb).symm
        have h2 := (List.getElem?_eq_some_iff.mp hi).1
        omega
      exact readPayload_spec hinp' hlen (by omega) htext

/-! ### The loop -/

theorem zero_mem_set {mem : List Byte} (h : 0 ∈ mem) (i : ℕ) : 0 ∈ mem.set i 0 := by
  by_cases hi : i < mem.length
  · exact List.mem_set hi 0
  · rwa [List.set_eq_of_length_le (by omega)]

/-- `strtok` leaves a NUL in the buffer. -/
theorem zero_mem_tokenised : ∀ (n start : ℕ) {mem : List Byte}, 0 ∈ mem →
    0 ∈ tokenised n start mem := by
  intro n
  induction n with
  | zero => intro start mem h; exact h
  | succ n ih =>
    intro start mem h
    apply ih
    rw [strtokAt]
    split
    · exact zero_mem_set h _
    · exact h

theorem zero_mem_afterStrtok {mem : List Byte} (h : 0 ∈ mem) : 0 ∈ afterStrtok mem := by
  rw [afterStrtok]
  split
  · exact h
  · exact zero_mem_tokenised _ _ h

/-- **What a handler sends**, if no call of `writebuf` fails. -/
theorem SqlPlan.send_up {o : Endian} {aes : Aes} {w : Wire} {p : SqlPlan} {r : ℤ × Wire}
    (h : p.send o aes w = some r) (hup : r.2.down = false) : r.2 = writeAll o aes w p.texts := by
  cases p with
  | crash => cases h
  | silent =>
    obtain rfl := Option.some.inj h
    rfl
  | text t =>
    obtain rfl := Option.some.inj h
    rfl
  | dropped t =>
    obtain rfl := Option.some.inj h
    rfl
  | exec out => exact (commandExec_up h hup).2
  | execof names rows succeeds => exact commandExecof_up h hup

/-- The loop is in step with the client. -/
structure SqlInv (o : Endian) (frames : List SqlFrame) (s : SqlState) : Prop
    extends SqlFramed o frames s where
  left : s.ended = false → s.io.inp = (frames.drop s.executed.length).flatMap SqlFrame.bytes
  terminated : s.ended = false → 0 ∈ s.mem

/-- Behind the loop there is nothing left to be in step with. -/
theorem SqlFramed.stopped {o : Endian} {frames : List SqlFrame} {s : SqlState}
    (h : SqlFramed o frames s) (hended : s.ended = true) : SqlInv o frames s := by
  refine ⟨h, fun hgo => ?_, fun hgo => ?_⟩
  · rw [hended] at hgo
    cases hgo
  · rw [hended] at hgo
    cases hgo

/-- The replies after one more handler. -/
theorem replies_send {o : Endian} {aes : Aes} {s : SqlState} {p : SqlPlan} {r : ℤ × Wire}
    (hs : s.wire.down = false → s.wire.sent = encChunks o s.texts)
    (hsurv : Survives o aes s.wire p.texts) (hsend : p.send o aes s.wire = some r)
    (hup : r.2.down = false) : r.2.sent = encChunks o (s.texts ++ p.texts) := by
  have heq := SqlPlan.send_up hsend hup
  rw [heq] at hup ⊢
  rw [(sent_writeAll_iff hup).mpr hsurv, hs (writeAll_up hup), encChunks_append]

/-- The body of the loop, on the payload of the next frame. -/
theorem sqlExecute_inv {o : Endian} {aes : Aes} {frames : List SqlFrame} {s : SqlState}
    {e : SqlEnv} {f : SqlFrame} (hs : SqlFramed o frames s)
    (hf : frames[s.executed.length]? = some f) (hcmd : cstr s.mem = f.payload)
    (hzero : 0 ∈ s.mem) (hleft : s.io.inp
      = (frames.drop (s.executed.length + 1)).flatMap SqlFrame.bytes)
    (hsurv : Survives o aes s.wire (sqlPlan e f.payload).texts) :
    SqlInv o frames (sqlExecute o aes e s) := by
  have hpre : s.executed ++ [f.payload] <+: frames.map SqlFrame.payload := by
    obtain ⟨t, ht⟩ := hs.executed
    have hnext : (frames.map SqlFrame.payload)[s.executed.length]? = some f.payload := by
      rw [List.getElem?_map, hf, Option.map_some]
    rw [← ht, List.getElem?_append_right le_rfl, Nat.sub_self] at hnext
    obtain ⟨u, rfl⟩ : ∃ u, t = f.payload :: u := by
      cases t with
      | nil => cases hnext
      | cons b u =>
        simp only [List.getElem?_cons_zero, Option.some.injEq] at hnext
        exact ⟨u, by rw [hnext]⟩
    exact ⟨u, by rw [← ht]; simp⟩
  rw [sqlExecute, hcmd]
  split
  next => exact SqlFramed.stopped ⟨hpre, hs.inside, hs.replies⟩ rfl
  next =>
    split
    next => exact SqlFramed.stopped ⟨hpre, hs.inside, hs.replies⟩ rfl
    next r hsend =>
      refine ⟨⟨hpre, hs.inside, fun hup => ?_⟩, fun _ => ?_, fun _ => zero_mem_afterStrtok hzero⟩
      · exact replies_send hs.replies hsurv hsend hup
      · rw [List.length_append, List.length_singleton]
        exact hleft

/-- The client has closed the connection. -/
theorem readCommand_eof (o : Endian) {e : SqlEnv} {io : Incoming} (h : io.inp = [])
    (mem : List Byte) :
    (readCommand o e io mem).ret = -1 ∧ (readCommand o e io mem).outside = false := by
  have hret : (io.read 8).1 = -1 := by
    by_contra hne
    have hle := (Incoming.read_of_ne hne).1
    rw [h] at hle
    exact absurd hle (by decide)
  rw [readCommand, if_pos hret]
  exact ⟨rfl, rfl⟩

/-- **One round of the loop.** -/
theorem sqlNext_inv {o : Endian} {aes : Aes} {frames : List SqlFrame} {s t : SqlState}
    {e : SqlEnv} (hs : SqlInv o frames s) (hok : SqlAllowed o aes frames s e)
    (hstep : sqlNext o aes s e = some t) : SqlInv o frames t := by
  rw [sqlNext] at hstep
  split at hstep
  next => cases hstep
  next hended =>
    have hended : s.ended = false := by simpa using hended
    obtain rfl := Option.some.inj hstep
    have hleft := hs.left hended
    -- a round that ends before the command is executed
    have hstop : ∀ r : ReadOut, r.outside = false → SqlInv o frames
        { s with io := r.io, mem := r.mem, outside := s.outside || r.outside, ended := true } := by
      intro r hr
      refine SqlFramed.stopped ⟨hs.executed, ?_, hs.replies⟩ rfl
      simp [hs.inside, hr]
    rcases hf : frames[s.executed.length]? with _ | f
    · have hnil : frames.drop s.executed.length = [] :=
        List.drop_eq_nil_of_le (List.getElem?_eq_none_iff.mp hf)
      rw [hnil, List.flatMap_nil] at hleft
      obtain ⟨hret, hin⟩ := readCommand_eof o (e := e) hleft s.mem
      rw [if_pos hret]
      exact hstop _ hin
    · obtain ⟨hpos, halloc, htext, hsurv⟩ := hok f hf
      have hdrop : frames.drop s.executed.length
          = f :: frames.drop (s.executed.length + 1) := by
        obtain ⟨hlt, hget⟩ := List.getElem?_eq_some_iff.mp hf
        rw [List.drop_eq_getElem_cons hlt, hget]
      rw [hdrop, List.flatMap_cons] at hleft
      have hread := readCommand_spec o hleft (hs.terminated hended) hpos halloc htext
      by_cases hret : (readCommand o e s.io s.mem).ret = -1
      · rw [if_pos hret]
        exact hstop _ hread.inside
      · rw [if_neg hret]
        refine sqlExecute_inv ⟨hs.executed, ?_, hs.replies⟩ hf (hread.text hret)
          (hread.ends hret) (hread.left hret) hsurv
        simp [hs.inside, hread.inside]

theorem SqlInv.start (o : Endian) (sess : Sess) (rsched : List SysRes) (frames : List SqlFrame)
    (buffer : Fin 10 → Byte) : SqlInv o frames (.start sess rsched frames (some buffer)) where
  executed := List.nil_prefix
  inside := rfl
  replies := fun _ => rfl
  left := fun _ => rfl
  terminated := fun _ => by simp [SqlState.start, List.ofFn_succ]

/-- **The commands executed are the payloads of the frames, in order**, in every run whose
frames and replies are allowed: whatever the buffer held, whatever the system answers and
whatever the state of the ciphers. -/
theorem sql_framing (o : Endian) (aes : Aes) (sess : Sess) (rsched : List SysRes)
    (frames : List SqlFrame) (buffer : Fin 10 → Byte) (es : List SqlEnv)
    (hok : Runs.Meets (sqlNext o aes) (SqlAllowed o aes frames)
      (.start sess rsched frames (some buffer)) es) (s : SqlState)
    (hrun : Runs.run (sqlNext o aes) (.start sess rsched frames (some buffer)) es = some s) :
    SqlFramed o frames s :=
  (Runs.inv_of_run (fun _ _ _ => sqlNext_inv) (SqlInv.start o sess rsched frames buffer) hok
    hrun).toSqlFramed

/-- Answers of a system on which everything succeeds. -/
def exampleSqlEnv : SqlEnv where
  alloc := true
  junk := []
  jailed := true
  found := true
  opens := true
  newId := 1
  closes := true
  rowid := 1
  softheap := true
  file := true
  stmt := true
  names := ⟨lit "a", []⟩
  rows := []
  succeeds := true

/-- A client that opens a database and leaves. -/
def exampleFrames : List SqlFrame :=
  [⟨13, lit "OPEN :memory:", by decide⟩, ⟨4, lit "EXIT", by decide⟩]

theorem sql_framing_example : ∃ s, Runs.run (sqlNext .little Aes.sample)
      (.start clearSess [] exampleFrames (some fun _ => 0)) [exampleSqlEnv, exampleSqlEnv]
        = some s ∧ s.ended ∧ SqlFramed .little exampleFrames s :=
  ⟨_, rfl, rfl, sql_framing .little Aes.sample clearSess [] exampleFrames (fun _ => 0)
    [exampleSqlEnv, exampleSqlEnv] (by decide) _ rfl⟩

/-- After a frame that announces a negative length, what is left of the command before it is
executed again. -/
theorem sql_misframed : ¬ ∀ (frames : List SqlFrame) (es : List SqlEnv) (s : SqlState),
    Runs.run (sqlNext .little Aes.sample) (.start clearSess [] frames (some fun _ => 0)) es
      = some s → SqlFramed .little frames s := by
  intro h
  have hs := h [⟨13, lit "OPEN :memory:", by decide⟩, ⟨-2, [], by decide⟩]
    [exampleSqlEnv, exampleSqlEnv] _ rfl
  have hnot : ¬ [lit "OPEN :memory:", lit "OPEN"] <+: [lit "OPEN :memory:", []] := by decide
  exact hnot hs.executed

end TFProtocol
