import TFProtocol.HpfCodes

/-!
# Replies of the SQL modules

A reply of `xs_sqlite` is a sequence of frames, each a 64-bit length and as many bytes.
`write_command` sends one: the length is swapped to network order and handed to `writebuf`,
which encrypts it in place, and only then tested to decide whether the text is sent at all.

`EXEC` answers a query from inside the callback that `sqlite3_exec` calls for each row: the
first call sends the status and the names of the columns, every call sends a row, and at the
end an empty frame follows, or the text of an error.  A client reads the status, and after
an OK frames up to the first empty one.

## Main definitions

* `Wire`, `writeCommand` — the sending side, and one frame.
* `callback`, `sqlite3Exec`, `commandExec` — the reply to `EXEC`.
* `readFrame`, `readUntilEmpty`, `execClient` — the client.
* `Survives` — no length turns to zero under the cipher.

## Main results

* `readUntilEmpty_iff` — what the client reads, and from which bytes.
* `exec_decodable_iff` — **when a client can decode the reply to `EXEC`.**
-/

namespace TFProtocol

open Bytes

section Writing

variable (o : Endian) (aes : Aes)

/-! ### Sending a frame -/

/-- The sending side of a session: what was handed to `writebuf` so far, in clear, and
whether a call failed. -/
structure Wire where
  sess : Sess
  sent : List Byte
  down : Bool
  deriving DecidableEq, Repr

/-- `writebuf`: the value returned, the buffer, which is encrypted in place, and the wire. -/
def Wire.write (w : Wire) (buf : List Byte) : ℤ × List Byte × Wire :=
  let r := writebufEx o aes w.sess buf
  (r.ret, r.buf, ⟨r.sess, w.sent ++ buf, w.down || decide (r.ret = -1)⟩)

/-- `write_command`.  The test for an empty text looks at the length after `writebuf` has
encrypted it. -/
def writeCommand (w : Wire) (text : List Byte) : ℤ × Wire :=
  let h := w.write o aes (wire64 o text.length)
  if h.1 = -1 then (-1, h.2.2)
  else if ofMem o h.2.1 = 0 then (0, h.2.2)
  else
    let r := h.2.2.write o aes text
    (r.1, r.2.2)

/-! ### `EXEC` -/

/-- `"4 EXEC OK"`. -/
def execOk : List Byte := lit "4 EXEC OK"

/-- `"5 FAILED EXEC BD DOES NOT EXIST"`. -/
def execMissing : List Byte := lit "5 FAILED EXEC BD DOES NOT EXIST"

/-- `"6 FAILED EXEC SQLITE"`. -/
def execFailed : List Byte := lit "6 FAILED EXEC SQLITE"

/-- `"7 EXECOF OK"`. -/
def execofOk : List Byte := lit "7 EXECOF OK"

/-- `"9 FAILED EXECOF SQLITE"`. -/
def execofFailed : List Byte := lit "9 FAILED EXECOF SQLITE"

/-- The columns of a row; there is at least one. -/
structure Columns (α : Type) where
  first : α
  others : List α
  deriving DecidableEq, Repr

/-- The columns, with `@@` between them. -/
def Columns.joined (cs : Columns (List Byte)) : List Byte :=
  cs.first ++ cs.others.flatMap fun c => lit "@@" ++ c

/-- The buffer for a row.  Its size and the NUL behind it are counted in an `int`; a row
that is too long for that is written outside any allocation. -/
def rowBuffer (cs : Columns (List Byte)) : Option (List Byte) :=
  if cs.joined.length + 1 < 2 ^ 31 then some cs.joined else none

/-- The text of a value: a missing one is `NULL`. -/
def valueText (v : Option (List Byte)) : List Byte := v.getD (lit "NULL")

/-- The texts of a row. -/
def Columns.texts (r : Columns (Option (List Byte))) : Columns (List Byte) :=
  ⟨valueText r.first, r.others.map valueText⟩

/-- The first call of `callback`: the status and the names. -/
def callbackHead (file : Bool) (w : Wire) (names : Columns (List Byte)) : Option (ℤ × Wire) :=
  let r := writeCommand o aes w (if file then execofOk else execOk)
  if r.1 = -1 then some (-1, r.2)
  else (rowBuffer names).map fun header => if file then (0, r.2) else writeCommand o aes r.2 header

/-- `callback`, for the row with number `row`: the value returned and the wire.  With a
file, the names and the rows go there. -/
def callback (file : Bool) (w : Wire) (row : ℕ) (names : Columns (List Byte))
    (argv : Columns (Option (List Byte))) : Option (ℤ × Wire) :=
  (if row = 0 then callbackHead o aes file w names else some (0, w)).bind fun h =>
    if h.1 = -1 then some (-1, h.2)
    else (rowBuffer argv.texts).map fun buffer =>
      if file then (0, h.2)
      else
        let r := writeCommand o aes h.2 buffer
        (if r.1 = -1 then -1 else 0, r.2)

/-- `sqlite3_exec`: the callback is called for each row, and a value other than zero ends
the query.  The result is whether the query succeeded, and how many rows were sent. -/
def sqlite3Exec (file : Bool) (names : Columns (List Byte)) (succeeds : Bool) :
    Wire → ℕ → List (Columns (Option (List Byte))) → Option (Bool × ℕ × Wire)
  | w, row, [] => some (succeeds, row, w)
  | w, row, r :: rows => do
    let c ← callback o aes file w row names r
    if c.1 = 0 then sqlite3Exec file names succeeds c.2 (row + 1) rows else some (false, row, c.2)

/-- What `EXEC` meets: no database of that id, or a query with the rows it yields and the
status it ends with. -/
inductive ExecOutcome
  | missing
  | ran (names : Columns (List Byte)) (rows : List (Columns (Option (List Byte))))
      (succeeds : Bool)
  deriving DecidableEq, Repr

/-- `command_exec`, once the request is parsed.  Behind a query that succeeded the status of
the writes goes to a variable of the inner block, and the function returns the outer one. -/
def commandExec (w : Wire) : ExecOutcome → Option (ℤ × Wire)
  | .missing => some (writeCommand o aes w execMissing)
  | .ran names rows succeeds => do
    let r ← sqlite3Exec o aes false names succeeds w 0 rows
    some <|
      if !r.1 then writeCommand o aes r.2.2 execFailed
      else if r.2.1 = 0 then (0, (writeCommand o aes (writeCommand o aes r.2.2 execOk).2 []).2)
      else (0, (writeCommand o aes r.2.2 []).2)

/-- `command_execof`, once the request is parsed and the database is found.  The outer
variable holds the zero of `jaildir`. -/
def commandExecof (w : Wire) (names : Columns (List Byte))
    (rows : List (Columns (Option (List Byte)))) (succeeds : Bool) : Option (ℤ × Wire) := do
  let r ← sqlite3Exec o aes true names succeeds w 0 rows
  some <|
    if !r.1 then writeCommand o aes r.2.2 execofFailed
    else if r.2.1 = 0 then (0, (writeCommand o aes r.2.2 execofOk).2)
    else (0, r.2.2)

/-! ### What survives the cipher -/

/-- The wire after some frames. -/
def writeAll (w : Wire) (texts : List (List Byte)) : Wire :=
  texts.foldl (fun w t => (writeCommand o aes w t).2) w

/-- The eight bytes of the length of a frame are zero once they are encrypted. -/
def Zeroed (w : Wire) (text : List Byte) : Prop :=
  ofMem o (w.write o aes (wire64 o text.length)).2.1 = 0

instance (w : Wire) (text : List Byte) : Decidable (Zeroed o aes w text) :=
  inferInstanceAs (Decidable (_ = _))

/-- No length of a frame with a text turns to zero under the cipher. -/
def Survives : Wire → List (List Byte) → Prop
  | _, [] => True
  | w, t :: ts => (t = [] ∨ ¬ Zeroed o aes w t) ∧ Survives (writeCommand o aes w t).2 ts

instance : ∀ (ts : List (List Byte)) (w : Wire), Decidable (Survives o aes w ts)
  | [], _ => .isTrue trivial
  | t :: ts, w =>
    have : Decidable (Survives o aes (writeCommand o aes w t).2 ts) := instDecidableSurvives ts _
    inferInstanceAs (Decidable ((_ ∨ _) ∧ _))

end Writing

/-! ### The client -/

section Reading

variable (o : Endian)

/-- One frame. -/
def readFrame (inp : List Byte) : Option (List Byte × List Byte) := do
  let h ← recv 8 inp
  let n := unwire64 o h.1
  if n < 0 then none else recv n.toNat h.2

/-- The frames before the first empty one, which is read too. -/
def readUntilEmpty : ℕ → List Byte → Option (List (List Byte) × List Byte)
  | 0, _ => none
  | n + 1, inp => do
    let f ← readFrame o inp
    if f.1 = [] then some ([], f.2)
    else (readUntilEmpty n f.2).map fun r => (f.1 :: r.1, r.2)

/-- What a client takes from a reply to `EXEC`. -/
structure ExecReply where
  status : List Byte
  header : Option (List Byte)
  rows : List (List Byte)
  deriving DecidableEq, Repr

/-- The client: the reply, and the bytes behind it.  A frame has eight bytes at least, so
there are no more frames than bytes. -/
def execClient (inp : List Byte) : Option (ExecReply × List Byte) := do
  let f ← readFrame o inp
  if f.1 = execOk then
    (readUntilEmpty o f.2.length f.2).map fun r => (⟨f.1, r.1.head?, r.1.tail⟩, r.2)
  else some (⟨f.1, none, []⟩, f.2)

end Reading

/-- The status a client may get.  For an error behind a row this is that of the query or the
one that was sent in front of the rows. -/
def ExecOutcome.Reports : ExecOutcome → List Byte → Prop
  | .missing, status => status = execMissing
  | .ran _ rows succeeds, status =>
    (status = execOk ∧ (succeeds ∨ rows ≠ [])) ∨ (status = execFailed ∧ !succeeds)

/-- The header a client should get. -/
def ExecOutcome.header : ExecOutcome → Option (List Byte)
  | .missing => none
  | .ran names rows _ => if rows = [] then none else some names.joined

/-- The rows a client should get. -/
def ExecOutcome.rows : ExecOutcome → List (List Byte)
  | .missing => []
  | .ran _ rows _ => rows.map fun r => r.texts.joined

/-- The texts that are handed to `write_command`. -/
def ExecOutcome.texts : ExecOutcome → List (List Byte)
  | .missing => [execMissing]
  | .ran names rows succeeds =>
    (if rows = [] then [] else execOk :: names.joined :: rows.map fun r => r.texts.joined) ++
      if !succeeds then [execFailed] else if rows = [] then [execOk, []] else [[]]

/-- The buffers of the names and of the rows fit an `int`. -/
def ExecOutcome.Fits : ExecOutcome → Prop
  | .missing => True
  | .ran names rows _ =>
    (rows ≠ [] → names.joined.length + 1 < 2 ^ 31) ∧
      ∀ r ∈ rows, r.texts.joined.length + 1 < 2 ^ 31

/-- No row was sent before an error, and neither the names nor a row are the end marker. -/
def ExecOutcome.Marked : ExecOutcome → Prop
  | .missing => True
  | .ran names rows succeeds =>
    rows ≠ [] → succeeds ∧ names.joined ≠ [] ∧ ∀ r ∈ rows, r.texts.joined ≠ []

instance : ∀ out : ExecOutcome, Decidable out.Fits
  | .missing => .isTrue trivial
  | .ran .. => inferInstanceAs (Decidable ((_ → _) ∧ ∀ r ∈ _, _))

instance : ∀ out : ExecOutcome, Decidable out.Marked
  | .missing => .isTrue trivial
  | .ran .. => inferInstanceAs (Decidable (_ → _ ∧ _ ∧ ∀ r ∈ _, _))

/-- A client decodes the reply and stops at its end. -/
def Decodes (o : Endian) (aes : Aes) (s : Sess) (o' : Endian) (out : ExecOutcome) : Prop :=
  ∃ r, commandExec o aes ⟨s, [], false⟩ out = some r ∧
    ∃ reply, execClient o' r.2.sent = some (reply, []) ∧ out.Reports reply.status ∧
      reply.header = out.header ∧ reply.rows = out.rows

/-! ### Reading frames -/

theorem encChunk_eq (o o' : Endian) (t : List Byte) : encChunk o t = encChunk o' t := by
  rw [encChunk, encChunk, wire64_eq, wire64_eq]

theorem encChunks_eq (o o' : Endian) (ts : List (List Byte)) :
    encChunks o ts = encChunks o' ts := by
  rw [encChunks, encChunks, funext (encChunk_eq o o')]

/-- **One frame**: the client reads a text exactly from the bytes of its frame. -/
theorem readFrame_iff {o : Endian} {inp t rest : List Byte} :
    readFrame o inp = some (t, rest) ↔ inp = encChunk o t ++ rest ∧ t.length < 2 ^ 63 := by
  constructor
  · intro h
    obtain ⟨hd, hhd, h⟩ := Option.bind_eq_some_iff.mp h
    rw [recv] at hhd
    split at hhd
    next hlen =>
      obtain rfl := Option.some.inj hhd
      dsimp only at h
      split at h
      next => cases h
      next hneg =>
        rw [recv] at h
        split at h
        next hle =>
          obtain ⟨rfl, rfl⟩ := Prod.mk.inj (Option.some.inj h)
          have hn : ((unwire64 o (inp.take 8)).toNat : ℤ) = unwire64 o (inp.take 8) := by omega
          have hlt := unwire64_lt o (inp.take 8)
          rw [encChunk, List.length_take, Nat.min_eq_left hle, hn,
            wire64_unwire64 o (by rw [List.length_take]; omega), List.append_assoc,
            List.take_append_drop, List.take_append_drop]
          exact ⟨rfl, by omega⟩
        next => cases h
    next => cases hhd
  · rintro ⟨rfl, hlen⟩
    have hun : unwire64 o (wire64 o t.length) = t.length :=
      unwire64_wire64 o o (by omega) (by omega)
    rw [readFrame, encChunk, List.append_assoc, recv_wire64]
    simp only [Option.bind_eq_bind, Option.bind_some, hun, Int.toNat_natCast, recv_append]
    rw [if_neg (by omega)]

theorem length_le_encChunk (o : Endian) (t : List Byte) : 8 ≤ (encChunk o t).length := by
  rw [encChunk, List.length_append, length_wire64]
  omega

/-- **Frames up to the first empty one.** -/
theorem readUntilEmpty_iff {o : Endian} : ∀ {n : ℕ} {inp : List Byte} {ts : List (List Byte)}
    {rest : List Byte}, inp.length ≤ n →
      (readUntilEmpty o n inp = some (ts, rest)
        ↔ inp = encChunks o ts ++ encChunk o [] ++ rest ∧
          ∀ t ∈ ts, t ≠ [] ∧ t.length < 2 ^ 63) := by
  intro n
  induction n with
  | zero =>
    intro inp ts rest hn
    constructor
    · intro h; cases h
    · rintro ⟨rfl, -⟩
      have := length_le_encChunk o []
      simp only [List.length_append] at hn
      omega
  | succ n ih =>
    intro inp ts rest hn
    constructor
    · intro h
      obtain ⟨⟨t, inp'⟩, hf, hb⟩ := Option.bind_eq_some_iff.mp h
      obtain ⟨rfl, hlen⟩ := readFrame_iff.mp hf
      split at hb
      next hnil =>
        obtain ⟨rfl, rfl⟩ := Prod.mk.inj (Option.some.inj hb)
        dsimp only at hnil
        exact ⟨by rw [hnil]; rfl, by simp⟩
      next hnil =>
        obtain ⟨⟨ts', rest'⟩, hr, heq⟩ := Option.map_eq_some_iff.mp hb
        obtain ⟨rfl, rfl⟩ := Prod.mk.inj heq
        have h8 := length_le_encChunk o t
        rw [List.length_append] at hn
        have hn : inp'.length ≤ n := by omega
        obtain ⟨rfl, hall⟩ := (ih hn).mp hr
        refine ⟨by simp [encChunks], ?_⟩
        intro u hu
        rcases List.mem_cons.mp hu with rfl | hu
        · exact ⟨hnil, hlen⟩
        · exact hall u hu
    · rintro ⟨rfl, hall⟩
      cases ts with
      | nil =>
        have hf : readFrame o (encChunks o [] ++ encChunk o [] ++ rest) = some ([], rest) :=
          readFrame_iff.mpr ⟨rfl, by decide⟩
        rw [readUntilEmpty, hf]
        rfl
      | cons t ts =>
        obtain ⟨hnil, hlen⟩ := hall t List.mem_cons_self
        have hsplit : encChunks o (t :: ts) ++ encChunk o [] ++ rest
            = encChunk o t ++ (encChunks o ts ++ encChunk o [] ++ rest) := by
          simp [encChunks]
        rw [hsplit] at hn ⊢
        have hf : readFrame o (encChunk o t ++ (encChunks o ts ++ encChunk o [] ++ rest))
            = some (t, encChunks o ts ++ encChunk o [] ++ rest) := readFrame_iff.mpr ⟨rfl, hlen⟩
        have h8 := length_le_encChunk o t
        rw [List.length_append] at hn
        have hr : readUntilEmpty o n (encChunks o ts ++ encChunk o [] ++ rest) = some (ts, rest) :=
          (ih (by omega)).mpr ⟨rfl, fun u hu => hall u (List.mem_cons_of_mem _ hu)⟩
        simp only [readUntilEmpty, hf, Option.bind_eq_bind, Option.bind_some, hr, Option.map_some,
          if_neg hnil]

/-- **The client**, on a reply that ends where its frames end. -/
theorem execClient_iff {o : Endian} {inp : List Byte} {reply : ExecReply} :
    execClient o inp = some (reply, []) ↔
      reply.status.length < 2 ^ 63 ∧
        if reply.status = execOk then
          ∃ ts, inp = encChunks o (reply.status :: ts ++ [[]]) ∧ ts.head? = reply.header ∧
            ts.tail = reply.rows ∧ ∀ t ∈ ts, t ≠ [] ∧ t.length < 2 ^ 63
        else inp = encChunks o [reply.status] ∧ reply.header = none ∧ reply.rows = [] := by
  constructor
  · intro h
    obtain ⟨⟨t, rest⟩, hf, hb⟩ := Option.bind_eq_some_iff.mp h
    obtain ⟨rfl, hlen⟩ := readFrame_iff.mp hf
    split at hb
    next hok =>
      obtain ⟨⟨ts, rest'⟩, hr, heq⟩ := Option.map_eq_some_iff.mp hb
      obtain ⟨rfl, rfl⟩ := Prod.mk.inj heq
      obtain ⟨rfl, hall⟩ := (readUntilEmpty_iff le_rfl).mp hr
      refine ⟨hlen, ?_⟩
      rw [if_pos hok]
      exact ⟨ts, by simp [encChunks], rfl, rfl, hall⟩
    next hok =>
      obtain ⟨rfl, rfl⟩ := Prod.mk.inj (Option.some.inj hb)
      refine ⟨hlen, ?_⟩
      rw [if_neg hok]
      exact ⟨by simp [encChunks], rfl, rfl⟩
  · rintro ⟨hlen, h⟩
    obtain ⟨status, header, rows⟩ := reply
    dsimp only at hlen h
    split at h
    next hok =>
      obtain ⟨ts, rfl, rfl, rfl, hall⟩ := h
      have hf : readFrame o (encChunks o (status :: ts ++ [[]]))
          = some (status, encChunks o ts ++ encChunk o [] ++ []) :=
        readFrame_iff.mpr ⟨by simp [encChunks], hlen⟩
      have hr : readUntilEmpty o (encChunks o ts ++ encChunk o [] ++ []).length
          (encChunks o ts ++ encChunk o [] ++ []) = some (ts, []) :=
        (readUntilEmpty_iff le_rfl).mpr ⟨rfl, hall⟩
      simp only [execClient, hf, Option.bind_eq_bind, Option.bind_some, if_pos hok, hr,
        Option.map_some]
    next hok =>
      obtain ⟨rfl, rfl, rfl⟩ := h
      have hf : readFrame o (encChunks o [status]) = some (status, []) :=
        readFrame_iff.mpr ⟨by simp [encChunks], hlen⟩
      simp only [execClient, hf, Option.bind_eq_bind, Option.bind_some, if_neg hok]

/-! ### Writing frames -/

section

variable {o : Endian} {aes : Aes}

@[simp] theorem Wire.write_down (w : Wire) (buf : List Byte) :
    (w.write o aes buf).2.2.down = false ↔ w.down = false ∧ (w.write o aes buf).1 ≠ -1 := by
  simp [Wire.write]

@[simp] theorem Wire.write_sent (w : Wire) (buf : List Byte) :
    (w.write o aes buf).2.2.sent = w.sent ++ buf := rfl

/-- A frame that did not fail: what was handed over. -/
theorem writeCommand_up {w : Wire} {t : List Byte} (h : (writeCommand o aes w t).2.down = false) :
    w.down = false ∧ (writeCommand o aes w t).1 ≠ -1 ∧
      (writeCommand o aes w t).2.sent
        = w.sent ++ wire64 o t.length ++ if Zeroed o aes w t then [] else t := by
  rw [writeCommand] at h ⊢
  dsimp only at h ⊢
  split at h
  next hret => exact absurd hret (Wire.write_down w _ |>.mp h).2
  next hret =>
    rw [if_neg hret]
    split at h
    next hz =>
      rw [if_pos hz, if_pos (show Zeroed o aes w t from hz), List.append_nil]
      exact ⟨(Wire.write_down w _ |>.mp h).1, show (0 : ℤ) ≠ -1 by decide, rfl⟩
    next hz =>
      obtain ⟨h1, h2⟩ := Wire.write_down _ _ |>.mp h
      rw [if_neg hz, if_neg (show ¬ Zeroed o aes w t from hz)]
      exact ⟨(Wire.write_down w _ |>.mp h1).1, h2, by simp⟩

@[simp] theorem writeAll_cons (w : Wire) (t : List Byte) (ts : List (List Byte)) :
    writeAll o aes w (t :: ts) = writeAll o aes (writeCommand o aes w t).2 ts := rfl

theorem writeAll_append (w : Wire) (ts us : List (List Byte)) :
    writeAll o aes w (ts ++ us) = writeAll o aes (writeAll o aes w ts) us := List.foldl_append ..

theorem writeAll_up {w : Wire} : ∀ {ts : List (List Byte)}, (writeAll o aes w ts).down = false →
    w.down = false := by
  intro ts
  induction ts generalizing w with
  | nil => exact id
  | cons t ts ih => exact fun h => (writeCommand_up (ih h)).1

/-- No more bytes are handed over than the frames have. -/
theorem length_sent_writeAll_le : ∀ {ts : List (List Byte)} {w : Wire},
    (writeAll o aes w ts).down = false →
      (writeAll o aes w ts).sent.length ≤ w.sent.length + (encChunks o ts).length := by
  intro ts
  induction ts with
  | nil => intro w _; exact le_rfl
  | cons t ts ih =>
    intro w hup
    rw [writeAll_cons] at hup ⊢
    obtain ⟨-, -, hsent⟩ := writeCommand_up (writeAll_up hup)
    have h := ih hup
    rw [hsent] at h
    simp only [List.length_append, length_wire64, encChunks_cons] at h ⊢
    split at h
    · simp at h; omega
    · omega

/-- **The frames arrive whole exactly if their lengths survive the cipher.** -/
theorem sent_writeAll_iff : ∀ {ts : List (List Byte)} {w : Wire},
    (writeAll o aes w ts).down = false →
      ((writeAll o aes w ts).sent = w.sent ++ encChunks o ts ↔ Survives o aes w ts) := by
  intro ts
  induction ts with
  | nil => intro w _; simp [writeAll, Survives]
  | cons t ts ih =>
    intro w hup
    rw [writeAll_cons] at hup ⊢
    obtain ⟨-, -, hsent⟩ := writeCommand_up (writeAll_up hup)
    have hrest := ih hup
    rw [Survives, encChunks_cons]
    by_cases hz : Zeroed o aes w t
    · rw [if_pos hz, List.append_nil] at hsent
      by_cases ht : t = []
      · subst ht
        rw [hsent] at hrest
        simpa [List.append_assoc] using hrest
      · -- the text is missing, so the bytes are too few
        have hlen := length_sent_writeAll_le hup
        rw [hsent] at hlen
        have hpos := List.length_pos_iff.mpr ht
        constructor
        · intro heq
          rw [heq] at hlen
          simp only [List.length_append, length_wire64] at hlen
          omega
        · rintro ⟨h | h, -⟩
          · exact absurd h ht
          · exact absurd hz h
    · rw [if_neg hz] at hsent
      rw [hsent] at hrest
      simpa [hz, List.append_assoc] using hrest

/-! ### The reply to `EXEC` -/

theorem rowBuffer_eq_some {cs : Columns (List Byte)} {b : List Byte} :
    rowBuffer cs = some b ↔ cs.joined.length + 1 < 2 ^ 31 ∧ b = cs.joined := by
  rw [rowBuffer]
  split
  next h => rw [Option.some.injEq, eq_comm, and_iff_right h]
  next h => exact ⟨fun hb => absurd hb (by simp), fun hb => absurd hb.1 h⟩

/-- The texts one call of `callback` sends. -/
def callbackTexts (file : Bool) (row : ℕ) (names : Columns (List Byte))
    (argv : Columns (Option (List Byte))) : List (List Byte) :=
  (if row = 0 then if file then [execofOk] else [execOk, names.joined] else []) ++
    if file then [] else [argv.texts.joined]

/-- The buffers one call of `callback` allocates fit an `int`. -/
def CallbackFits (row : ℕ) (names : Columns (List Byte))
    (argv : Columns (Option (List Byte))) : Prop :=
  (row = 0 → names.joined.length + 1 < 2 ^ 31) ∧ argv.texts.joined.length + 1 < 2 ^ 31

theorem callbackHead_up {file : Bool} {w : Wire} {names : Columns (List Byte)} {c : ℤ × Wire}
    (h : callbackHead o aes file w names = some c) (hup : c.2.down = false) :
    names.joined.length + 1 < 2 ^ 31 ∧ c.1 ≠ -1 ∧
      c.2 = writeAll o aes w (if file then [execofOk] else [execOk, names.joined]) := by
  rw [callbackHead] at h
  by_cases hret : (writeCommand o aes w (if file then execofOk else execOk)).1 = -1
  · rw [if_pos hret] at h
    obtain rfl := Option.some.inj h
    exact absurd hret (writeCommand_up hup).2.1
  · rw [if_neg hret] at h
    obtain ⟨b, hb, rfl⟩ := Option.map_eq_some_iff.mp h
    obtain ⟨hfits, rfl⟩ := rowBuffer_eq_some.mp hb
    cases file with
    | true => exact ⟨hfits, show (0 : ℤ) ≠ -1 by decide, rfl⟩
    | false => exact ⟨hfits, (writeCommand_up hup).2.1, rfl⟩

/-- **One call of `callback` that did not fail.** -/
theorem callback_up {file : Bool} {w : Wire} {row : ℕ} {names : Columns (List Byte)}
    {argv : Columns (Option (List Byte))} {c : ℤ × Wire}
    (h : callback o aes file w row names argv = some c) (hup : c.2.down = false) :
    CallbackFits row names argv ∧
      c = (0, writeAll o aes w (callbackTexts file row names argv)) := by
  obtain ⟨h1, hh1, hb⟩ := Option.bind_eq_some_iff.mp h
  split at hb
  next hret =>
    obtain rfl := Option.some.inj hb
    split at hh1
    next => exact absurd hret (callbackHead_up hh1 hup).2.1
    next =>
      obtain rfl := Option.some.inj hh1
      exact absurd hret (show (0 : ℤ) ≠ -1 by decide)
  next hret =>
    obtain ⟨b, hbuf, rfl⟩ := Option.map_eq_some_iff.mp hb
    obtain ⟨hfits, rfl⟩ := rowBuffer_eq_some.mp hbuf
    -- the row itself, which is sent only if there is no file
    have hrow : h1.2.down = false ∧
        (if file then (0, h1.2)
          else (if (writeCommand o aes h1.2 argv.texts.joined).1 = -1 then -1 else 0,
            (writeCommand o aes h1.2 argv.texts.joined).2))
          = ((0 : ℤ), writeAll o aes h1.2 (if file then [] else [argv.texts.joined])) := by
      cases file with
      | true => exact ⟨hup, rfl⟩
      | false =>
        obtain ⟨hup1, hret1, -⟩ := writeCommand_up hup
        rw [if_neg (by decide), if_neg hret1]
        exact ⟨hup1, rfl⟩
    refine ⟨?_, hrow.2.trans ?_⟩
    · refine ⟨fun h0 => ?_, hfits⟩
      rw [if_pos h0] at hh1
      exact (callbackHead_up hh1 hrow.1).1
    · rw [callbackTexts, writeAll_append]
      split at hh1
      next h0 => rw [(callbackHead_up hh1 hrow.1).2.2, if_pos h0]
      next h0 =>
        obtain rfl := Option.some.inj hh1
        rw [if_neg h0]
        rfl

/-- A call of `callback` whose buffers fit returns. -/
theorem callback_isSome {file : Bool} {w : Wire} {row : ℕ} {names : Columns (List Byte)}
    {argv : Columns (Option (List Byte))} (h : CallbackFits row names argv) :
    ∃ c, callback o aes file w row names argv = some c := by
  have hrow : rowBuffer argv.texts = some argv.texts.joined := rowBuffer_eq_some.mpr ⟨h.2, rfl⟩
  have hhead : ∃ c, (if row = 0 then callbackHead o aes file w names else some (0, w))
      = some c := by
    split
    next h0 =>
      rw [callbackHead, rowBuffer_eq_some.mpr ⟨h.1 h0, rfl⟩, Option.map_some]
      split_ifs <;> exact ⟨_, rfl⟩
    next => exact ⟨_, rfl⟩
  obtain ⟨c, hc⟩ := hhead
  rw [callback, hc, Option.bind_some, hrow]
  split <;> exact ⟨_, rfl⟩

/-- The texts the calls for some rows send. -/
def queryTexts (file : Bool) (names : Columns (List Byte)) :
    ℕ → List (Columns (Option (List Byte))) → List (List Byte)
  | _, [] => []
  | row, r :: rows => callbackTexts file row names r ++ queryTexts file names (row + 1) rows

theorem queryTexts_succ (file : Bool) (names : Columns (List Byte)) :
    ∀ (rows : List (Columns (Option (List Byte)))) (row : ℕ),
      queryTexts file names (row + 1) rows
        = if file then [] else rows.map fun r => r.texts.joined := by
  intro rows
  induction rows with
  | nil => intro row; cases file <;> rfl
  | cons r rows ih =>
    intro row
    rw [queryTexts, ih]
    cases file <;> rfl

theorem queryTexts_zero (file : Bool) (names : Columns (List Byte))
    (rows : List (Columns (Option (List Byte)))) :
    queryTexts file names 0 rows
      = if rows = [] then []
        else if file then [execofOk]
        else execOk :: names.joined :: rows.map fun r => r.texts.joined := by
  cases rows with
  | nil => rfl
  | cons r rows =>
    rw [queryTexts, queryTexts_succ]
    cases file <;> rfl

/-- **A query that did not fail to send its rows.** -/
theorem sqlite3Exec_up {file : Bool} {names : Columns (List Byte)} {succeeds : Bool} :
    ∀ {rows : List (Columns (Option (List Byte)))} {w : Wire} {row : ℕ} {r : Bool × ℕ × Wire},
      sqlite3Exec o aes file names succeeds w row rows = some r → r.2.2.down = false →
        (row = 0 → rows ≠ [] → names.joined.length + 1 < 2 ^ 31) ∧
          (∀ c ∈ rows, c.texts.joined.length + 1 < 2 ^ 31) ∧
          r = (succeeds, row + rows.length,
            writeAll o aes w (queryTexts file names row rows)) := by
  intro rows
  induction rows with
  | nil =>
    intro w row r h _
    obtain rfl := Option.some.inj h
    exact ⟨fun _ hne => absurd rfl hne, by simp, rfl⟩
  | cons c rows ih =>
    intro w row r h hup
    obtain ⟨d, hd, hb⟩ := Option.bind_eq_some_iff.mp h
    split at hb
    next hret =>
      obtain ⟨-, hrows, rfl⟩ := ih hb hup
      obtain ⟨⟨hhead, hrow⟩, rfl⟩ := callback_up hd (writeAll_up hup)
      refine ⟨fun h0 _ => hhead h0, ?_, ?_⟩
      · intro e he
        rcases List.mem_cons.mp he with rfl | he
        · exact hrow
        · exact hrows e he
      · rw [queryTexts, writeAll_append, List.length_cons]
        simp only [Prod.mk.injEq, true_and, and_true]
        omega
    next hret =>
      obtain rfl := Option.some.inj hb
      obtain ⟨-, rfl⟩ := callback_up hd hup
      exact absurd rfl hret

/-- A query whose buffers fit returns. -/
theorem sqlite3Exec_isSome {file : Bool} {names : Columns (List Byte)} {succeeds : Bool} :
    ∀ {rows : List (Columns (Option (List Byte)))} {w : Wire} {row : ℕ},
      (row = 0 → rows ≠ [] → names.joined.length + 1 < 2 ^ 31) →
        (∀ c ∈ rows, c.texts.joined.length + 1 < 2 ^ 31) →
          ∃ r, sqlite3Exec o aes file names succeeds w row rows = some r := by
  intro rows
  induction rows with
  | nil => intro w row _ _; exact ⟨_, rfl⟩
  | cons c rows ih =>
    intro w row hnames hrows
    obtain ⟨d, hd⟩ := @callback_isSome o aes file w row names c
      ⟨fun h0 => hnames h0 (by simp), hrows c List.mem_cons_self⟩
    rw [sqlite3Exec, hd]
    simp only [Option.bind_eq_bind, Option.bind_some]
    split
    · exact ih (fun h0 => absurd h0 (by omega)) fun e he => hrows e (List.mem_cons_of_mem _ he)
    · exact ⟨_, rfl⟩

/-- **What `EXEC` sends**, if no call of `writebuf` fails. -/
theorem commandExec_up {w : Wire} {out : ExecOutcome} {r : ℤ × Wire}
    (h : commandExec o aes w out = some r) (hup : r.2.down = false) :
    out.Fits ∧ r.2 = writeAll o aes w out.texts := by
  cases out with
  | missing =>
    obtain rfl := Option.some.inj h
    exact ⟨trivial, rfl⟩
  | ran names rows succeeds =>
    obtain ⟨q, hq, hb⟩ := Option.bind_eq_some_iff.mp h
    obtain rfl := Option.some.inj hb
    have hupq : q.2.2.down = false := by
      split at hup
      · exact (writeCommand_up hup).1
      · split at hup
        · exact (writeCommand_up (writeCommand_up hup).1).1
        · exact (writeCommand_up hup).1
    obtain ⟨hnames, hrows, rfl⟩ := sqlite3Exec_up hq hupq
    refine ⟨⟨fun hne => hnames rfl hne, hrows⟩, ?_⟩
    have hquery := queryTexts_zero false names rows
    simp only [Bool.false_eq_true, if_false] at hquery
    rw [ExecOutcome.texts, ← hquery, writeAll_append]
    simp only [Nat.zero_add, List.length_eq_zero_iff]
    cases succeeds with
    | false => rfl
    | true =>
      by_cases hnil : rows = []
      · simp only [hnil]
        rfl
      · simp only [hnil]
        rfl

theorem commandExec_isSome {w : Wire} {out : ExecOutcome} (h : out.Fits) :
    ∃ r, commandExec o aes w out = some r := by
  cases out with
  | missing => exact ⟨_, rfl⟩
  | ran names rows succeeds =>
    obtain ⟨q, hq⟩ := @sqlite3Exec_isSome o aes false names succeeds rows w 0 (fun _ => h.1) h.2
    exact ⟨_, by rw [commandExec, hq]; rfl⟩

/-- The texts that `command_execof` hands to `write_command`. -/
def execofTexts (rows : List (Columns (Option (List Byte)))) (succeeds : Bool) :
    List (List Byte) :=
  (if rows = [] then [] else [execofOk]) ++
    if !succeeds then [execofFailed] else if rows = [] then [execofOk] else []

/-- **What `EXECOF` sends**, if no call of `writebuf` fails. -/
theorem commandExecof_up {w : Wire} {names : Columns (List Byte)}
    {rows : List (Columns (Option (List Byte)))} {succeeds : Bool} {r : ℤ × Wire}
    (h : commandExecof o aes w names rows succeeds = some r) (hup : r.2.down = false) :
    r.2 = writeAll o aes w (execofTexts rows succeeds) := by
  obtain ⟨q, hq, hb⟩ := Option.bind_eq_some_iff.mp h
  obtain rfl := Option.some.inj hb
  have hupq : q.2.2.down = false := by
    split at hup
    · exact (writeCommand_up hup).1
    · split at hup
      · exact (writeCommand_up hup).1
      · exact hup
  obtain ⟨-, -, rfl⟩ := sqlite3Exec_up hq hupq
  have hquery := queryTexts_zero true names rows
  simp only [if_true] at hquery
  rw [execofTexts, ← hquery, writeAll_append]
  simp only [Nat.zero_add, List.length_eq_zero_iff]
  cases succeeds with
  | false => rfl
  | true =>
    by_cases hnil : rows = []
    · simp only [hnil]
      rfl
    · simp only [hnil]
      rfl

/-- The last byte of a reply that ends in an error is not that of an empty frame. -/
theorem getLast?_sent_failed {w : Wire} (hup : (writeCommand o aes w execFailed).2.down = false) :
    (writeCommand o aes w execFailed).2.sent.getLast? ≠ (encChunk o []).getLast? := by
  have hwire : ∀ v : ℤ, (wire64 o v).getLast? = (wire64 .big v).getLast? := by
    intro v
    rw [wire64_eq, ← wire64_eq .big]
  have hmark : (encChunk o []).getLast? = some 0 := by
    rw [encChunk, List.append_nil, hwire]
    decide
  obtain ⟨-, -, hsent⟩ := writeCommand_up hup
  rw [hsent, hmark]
  split
  · have hlast : (wire64 .big execFailed.length).getLast? = some 20 := by decide
    rw [List.append_nil, List.getLast?_append, hwire, hlast]
    simp
  · have hlast : execFailed.getLast? = some 69 := by decide
    rw [List.getLast?_append, hlast]
    simp

/-- The bytes of a whole reply, in the byte order of the client. -/
theorem sent_iff_survives {s : Sess} {ts : List (List Byte)}
    (hup : (writeAll o aes ⟨s, [], false⟩ ts).down = false) (o' : Endian) :
    (writeAll o aes ⟨s, [], false⟩ ts).sent = encChunks o' ts
      ↔ Survives o aes ⟨s, [], false⟩ ts := by
  rw [← sent_writeAll_iff hup, encChunks_eq o' o, List.nil_append]

end

/-- A client gets a status other than OK from a reply of one frame. -/
theorem execClient_failed {o : Endian} {inp : List Byte} {reply : ExecReply}
    (hne : reply.status ≠ execOk) (hlen : reply.status.length < 2 ^ 63) :
    execClient o inp = some (reply, [])
      ↔ inp = encChunks o [reply.status] ∧ reply.header = none ∧ reply.rows = [] := by
  rw [execClient_iff, if_neg hne, and_iff_right hlen]

/-- A client gets an OK from the frames of the header and of the rows, none of them empty,
and the end marker. -/
theorem execClient_ok {o : Endian} {inp : List Byte} {header : Option (List Byte)}
    {rows : List (List Byte)} (hrows : header = none → rows = []) :
    execClient o inp = some (⟨execOk, header, rows⟩, []) ↔
      inp = encChunks o (execOk :: (header.toList ++ rows) ++ [[]]) ∧
        ∀ t ∈ header.toList ++ rows, t ≠ [] ∧ t.length < 2 ^ 63 := by
  have hts : ∀ ts : List (List Byte), ts.head? = header ∧ ts.tail = rows ↔
      ts = header.toList ++ rows := by
    intro ts
    cases header with
    | none =>
      obtain rfl := hrows rfl
      cases ts <;> simp
    | some h => cases ts <;> simp
  rw [execClient_iff, if_pos rfl, and_iff_right (show execOk.length < 2 ^ 63 by decide)]
  constructor
  · rintro ⟨ts, hinp, h1, h2, hall⟩
    obtain rfl := (hts ts).mp ⟨h1, h2⟩
    exact ⟨hinp, hall⟩
  · rintro ⟨hinp, hall⟩
    obtain ⟨h1, h2⟩ := (hts _).mpr rfl
    exact ⟨_, hinp, h1, h2, hall⟩

theorem execMissing_ne_ok : execMissing ≠ execOk := by
  rw [execMissing, execOk, lit_ofList, lit_ofList]
  decide

theorem execFailed_ne_ok : execFailed ≠ execOk := by
  rw [execFailed, execOk, lit_ofList, lit_ofList]
  decide

theorem length_execMissing_lt : execMissing.length < 2 ^ 63 := by
  rw [execMissing, lit_ofList]
  decide

theorem length_execFailed_lt : execFailed.length < 2 ^ 63 := by
  rw [execFailed, lit_ofList]
  decide

/-- The texts of a query that succeeds. -/
theorem texts_of_succeeds (names : Columns (List Byte))
    (rows : List (Columns (Option (List Byte)))) :
    (ExecOutcome.ran names rows true).texts
      = execOk :: ((ExecOutcome.ran names rows true).header.toList ++
          (ExecOutcome.ran names rows true).rows) ++ [[]] := by
  cases rows with
  | nil => rfl
  | cons r rows => simp [ExecOutcome.texts, ExecOutcome.header, ExecOutcome.rows]

/-- The frames of a query that succeeds, none of them the end marker. -/
theorem marked_iff_of_succeeds {names : Columns (List Byte)}
    {rows : List (Columns (Option (List Byte)))} (hfits : (ExecOutcome.ran names rows true).Fits) :
    (ExecOutcome.ran names rows true).Marked ↔
      ∀ t ∈ (ExecOutcome.ran names rows true).header.toList ++
        (ExecOutcome.ran names rows true).rows, t ≠ [] ∧ t.length < 2 ^ 63 := by
  cases rows with
  | nil => simp [ExecOutcome.Marked, ExecOutcome.header, ExecOutcome.rows]
  | cons r rows =>
    obtain ⟨hnames, hrows⟩ := hfits
    have hnames := hnames (by simp)
    constructor
    · intro h t ht
      obtain ⟨-, h1, h2⟩ := h (by simp)
      simp only [ExecOutcome.header, ExecOutcome.rows, reduceCtorEq, if_false,
        Option.toList_some, List.singleton_append, List.mem_cons, List.mem_map] at ht
      rcases ht with rfl | ⟨c, hc, rfl⟩
      · exact ⟨h1, by omega⟩
      · have := hrows c (List.mem_cons.mpr hc)
        exact ⟨h2 c (List.mem_cons.mpr hc), by omega⟩
    · intro h _
      refine ⟨rfl, (h _ ?_).1, fun c hc => (h _ ?_).1⟩
      · simp [ExecOutcome.header]
      · exact List.mem_append_right _ (List.mem_map_of_mem hc)

/-- A client does not decode a reply with an error behind a row. -/
theorem not_decodes_late_error {o : Endian} {aes : Aes} {s : Sess}
    {names : Columns (List Byte)} {rows : List (Columns (Option (List Byte)))}
    (hrows : rows ≠ [])
    (hup : (writeAll o aes ⟨s, [], false⟩ (ExecOutcome.ran names rows false).texts).down = false)
    (o' : Endian) {reply : ExecReply}
    (hreply : execClient o' (writeAll o aes ⟨s, [], false⟩
      (ExecOutcome.ran names rows false).texts).sent = some (reply, []))
    (hst : (ExecOutcome.ran names rows false).Reports reply.status)
    (hheader : reply.header = (ExecOutcome.ran names rows false).header) : False := by
  obtain ⟨hlen, h⟩ := execClient_iff.mp hreply
  rcases hst with ⟨hok, -⟩ | ⟨hfailed, -⟩
  · -- a client that goes on behind the OK does not find the end marker
    rw [if_pos hok] at h
    obtain ⟨ts, hsent, -⟩ := h
    rw [ExecOutcome.texts, if_neg hrows, writeAll_append] at hsent hup
    apply getLast?_sent_failed hup
    have hmark : encChunks o' [[]] = encChunk o [] := by
      rw [encChunk_eq o o']
      simp [encChunks]
    have hne : encChunk o [] ≠ [] := fun h => by
      have := length_le_encChunk o []
      rw [h] at this
      exact absurd this (by decide)
    rw [show (writeCommand o aes _ execFailed).2.sent = _ from hsent, encChunks_append, hmark,
      List.getLast?_append_of_ne_nil _ hne]
  · rw [if_neg (by rw [hfailed]; exact execFailed_ne_ok), hheader, ExecOutcome.header,
      if_neg hrows] at h
    exact Option.some_ne_none _ h.2.1

/-- **When a client can decode the reply to `EXEC`**: the rows fit their buffers, the names
and the rows are not empty and no error follows a row, and no length turns to zero under
the cipher.  The connection is up: no call of `writebuf` fails. -/
theorem exec_decodable_iff (o : Endian) (aes : Aes) (s : Sess) (o' : Endian) (out : ExecOutcome)
    (hup : ∀ r, commandExec o aes ⟨s, [], false⟩ out = some r → r.2.down = false) :
    Decodes o aes s o' out ↔
      out.Fits ∧ out.Marked ∧ Survives o aes ⟨s, [], false⟩ out.texts := by
  by_cases hfits : out.Fits
  swap
  · constructor
    · rintro ⟨r, hr, -⟩
      exact absurd (commandExec_up hr (hup r hr)).1 hfits
    · rintro ⟨h, -⟩
      exact absurd h hfits
  obtain ⟨r, hr⟩ := @commandExec_isSome o aes ⟨s, [], false⟩ out hfits
  obtain ⟨-, heq⟩ := commandExec_up hr (hup r hr)
  have hupt := hup r hr
  rw [heq] at hupt
  have hdec : Decodes o aes s o' out ↔ ∃ reply,
      execClient o' (writeAll o aes ⟨s, [], false⟩ out.texts).sent = some (reply, []) ∧
        out.Reports reply.status ∧ reply.header = out.header ∧ reply.rows = out.rows := by
    simp [Decodes, hr, heq]
  rw [hdec, and_iff_right hfits, ← sent_iff_survives hupt o']
  cases out with
  | missing =>
    constructor
    · rintro ⟨⟨_, _, _⟩, hreply, rfl, -⟩
      exact ⟨trivial, ((execClient_failed execMissing_ne_ok length_execMissing_lt).mp hreply).1⟩
    · rintro ⟨-, hsent⟩
      exact ⟨⟨execMissing, none, []⟩,
        (execClient_failed execMissing_ne_ok length_execMissing_lt).mpr ⟨hsent, rfl, rfl⟩,
        rfl, rfl, rfl⟩
  | ran names rows succeeds =>
    cases succeeds with
    | true =>
      have hnone : (ExecOutcome.ran names rows true).header = none →
          (ExecOutcome.ran names rows true).rows = [] := by
        cases rows <;> simp [ExecOutcome.header, ExecOutcome.rows]
      rw [marked_iff_of_succeeds hfits, texts_of_succeeds, and_comm, ← execClient_ok hnone]
      constructor
      · rintro ⟨⟨_, _, _⟩, hreply, ⟨rfl, -⟩ | ⟨-, h⟩, rfl, rfl⟩
        · exact hreply
        · exact absurd h (by simp)
      · intro h
        exact ⟨_, h, .inl ⟨rfl, .inl rfl⟩, rfl, rfl⟩
    | false =>
      by_cases hrows : rows = []
      · subst hrows
        constructor
        · rintro ⟨⟨_, _, _⟩, hreply, ⟨-, h⟩ | ⟨rfl, -⟩, -⟩
          · exact absurd h (by simp)
          · exact ⟨fun h => absurd rfl h,
              ((execClient_failed execFailed_ne_ok length_execFailed_lt).mp hreply).1⟩
        · rintro ⟨-, hsent⟩
          exact ⟨⟨execFailed, none, []⟩,
            (execClient_failed execFailed_ne_ok length_execFailed_lt).mpr ⟨hsent, rfl, rfl⟩,
            .inr ⟨rfl, rfl⟩, rfl, rfl⟩
      · constructor
        · rintro ⟨reply, hreply, hst, hheader, -⟩
          exact (not_decodes_late_error hrows hupt o' hreply hst hheader).elim
        · rintro ⟨h, -⟩
          exact absurd (h hrows).1 (by simp)

/-- A session in the clear. -/
def clearSess : Sess := default

/-- A query with one column and one row. -/
def exampleExec (value : List Byte) : ExecOutcome :=
  .ran ⟨lit "a", []⟩ [⟨some value, []⟩] true

theorem exec_decodable_example :
    Decodes .little Aes.sample clearSess .big (exampleExec (lit "1")) := by
  refine (exec_decodable_iff .little Aes.sample clearSess .big (exampleExec (lit "1")) ?_).mpr ?_
  · intro r hr
    have hdown : (commandExec .little Aes.sample ⟨clearSess, [], false⟩
        (exampleExec (lit "1"))).map (fun r => r.2.down) = some false := by decide
    rw [hr, Option.map_some] at hdown
    exact Option.some.inj hdown
  · decide

/-- A row with a single empty text is taken for the end of the reply. -/
theorem exec_undecodable : ¬ ∀ (s : Sess) (out : ExecOutcome),
    (∀ r, commandExec .little Aes.sample ⟨s, [], false⟩ out = some r → r.2.down = false) →
      Decodes .little Aes.sample s .big out := by
  intro h
  have hup : ∀ r, commandExec .little Aes.sample ⟨clearSess, [], false⟩ (exampleExec [])
      = some r → r.2.down = false ∧ execClient .big r.2.sent
        = some (⟨execOk, some (lit "a"), []⟩, encChunk .little []) := by
    intro r hr
    have hall : (commandExec .little Aes.sample ⟨clearSess, [], false⟩ (exampleExec [])).map
        (fun r => (r.2.down, execClient .big r.2.sent))
          = some (false, some (⟨execOk, some (lit "a"), []⟩, encChunk .little [])) := by decide
    rw [hr, Option.map_some] at hall
    exact Prod.mk.inj (Option.some.inj hall)
  obtain ⟨r, hr, reply, hreply, -⟩ := h clearSess (exampleExec []) fun r hr => (hup r hr).1
  rw [(hup r hr).2] at hreply
  exact absurd (Prod.mk.inj (Option.some.inj hreply)).2 (by decide)

end TFProtocol
