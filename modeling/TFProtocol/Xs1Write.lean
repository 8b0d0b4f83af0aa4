import TFProtocol.StaleBuffer
import TFProtocol.Xs1

/-!
# What `XS1_WRITE` writes

`XS1_WRITE` finds its payload in `comm.buf` behind two numbers and writes as many bytes as the
second of them says.  The size is compared with a constant, `WRITE_MAX`, and with nothing
else: neither with the length of the frame nor with the room behind the numbers, which can
be padded with zeros.

## Main definitions

* `WriteFrame`, `frameBuf` — a frame, and `comm.buf` with the frame in it.
* `WritesPayload` — what is written is the payload, as far as the size says.
* `WriteRoom` — the condition: the payload has arrived and lies in the buffer.

## Main results

* `xs1_write_iff` — the payload is written if and only if the condition holds.
-/

namespace TFProtocol

open Bytes CStr Residue

/-! ### Frames -/

/-- A frame `XS1_WRITE idx size payload`, with numerals of any length and any value. -/
structure WriteFrame where
  idx : List Byte
  /-- There is a minus sign in front of the size. -/
  neg : Bool
  size : List Byte
  payload : List Byte
  idx_ne : idx ≠ []
  size_ne : size ≠ []
  idx_digits : ∀ d ∈ idx, isDigit d = true
  size_digits : ∀ d ∈ size, isDigit d = true

namespace WriteFrame

variable (f : WriteFrame)

/-- The size, as it stands in the frame. -/
def word : List Byte := if f.neg then ofChar '-' :: f.size else f.size

/-- The two numbers, with the blanks behind them. -/
def header : List Byte := f.idx ++ ofChar ' ' :: (f.word ++ [ofChar ' '])

/-- The bytes of the frame. -/
def bytes : List Byte := lit "XS1_WRITE " ++ f.header ++ f.payload

/-- Where the payload starts. -/
def off : ℕ := (lit "XS1_WRITE ").length + f.header.length

/-- The size in the frame, but for its sign. -/
def value : ℕ := digitsVal f.size

/-- The size that the handler reads. -/
def read : ℤ := strtol (strcpySec f.word lldigits)

end WriteFrame

/-- `comm.buf` with a frame received over what was left in it, in block mode or not. -/
def frameBuf (blk : Bool) (left frame : List Byte) : List Byte :=
  fill (frameMem blk frame.length frame.length frame) left

/-- The command, in memory that goes on behind `comm.buf`. -/
def xs1WriteOut (s : Xs1) (f : WriteFrame) (blk : Bool) (left beyond : List Byte) (a : FdAns) :
    Xs1Out :=
  xs1OnFd s .write ((frameBuf blk left f.bytes ++ beyond).drop (lit "XS1_WRITE ").length) a

/-- The bytes that get into the file. -/
def written (out : Xs1Out) (a : FdAns) : List Byte :=
  match out.acted with
  | some (_, .write bytes) => bytes.take a.ret.toNat
  | _ => []

/-- **The payload is written**: if anything is written, the size has no minus sign, and what is
written is as much of the payload as it says, was received, and lies in `comm.buf`. -/
def WritesPayload (s : Xs1) (f : WriteFrame) (blk : Bool) (left beyond : List Byte) (a : FdAns) :
    Prop :=
  let w := written (xs1WriteOut s f blk left beyond a) a
  w ≠ [] → f.neg = false ∧ w = f.payload.take f.value ∧ f.value ≤ f.payload.length ∧
    f.off + w.length ≤ commbuflen

/-- **The condition**: nothing is written, because the index is refused, the numbers fill the
buffer, the size that is read is not positive or too large, or `write` writes nothing; or the
size has at most 21 digits, all of it was received and is written at once, and the last byte of
`comm.buf`, which is set to zero, is not part of it, unless it is zero there. -/
def WriteRoom (s : Xs1) (f : WriteFrame) (a : FdAns) : Prop :=
  xs1ChkidxInt64 s.fds (cint (strtol (strcpySec f.idx lldigits))) = none ∨
    commbuflen ≤ f.off ∨ f.read ≤ 0 ∨ writeMax < f.read ∨ a.ret ≤ 0 ∨
    f.word.length < lldigits ∧ f.value ≤ f.payload.length ∧ f.value ≤ a.ret ∧
      (f.off + f.value < commbuflen ∨
        f.off + f.value = commbuflen ∧ f.payload[f.value - 1]? = some 0)

/-! ### The buffer -/

section

variable {blk : Bool} {left frame : List Byte}

/-- The buffer when `cmd_parse` is called, for a frame of which all has arrived. -/
theorem bufAt_eq_frameBuf {o : Endian} {aes : Aes} {s : Sess}
    (hlen : announced o aes s = frame.length) (hret : (readbuf o aes s).ret = frame.length)
    (hgot : (readbuf o aes s).got = frame) (hleft : left.length = commbuflen) :
    bufAt o aes s left = some (frameBuf (readbuf o aes s).sess.blkstatus left frame) := by
  rw [bufAt_eq (by omega) hleft, hlen, hret, hgot]
  rfl

/-- The frame lies over what was left, and one or two terminators over both. -/
theorem frameBuf_cases (hleft : left.length = commbuflen) (blk : Bool) (frame : List Byte) :
    ∃ under : List Byte, under.length = commbuflen ∧
      (frameBuf blk left frame = (overlay under frame).set (commbuflen - 1) 0 ∨
        frameBuf blk left frame = ((overlay under frame).set (commbuflen - 1) 0).set
          (min frame.length (commbuflen - 1)) 0) := by
  refine ⟨if 0 ≤ (frame.length : ℤ) ∧ (frame.length : ℤ) < commbuflen
    then left.set (frame.length : ℤ).toNat 0 else left, ?_, ?_⟩
  · split
    · rw [List.length_set, hleft]
    · exact hleft
  · rw [frameBuf, fill_frameMem _ _ _ _ hleft]
    cases blk with
    | false => exact .inl rfl
    | true => exact .inr rfl

theorem le_length_frameBuf (hleft : left.length = commbuflen) :
    commbuflen ≤ (frameBuf blk left frame).length := by
  obtain ⟨under, hunder, hbuf⟩ := frameBuf_cases hleft blk frame
  have hover : commbuflen ≤ (overlay under frame).length := by
    rw [overlay, List.length_append, List.length_drop]
    omega
  rcases hbuf with hbuf | hbuf
  · rwa [hbuf, List.length_set]
  · rwa [hbuf, List.length_set, List.length_set]

/-- What was received is there, up to the last byte of the buffer. -/
theorem take_frameBuf (hleft : left.length = commbuflen) {n : ℕ} (hn : n ≤ frame.length)
    (hlast : n ≤ commbuflen - 1) : (frameBuf blk left frame).take n = frame.take n := by
  obtain ⟨under, -, hbuf⟩ := frameBuf_cases hleft blk frame
  have hover : ((overlay under frame).set (commbuflen - 1) 0).take n = frame.take n := by
    rw [List.take_set_of_le hlast, overlay, List.take_append_of_le_length hn]
  rcases hbuf with hbuf | hbuf
  · rwa [hbuf]
  · rwa [hbuf, List.take_set_of_le (le_min hn hlast)]

/-- The last byte of the buffer is a terminator. -/
theorem frameBuf_last (hleft : left.length = commbuflen) :
    (frameBuf blk left frame)[commbuflen - 1]? = some 0 := by
  obtain ⟨under, hunder, hbuf⟩ := frameBuf_cases hleft blk frame
  have hpos : 0 < commbuflen := by decide
  have hlt : commbuflen - 1 < (overlay under frame).length := by
    rw [overlay, List.length_append, List.length_drop]
    omega
  rcases hbuf with hbuf | hbuf
  · rw [hbuf, List.getElem?_set_self hlt]
  · rw [hbuf]
    by_cases hcut : min frame.length (commbuflen - 1) = commbuflen - 1
    · rw [hcut, List.getElem?_set_self (by rwa [List.length_set])]
    · rw [List.getElem?_set_ne hcut, List.getElem?_set_self hlt]

end

/-! ### Words -/

theorem strstr_blank {a : List Byte} (h : ofChar ' ' ∉ a) (b : List Byte) :
    strstr (lit " ") (a ++ ofChar ' ' :: b) = some (a, b) := by
  induction a with
  | nil => exact strstr_append_self (lit " ") b
  | cons x a ih =>
    rw [List.mem_cons, not_or] at h
    have hp : ¬ lit " " <+: x :: (a ++ ofChar ' ' :: b) := by
      intro hp
      exact h.1 (List.cons_prefix_cons.mp hp).1
    rw [List.cons_append, strstr, if_neg hp, ih h.2]
    rfl

theorem strstr_no_blank {a : List Byte} (h : ofChar ' ' ∉ a) : strstr (lit " ") a = none := by
  rw [Option.eq_none_iff_forall_ne_some]
  rintro ⟨x, y⟩ hxy
  apply h
  rw [eq_of_strstr hxy]
  simp [lit]

theorem cstr_append_of_not_mem {a : List Byte} (h : (0 : Byte) ∉ a) (b : List Byte) :
    cstr (a ++ b) = a ++ cstr b :=
  List.takeWhile_append_of_pos fun x hx => by simpa using fun h0 : x = 0 => h (h0 ▸ hx)

/-- A digit more makes a numeral ten times as large. -/
theorem digitsVal_append_digit (a : List Byte) (d : Byte) :
    digitsVal (a ++ [d]) = 10 * digitsVal a + (d.toNat - 48) := by
  simp [digitsVal, List.foldl_append]

/-- The copy of a numeral is read up to what follows the numeral. -/
theorem strtol_strcpySec {w : List Byte} (hne : w ≠ []) (hw : ∀ d ∈ w, isDigit d = true)
    {rest : List Byte} (hrest : ∀ b, rest.head? = some b → isDigit b = false) :
    strtol (strcpySec (w ++ rest) lldigits) =
      min (2 ^ 63 - 1) (digitsVal (w.take (lldigits - 1)) : ℤ) := by
  rw [strcpySec, List.take_append]
  refine strtol_digits ?_ (fun d hd => hw d (List.mem_of_mem_take hd)) fun b hb => ?_
  · rw [ne_eq, List.take_eq_nil_iff, not_or]
    exact ⟨by decide, hne⟩
  · rw [List.head?_take] at hb
    split at hb
    · cases hb
    · exact hrest b hb

namespace WriteFrame

variable (f : WriteFrame)

/-- There are digits and a minus sign in the numbers, and nothing else. -/
theorem not_mem_word {b : Byte} (hdigit : isDigit b = false) (hminus : b ≠ ofChar '-') :
    b ∉ f.word := by
  have hsize : b ∉ f.size := fun hmem => by simp [f.size_digits b hmem] at hdigit
  unfold word
  split
  · rw [List.mem_cons, not_or]
    exact ⟨hminus, hsize⟩
  · exact hsize

theorem not_mem_idx {b : Byte} (hdigit : isDigit b = false) : b ∉ f.idx :=
  fun hmem => by simp [f.idx_digits b hmem] at hdigit

theorem word_ne : f.word ≠ [] := by
  unfold word
  split
  · simp
  · exact f.size_ne

theorem zero_not_mem_header : (0 : Byte) ∉ f.header := by
  have hblank : (0 : Byte) ≠ ofChar ' ' := by decide
  rw [header, List.mem_append, List.mem_cons, List.mem_append, List.mem_singleton]
  simp only [not_or]
  exact ⟨f.not_mem_idx (by decide), hblank, f.not_mem_word (by decide) (by decide), hblank⟩

theorem off_eq : f.off = (lit "XS1_WRITE ").length + f.header.length := rfl

theorem bytes_eq : f.bytes = lit "XS1_WRITE " ++ f.header ++ f.payload := rfl

theorem length_bytes : f.bytes.length = f.off + f.payload.length := by
  rw [bytes_eq, off_eq, List.length_append, List.length_append]

theorem take_off_bytes : f.bytes.take f.off = lit "XS1_WRITE " ++ f.header := by
  rw [bytes_eq, off_eq, ← List.length_append, List.take_left]

theorem drop_off_bytes : f.bytes.drop f.off = f.payload := by
  rw [bytes_eq, off_eq, ← List.length_append, List.drop_left]

/-- The size that is read, if there is no minus sign. -/
theorem read_eq (h : f.neg = false) :
    f.read = min (2 ^ 63 - 1) (digitsVal (f.size.take (lldigits - 1)) : ℤ) := by
  have hword : f.word = f.size ++ [] := by simp [word, h]
  rw [read, hword]
  exact strtol_strcpySec f.size_ne f.size_digits (by simp)

/-- A size with a minus sign is not positive. -/
theorem read_neg (h : f.neg = true) : f.read ≤ 0 := by
  have hword : f.word = ofChar '-' :: f.size := by simp [word, h]
  have hcopy : strcpySec f.word lldigits = ofChar '-' :: f.size.take (lldigits - 2) := by
    rw [hword]
    rfl
  have hspace : isSpace (ofChar '-') = false := by decide
  rw [read, hcopy, strtol]
  simp only [List.dropWhile_cons, hspace, Bool.false_eq_true, if_false, List.head?_cons]
  rw [if_pos (by decide)]
  omega

end WriteFrame

/-! ### The command -/

/-- What the handler does with the two numbers, when they are in the buffer. -/
theorem xs1WriteCall_header (f : WriteFrame) (rest : List Byte) :
    xs1WriteCall (f.header ++ rest) =
      if 0 ≤ f.read ∧ f.read ≤ writeMax then .ok (.write (rest.take f.read.toNat))
      else refuse (lit "XS1 15 : Invalid size value for write.") := by
  have htext : cstr (f.header ++ rest) =
      f.idx ++ ofChar ' ' :: (f.word ++ ofChar ' ' :: cstr rest) := by
    rw [cstr_append_of_not_mem f.zero_not_mem_header, WriteFrame.header]
    simp
  have hidx := strstr_blank (f.not_mem_idx (b := ofChar ' ') (by decide))
    (f.word ++ ofChar ' ' :: cstr rest)
  have hword := strstr_blank (f.not_mem_word (b := ofChar ' ') (by decide) (by decide)) (cstr rest)
  have hnum : strcpySec f.word lldigits ≠ [] := by
    rw [strcpySec, ne_eq, List.take_eq_nil_iff, not_or]
    exact ⟨by decide, f.word_ne⟩
  have hdrop : (f.header ++ rest).drop (f.idx.length + 1 + f.word.length + 1) = rest := by
    rw [List.drop_left' (by simp [WriteFrame.header]; omega)]
  have hcall : xs1WriteCall (f.header ++ rest) =
      demand (decide (0 ≤ f.read ∧ f.read ≤ writeMax))
        (lit "XS1 15 : Invalid size value for write.") >>= fun _ =>
          .ok (.write (rest.take f.read.toNat)) := by
    simp only [xs1WriteCall, htext, hidx, hword, hdrop, need, checks_ok_bind]
    rw [demand, if_pos (by simpa using hnum), checks_ok_bind]
    rfl
  rw [hcall, demand]
  by_cases hsize : 0 ≤ f.read ∧ f.read ≤ writeMax
  · rw [if_pos (by simpa using hsize), if_pos hsize, checks_ok_bind]
  · rw [if_neg (by simpa using hsize), if_neg hsize, checks_refuse_bind]

/-- The index, when it is in the buffer. -/
theorem xs1Chkidx_header (fds : List ℤ) (f : WriteFrame) (rest : List Byte) :
    xs1Chkidx fds (f.header ++ rest) =
      xs1ChkidxInt64 fds (cint (strtol (strcpySec f.idx lldigits))) := by
  have htext : cstr (f.header ++ rest) =
      f.idx ++ ofChar ' ' :: (f.word ++ ofChar ' ' :: cstr rest) := by
    rw [cstr_append_of_not_mem f.zero_not_mem_header, WriteFrame.header]
    simp
  have hne : strcpySec (cstr (f.header ++ rest)) lldigits ≠ [] := by
    rw [htext, strcpySec, ne_eq, List.take_eq_nil_iff, not_or]
    exact ⟨by decide, by simp⟩
  have hread : strtol (strcpySec (cstr (f.header ++ rest)) lldigits) =
      strtol (strcpySec f.idx lldigits) := by
    have hself := @strtol_strcpySec f.idx f.idx_ne f.idx_digits [] (by simp)
    rw [List.append_nil] at hself
    rw [htext, hself]
    refine strtol_strcpySec f.idx_ne f.idx_digits fun b hb => ?_
    obtain rfl : ofChar ' ' = b := Option.some.inj hb
    decide
  rw [xs1Chkidx, if_neg hne, xs1Number, hread]

/-- Without a second blank there is no call. -/
theorem xs1WriteCall_cut (f : WriteFrame) {mem : List Byte} {k : ℕ} (hk : k < f.header.length)
    (h : cstr mem = f.header.take k) : ∃ reply, xs1WriteCall mem = .error reply := by
  have hcut : cstr mem = (f.idx ++ ofChar ' ' :: f.word).take k := by
    have hheader : f.header = (f.idx ++ ofChar ' ' :: f.word) ++ [ofChar ' '] := by
      simp [WriteFrame.header]
    rw [hheader, List.length_append, List.length_singleton] at hk
    rw [h, hheader, List.take_append_of_le_length (by omega)]
  by_cases hidx : k ≤ f.idx.length
  · rw [List.take_append_of_le_length hidx] at hcut
    have hnone : strstr (lit " ") (cstr mem) = none := by
      rw [hcut]
      exact strstr_no_blank fun hmem =>
        f.not_mem_idx (b := ofChar ' ') (by decide) (List.mem_of_mem_take hmem)
    exact ⟨_, by simp only [xs1WriteCall, hnone, need, checks_refuse_bind]; rfl⟩
  · obtain ⟨j, rfl⟩ : ∃ j, k = f.idx.length + (j + 1) := ⟨k - f.idx.length - 1, by omega⟩
    rw [List.take_length_add_append, List.take_succ_cons] at hcut
    have hfirst := strstr_blank (f.not_mem_idx (b := ofChar ' ') (by decide)) (f.word.take j)
    have hsecond : strstr (lit " ") (f.word.take j) = none :=
      strstr_no_blank fun hmem =>
        f.not_mem_word (b := ofChar ' ') (by decide) (by decide) (List.mem_of_mem_take hmem)
    exact ⟨_, by
      simp only [xs1WriteCall, hcut, hfirst, hsecond, need, checks_ok_bind, checks_refuse_bind]
      rfl⟩

section

variable (s : Xs1) (f : WriteFrame) (blk : Bool) {left : List Byte} (beyond : List Byte) (a : FdAns)

/-- What lies behind the numbers in memory. -/
def behind (f : WriteFrame) (blk : Bool) (left beyond : List Byte) : List Byte :=
  (frameBuf blk left f.bytes).drop f.off ++ beyond

/-- The memory behind the command name, if the numbers lie in the buffer. -/
theorem drop_frameBuf (hleft : left.length = commbuflen) (hoff : f.off < commbuflen) :
    (frameBuf blk left f.bytes ++ beyond).drop (lit "XS1_WRITE ").length =
      f.header ++ behind f blk left beyond := by
  have hstart : (frameBuf blk left f.bytes).take f.off = lit "XS1_WRITE " ++ f.header := by
    rw [take_frameBuf hleft (by rw [f.length_bytes]; omega) (by omega), f.take_off_bytes]
  have hsplit : frameBuf blk left f.bytes =
      lit "XS1_WRITE " ++ (f.header ++ (frameBuf blk left f.bytes).drop f.off) := by
    rw [← List.append_assoc, ← hstart, List.take_append_drop]
  rw [hsplit, List.append_assoc, List.drop_left, List.append_assoc]
  rfl

/-- **What is written**, if the numbers lie in the buffer. -/
theorem written_eq (hleft : left.length = commbuflen) (hoff : f.off < commbuflen) :
    written (xs1WriteOut s f blk left beyond a) a =
      if (xs1ChkidxInt64 s.fds (cint (strtol (strcpySec f.idx lldigits)))).isSome ∧
          0 ≤ f.read ∧ f.read ≤ writeMax
      then (behind f blk left beyond).take (min f.read.toNat a.ret.toNat) else [] := by
  rw [xs1WriteOut, drop_frameBuf f blk beyond hleft hoff, xs1OnFd, xs1Chkidx_header]
  cases xs1ChkidxInt64 s.fds (cint (strtol (strcpySec f.idx lldigits))) with
  | none => simp [written]
  | some i =>
    simp only [FdCmd.call, xs1WriteCall_header, Option.isSome_some, true_and]
    by_cases hsize : 0 ≤ f.read ∧ f.read ≤ writeMax
    · simp only [if_pos hsize, written, List.take_take, Nat.min_comm]
    · simp only [if_neg hsize, refuse, written]

/-- As much is written as the size says, or as `write` does, whatever there is. -/
theorem length_written (hleft : left.length = commbuflen) (hoff : f.off < commbuflen)
    (hbeyond : writeMax ≤ beyond.length)
    (hidx : (xs1ChkidxInt64 s.fds (cint (strtol (strcpySec f.idx lldigits)))).isSome = true)
    (hpos : 0 ≤ f.read) (hmax : f.read ≤ writeMax) :
    (written (xs1WriteOut s f blk left beyond a) a).length = min f.read.toNat a.ret.toNat := by
  rw [written_eq s f blk beyond a hleft hoff, if_pos ⟨hidx, hpos, hmax⟩, List.length_take, behind,
    List.length_append]
  omega

/-- Nothing is written, if the numbers fill the buffer. -/
theorem written_cut (hleft : left.length = commbuflen) (hoff : commbuflen ≤ f.off) :
    written (xs1WriteOut s f blk left beyond a) a = [] := by
  have hpos : 0 < commbuflen := by decide
  have hname : (lit "XS1_WRITE ").length ≤ commbuflen - 1 := by decide
  obtain ⟨k, hk⟩ := Nat.exists_eq_add_of_le hname
  have hcut : k < f.header.length := by
    rw [f.off_eq] at hoff
    omega
  have hlast := @frameBuf_last blk left f.bytes hleft
  obtain ⟨hlt, hzero⟩ := List.getElem?_eq_some_iff.mp hlast
  have hstart : (frameBuf blk left f.bytes).take (commbuflen - 1) =
      lit "XS1_WRITE " ++ f.header.take k := by
    rw [take_frameBuf hleft (by rw [f.length_bytes]; omega) le_rfl, hk, f.bytes_eq,
      List.append_assoc, List.take_length_add_append, List.take_append_of_le_length (by omega)]
  have hsplit : frameBuf blk left f.bytes = lit "XS1_WRITE " ++
      (f.header.take k ++ 0 :: (frameBuf blk left f.bytes).drop (commbuflen - 1 + 1)) := by
    rw [← List.append_assoc, ← hstart, ← hzero, ← List.drop_eq_getElem_cons hlt,
      List.take_append_drop]
  have htext : cstr ((frameBuf blk left f.bytes ++ beyond).drop (lit "XS1_WRITE ").length) =
      f.header.take k := by
    rw [hsplit, List.append_assoc, List.drop_left, List.append_assoc, List.cons_append]
    exact cstr_of_not_mem (fun hmem => f.zero_not_mem_header (List.mem_of_mem_take hmem)) _
  obtain ⟨reply, hcall⟩ := xs1WriteCall_cut f hcut htext
  rw [xs1WriteOut, xs1OnFd]
  cases xs1Chkidx s.fds _ with
  | none => rfl
  | some i =>
    simp only [FdCmd.call, hcall]
    rfl

/-! ### The payload in the buffer -/

/-- The memory behind the numbers begins with the payload, up to the last byte of the
buffer. -/
theorem take_behind (hleft : left.length = commbuflen) {n : ℕ} (hn : n ≤ f.payload.length)
    (hlast : f.off + n ≤ commbuflen - 1) :
    (behind f blk left beyond).take n = f.payload.take n := by
  have hlen := @le_length_frameBuf blk left f.bytes hleft
  have htake : (frameBuf blk left f.bytes).take (f.off + n) = f.bytes.take (f.off + n) :=
    take_frameBuf hleft (by rw [f.length_bytes]; omega) hlast
  have hdrop := congrArg (List.drop f.off) htake
  rw [List.drop_take, List.drop_take, Nat.add_sub_cancel_left, f.drop_off_bytes] at hdrop
  rw [behind, List.take_append_of_le_length (by rw [List.length_drop]; omega), hdrop]

/-- The last byte of the buffer. -/
theorem behind_last (hleft : left.length = commbuflen) {n : ℕ} (hn : f.off + n = commbuflen - 1) :
    (behind f blk left beyond)[n]? = some 0 := by
  have hlast := @frameBuf_last blk left f.bytes hleft
  obtain ⟨hlt, -⟩ := List.getElem?_eq_some_iff.mp hlast
  rw [behind, List.getElem?_append_left (by rw [List.length_drop]; omega), List.getElem?_drop, hn]
  exact hlast

/-! ### The condition -/

/-- The size, as far as it is read, if it has at most 21 digits. -/
theorem WriteFrame.read_eq_value (hneg : f.neg = false) (hlen : f.word.length < lldigits)
    (hmax : f.read ≤ writeMax) : f.read = f.value := by
  have hword : f.word = f.size := by simp [WriteFrame.word, hneg]
  have hbound : (writeMax : ℤ) < 2 ^ 63 - 1 := by decide
  have hread := f.read_eq hneg
  rw [hword] at hlen
  rw [List.take_of_length_le (by omega)] at hread
  rw [WriteFrame.value]
  omega

/-- A number that is cut off is smaller by a factor of ten. -/
theorem WriteFrame.read_lt_value (hneg : f.neg = false) (hlen : lldigits ≤ f.word.length)
    (hpos : 0 < f.read) : f.read < f.value := by
  have hword : f.word = f.size := by simp [WriteFrame.word, hneg]
  rw [hword] at hlen
  have hread := f.read_eq hneg
  have hcut : lldigits - 1 < f.size.length := by
    have : 0 < lldigits := by decide
    omega
  have hten := digitsVal_append_digit (f.size.take (lldigits - 1)) f.size[lldigits - 1]
  rw [List.take_append_getElem hcut] at hten
  have hmono := digitsVal_le_append (f.size.take (lldigits - 1 + 1)) (f.size.drop (lldigits - 1 + 1))
  rw [List.take_append_drop] at hmono
  rw [WriteFrame.value]
  omega

/-- **The payload that has arrived, in the buffer, is written.** -/
theorem take_behind_of_room (hleft : left.length = commbuflen)
    (hsize : f.value ≤ f.payload.length)
    (hroom : f.off + f.value < commbuflen ∨
      f.off + f.value = commbuflen ∧ f.payload[f.value - 1]? = some 0) :
    (behind f blk left beyond).take f.value = f.payload.take f.value := by
  rcases hroom with hlt | ⟨hlast, hzero⟩
  · exact take_behind f blk beyond hleft hsize (by omega)
  · -- the last byte is the terminator
    cases hv : f.value with
    | zero => rfl
    | succ n =>
      rw [hv] at hsize hlast hzero
      rw [List.take_add_one, List.take_add_one, take_behind f blk beyond hleft (by omega) (by omega),
        behind_last f blk beyond hleft (by omega), ← hzero, Nat.add_sub_cancel]

/-- If the payload is written, there is room for it. -/
theorem room_of_writesPayload (hleft : left.length = commbuflen) (hbeyond : writeMax ≤ beyond.length)
    (hoff : f.off < commbuflen) (h : WritesPayload s f blk left beyond a) : WriteRoom s f a := by
  by_contra hroom
  unfold WriteRoom at hroom
  simp only [not_or, not_le, not_lt] at hroom
  obtain ⟨hidx, -, hread, hmax, hret, hroom⟩ := hroom
  have hslot := Option.ne_none_iff_isSome.mp hidx
  have hwritten := written_eq s f blk beyond a hleft hoff
  rw [if_pos ⟨hslot, by omega, hmax⟩] at hwritten
  have hlen := length_written s f blk beyond a hleft hoff hbeyond hslot (by omega) hmax
  have hne : written (xs1WriteOut s f blk left beyond a) a ≠ [] := by
    rw [ne_eq, ← List.length_eq_zero_iff, hlen]
    omega
  obtain ⟨hneg, hpayload, hsize, hin⟩ := h hne
  have hvalue : f.value = min f.read.toNat a.ret.toNat := by
    rw [← hlen, hpayload, List.length_take]
    omega
  have hdigits : f.word.length < lldigits := by
    by_contra hlong
    have := f.read_lt_value hneg (Nat.not_lt.mp hlong) hread
    omega
  refine hroom ⟨hdigits, hsize, by omega, ?_⟩
  rw [hlen, ← hvalue] at hin
  rcases Nat.lt_or_eq_of_le hin with hlt | hlast
  · exact .inl hlt
  · -- the last byte that was written is the terminator of the buffer
    refine .inr ⟨hlast, ?_⟩
    rw [hwritten, ← hvalue] at hpayload
    have hzero := behind_last f blk beyond hleft
      (show f.off + (f.value - 1) = commbuflen - 1 by omega)
    have hget := congrArg (·[f.value - 1]?) hpayload
    simp only [List.getElem?_take_of_lt (show f.value - 1 < f.value by omega)] at hget
    rw [← hget, hzero]

/-- Where there is room, the payload is written. -/
theorem writesPayload_of_room (hleft : left.length = commbuflen) (hoff : f.off < commbuflen)
    (hroom : WriteRoom s f a) : WritesPayload s f blk left beyond a := by
  intro hne
  have hwritten := written_eq s f blk beyond a hleft hoff
  rw [hwritten] at hne
  split at hne
  next hcond =>
    obtain ⟨hidx, -, hmax⟩ := hcond
    have hpos : 0 < min f.read.toNat a.ret.toNat := by
      by_contra hzero
      exact hne (by rw [Nat.eq_zero_of_not_pos hzero, List.take_zero])
    rcases hroom with hnone | hfull | hread | hlarge | hret | ⟨hdigits, hsize, hret, hroom⟩
    · rw [hnone] at hidx
      cases hidx
    · omega
    · omega
    · omega
    · omega
    have hneg : f.neg = false := by
      by_contra hminus
      have := f.read_neg (by simpa using hminus)
      omega
    have hread := f.read_eq_value hneg hdigits hmax
    have hmin : min f.read.toNat a.ret.toNat = f.value := by omega
    have hpayload := take_behind_of_room f blk beyond hleft hsize hroom
    rw [hwritten, if_pos ⟨hidx, by omega, hmax⟩, hmin, hpayload]
    refine ⟨hneg, rfl, hsize, ?_⟩
    rw [List.length_take]
    omega
  next => exact absurd rfl hne

/-- **`XS1_WRITE` writes the payload**, whatever was left in the buffer and lies behind it, if
and only if there is room for it. -/
theorem xs1_write_iff (hleft : left.length = commbuflen) (hbeyond : writeMax ≤ beyond.length) :
    WritesPayload s f blk left beyond a ↔ WriteRoom s f a := by
  by_cases hoff : f.off < commbuflen
  · exact ⟨room_of_writesPayload s f blk beyond a hleft hbeyond hoff,
      writesPayload_of_room s f blk beyond a hleft hoff⟩
  · have hnone := written_cut s f blk beyond a hleft (Nat.not_lt.mp hoff)
    exact ⟨fun _ => .inr (.inl (Nat.not_lt.mp hoff)), fun _ h => absurd hnone h⟩

end

/-- A table with a descriptor in slot `0`. -/
def exampleXs1 : Xs1 := ⟨[5], fun fd => fd = 5⟩

theorem exampleIdx : lit "00" ≠ [] ∧ ∀ d ∈ lit "00", isDigit d = true :=
  ⟨by decide, List.all_eq_true.mp (by decide)⟩

/-- A frame with the payload `abc`. -/
def exampleWrite (size : List Byte) (hsize : size ≠ [] ∧ ∀ d ∈ size, isDigit d = true) :
    WriteFrame :=
  ⟨lit "00", false, size, lit "abc", exampleIdx.1, hsize.1, exampleIdx.2, hsize.2⟩

/-- Letters that were left in the buffer, and lie behind it. -/
def letters (n : ℕ) : List Byte := List.replicate n (ofChar 'x')

/-- `XS1_WRITE 00 003 abc` writes all of its payload. -/
theorem xs1_write_three :
    let f := exampleWrite (lit "003") (by decide)
    let out := xs1WriteOut exampleXs1 f false (letters commbuflen) (letters writeMax)
      ⟨3, 0, [], true⟩
    (written out ⟨3, 0, [], true⟩).length = 3 ∧
      WritesPayload exampleXs1 f false (letters commbuflen) (letters writeMax) ⟨3, 0, [], true⟩ := by
  refine ⟨?_, (xs1_write_iff _ _ _ _ _ (by simp [letters]) (by simp [letters])).mpr ?_⟩
  · exact length_written exampleXs1 _ _ _ _ (by simp [letters]) (by decide) (by simp [letters])
      (by decide) (by decide) (by decide)
  · exact .inr (.inr (.inr (.inr (.inr ⟨by decide, by decide, by decide, .inl (by decide)⟩))))

/-- `XS1_WRITE 00 100 abc`: three bytes have arrived, and a hundred are written. -/
theorem xs1_write_stale :
    let f := exampleWrite (lit "100") (by decide)
    let out := xs1WriteOut exampleXs1 f false (letters commbuflen) (letters writeMax)
      ⟨100, 0, [], true⟩
    (written out ⟨100, 0, [], true⟩).length = 100 ∧
      ¬ WritesPayload exampleXs1 f false (letters commbuflen) (letters writeMax)
        ⟨100, 0, [], true⟩ := by
  intro f out
  have hlen : (written out ⟨100, 0, [], true⟩).length = 100 :=
    length_written exampleXs1 f _ _ _ (by simp [letters]) (by decide) (by simp [letters])
      (by decide) (by decide) (by decide)
  refine ⟨hlen, fun h => ?_⟩
  obtain ⟨-, -, hsize, -⟩ := h fun hnil => absurd (hnil ▸ hlen) (by decide)
  exact absurd hsize (by decide)

end TFProtocol
