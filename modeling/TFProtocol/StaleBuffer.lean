import TFProtocol.Lib.Residue
import TFProtocol.Server

/-!
# Commands and what was left in the buffer

Every frame is received into `comm.buf`, where replies, ciphertext and earlier frames
were before.  `readbuf` stores a terminator behind the announced length and `cmdifce`
stores one more in block mode, and then `cmd_parse` reads the name and a handler reads
the text one byte behind the name, whether or not the frame reaches that far.

The stores of one frame are those of a `Residue`: `frameMem` is the buffer with a gap
wherever the frame left something alone.

## Main definitions

* `argUse` — how a handler finds its argument.
* `cmdView` — the name `cmd_parse` dispatches on and the argument the handler reads.
* `FrameOnly` — both are the same whatever was left in the buffer.
* `ownBytes` — what a frame puts at the start of the buffer, up to the first byte it
  leaves alone.

## Main results

* `frame_only_iff` — a command depends on its frame only, exactly when its own bytes
  hold the end of what is read.
-/

namespace TFProtocol

open Bytes CStr Residue

/-! ### What a command reads -/

/-- How a handler finds its argument in `comm.buf`. -/
inductive ArgUse
  /-- It reads none. -/
  | absent
  /-- It reads the C string one byte behind the name. -/
  | behind
  /-- It reads the text of the whole buffer from there on, as `cmd_echo` does. -/
  | within
  deriving DecidableEq, Repr

/-- The commands of `xs1_parse` with an argument; the two others read a header of their
own. -/
def xs1Args : List (List Byte) :=
  [lit "XS1_OPEN", lit "XS1_CLOSE", lit "XS1_TRUNC", lit "XS1_SEEK", lit "XS1_LOCK",
   lit "XS1_READ", lit "XS1_WRITE"]

/-- The argument a handler reads for a command. -/
def argUse (cmd : List Byte) : Handler → ArgUse
  | .endcomm | .prockey | .date | .datef | .freesp | .udate | .ndate | .tlb | .gettz
  | .localtime | .goaes | .genuuid | .tfpcrypto | .faimq | .ciaon | .ciaoff | .xsime
  | .xsNtmex | .xsSqlite | .xsAce | .xsMysql | .xsPostgresql | .xsGateway | .xsRpcproxy => .absent
  | .xs1 => if xs1Args.contains cmd then .behind else .absent
  | .echo => .within
  | _ => .behind

/-- The argument in the buffer, `off` bytes from its start. -/
def readArg (buf : List Byte) (off : ℕ) : ArgUse → Option (List Byte)
  | .absent => none
  | .behind => some (cstr (buf.drop off))
  | .within => some ((cstr buf).drop off)

/-- How the handler that `cmd_parse` selects finds its argument, if it selects one. -/
def selected (g : Gates) (cmd : List Byte) : ArgUse :=
  match cmdParse g cmd with
  | .run h => argUse cmd h
  | _ => .absent

/-- What `cmd_parse` and the handler it selects read: the name and the argument. -/
def cmdView (g : Gates) (buf : List Byte) : List Byte × Option (List Byte) :=
  let cmd := cmdtoupper (excmd buf)
  (cmd, readArg buf (cmd.length + 1) (selected g cmd))

section Layer

variable (o : Endian) (aes : Aes)

/-- `comm.buf` when `cmdifce` calls `cmd_parse`, if it does: the next frame of a session
is received over what is left in the buffer. -/
def bufAt (s : Sess) (left : List Byte) : Option (List Byte) :=
  let r := readbuf o aes { s with buf := left }
  if r.ret = -1 then none else some (terminate r.sess r.ret.toNat).buf

/-- Whatever two earlier sessions left in `comm.buf`, the next frame means the same
command with the same argument. -/
def FrameOnly (g : Gates) (s : Sess) : Prop :=
  ∀ left left' : List Byte, left.length = commbuflen → left'.length = commbuflen →
    (bufAt o aes s left).map (cmdView g) = (bufAt o aes s left').map (cmdView g)

/-! ### The stores of a frame -/

/-- `comm.buf` after a frame, with a gap where it holds what was left there: the
terminator of `readbuf` for the announced length, the body, and the terminators of
`cmdifce` for the value `readbuf` returned. -/
def frameMem (blk : Bool) (n ret : ℤ) (body : List Byte) : List (Option Byte) :=
  let m := List.replicate commbuflen none
  let m := if 0 ≤ n ∧ n < commbuflen then m.set n.toNat (some 0) else m
  let m := body.map some ++ m.drop body.length
  let m := m.set (commbuflen - 1) (some 0)
  if blk then m.set (min ret.toNat (commbuflen - 1)) (some 0) else m

/-- What the next frame puts at the start of `comm.buf`, up to the first byte it leaves
alone. -/
def ownBytes (s : Sess) : List Byte :=
  let r := readbuf o aes s
  front (frameMem r.sess.blkstatus (announced o aes s) r.ret r.got)

/-- The bytes hold the end of the name: a separator, a NUL, or the last byte a name can
have. -/
def NameEnds (own : List Byte) : Prop := 0 ∈ own ∨ blank ∈ own ∨ cmdNamelen - 1 ≤ own.length

/-- The bytes hold the end of the argument. -/
def ArgEnds (own : List Byte) (off : ℕ) : ArgUse → Prop
  | .absent => True
  | .behind => 0 ∈ own.drop off
  | .within => 0 ∈ own

/-- The bytes hold the end of everything that is read of them. -/
def Settled (g : Gates) (own : List Byte) : Prop :=
  NameEnds own ∧
    let cmd := cmdtoupper (excmd own)
    ArgEnds own (cmd.length + 1) (selected g cmd)

instance (own : List Byte) : Decidable (NameEnds own) := inferInstanceAs (Decidable (_ ∨ _ ∨ _))

instance (own : List Byte) (off : ℕ) : ∀ use, Decidable (ArgEnds own off use)
  | .absent => .isTrue trivial
  | .behind => inferInstanceAs (Decidable (_ ∈ _))
  | .within => inferInstanceAs (Decidable (_ ∈ _))

instance (g : Gates) (own : List Byte) : Decidable (Settled g own) :=
  inferInstanceAs (Decidable (_ ∧ ArgEnds _ _ _))

end Layer

/-! ### Receiving over a residue -/

variable {o : Endian} {aes : Aes}

/-- A receive over another buffer. -/
def Rcv.over (r : Rcv) (buf : List Byte) : Rcv := { r with sess := { r.sess with buf := buf } }

theorem rdfd_over (s : Sess) (buf : List Byte) (len : ℤ) :
    rdfd { s with buf := buf } len = (rdfd s len).over buf := rfl

theorem streamRead_over (s : Sess) (buf : List Byte) (len : ℤ) (enc : Bool) :
    streamRead o { s with buf := buf } len enc = (streamRead o s len enc).over buf := by
  simp only [streamRead, rdfd_over]
  show (if (rdfd s len).ret = -1 then _ else if (enc && (rdfd s len).sess.crypRx.hasEncrypt) = true
    then _ else _) = _
  split
  · rfl
  · split <;> rfl

theorem blkRead_over (s : Sess) (buf : List Byte) (len : ℕ) :
    blkRead aes { s with buf := buf } len = (blkRead aes s len).over buf := by
  simp only [blkRead, rdfd_over]
  show (if (rdfd s (aesLen len)).ret = -1 then _ else _) = _
  split <;> rfl

theorem blkRcvbuf_over (s : Sess) (buf : List Byte) (len : ℤ) :
    blkRcvbuf aes { s with buf := buf } len = (blkRcvbuf aes s len).over buf := by
  have htok := @blkRead_over aes { s with ciaSend := false } buf
  simp only [blkRcvbuf]
  split
  · rfl
  · split
    · split
      · exact htok _
      · simp only [htok]
        show (if (blkRead aes { s with ciaSend := false } 36).ret = -1 then _
          else if s.cia = cstr (overlay (List.replicate 37 0)
            (blkRead aes { s with ciaSend := false } 36).got) then _ else _) = _
        split
        · rfl
        · split
          · exact blkRead_over _ _ _
          · rfl
    · exact blkRead_over _ _ _

/-- What `rcvbuf` does has nothing to do with `comm.buf`. -/
theorem rcvbuf_over (s : Sess) (buf : List Byte) (len : ℤ) (enc : Bool) :
    rcvbuf o aes { s with buf := buf } len enc = (rcvbuf o aes s len enc).over buf := by
  simp only [rcvbuf]
  split
  · exact blkRcvbuf_over _ _ _
  · split
    · simp only [streamRead_over]
      show (if (streamRead o s 36 enc).ret = -1 then _
        else if s.cia = cstr (streamRead o s 36 enc).got then _ else _) = _
      split
      · rfl
      · split
        · exact streamRead_over _ _ _ _
        · rfl
    · exact streamRead_over _ _ _ _

theorem readHdr_over (s : Sess) (buf : List Byte) :
    readHdr o aes { s with buf := buf } = (readHdr o aes s).over buf := by
  simp only [readHdr, rcvbuf_over]
  rfl

theorem readBody_over (s : Sess) (buf : List Byte) (len : ℤ) :
    readBody o aes { s with buf := buf } len = (readBody o aes s len).over
      (overlay (if 0 ≤ len ∧ len < commbuflen then buf.set len.toNat 0 else buf)
        (readBody o aes s len).got) := by
  simp only [readBody]
  split
  · simp only [rcvbuf_over]
    rfl
  · simp only [rcvbuf_over]
    rfl

theorem readbuf_over (s : Sess) (left : List Byte) :
    ∃ buf, readbuf o aes { s with buf := left } = (readbuf o aes s).over buf ∧
      ((readbuf o aes s).ret ≠ -1 →
        buf = overlay (if 0 ≤ announced o aes s ∧ announced o aes s < commbuflen
          then left.set (announced o aes s).toNat 0 else left) (readbuf o aes s).got) := by
  by_cases hhdr : (readHdr o aes s).ret = -1
  · have hret : (readbuf o aes s).ret = -1 := by simp only [readbuf, hhdr, if_true]
    refine ⟨left, ?_, fun h => absurd hret h⟩
    simp only [readbuf, readHdr_over]
    show (if (readHdr o aes s).ret = -1 then _ else _) = _
    rw [if_pos hhdr, if_pos hhdr]
    rfl
  · have hread : readbuf o aes s
        = readBody o aes (readHdr o aes s).sess (announced o aes s) := by
      simp only [readbuf, hhdr, if_false]
      rfl
    refine ⟨_, ?_, fun _ => rfl⟩
    rw [hread]
    simp only [readbuf, readHdr_over]
    show (if (readHdr o aes s).ret = -1 then _ else _) = _
    rw [if_neg hhdr]
    exact readBody_over (readHdr o aes s).sess left (announced o aes s)

/-- The memory a frame leaves, over a given residue. -/
theorem fill_frameMem (blk : Bool) (n ret : ℤ) (body : List Byte) {left : List Byte}
    (hleft : left.length = commbuflen) :
    fill (frameMem blk n ret body) left =
      let buf := (overlay (if 0 ≤ n ∧ n < commbuflen then left.set n.toNat 0 else left) body).set
        (commbuflen - 1) 0
      if blk then buf.set (min ret.toNat (commbuflen - 1)) 0 else buf := by
  have hlast : commbuflen - 1 < left.length := by rw [hleft]; decide
  have hcut : min ret.toNat (commbuflen - 1) < left.length := by omega
  have hnone : fill (List.replicate commbuflen none) left = left := by
    rw [← hleft, fill_replicate_none]
  have hbody : fill (body.map some ++ (if 0 ≤ n ∧ n < commbuflen
        then (List.replicate commbuflen none).set n.toNat (some 0)
        else List.replicate commbuflen none).drop body.length) left
      = overlay (if 0 ≤ n ∧ n < commbuflen then left.set n.toNat 0 else left) body := by
    rw [fill_some_append, fill_drop _ _ _ (by split <;> simp [hleft]), overlay]
    split
    · rw [fill_set _ _ _ _ (by omega), hnone]
    · rw [hnone]
  cases blk with
  | false =>
    show fill (List.set _ _ _) left = _
    rw [fill_set _ _ _ _ hlast, hbody]
    rfl
  | true =>
    show fill (List.set (List.set _ _ _) _ _) left = _
    rw [fill_set _ _ _ _ hcut, fill_set _ _ _ _ hlast, hbody]
    rfl

/-- **The buffer after a frame** is what the frame stored over what was left. -/
theorem bufAt_eq {s : Sess} (h : (readbuf o aes s).ret ≠ -1) {left : List Byte}
    (hleft : left.length = commbuflen) :
    bufAt o aes s left = some (fill (frameMem (readbuf o aes s).sess.blkstatus
      (announced o aes s) (readbuf o aes s).ret (readbuf o aes s).got) left) := by
  obtain ⟨buf, hover, hbuf⟩ := @readbuf_over o aes s left
  rw [fill_frameMem _ _ _ _ hleft, ← hbuf h]
  simp only [bufAt, hover]
  show (if (readbuf o aes s).ret = -1 then _ else _) = _
  rw [if_neg h]
  rfl

/-- A frame that cannot be received is no command, whatever the buffer holds. -/
theorem bufAt_eq_none {s : Sess} (h : (readbuf o aes s).ret = -1) (left : List Byte) :
    bufAt o aes s left = none := by
  obtain ⟨buf, hover, -⟩ := @readbuf_over o aes s left
  simp only [bufAt, hover]
  show (if (readbuf o aes s).ret = -1 then _ else _) = _
  rw [if_pos h]

/-! ### Where the stores of a frame end -/

theorem frameMem_last (blk : Bool) (n ret : ℤ) (body : List Byte) :
    (frameMem blk n ret body)[commbuflen - 1]? = some (some 0) := by
  have hlen : ∀ m : List (Option Byte), commbuflen ≤ m.length →
      (m.set (commbuflen - 1) (some 0))[commbuflen - 1]? = some (some 0) := by
    intro m hm
    have hpos : 0 < commbuflen := by decide
    exact List.getElem?_set_self (by omega)
  have hm : commbuflen ≤ (body.map some ++ (if 0 ≤ n ∧ n < commbuflen
      then (List.replicate commbuflen (none : Option Byte)).set n.toNat (some 0)
      else List.replicate commbuflen none).drop body.length).length := by
    split <;> simp only [List.length_append, List.length_map, List.length_drop, List.length_set,
      List.length_replicate] <;> omega
  cases blk with
  | false => exact hlen _ hm
  | true =>
    show (List.set (List.set _ _ _) _ _)[commbuflen - 1]? = _
    by_cases hcut : min ret.toNat (commbuflen - 1) = commbuflen - 1
    · rw [hcut]
      exact hlen _ (by simpa using hm)
    · rw [List.getElem?_set_ne hcut]
      exact hlen _ hm

/-- There is no gap behind the buffer. -/
theorem frameMem_gap {blk : Bool} {n ret : ℤ} {body : List Byte} {i : ℕ}
    (h : (frameMem blk n ret body)[i]? = some none) : i < commbuflen := by
  have hset : ∀ (m : List (Option Byte)) (j : ℕ), (m.set j (some 0))[i]? = some none →
      m[i]? = some none := by
    intro m j hm
    rw [List.getElem?_set] at hm
    split at hm
    · split at hm <;> cases hm
    · exact hm
  have hbody : (body.map some ++ (if 0 ≤ n ∧ n < commbuflen
      then (List.replicate commbuflen none).set n.toNat (some 0)
      else List.replicate commbuflen none).drop body.length)[i]? = some none := by
    cases blk with
    | false => exact hset _ _ h
    | true => exact hset _ _ (hset _ _ h)
  rw [List.getElem?_append] at hbody
  split at hbody
  · simp at hbody
  · rw [List.getElem?_drop] at hbody
    obtain ⟨hlt, -⟩ := List.getElem?_eq_some_iff.mp hbody
    split at hlt
    · simp at hlt; omega
    · simp at hlt; omega

/-- The bytes a frame stores at the start hold a NUL behind every short offset, or end at
a gap in the buffer. -/
theorem frameMem_cases (blk : Bool) (n ret : ℤ) (body : List Byte) {j : ℕ}
    (hj : j < commbuflen) :
    0 ∈ (front (frameMem blk n ret body)).drop j ∨
      (front (frameMem blk n ret body)).length < commbuflen ∧
        ∃ m', (frameMem blk n ret body).drop (front (frameMem blk n ret body)).length
          = none :: m' := by
  obtain ⟨-, hall | ⟨m', hgap⟩⟩ := eq_front_append (frameMem blk n ret body)
  · left
    have hlast := frameMem_last blk n ret body
    have hlt := (List.getElem?_eq_some_iff.mp hlast).1
    exact mem_front_drop (i := commbuflen - 1)
      (lt_of_lt_of_le hlt (List.drop_eq_nil_iff.mp hall)) (by omega) hlast
  · right
    refine ⟨@frameMem_gap blk n ret body _ ?_, m', hgap⟩
    rw [← List.head?_drop, hgap]
    rfl

/-! ### Names -/

/-- A byte of a command name. -/
def nameByte (b : Byte) : Bool := b ≠ blank && b ≠ 0

theorem excmd_eq (mem : List Byte) :
    excmd mem = (mem.takeWhile nameByte).take (cmdNamelen - 1) := by
  have hp : (fun b : Byte => decide (b ≠ blank ∧ b ≠ 0)) = nameByte := by
    funext b
    simp [nameByte]
  rw [excmd, cstr, List.takeWhile_takeWhile]
  simp only [decide_eq_true_eq, hp]

theorem nameEnds_iff (own : List Byte) :
    NameEnds own ↔ (∃ b ∈ own, nameByte b = false) ∨ cmdNamelen - 1 ≤ own.length := by
  have hstop : (∃ b ∈ own, nameByte b = false) ↔ 0 ∈ own ∨ blank ∈ own := by
    constructor
    · rintro ⟨b, hb, hstop⟩
      by_cases hblank : b = blank
      · exact .inr (hblank ▸ hb)
      · have h0 : b = 0 := by simpa [nameByte, hblank] using hstop
        exact .inl (h0 ▸ hb)
    · rintro (h | h)
      · exact ⟨0, h, by simp [nameByte]⟩
      · exact ⟨blank, h, by simp [nameByte]⟩
  rw [hstop, NameEnds, or_assoc]

/-- A name that ends in the front is the same over every residue. -/
theorem excmd_fill {m : List (Option Byte)} (h : NameEnds (front m)) (left : List Byte) :
    excmd (fill m left) = excmd (front m) := by
  rw [excmd_eq, excmd_eq]
  by_cases hstop : ∃ b ∈ front m, nameByte b = false
  · have hscan := takeWhile_drop_fill (p := nameByte) (m := m) (j := 0) (by simpa using hstop) left
    rw [List.drop_zero, List.drop_zero] at hscan
    rw [hscan]
  · -- the name fills all the room there is for one
    have hall : ∀ b ∈ front m, nameByte b = true := by simpa using hstop
    have hlen : cmdNamelen - 1 ≤ (front m).length := by
      rcases (nameEnds_iff _).mp h with hb | hlen
      · exact absurd hb hstop
      · exact hlen
    rw [fill_eq_front_append, List.takeWhile_append_of_pos hall, List.take_append_of_le_length hlen,
      List.takeWhile_eq_self_iff.mpr hall]

/-- A constant residue, seen from the gap. -/
theorem replicate_drop {k : ℕ} (hk : k < commbuflen) (x : Byte) :
    (List.replicate commbuflen x).drop k = x :: List.replicate (commbuflen - k - 1) x := by
  rw [List.drop_replicate, show commbuflen - k = commbuflen - k - 1 + 1 by omega,
    List.replicate_succ]
  simp

/-- A scan that reaches the gap has one length over zeros and another over letters. -/
theorem scan_ne {p : Byte → Bool} {m m' : List (Option Byte)} {j : ℕ}
    (hj : j ≤ (front m).length) (h : ∀ x ∈ (front m).drop j, p x = true)
    (hk : (front m).length < commbuflen) (hgap : m.drop (front m).length = none :: m')
    (h0 : p 0 = false) (h1 : p 97 = true) :
    (((fill m (List.replicate commbuflen 0)).drop j).takeWhile p).length
        = (front m).length - j ∧
      (front m).length - j
        < (((fill m (List.replicate commbuflen 97)).drop j).takeWhile p).length := by
  rw [takeWhile_drop_gap hj h hgap (replicate_drop hk 0),
    takeWhile_drop_gap hj h hgap (replicate_drop hk 97), h0, h1]
  simp

/-- The names `cmd_parse` compares with are short. -/
theorem cmdParse_short {g : Gates} {cmd : List Byte} {h : Handler}
    (hrun : cmdParse g cmd = .run h) :
    cmd.length < cmdNamelen - 1 ∨ runXmods cmd = .run h := by
  have htable : ∀ e ∈ cmdTable, e.1.length < cmdNamelen - 1 := by
    simp only [cmdTable, lit_ofList]
    decide +kernel
  have hother : ∀ name ∈ [lit "END", lit "LOGIN", lit "KEEPALIVE", lit "PROCKEY", lit "INJAIL",
      lit "LOCKSYS", lit "FLYCONTEXT"], name.length < cmdNamelen - 1 := by
    simp only [lit_ofList]
    decide +kernel
  by_cases hlen : cmd.length < cmdNamelen - 1
  · exact .inl hlen
  · right
    have hne : ∀ name ∈ [lit "END", lit "LOGIN", lit "KEEPALIVE", lit "PROCKEY", lit "INJAIL",
        lit "LOCKSYS", lit "FLYCONTEXT"], cmd ≠ name := by
      rintro name hname rfl
      exact hlen (hother cmd hname)
    have hlook : cmdTable.lookup cmd = none := by
      rw [Option.eq_none_iff_forall_not_mem]
      intro hd hlook
      obtain ⟨l₁, l₂, hl, -⟩ := List.lookup_eq_some_iff.mp hlook
      exact hlen (htable (cmd, hd) (hl ▸ by simp))
    simp only [List.forall_mem_cons] at hne
    obtain ⟨hend, hlogin, hkeepalive, hprockey, hinjail, hlocksys, hflycontext, -⟩ := hne
    simp only [cmdParse, hlook, hend, hlogin, hkeepalive, hprockey, hinjail, hlocksys, hflycontext,
      if_false] at hrun
    split_ifs at hrun
    exact hrun

/-- The modules find their arguments in frames of their own, except for `XS1`. -/
theorem runXmods_absent {cmd : List Byte} {h : Handler} (hrun : runXmods cmd = .run h) :
    h = .xs1 ∨ argUse cmd h = .absent := by
  unfold runXmods at hrun
  dsimp only at hrun
  repeat' split at hrun
  all_goals cases hrun
  · exact .inl rfl
  all_goals exact .inr rfl

/-- Commands whose handler reads an argument have short names. -/
theorem length_of_selected {g : Gates} {cmd : List Byte} (h : selected g cmd ≠ .absent) :
    cmd.length < cmdNamelen - 1 := by
  have hxs1 : ∀ name ∈ xs1Args, name.length < cmdNamelen - 1 := by
    simp only [xs1Args, lit_ofList]
    decide +kernel
  unfold selected at h
  split at h
  · next hd hparse =>
    rcases cmdParse_short hparse with hshort | hx
    · exact hshort
    · rcases runXmods_absent hx with rfl | habsent
      · simp only [argUse] at h
        split at h
        · next hmem => exact hxs1 cmd (List.contains_iff_mem.mp hmem)
        · exact absurd rfl h
      · exact absurd habsent h
  · exact absurd rfl h

/-! ### Commands -/

@[simp] theorem length_cmdtoupper (cmd : List Byte) : (cmdtoupper cmd).length = cmd.length :=
  List.length_map ..

/-- A settled command is read in the front. -/
theorem cmdView_fill {g : Gates} {m : List (Option Byte)} (h : Settled g (front m))
    (left : List Byte) : cmdView g (fill m left) = cmdView g (front m) := by
  obtain ⟨hname, harg⟩ := h
  dsimp only at harg
  have hcmd := excmd_fill hname left
  simp only [cmdView, hcmd, Prod.mk.injEq, true_and]
  cases huse : selected g (cmdtoupper (excmd (front m))) with
  | absent => rfl
  | behind =>
    rw [huse] at harg
    exact congrArg some (takeWhile_drop_fill ⟨0, harg, by simp⟩ left)
  | within =>
    rw [huse] at harg
    have hscan : cstr (fill m left) = cstr (front m) :=
      takeWhile_drop_fill (j := 0) ⟨0, harg, by simp⟩ left
    show some _ = some _
    rw [hscan]

/-- A name that reaches the gap is not the same over every residue. -/
theorem nameEnds_of_same {g : Gates} {blk : Bool} {n ret : ℤ} {body : List Byte}
    (h : ∀ left left' : List Byte, left.length = commbuflen → left'.length = commbuflen →
      cmdView g (fill (frameMem blk n ret body) left)
        = cmdView g (fill (frameMem blk n ret body) left')) :
    NameEnds (front (frameMem blk n ret body)) := by
  rw [nameEnds_iff]
  by_contra hends
  obtain ⟨hstop, hlen⟩ := not_or.mp hends
  have hall : ∀ b ∈ (front (frameMem blk n ret body)).drop 0, nameByte b = true := by
    simpa using hstop
  rcases frameMem_cases blk n ret body (j := 0) (by decide) with h0 | ⟨hk, m', hgap⟩
  · have := hall 0 h0
    simp [nameByte] at this
  · obtain ⟨hzero, hletter⟩ := scan_ne (p := nameByte) (Nat.zero_le _) hall hk hgap (by decide)
      (by decide)
    have hview := congrArg (fun v => v.1.length) (h (List.replicate commbuflen 0)
      (List.replicate commbuflen 97) (by simp) (by simp))
    simp only [cmdView, length_cmdtoupper, excmd_eq, List.length_take] at hview
    rw [List.drop_zero] at hzero hletter
    omega

/-- A short name that ends in the front has its separator there. -/
theorem length_excmd_lt {own : List Byte} (h : NameEnds own)
    (hshort : (excmd own).length < cmdNamelen - 1) : (excmd own).length < own.length := by
  by_contra hle
  have hscan : (own.takeWhile nameByte).length ≤ own.length := (List.takeWhile_prefix _).length_le
  rw [excmd_eq, List.length_take] at hshort hle
  have heq : own.takeWhile nameByte = own :=
    List.IsPrefix.eq_of_length (List.takeWhile_prefix _) (by omega)
  rcases (nameEnds_iff own).mp h with ⟨b, hb, hstop⟩ | hlen
  · rw [List.takeWhile_eq_self_iff.mp heq b hb] at hstop
    cases hstop
  · rw [heq] at hshort
    omega

/-- An argument that reaches the gap is not the same over every residue. -/
theorem argEnds_of_same {g : Gates} {blk : Bool} {n ret : ℤ} {body : List Byte}
    (hname : NameEnds (front (frameMem blk n ret body)))
    (h : ∀ left left' : List Byte, left.length = commbuflen → left'.length = commbuflen →
      cmdView g (fill (frameMem blk n ret body) left)
        = cmdView g (fill (frameMem blk n ret body) left')) :
    let own := front (frameMem blk n ret body)
    ArgEnds own ((cmdtoupper (excmd own)).length + 1) (selected g (cmdtoupper (excmd own))) := by
  intro own
  have hview := congrArg Prod.snd (h (List.replicate commbuflen 0) (List.replicate commbuflen 97)
    (by simp) (by simp))
  simp only [cmdView, excmd_fill hname] at hview
  cases huse : selected g (cmdtoupper (excmd own)) with
  | absent => trivial
  | behind =>
    have hshort := @length_of_selected g (cmdtoupper (excmd own)) (by simp [huse])
    rw [length_cmdtoupper] at hshort ⊢
    have hoff := length_excmd_lt hname hshort
    rcases frameMem_cases blk n ret body (j := (excmd own).length + 1)
      (lt_trans (Nat.succ_lt_succ hshort) (by decide)) with h0 | ⟨hk, m', hgap⟩
    · exact h0
    · show 0 ∈ own.drop _
      by_contra hmem
      obtain ⟨hzero, hletter⟩ := scan_ne (p := (· ≠ 0)) (j := (excmd own).length + 1) hoff
        (fun x hx => by simpa using fun h0 : x = 0 => hmem (h0 ▸ hx)) hk hgap (by decide)
        (by decide)
      rw [show selected g (cmdtoupper (excmd (front (frameMem blk n ret body)))) = .behind
        from huse] at hview
      have hlen := congrArg List.length (Option.some.inj hview)
      rw [length_cmdtoupper] at hlen
      exact absurd (hzero.symm.trans hlen) (ne_of_lt hletter)
  | within =>
    have hshort := @length_of_selected g (cmdtoupper (excmd own)) (by simp [huse])
    rw [length_cmdtoupper] at hshort
    have hoff := length_excmd_lt hname hshort
    rcases frameMem_cases blk n ret body (j := 0) (by decide) with h0 | ⟨hk, m', hgap⟩
    · exact h0
    · show 0 ∈ own
      by_contra hmem
      obtain ⟨hzero, hletter⟩ := scan_ne (p := (· ≠ 0)) (j := 0) (Nat.zero_le _)
        (fun x hx => by simpa using fun h0 : x = 0 => hmem (h0 ▸ hx)) hk hgap (by decide)
        (by decide)
      rw [show selected g (cmdtoupper (excmd (front (frameMem blk n ret body)))) = .within
        from huse] at hview
      have hlen := congrArg List.length (Option.some.inj hview)
      rw [length_cmdtoupper, List.length_drop, List.length_drop] at hlen
      rw [List.drop_zero] at hzero hletter
      have hown : (front (frameMem blk n ret body)).length = own.length := rfl
      have hoff' : (excmd (front (frameMem blk n ret body))).length < own.length := hoff
      simp only [cstr] at hlen
      omega

/-- What reads the same over every residue is settled. -/
theorem settled_of_frameOnly {g : Gates} {s : Sess} (h : FrameOnly o aes g s)
    (hret : (readbuf o aes s).ret ≠ -1) : Settled g (ownBytes o aes s) := by
  have hsame : ∀ left left' : List Byte, left.length = commbuflen → left'.length = commbuflen →
      cmdView g (fill (frameMem (readbuf o aes s).sess.blkstatus (announced o aes s)
        (readbuf o aes s).ret (readbuf o aes s).got) left)
      = cmdView g (fill (frameMem (readbuf o aes s).sess.blkstatus (announced o aes s)
        (readbuf o aes s).ret (readbuf o aes s).got) left') := by
    intro left left' hl hl'
    have := h left left' hl hl'
    rw [bufAt_eq hret hl, bufAt_eq hret hl'] at this
    exact Option.some.inj this
  have hname := nameEnds_of_same hsame
  exact ⟨hname, argEnds_of_same hname hsame⟩

/-- **When a command depends on its frame only.**  The name and the argument are the same
whatever was left in the buffer exactly when the bytes the frame itself puts at the start
hold the end of the name and, where the handler reads an argument, the end of that. -/
theorem frame_only_iff (g : Gates) (s : Sess) :
    FrameOnly o aes g s ↔ ((readbuf o aes s).ret ≠ -1 → Settled g (ownBytes o aes s)) := by
  constructor
  · exact settled_of_frameOnly
  · intro h left left' hl hl'
    by_cases hret : (readbuf o aes s).ret = -1
    · rw [bufAt_eq_none hret, bufAt_eq_none hret]
    · rw [bufAt_eq hret hl, bufAt_eq hret hl', Option.map_some, Option.map_some]
      have hset : Settled g (front _) := h hret
      rw [cmdView_fill hset, cmdView_fill hset]

/-! ### Stream mode -/

/-- In stream mode a frame puts its bytes and a terminator at the start. -/
theorem front_frameMem_stream (ret : ℤ) {body : List Byte} (h : body.length + 2 < commbuflen) :
    front (frameMem false body.length ret body) = body ++ [0] := by
  refine front_eq (fun i x hx => ?_) ?_
  · have hi : i ≤ body.length := by
      have := (List.getElem?_eq_some_iff.mp hx).1
      simp at this
      omega
    have hne : commbuflen - 1 ≠ i := by omega
    simp only [frameMem, Bool.false_eq_true, if_false, List.getElem?_set_ne hne]
    rw [if_pos (by omega)]
    rcases Nat.lt_or_eq_of_le hi with hlt | rfl
    · rw [List.getElem?_append_left hlt] at hx
      rw [List.getElem?_append_left (by simpa using hlt), List.getElem?_map, hx]
      rfl
    · have hx0 : x = 0 := by simpa using hx.symm
      rw [List.getElem?_append_right (by simp)]
      simp [hx0, show body.length < commbuflen by omega]
  · have hne : commbuflen - 1 ≠ body.length + 1 := by omega
    simp only [frameMem, Bool.false_eq_true, if_false, List.length_append, List.length_singleton,
      List.getElem?_set_ne hne]
    rw [if_pos (by omega), List.getElem?_append_right (by simp)]
    simp [show body.length + 1 < commbuflen by omega]

/-- All gates open. -/
def openGates : Gates := ⟨true, false, false, false⟩

/-- With one more byte in the frame the argument is settled. -/
example : Settled openGates (lit "LS " ++ [0]) ∧ ¬ Settled openGates (lit "LS" ++ [0]) := by decide

/-- A frame that ends where the name ends: the argument of `LS` is what an earlier frame
or reply left behind it. -/
theorem frame_only_fails :
    (readbuf .little Aes.sample { (default : Sess) with inp := clearFrame (lit "LS") }).ret = 2 ∧
      ¬ FrameOnly .little Aes.sample openGates
        { (default : Sess) with inp := clearFrame (lit "LS") } := by
  have hret : (readbuf .little Aes.sample
      { (default : Sess) with inp := clearFrame (lit "LS") }).ret = 2 := by decide +kernel
  refine ⟨hret, fun h => ?_⟩
  have hset := settled_of_frameOnly h (by rw [hret]; decide)
  have hown : ownBytes .little Aes.sample { (default : Sess) with inp := clearFrame (lit "LS") }
      = lit "LS" ++ [0] := by
    have hann : announced .little Aes.sample
        { (default : Sess) with inp := clearFrame (lit "LS") } = (lit "LS").length := by
      decide +kernel
    have hgot : (readbuf .little Aes.sample
        { (default : Sess) with inp := clearFrame (lit "LS") }).got = lit "LS" := by decide +kernel
    have hblk : (readbuf .little Aes.sample
        { (default : Sess) with inp := clearFrame (lit "LS") }).sess.blkstatus = false := by
      decide +kernel
    simp only [ownBytes, hann, hgot, hblk]
    exact front_frameMem_stream _ (by decide)
  rw [hown] at hset
  exact absurd hset (by decide)

end TFProtocol
