import TFProtocol.Lib.Runs
import TFProtocol.Ime
import TFProtocol.Session

/-!
# Packets of the instant messaging subsystem

`rdthread` reads a header of an opcode and a size, and the handler of the opcode reads the
body into `inbuf`.  `OPC_UNIT` and `OPC_USR` read a body of any size before they look at it,
`OPC_SNDMSG` compares the size first, as an unsigned number, and returns without reading a
body that is too large.  No handler terminates `inbuf`.

The receiving side is the clear text of what the client sends.

## Main definitions

* `ImeRd` — the receiving side, `inbuf` and the variables of the subsystem.
* `rdOrgunit`, `rdUsr`, `rdSndmsg`, `rdSetup`, `rdTimer` — the handlers with their memory.
* `rdthread` — one turn of the reading loop.
* `Packet`, `PacketAllowed` — a packet, and what it must be for its handler.

## Main results

* `rdthread_packet` — one packet is read exactly, and nothing is stored elsewhere.
* `ime_packets` — **so is every packet of a stream of allowed packets.**
-/

namespace TFProtocol

open Bytes CStr

/-! ### The handlers with their memory -/

/-- `OPC_EXIT`, `OPC_UNIT`, `OPC_USR`, `OPC_SETUP`, `OPC_SNDMSG` and `OPC_TIMER`. -/
def opcodeExit : Byte := 0

@[inherit_doc opcodeExit]
def opcodeUnit : Byte := 1

@[inherit_doc opcodeExit]
def opcodeUsr : Byte := 2

@[inherit_doc opcodeExit]
def opcodeSetup : Byte := 4

@[inherit_doc opcodeExit]
def opcodeSndmsg : Byte := 5

@[inherit_doc opcodeExit]
def opcodeTimer : Byte := 7

/-- `MSGSEPCH`. -/
def msgsepch : Byte := ofChar ' '

/-- The reading thread: the variables of the subsystem, `inbuf`, what the client still
sends, whether a byte was stored outside its array, and the recipients and texts of the
messages so far. -/
structure ImeRd where
  ime : Ime
  jail : Jail
  inbuf : List Byte
  inp : List Byte
  stray : Bool
  used : List (List Byte × List Byte)
  deriving DecidableEq, Repr

/-- `readbuf_ex(inbuf, sz)`: whether it does not return `-1`, and the thread.  A size that
is not positive reads nothing. -/
def ImeRd.fill (s : ImeRd) (sz : ℤ) : Bool × ImeRd :=
  let got := s.inp.take sz.toNat
  (decide (sz.toNat ≤ s.inp.length),
    { s with
      inbuf := (overlay s.inbuf got).take imeBuflen
      inp := s.inp.drop sz.toNat
      stray := s.stray || decide (imeBuflen < got.length) })

/-- `OPC_UNIT` and `OPC_USR` are answered with a failure at once. -/
def ImeRd.refuses (s : ImeRd) : Bool := chkrdy s.ime || !s.ime.setup

/-- `opc_orgunit`: the name goes through `memcpy` with its signed size, and the path that
`jaildir` builds is copied back to `orgunit`. -/
def rdOrgunit (e : ImeEnv) (s : ImeRd) (sz : ℤ) : ImeRd :=
  let r := s.fill sz
  if !r.1 then r.2
  else
    let x := opcOrgunit e r.2.jail r.2.ime (r.2.inbuf.take sz.toNat)
    { r.2 with
      ime := x.1
      jail := x.2.1
      stray := r.2.stray ||
        (!s.refuses && (decide (sz < 0) || decide (pathMax ≤ x.1.orgunit.length))) }

/-- `opc_usr`: the name is copied to `usrnam` and behind `orgunit` to `usrpath` before its
length is looked at. -/
def rdUsr (e : ImeEnv) (s : ImeRd) (sz : ℤ) : ImeRd :=
  let r := s.fill sz
  if !r.1 then r.2
  else
    let x := opcUsr e r.2.ime (r.2.inbuf.take sz.toNat)
    { r.2 with
      ime := x.1
      stray := r.2.stray || (!s.refuses && (decide (sz < 0) ||
        decide (usrnameLen ≤ x.1.usrnam.length) ||
        decide (pathMax ≤ (join s.ime.orgunit x.1.usrnam).length))) }

/-- The memory of a string after `strtok` went through it; `tok` is set inside a token. -/
def strtokMem (sep : Byte) : Bool → List Byte → List Byte
  | _, [] => []
  | false, c :: cs => c :: strtokMem sep (c != sep) cs
  | true, c :: cs =>
    if c = sep then 0 :: strtokMem sep false cs else c :: strtokMem sep true cs

/-- The part of `opc_sndmsg` behind the read.  `behind` is the memory that follows
`inbuf`: the search for a blank goes on there. -/
def splitMsg (behind : List Byte) (s : ImeRd) (sz : ℤ) : ImeRd :=
  match strchr msgsepch (cstr (s.inbuf ++ behind)) with
  | none => s
  | some (names, _) =>
    if imeBuflen ≤ names.length then { s with stray := true }
    else if sz - (names.length + 1) ≤ 0 then { s with inbuf := s.inbuf.set names.length 0 }
    else
      { s with
        inbuf := strtokMem (ofChar ':') false names ++ 0 :: s.inbuf.drop (names.length + 1)
        used := s.used ++ [(names, (s.inbuf.take sz.toNat).drop (names.length + 1))] }

/-- `opc_sndmsg`: the sum of the size and `sizeof rdhdr` is unsigned. -/
def rdSndmsg (behind : List Byte) (s : ImeRd) (sz : ℤ) : ImeRd :=
  if imeBuflen ≤ (BitVec.ofInt 64 (sz + imeHdrlen)).toNat then s
  else
    let r := s.fill sz
    if !r.1 || !chkrdy s.ime then r.2 else splitMsg behind r.2 sz

/-- A 64-bit number in `inbuf` after its byte order was changed in place. -/
def swapInbuf (o : Endian) (inbuf : List Byte) : List Byte :=
  if isbigendian o then inbuf else (inbuf.take 8).reverse ++ inbuf.drop 8

/-- `opc_setup`. -/
def rdSetup (o : Endian) (s : ImeRd) (sz : ℤ) : ImeRd :=
  let s := { s with ime := { s.ime with unusr := (BitVec.ofInt 32 sz).getLsbD 0 } }
  let r := s.fill 8
  if !r.1 then r.2
  else { r.2 with inbuf := swapInbuf o r.2.inbuf, ime := { r.2.ime with setup := true } }

/-- `opc_timer`. -/
def rdTimer (o : Endian) (s : ImeRd) : ImeRd :=
  let r := s.fill 8
  if !r.1 then r.2 else { r.2 with inbuf := swapInbuf o r.2.inbuf }

/-- One turn of the loop of `rdthread`; the loop ends when no header comes, and behind
`OPC_EXIT`. -/
def rdthread (o : Endian) (e : ImeEnv) (behind : List Byte) (s : ImeRd) : Option ImeRd :=
  match s.inp with
  | op :: rest =>
    if rest.length < 4 then none
    else
      let sz := hdrgetsz o rest
      let s := { s with inp := rest.drop 4 }
      if op = opcodeUnit then some (rdOrgunit e s sz)
      else if op = opcodeUsr then some (rdUsr e s sz)
      else if op = opcodeTimer then some (rdTimer o s)
      else if op = opcodeSndmsg then some (rdSndmsg behind s sz)
      else if op = opcodeSetup then some (rdSetup o s sz)
      else if op = opcodeExit then none
      else some s
  | [] => none

/-! ### Packets -/

/-- The number of bytes that follow the header. -/
def bodyLen (opcode : Byte) (sz : BitVec 32) : ℕ :=
  if opcode = opcodeUnit ∨ opcode = opcodeUsr ∨ opcode = opcodeSndmsg then sz.toInt.toNat
  else if opcode = opcodeSetup ∨ opcode = opcodeTimer then 8
  else 0

/-- A packet that does not end the session. -/
structure Packet where
  opcode : Byte
  sz : BitVec 32
  body : List Byte
  fits : body.length = bodyLen opcode sz
  goesOn : opcode ≠ opcodeExit

/-- The bytes of a packet. -/
def Packet.bytes (p : Packet) : List Byte := p.opcode :: (hdrsetsz .big p.sz.toInt ++ p.body)

/-- A packet for the reading thread, with what its handler finds outside. -/
structure Arrival where
  env : ImeEnv
  /-- The memory that follows `inbuf`. -/
  behind : List Byte
  packet : Packet

/-- The name in a packet, as the handlers copy it. -/
def Packet.name (p : Packet) : List Byte := nameOf p.body

/-- What a packet must be for `OPC_UNIT`: the body fits `inbuf`, and a name that is used
has a size and fits behind the root. -/
def UnitAllowed (s : ImeRd) (p : Packet) : Prop :=
  p.sz.toInt ≤ imeBuflen ∧
    (s.refuses = false → 0 ≤ p.sz.toInt ∧ (s.jail.dbdir ++ p.name).length < pathMax)

instance (s : ImeRd) (p : Packet) : Decidable (UnitAllowed s p) :=
  inferInstanceAs (Decidable (_ ∧ (_ → _ ∧ _)))

/-- What a packet must be for `OPC_USR`: the body fits `inbuf`, and a name that is used has
a size and fits `usrnam`, and `usrpath` behind the unit. -/
def UsrAllowed (s : ImeRd) (p : Packet) : Prop :=
  p.sz.toInt ≤ imeBuflen ∧
    (s.refuses = false → 0 ≤ p.sz.toInt ∧ p.name.length < usrnameLen ∧
      (join s.ime.orgunit p.name).length < pathMax)

instance (s : ImeRd) (p : Packet) : Decidable (UsrAllowed s p) :=
  inferInstanceAs (Decidable (_ ∧ (_ → _ ∧ _ ∧ _)))

/-- What a packet must be for `OPC_SNDMSG`: its size passes the check, and a search for the
blank ends in `inbuf`. -/
def SndmsgAllowed (s : ImeRd) (p : Packet) : Prop :=
  p.sz.toInt + imeHdrlen < imeBuflen ∧
    (chkrdy s.ime = true ∧ 0 ≤ p.sz.toInt + imeHdrlen →
      msgsepch ∈ overlay s.inbuf p.body ∨ 0 ∈ overlay s.inbuf p.body)

instance (s : ImeRd) (p : Packet) : Decidable (SndmsgAllowed s p) :=
  inferInstanceAs (Decidable (_ ∧ (_ ∧ _ → _ ∨ _)))

/-- What a packet must be for its handler, in the state it finds. -/
def PacketAllowed (s : ImeRd) (a : Arrival) : Prop :=
  (a.packet.opcode = opcodeUnit → UnitAllowed s a.packet) ∧
    (a.packet.opcode = opcodeUsr → UsrAllowed s a.packet) ∧
    (a.packet.opcode = opcodeSndmsg → SndmsgAllowed s a.packet)

instance (s : ImeRd) (a : Arrival) : Decidable (PacketAllowed s a) :=
  inferInstanceAs (Decidable ((_ → _) ∧ (_ → _) ∧ (_ → _)))

/-- The recipients and the text of a message come from its packet. -/
def FromPacket (p : Packet) (s t : ImeRd) : Prop :=
  t.used = s.used ∨
    ∃ names msg, t.used = s.used ++ [(names, msg)] ∧ p.opcode = opcodeSndmsg ∧
      p.body = names ++ msgsepch :: msg

/-! ### One packet -/

section Step

variable {s : ImeRd} {p : Packet} {rest : List Byte}

/-- What a handler leaves behind: the next packet is next, nothing was stored elsewhere,
and a message is the packet's. -/
structure Kept (p : Packet) (rest : List Byte) (s t : ImeRd) : Prop where
  inp : t.inp = rest
  inbuf : t.inbuf.length = imeBuflen
  stray : t.stray = s.stray
  used : FromPacket p s t

theorem length_overlay_inbuf {body : List Byte} (hbuf : s.inbuf.length = imeBuflen)
    (hbody : body.length ≤ imeBuflen) : (overlay s.inbuf body).length = imeBuflen := by
  simp only [overlay, List.length_append, List.length_drop]
  omega

/-- A body that fits is read exactly. -/
theorem fill_eq {sz : ℤ} {body : List Byte} (hbuf : s.inbuf.length = imeBuflen)
    (hinp : s.inp = body ++ rest) (hlen : body.length = sz.toNat) (hfit : body.length ≤ imeBuflen) :
    s.fill sz = (true, { s with inbuf := overlay s.inbuf body, inp := rest }) := by
  have htake : s.inp.take sz.toNat = body := by rw [hinp, ← hlen, List.take_left]
  have hdrop : s.inp.drop sz.toNat = rest := by rw [hinp, ← hlen, List.drop_left]
  have hall : (overlay s.inbuf body).take imeBuflen = overlay s.inbuf body :=
    List.take_of_length_le (length_overlay_inbuf hbuf hfit).le
  have henough : sz.toNat ≤ s.inp.length := by
    rw [hinp, List.length_append, hlen]
    omega
  unfold ImeRd.fill
  simp only [htake, hdrop, hall, henough, decide_true, Nat.not_lt.mpr hfit, decide_false,
    Bool.or_false]

theorem take_overlay {mem body : List Byte} : (overlay mem body).take body.length = body :=
  List.take_left

theorem rdOrgunit_packet (e : ImeEnv) (hbuf : s.inbuf.length = imeBuflen)
    (hinp : s.inp = p.body ++ rest) (hlen : p.body.length = p.sz.toInt.toNat)
    (hok : UnitAllowed s p) : Kept p rest s (rdOrgunit e s p.sz.toInt) := by
  obtain ⟨hsz, hok⟩ := hok
  have hfit : p.body.length ≤ imeBuflen := by omega
  have hfill := fill_eq hbuf hinp hlen hfit
  unfold rdOrgunit
  rw [hfill]
  simp only [Bool.not_true, Bool.false_eq_true, if_false]
  refine ⟨rfl, length_overlay_inbuf hbuf hfit, ?_, .inl rfl⟩
  rw [← hlen, take_overlay]
  rcases hr : s.refuses with _ | _
  · obtain ⟨hpos, hshort⟩ := hok hr
    have horg : (opcOrgunit e s.jail s.ime p.body).1.orgunit = s.jail.dbdir ++ p.name := by
      unfold ImeRd.refuses at hr
      simp only [opcOrgunit, hr, Bool.false_eq_true, if_false, jaildir_dst, Packet.name]
      exact jailed_of_lt (length_nameOf p.body) e.beyond
    simp only [horg, decide_eq_false (Int.not_lt.mpr hpos), decide_eq_false (Nat.not_le.mpr hshort),
      Bool.or_false, Bool.and_false]
  · simp

theorem rdUsr_packet (e : ImeEnv) (hbuf : s.inbuf.length = imeBuflen)
    (hinp : s.inp = p.body ++ rest) (hlen : p.body.length = p.sz.toInt.toNat)
    (hok : UsrAllowed s p) : Kept p rest s (rdUsr e s p.sz.toInt) := by
  obtain ⟨hsz, hok⟩ := hok
  have hfit : p.body.length ≤ imeBuflen := by omega
  have hfill := fill_eq hbuf hinp hlen hfit
  unfold rdUsr
  rw [hfill]
  simp only [Bool.not_true, Bool.false_eq_true, if_false]
  refine ⟨rfl, length_overlay_inbuf hbuf hfit, ?_, .inl rfl⟩
  rw [← hlen, take_overlay]
  rcases hr : s.refuses with _ | _
  · obtain ⟨hpos, hname, hshort⟩ := hok hr
    have hnam : (opcUsr e s.ime p.body).1.usrnam = p.name := by
      unfold ImeRd.refuses at hr
      simp only [opcUsr, hr, Bool.false_eq_true, if_false, Packet.name]
      split
      · rfl
      · split <;> rfl
    simp only [hnam, decide_eq_false (Int.not_lt.mpr hpos), decide_eq_false (Nat.not_le.mpr hshort),
      decide_eq_false (Nat.not_le.mpr hname), Bool.or_false, Bool.and_false]
  · simp

theorem length_strtokMem (sep : Byte) (tok : Bool) (s : List Byte) :
    (strtokMem sep tok s).length = s.length := by
  fun_induction strtokMem sep tok s with
  | case1 => rfl
  | case2 c cs ih => simp [ih]
  | case3 cs ih => simp [ih]
  | case4 c cs hc ih => simp [ih]

/-- A search in memory that holds what it stops at does not leave it. -/
theorem length_lt_of_strchr {mem behind names tail : List Byte} {c : Byte}
    (hmem : c ∈ mem ∨ 0 ∈ mem)
    (h : strchr c (cstr (mem ++ behind)) = some (names, tail)) : names.length < mem.length := by
  obtain ⟨hcut, hnot⟩ := strchr_eq_some_iff.mp h
  have hpre : names ++ [c] <+: mem ++ behind := by
    have h1 : names ++ [c] <+: cstr (mem ++ behind) := ⟨tail, by simp [hcut]⟩
    exact h1.trans (List.takeWhile_prefix _)
  by_contra hge
  have hle : mem.length ≤ names.length := by omega
  have hsub : mem <+: names :=
    List.prefix_of_prefix_length_le (List.prefix_append mem behind)
      ((List.prefix_append names [c]).trans hpre) hle
  rcases hmem with hmem | hmem
  · exact hnot (hsub.subset hmem)
  · have hzero : (0 : Byte) ∈ cstr (mem ++ behind) := by
      rw [hcut]
      exact List.mem_append_left _ (hsub.subset hmem)
    exact zero_not_mem_cstr _ hzero

/-- The split of a message stays inside the packet. -/
theorem splitMsg_packet (behind : List Byte) (hbuf : s.inbuf.length = imeBuflen)
    (hsnd : p.opcode = opcodeSndmsg) (hbody : s.inbuf.take p.sz.toInt.toNat = p.body)
    (hinp : s.inp = rest) (hstop : msgsepch ∈ s.inbuf ∨ 0 ∈ s.inbuf) :
    Kept p rest s (splitMsg behind s p.sz.toInt) := by
  unfold splitMsg
  rcases hchr : strchr msgsepch (cstr (s.inbuf ++ behind)) with _ | ⟨names, tail⟩
  · exact ⟨hinp, hbuf, rfl, .inl rfl⟩
  · have hin := length_lt_of_strchr hstop hchr
    rw [hbuf] at hin
    dsimp only
    rw [if_neg (by omega)]
    split
    next => exact ⟨hinp, by simpa using hbuf, rfl, .inl rfl⟩
    next hsz =>
      refine ⟨hinp, ?_, rfl, .inr ⟨names, _, rfl, hsnd, ?_⟩⟩
      · simp only [List.length_append, length_strtokMem, List.length_cons, List.length_drop]
        omega
      · -- the names and the blank are an initial part of `inbuf`, so of the packet
        have hpre : names ++ [msgsepch] <+: s.inbuf := by
          obtain ⟨hcut, -⟩ := strchr_eq_some_iff.mp hchr
          have h1 : names ++ [msgsepch] <+: cstr (s.inbuf ++ behind) := ⟨tail, by simp [hcut]⟩
          refine List.prefix_of_prefix_length_le (h1.trans (List.takeWhile_prefix _))
            (List.prefix_append s.inbuf behind) ?_
          simp only [List.length_append, List.length_singleton]
          omega
        have hbodypre : names ++ [msgsepch] <+: p.body := by
          rw [← hbody]
          refine List.prefix_of_prefix_length_le hpre (List.take_prefix _ _) ?_
          simp only [List.length_append, List.length_singleton, List.length_take]
          omega
        obtain ⟨msg, hmsg⟩ := hbodypre
        rw [hbody, ← hmsg, List.drop_left' (by simp)]
        simp

theorem rdSndmsg_packet (behind : List Byte) (hbuf : s.inbuf.length = imeBuflen)
    (hsnd : p.opcode = opcodeSndmsg)
    (hinp : s.inp = p.body ++ rest) (hlen : p.body.length = p.sz.toInt.toNat)
    (hok : SndmsgAllowed s p) : Kept p rest s (rdSndmsg behind s p.sz.toInt) := by
  obtain ⟨hsz, hok⟩ := hok
  have hlow := BitVec.le_toInt p.sz
  unfold rdSndmsg
  by_cases hneg : p.sz.toInt + imeHdrlen < 0
  · -- the sum wraps to a huge number, and there is no body
    have hbig : imeBuflen ≤ (BitVec.ofInt 64 (p.sz.toInt + imeHdrlen)).toNat := by
      rw [BitVec.toNat_ofInt]
      norm_num [imeBuflen, imeHdrlen] at hneg hlow ⊢
      omega
    have hnil : p.body = [] := List.eq_nil_of_length_eq_zero (by
      norm_num [imeHdrlen] at hneg
      omega)
    rw [if_pos hbig]
    exact ⟨by simpa [hnil] using hinp, hbuf, rfl, .inl rfl⟩
  · have hsmall : ¬ imeBuflen ≤ (BitVec.ofInt 64 (p.sz.toInt + imeHdrlen)).toNat := by
      rw [BitVec.toNat_ofInt]
      norm_num [imeBuflen, imeHdrlen] at hneg hsz ⊢
      omega
    have hfit : p.body.length ≤ imeBuflen := by
      norm_num [imeBuflen, imeHdrlen] at hsz ⊢
      omega
    rw [if_neg hsmall, fill_eq hbuf hinp hlen hfit]
    rcases hrdy : chkrdy s.ime with _ | _
    · exact ⟨rfl, length_overlay_inbuf hbuf hfit, rfl, .inl rfl⟩
    · have hstop := hok ⟨hrdy, by omega⟩
      have hsplit : Kept p rest { s with inbuf := overlay s.inbuf p.body, inp := rest } _ :=
        splitMsg_packet behind (length_overlay_inbuf hbuf hfit) hsnd (hlen ▸ take_overlay) rfl hstop
      exact ⟨hsplit.inp, hsplit.inbuf, hsplit.stray, hsplit.used⟩

theorem length_swapInbuf (o : Endian) {inbuf : List Byte} (hbuf : inbuf.length = imeBuflen) :
    (swapInbuf o inbuf).length = imeBuflen := by
  unfold swapInbuf
  split
  next => exact hbuf
  next =>
    simp only [List.length_append, List.length_reverse, List.length_take, List.length_drop]
    omega

theorem rdTimer_packet (o : Endian) (hbuf : s.inbuf.length = imeBuflen)
    (hinp : s.inp = p.body ++ rest) (hlen : p.body.length = 8) :
    Kept p rest s (rdTimer o s) := by
  have hfit : p.body.length ≤ imeBuflen := by
    rw [hlen]
    decide
  unfold rdTimer
  rw [fill_eq hbuf hinp (show _ = (8 : ℤ).toNat from hlen) hfit]
  exact ⟨rfl, length_swapInbuf o (length_overlay_inbuf hbuf hfit), rfl, .inl rfl⟩

theorem rdSetup_packet (o : Endian) {sz : ℤ} (hbuf : s.inbuf.length = imeBuflen)
    (hinp : s.inp = p.body ++ rest) (hlen : p.body.length = 8) :
    Kept p rest s (rdSetup o s sz) := by
  have hfit : p.body.length ≤ imeBuflen := by
    rw [hlen]
    decide
  have hfill : ImeRd.fill
      { s with ime := { s.ime with unusr := (BitVec.ofInt 32 sz).getLsbD 0 } } 8 = _ :=
    fill_eq hbuf hinp (show _ = (8 : ℤ).toNat from hlen) hfit
  unfold rdSetup
  dsimp only
  rw [hfill]
  exact ⟨rfl, length_swapInbuf o (length_overlay_inbuf hbuf hfit), rfl, .inl rfl⟩

/-- **One packet.**  An allowed packet at the front of the input is read exactly. -/
theorem rdthread_packet (o : Endian) {a : Arrival} (hbuf : s.inbuf.length = imeBuflen)
    (hinp : s.inp = a.packet.bytes ++ rest) (hok : PacketAllowed s a) :
    ∃ t, rdthread o a.env a.behind s = some t ∧ Kept a.packet rest s t := by
  obtain ⟨hunit, husr, hsnd⟩ := hok
  set p := a.packet with hp
  have hcons : s.inp = p.opcode :: (hdrsetsz .big p.sz.toInt ++ (p.body ++ rest)) := by
    rw [hinp]
    simp [Packet.bytes]
  have hsz : hdrgetsz o (hdrsetsz .big p.sz.toInt ++ (p.body ++ rest)) = p.sz.toInt :=
    hdrgetsz_hdrsetsz_toInt .big o p.sz _
  have hdrop : (hdrsetsz .big p.sz.toInt ++ (p.body ++ rest)).drop 4 = p.body ++ rest :=
    List.drop_left' (length_hdrsetsz .big _)
  have hlong : ¬ (hdrsetsz .big p.sz.toInt ++ (p.body ++ rest)).length < 4 := by
    rw [List.length_append, length_hdrsetsz]
    omega
  have hfits := p.fits
  -- the handlers find the body at the front of the input
  have hkept : ∀ {t}, Kept p rest { s with inp := p.body ++ rest } t → Kept p rest s t :=
    fun h => ⟨h.inp, h.inbuf, h.stray, h.used⟩
  unfold rdthread
  rw [hcons]
  simp only [hlong, if_false, hsz, hdrop]
  by_cases h1 : p.opcode = opcodeUnit
  · rw [if_pos h1]
    rw [bodyLen, if_pos (.inl h1)] at hfits
    exact ⟨_, rfl, hkept (rdOrgunit_packet a.env hbuf rfl hfits (hunit h1))⟩
  rw [if_neg h1]
  by_cases h2 : p.opcode = opcodeUsr
  · rw [if_pos h2]
    rw [bodyLen, if_pos (.inr (.inl h2))] at hfits
    exact ⟨_, rfl, hkept (rdUsr_packet a.env hbuf rfl hfits (husr h2))⟩
  rw [if_neg h2]
  by_cases h3 : p.opcode = opcodeTimer
  · rw [if_pos h3]
    rw [bodyLen, if_neg (by rw [h3]; decide), if_pos (.inr h3)] at hfits
    exact ⟨_, rfl, hkept (rdTimer_packet o hbuf rfl hfits)⟩
  rw [if_neg h3]
  by_cases h4 : p.opcode = opcodeSndmsg
  · rw [if_pos h4]
    rw [bodyLen, if_pos (.inr (.inr h4))] at hfits
    exact ⟨_, rfl, hkept (rdSndmsg_packet a.behind hbuf h4 rfl hfits (hsnd h4))⟩
  rw [if_neg h4]
  by_cases h5 : p.opcode = opcodeSetup
  · rw [if_pos h5]
    rw [bodyLen, if_neg (by rw [h5]; decide), if_pos (.inl h5)] at hfits
    exact ⟨_, rfl, hkept (rdSetup_packet o hbuf rfl hfits)⟩
  rw [if_neg h5, if_neg p.goesOn]
  rw [bodyLen, if_neg (by simp [h1, h2, h4]), if_neg (by simp [h3, h5])] at hfits
  have hnil : p.body = [] := List.eq_nil_of_length_eq_zero hfits
  exact ⟨_, rfl, ⟨by simp [hnil], hbuf, rfl, .inl rfl⟩⟩

end Step

/-! ### Streams of packets -/

/-- A turn of the loop, for a packet that arrives. -/
def arrive (o : Endian) (s : ImeRd) (a : Arrival) : Option ImeRd := rdthread o a.env a.behind s

/-- The bytes of a stream. -/
def streamBytes (as : List Arrival) : List Byte := as.flatMap fun a => a.packet.bytes

/-- The messages taken so far are those of some of the packets, in order. -/
inductive Taken : List Packet → List (List Byte × List Byte) → Prop
  | nil : Taken [] []
  | skip {p ps us} : Taken ps us → Taken (p :: ps) us
  | msg {p : Packet} {ps us names text} : p.opcode = opcodeSndmsg →
      p.body = names ++ msgsepch :: text → Taken ps us → Taken (p :: ps) ((names, text) :: us)

/-- **Every packet of a stream is read exactly.**  After any initial part of a stream of
allowed packets the input is at the next packet, no byte was stored outside its array, and
the recipients and texts used are those of the packets, one by one. -/
theorem ime_packets (o : Endian) {s : ImeRd} (hbuf : s.inbuf.length = imeBuflen)
    (hstray : s.stray = false) {as : List Arrival} (bs : List Arrival) (rest : List Byte)
    (hinp : s.inp = streamBytes as ++ (streamBytes bs ++ rest))
    (hok : Runs.Meets (arrive o) PacketAllowed s as) :
    ∃ t, Runs.run (arrive o) s as = some t ∧ t.inp = streamBytes bs ++ rest ∧
      t.inbuf.length = imeBuflen ∧ t.stray = false ∧
      ∃ us, t.used = s.used ++ us ∧ Taken (as.map Arrival.packet) us := by
  induction as generalizing s with
  | nil => exact ⟨s, rfl, hinp, hbuf, hstray, [], (List.append_nil _).symm, .nil⟩
  | cons a as ih =>
    obtain ⟨hallowed, hnext⟩ := hok
    have hfront : s.inp = a.packet.bytes ++ (streamBytes as ++ (streamBytes bs ++ rest)) := by
      rw [hinp]
      simp [streamBytes]
    obtain ⟨t, ht, hkept⟩ := rdthread_packet o hbuf hfront hallowed
    obtain ⟨u, hu, hrest, hubuf, hustray, us, hused, htaken⟩ :=
      ih hkept.inbuf (hkept.stray.trans hstray) hkept.inp (hnext t ht)
    have hrun : Runs.run (arrive o) s (a :: as) = some u := by
      rw [Runs.run, show arrive o s a = some t from ht]
      exact hu
    rcases hkept.used with hsame | ⟨names, text, hmsg, hop, hbody⟩
    · exact ⟨u, hrun, hrest, hubuf, hustray, us, hsame ▸ hused, .skip htaken⟩
    · refine ⟨u, hrun, hrest, hubuf, hustray, (names, text) :: us, ?_, .msg hop hbody htaken⟩
      rw [hused, hmsg]
      simp

/-! ### Examples -/

/-- A host on which every path exists. -/
def imeHost : ImeEnv where
  disk :=
    { isDir := fun _ => true
      access := fun _ => true
      read := fun _ => none
      isReg := fun _ => false
      tree := fun _ => []
      unlocked := fun _ => true
      mkdirOk := fun _ => true
      linkOk := fun _ _ => true }
  lockTaken := fun _ => false
  stamp := ⟨lit "1", lit "3", lit "7", by decide, List.all_eq_true.mp (by decide),
    List.all_eq_true.mp (by decide), List.all_eq_true.mp (by decide)⟩
  beyond := []

/-- The thread at its start, with the bytes of a stream to read. -/
def imeStart (as : List Arrival) : ImeRd where
  ime := default
  jail := ⟨lit "/d/", [], 0, 0⟩
  inbuf := List.replicate imeBuflen 0
  inp := streamBytes as
  stray := false
  used := []

/-- A packet on that host. -/
def imeArrival (opcode : Byte) (sz : BitVec 32) (body : List Byte)
    (fits : body.length = bodyLen opcode sz) (goesOn : opcode ≠ opcodeExit) : Arrival :=
  ⟨imeHost, [], ⟨opcode, sz, body, fits, goesOn⟩⟩

/-- A session: set up, a unit, a user and a message from it. -/
def exampleArrivals : List Arrival :=
  [imeArrival opcodeSetup 0 (List.replicate 8 0) (by decide) (by decide),
    imeArrival opcodeUnit 1 (lit "u") (by decide) (by decide),
    imeArrival opcodeUsr 1 (lit "a") (by decide) (by decide),
    imeArrival opcodeSndmsg 4 (lit "b hi") (by decide) (by decide)]

theorem ime_packets_example :
    ∃ t, Runs.run (arrive .little) (imeStart exampleArrivals) exampleArrivals = some t ∧
      t.inp = [] ∧ t.inbuf.length = imeBuflen ∧ t.stray = false ∧
      ∃ us, t.used = us ∧ Taken (exampleArrivals.map Arrival.packet) us := by
  have hok : Runs.Meets (arrive .little) PacketAllowed (imeStart exampleArrivals)
      exampleArrivals := by decide +kernel
  exact ime_packets .little (List.length_replicate ..) rfl [] [] (by rfl) hok

/-- A unit of size `-1`: `memcpy` gets a size that is too large for any array. -/
def negativeArrivals : List Arrival :=
  [imeArrival opcodeSetup 0 (List.replicate 8 0) (by decide) (by decide),
    imeArrival opcodeUnit (-1) [] (by decide) (by decide)]

theorem ime_packets_stray :
    ¬ ∀ (o : Endian) (s : ImeRd) (as bs : List Arrival) (rest : List Byte),
      s.inbuf.length = imeBuflen → s.stray = false →
      s.inp = streamBytes as ++ (streamBytes bs ++ rest) →
      ∃ t, Runs.run (arrive o) s as = some t ∧ t.inp = streamBytes bs ++ rest ∧
        t.inbuf.length = imeBuflen ∧ t.stray = false ∧
        ∃ us, t.used = s.used ++ us ∧ Taken (as.map Arrival.packet) us := by
  intro h
  obtain ⟨t, ht, -, -, hstray, -⟩ := h .little (imeStart negativeArrivals) negativeArrivals [] []
    (List.length_replicate ..) rfl (by rfl)
  have hrun : (Runs.run (arrive .little) (imeStart negativeArrivals) negativeArrivals).map
      (·.stray) = some true := by decide +kernel
  rw [ht] at hrun
  rw [Option.map_some, hstray] at hrun
  cases hrun

end TFProtocol
