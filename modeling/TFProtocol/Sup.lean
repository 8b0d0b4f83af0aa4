import TFProtocol.HpfCodes

/-!
# `SDOWN` and `SUP`

`cmd_sdown` sends a file in chunks behind 32-bit lengths, and a length of `0` behind them, or
`-1` when the file cannot be read.  `cmd_sup` takes such a stream and stores the chunks.  Its
verdict combines `err`, set when the file cannot be opened, the last length, and `rc`.  The
local `rc` is set to `-1` when a write fails and nowhere else: before the first failure it
holds what the stack held.

Both functions are on the clear text of the channel.

## Main definitions

* `cmdSdownIo`, `sdownChunks` — what `cmd_sdown` sends, and the chunks it reads.
* `supLoop`, `cmdSupIo` — the receive loop and the verdict.
* `WritesAll` — no write of a chunk fails.
* `SupMeets` — the two functions agree, and failures are not answered with success.

## Main results

* `cmdSdownIo_eq` — the stream is the chunks of the file and the end.
* `supLoop_stream` — the loop on such a stream.
* `sup_meets_iff` — **they agree exactly when `rc` does not happen to start as `-1`**, or a read
  or write fails anyway.
-/

namespace TFProtocol

open Bytes

/-! ### Lengths of 32 bits -/

/-- **A length survives**, whatever the byte orders of the two hosts. -/
theorem hdrgetsz_of_hdrsetsz (o o' : Endian) {v : ℤ} (hmin : -2 ^ 31 ≤ v) (hmax : v < 2 ^ 31) :
    hdrgetsz o' (hdrsetsz o v) = v := by
  have hint : (BitVec.ofInt 32 v).toInt = v := by
    rw [BitVec.toInt_ofInt, Int.bmod_def]
    norm_num at hmin hmax ⊢
    omega
  have h := hdrgetsz_hdrsetsz_toInt o o' (BitVec.ofInt 32 v) []
  rwa [hint, List.append_nil] at h

/-! ### The two functions -/

section

variable (o : Endian)

/-- A length that is sent as it is, without a swap. -/
def rawHdr (v : ℤ) : List Byte := memBytes o 4 (BitVec.ofInt 32 v).toNat

/-- The loop of `cmd_sdown`, with the answers to its reads; reads past the end of the list
deliver as much as there is room for.  Every turn but the last one takes a byte of the file. -/
def sdownLoop : ℕ → List (Option ℕ) → List Byte → List Byte
  | 0, _, _ => []
  | turns + 1, rs, rest =>
    match fileChunk commbuflen rest (rs.headD (some commbuflen)) with
    | none => rawHdr o (-1)
    | some [] => rawHdr o 0
    | some c => hdrsetsz o c.length ++ (c ++ sdownLoop turns rs.tail (rest.drop c.length))

/-- What `cmd_sdown` sends, when the file can be opened and when not. -/
def cmdSdownIo (opens : Bool) (rs : List (Option ℕ)) (file : List Byte) : List Byte :=
  if opens then sdownLoop o (file.length + 1) rs file else rawHdr o (-1)

/-- The receive loop of `cmd_sup`, with the answers to the writes of each chunk: the last
length, unless the stream breaks off, and `rc` and the bytes that were stored. -/
def supLoop : ℕ → List (List SysRes) → ℤ → List Byte → List Byte → Option ℤ × ℤ × List Byte
  | 0, _, rc, stored, _ => (none, rc, stored)
  | turns + 1, ws, rc, stored, inp =>
    match recv 4 inp with
    | none => (none, rc, stored)
    | some (h, inp) =>
      let hdr := hdrgetsz o h
      match recv hdr.toNat inp with
      | none => (none, rc, stored)
      | some (b, inp) =>
        if 0 < hdr then
          let w := writechunk (ws.headD []) b
          supLoop turns ws.tail (if w.1 = -1 then -1 else rc) (stored ++ w.2) inp
        else (some hdr, rc, stored)

/-- What `cmd_sup` leaves: the bytes stored in the destination, whether it was removed, and
the answer. -/
structure SupOut where
  stored : List Byte
  removed : Bool
  answer : Option ℤ
  deriving DecidableEq, Repr

/-- `cmd_sup`, where `rc` is the value of the local before it is assigned and `opens` says that
the path is let through and can be opened; if not, the bytes go to the null device.  A stream
that breaks off ends the session. -/
def cmdSupIo (opens : Bool) (rc : ℤ) (ws : List (List SysRes)) (inp : List Byte) : SupOut :=
  let l := supLoop o (inp.length + 1) ws rc [] inp
  let stored := if opens then l.2.2 else []
  match l.1 with
  | none => ⟨stored, false, none⟩
  | some hdr =>
    ⟨stored, opens && (l.2.1 = -1 || hdr ≠ 0),
      if hdr = 0 then some (if !opens || l.2.1 = -1 then -1 else 0) else none⟩

end

/-! ### Streams -/

/-- The chunks that the loop of `cmd_sdown` reads, and whether it gets to the end. -/
def sdownChunks : ℕ → List (Option ℕ) → List Byte → List (List Byte) × Bool
  | 0, _, _ => ([], false)
  | turns + 1, rs, rest =>
    match fileChunk commbuflen rest (rs.headD (some commbuflen)) with
    | none => ([], false)
    | some [] => ([], true)
    | some c =>
      let r := sdownChunks turns rs.tail (rest.drop c.length)
      (c :: r.1, r.2)

/-- The chunks `cmd_sdown` sends, and whether it sends the whole file. -/
def sdownAll (opens : Bool) (rs : List (Option ℕ)) (file : List Byte) : List (List Byte) × Bool :=
  if opens then sdownChunks (file.length + 1) rs file else ([], false)

/-- Chunks behind their lengths, and the last length. -/
def supStream (o : Endian) (cs : List (List Byte)) (last : ℤ) : List Byte :=
  (cs.flatMap fun c => hdrsetsz o c.length ++ c) ++ hdrsetsz o last

/-- A chunk that a 32-bit length can announce. -/
def SupChunk (c : List Byte) : Prop := c ≠ [] ∧ c.length < 2 ^ 31

/-- No write of a chunk fails. -/
def WritesAll : List (List SysRes) → List (List Byte) → Prop
  | _, [] => True
  | ws, c :: cs => (writechunk (ws.headD []) c).1 ≠ -1 ∧ WritesAll ws.tail cs

instance decidableWritesAll : ∀ ws cs, Decidable (WritesAll ws cs)
  | _, [] => .isTrue trivial
  | ws, _ :: cs =>
    have := decidableWritesAll ws.tail cs
    inferInstanceAs (Decidable ((writechunk (ws.headD []) _).1 ≠ -1 ∧ _))

theorem rawHdr_eq (o : Endian) {v : ℤ} (hv : v = 0 ∨ v = -1) : rawHdr o v = hdrsetsz o v := by
  rcases hv with rfl | rfl <;> cases o <;> decide

@[simp] theorem supStream_nil (o : Endian) (last : ℤ) : supStream o [] last = hdrsetsz o last := rfl

@[simp] theorem supStream_cons (o : Endian) (c : List Byte) (cs : List (List Byte)) (last : ℤ) :
    supStream o (c :: cs) last = hdrsetsz o c.length ++ (c ++ supStream o cs last) := by
  simp [supStream]

theorem sdownLoop_eq (o : Endian) : ∀ (turns : ℕ) (rs : List (Option ℕ)) (rest : List Byte),
    rest.length < turns →
    sdownLoop o turns rs rest = supStream o (sdownChunks turns rs rest).1
        (if (sdownChunks turns rs rest).2 then 0 else -1) ∧
      (∀ c ∈ (sdownChunks turns rs rest).1, SupChunk c) ∧
      ((sdownChunks turns rs rest).2 = true → (sdownChunks turns rs rest).1.flatten = rest) := by
  intro turns
  induction turns with
  | zero => intro rs rest h; omega
  | succ turns ih =>
    intro rs rest h
    unfold sdownLoop sdownChunks
    split
    next hread =>
      rw [rawHdr_eq o (.inr rfl)]
      exact ⟨rfl, nofun, nofun⟩
    next hread =>
      obtain ⟨-, -, -, hnil, -⟩ := fileChunk_some (by decide) hread
      rw [rawHdr_eq o (.inl rfl)]
      exact ⟨rfl, nofun, fun _ => (hnil rfl).symm⟩
    next c hne hread =>
      obtain ⟨rest', hrest, hdrop, -, hlen⟩ := fileChunk_some (by decide) hread
      have hpos := List.length_pos_of_ne_nil hne
      have hsplit := congrArg List.length hrest
      rw [List.length_append] at hsplit
      obtain ⟨hloop, hchunks, hall⟩ := ih rs.tail (rest.drop c.length)
        (by rw [List.length_drop]; omega)
      refine ⟨by rw [hloop, supStream_cons], ?_, fun hend => ?_⟩
      · intro d hd
        rcases List.mem_cons.mp hd with rfl | hd
        · exact ⟨hne, hlen.trans_lt (by decide)⟩
        · exact hchunks d hd
      · rw [List.flatten_cons, hall hend, ← hdrop, ← hrest]

/-- **The stream of `cmd_sdown`** is the chunks it reads, and behind the whole file a `0`. -/
theorem cmdSdownIo_eq (o : Endian) (opens : Bool) (rs : List (Option ℕ)) (file : List Byte) :
    cmdSdownIo o opens rs file = supStream o (sdownAll opens rs file).1
        (if (sdownAll opens rs file).2 then 0 else -1) ∧
      (∀ c ∈ (sdownAll opens rs file).1, SupChunk c) ∧
      ((sdownAll opens rs file).2 = true → (sdownAll opens rs file).1.flatten = file) := by
  unfold cmdSdownIo sdownAll
  split
  · exact sdownLoop_eq o _ rs file (Nat.lt_succ_self _)
  · exact ⟨rawHdr_eq o (.inr rfl), nofun, nofun⟩

/-- What the writes of the chunks store. -/
def storedOf : List (List SysRes) → List (List Byte) → List Byte
  | _, [] => []
  | ws, c :: cs => (writechunk (ws.headD []) c).2 ++ storedOf ws.tail cs

theorem storedOf_writesAll : ∀ (cs : List (List Byte)) (ws : List (List SysRes)), WritesAll ws cs →
    storedOf ws cs = cs.flatten := by
  intro cs
  induction cs with
  | nil => intro ws _; rfl
  | cons c cs ih =>
    rintro ws ⟨hc, hcs⟩
    rw [storedOf, (writechunk_spec _ c).2 hc, ih ws.tail hcs, List.flatten_cons]

theorem recv_hdrsetsz (o : Endian) (v : ℤ) (b : List Byte) :
    recv 4 (hdrsetsz o v ++ b) = some (hdrsetsz o v, b) := by
  rw [← recv_append, length_hdrsetsz]

/-- **The receive loop on a stream**: `rc` is `-1` at the end if a write failed, and otherwise
what it was. -/
theorem supLoop_stream (o o' : Endian) {last : ℤ} (hmin : -2 ^ 31 ≤ last) (hmax : last ≤ 0) :
    ∀ (cs : List (List Byte)) (turns : ℕ) (ws : List (List SysRes)) (rc : ℤ) (stored : List Byte),
      (∀ c ∈ cs, SupChunk c) → cs.length < turns →
      supLoop o' turns ws rc stored (supStream o cs last) =
        (some last, (if WritesAll ws cs then rc else -1), stored ++ storedOf ws cs) := by
  intro cs
  induction cs with
  | nil =>
    intro turns ws rc stored _ hturns
    cases turns with
    | zero => cases hturns
    | succ turns =>
      have hhdr := recv_hdrsetsz o last []
      rw [List.append_nil] at hhdr
      have hpos : ¬ 0 < last := by omega
      rw [supStream_nil, supLoop, hhdr]
      dsimp only
      rw [hdrgetsz_of_hdrsetsz o o' hmin (by omega), Int.toNat_of_nonpos hmax]
      simp [recv, hpos, WritesAll, storedOf]
  | cons c cs ih =>
    intro turns ws rc stored hcs hturns
    cases turns with
    | zero => cases hturns
    | succ turns =>
      obtain ⟨hne, hlen⟩ := hcs c List.mem_cons_self
      have hpos : 0 < (c.length : ℤ) := by
        have := List.length_pos_of_ne_nil hne
        omega
      rw [List.length_cons, Nat.succ_lt_succ_iff] at hturns
      have hrest := ih turns ws.tail (if (writechunk (ws.headD []) c).1 = -1 then -1 else rc)
        (stored ++ (writechunk (ws.headD []) c).2) (fun d hd => hcs d (List.mem_cons_of_mem _ hd))
        hturns
      rw [supStream_cons, supLoop, recv_hdrsetsz]
      dsimp only
      rw [hdrgetsz_of_hdrsetsz o o' (by omega) (by omega), Int.toNat_natCast, recv_append]
      dsimp only
      rw [if_pos hpos, hrest, storedOf, List.append_assoc]
      -- a write that fails decides `rc`; after one that does not, the others do
      by_cases hc : (writechunk (ws.headD []) c).1 = -1
      · rw [if_pos hc, ite_self, if_neg fun h : WritesAll ws (c :: cs) => h.1 hc]
      · have hiff : WritesAll ws.tail cs ↔ WritesAll ws (c :: cs) := ⟨fun h => ⟨hc, h⟩, fun h => h.2⟩
        rw [if_neg hc, if_congr hiff rfl rfl]

theorem length_supStream (o : Endian) (last : ℤ) : ∀ cs : List (List Byte),
    cs.length < (supStream o cs last).length + 1 := by
  intro cs
  induction cs with
  | nil => simp
  | cons c cs ih =>
    rw [supStream_cons, List.length_append, List.length_append, length_hdrsetsz, List.length_cons]
    omega

/-- **`cmd_sup` on a stream.** -/
theorem cmdSupIo_stream (o o' : Endian) (opens : Bool) (rc : ℤ) (ws : List (List SysRes))
    {cs : List (List Byte)} (hcs : ∀ c ∈ cs, SupChunk c) {last : ℤ} (hmin : -2 ^ 31 ≤ last)
    (hmax : last ≤ 0) :
    cmdSupIo o' opens rc ws (supStream o cs last) =
      ⟨if opens then storedOf ws cs else [],
        opens && ((if WritesAll ws cs then rc else -1) = -1 || last ≠ 0),
        if last = 0 then some (if !opens || (if WritesAll ws cs then rc else -1) = -1 then -1 else 0)
        else none⟩ := by
  have hloop := supLoop_stream o o' hmin hmax cs _ ws rc [] hcs (length_supStream o last cs)
  unfold cmdSupIo
  rw [hloop]
  rfl

/-! ### Agreement -/

/-- What the two functions owe each other.  Here `rc` is the value of the local of `cmd_sup`
before it is assigned, `readable` and `rs` are the answers `cmd_sdown` gets, and `ws` those of
the writes. -/
structure SupMeets (o o' : Endian) (rc : ℤ) (readable : Bool) (rs : List (Option ℕ))
    (ws : List (List SysRes)) (file : List Byte) : Prop where
  /-- The whole file is sent and every write succeeds: the copy is kept and `0` is answered. -/
  same : (sdownAll readable rs file).2 = true → WritesAll ws (sdownAll readable rs file).1 →
    cmdSupIo o' true rc ws (cmdSdownIo o readable rs file) = ⟨file, false, some 0⟩
  /-- A write fails, or `cmd_sdown` ends with `-1`. -/
  failed : ¬ ((sdownAll readable rs file).2 = true ∧ WritesAll ws (sdownAll readable rs file).1) →
    (cmdSupIo o' true rc ws (cmdSdownIo o readable rs file)).removed = true ∧
      (cmdSupIo o' true rc ws (cmdSdownIo o readable rs file)).answer ≠ some 0
  /-- Any stream that ends with a negative length. -/
  negative : ∀ cs last ws', (∀ c ∈ cs, SupChunk c) → -2 ^ 31 ≤ last → last < 0 →
    (cmdSupIo o' true rc ws' (supStream o cs last)).removed = true ∧
      (cmdSupIo o' true rc ws' (supStream o cs last)).answer ≠ some 0
  /-- A destination that could not be opened is left alone. -/
  refused : ∀ ws' inp, (cmdSupIo o' false rc ws' inp).removed = false ∧
    (cmdSupIo o' false rc ws' inp).answer ≠ some 0

theorem cmdSupIo_negative (o o' : Endian) (rc : ℤ) (ws : List (List SysRes)) {cs : List (List Byte)}
    (hcs : ∀ c ∈ cs, SupChunk c) {last : ℤ} (hmin : -2 ^ 31 ≤ last) (hneg : last < 0) :
    (cmdSupIo o' true rc ws (supStream o cs last)).removed = true ∧
      (cmdSupIo o' true rc ws (supStream o cs last)).answer ≠ some 0 := by
  have hne : last ≠ 0 := by omega
  rw [cmdSupIo_stream o o' true rc ws hcs hmin hneg.le]
  simp [hne]

theorem cmdSupIo_refused (o : Endian) (rc : ℤ) (ws : List (List SysRes)) (inp : List Byte) :
    (cmdSupIo o false rc ws inp).removed = false ∧ (cmdSupIo o false rc ws inp).answer ≠ some 0 := by
  unfold cmdSupIo
  dsimp only
  split
  · exact ⟨rfl, nofun⟩
  · refine ⟨rfl, ?_⟩
    split <;> simp

/-- **When `SUP` and `SDOWN` agree.**  For every file, every answer to the reads and writes and
every value `rc` has before it is assigned: exactly when that value is not `-1`, or the stream
ends with a negative length or a write fails, which is then what `cmd_sup` reports. -/
theorem sup_meets_iff (o o' : Endian) (rc : ℤ) (readable : Bool) (rs : List (Option ℕ))
    (ws : List (List SysRes)) (file : List Byte) :
    SupMeets o o' rc readable rs ws file ↔
      (rc ≠ -1 ∨ (sdownAll readable rs file).2 = false ∨
        ¬ WritesAll ws (sdownAll readable rs file).1) := by
  obtain ⟨hstream, hcs, hall⟩ := cmdSdownIo_eq o readable rs file
  have hmin : -2 ^ 31 ≤ (if (sdownAll readable rs file).2 then (0 : ℤ) else -1) := by
    split <;> decide
  have hmax : (if (sdownAll readable rs file).2 then (0 : ℤ) else -1) ≤ 0 := by
    split <;> decide
  have hsup := cmdSupIo_stream o o' true rc ws hcs hmin hmax
  rw [← hstream] at hsup
  constructor
  · intro h
    by_contra hcon
    obtain ⟨rfl, hread, hwrite⟩ : rc = -1 ∧ (sdownAll readable rs file).2 = true ∧
        WritesAll ws (sdownAll readable rs file).1 := by
      rw [not_or, not_or, not_not, not_not] at hcon
      exact ⟨hcon.1, by simpa using hcon.2.1, hcon.2.2⟩
    have hsame := h.same hread hwrite
    rw [hsup] at hsame
    simp [hread] at hsame
  · intro h
    refine ⟨fun hread hwrite => ?_, fun hbad => ?_, ?_, cmdSupIo_refused o' rc⟩
    · have hrc : rc ≠ -1 := by
        rcases h with h | h | h
        · exact h
        · exact nomatch hread.symm.trans h
        · exact absurd hwrite h
      rw [hsup, storedOf_writesAll _ _ hwrite, hall hread]
      simp [hread, hwrite, hrc]
    · rw [hsup]
      by_cases hread : (sdownAll readable rs file).2 = true
      · have hwrite : ¬ WritesAll ws (sdownAll readable rs file).1 := fun hw => hbad ⟨hread, hw⟩
        simp [hread, hwrite]
      · simp [hread]
    · intro cs last ws' hcs' hmin' hneg
      exact cmdSupIo_negative o o' rc ws' hcs' hmin' hneg

/-- The stack holds `-1` where `rc` is, and a file of one byte is sent and stored without any
failure: it is removed, and `-1` is answered. -/
theorem sup_rejects_copy :
    ¬ ∀ (o o' : Endian) (rc : ℤ) (readable : Bool) (rs : List (Option ℕ)) (ws : List (List SysRes))
      (file : List Byte), SupMeets o o' rc readable rs ws file := by
  intro h
  have hsame := (h .little .little (-1) true [] [] [0x2a]).same (by decide) (by decide)
  exact absurd hsame (by decide)

end TFProtocol
