import TFProtocol.HpfCodes
import TFProtocol.Server
import TFProtocol.SecfsFlags

/-!
# The requests `PUT`, `GET`, `PUTCAN` and `GETCAN`

A request is the name of the command, a path, one byte and two or three 64-bit numbers.  The
handlers find the numbers from the end of the frame: they store a NUL where the byte between
the path and the numbers must be, and take the numbers from behind the NUL that ends the path.
The place of the NUL is computed with unsigned numbers that wrap for a short frame, and how
long the frame is is not checked.

Every byte of `comm.buf` that a handler reads or stores until it has its parameters is an
access; they are the indices from `comm.buf` on, negative ones included.

## Main definitions

* `HpfCmd` — the four handlers; they differ in the name, the numbers and the permission.
* `hpfRequest` — what a handler makes of a frame, and its accesses.
* `HpfSafe` — a request is decoded, and every access is inside the frame.

## Main results

* `hpfRequest_wellFormed` — a request comes back as it was sent.
* `hpf_safe_iff` — **no access leaves the frame exactly when the frame is long enough for the
  numbers**, or the path is cut off in it and then refused.
-/

namespace TFProtocol

open Bytes CStr

/-- The handlers. -/
inductive HpfCmd
  | put | get | putcan | getcan
  deriving DecidableEq, Repr

namespace HpfCmd

def name : HpfCmd → List Byte
  | .put => lit "PUT"
  | .get => lit "GET"
  | .putcan => lit "PUTCAN"
  | .getcan => lit "GETCAN"

/-- The numbers: `offst`, `bufsz` and, with cancellation points, `canpt`. -/
def nfields : HpfCmd → ℕ
  | .put | .get => 2
  | .putcan | .getcan => 3

/-- The size of `struct hpfile` or `struct hpfilecan`. -/
def size (c : HpfCmd) : ℕ := 8 * c.nfields

/-- The caller of `jaildir`. -/
def site : HpfCmd → Site
  | .put => .put
  | .get => .get
  | .putcan => .putcan
  | .getcan => .getcan

/-- Where the path starts. -/
def start (c : HpfCmd) : ℕ := c.name.length + 1

end HpfCmd

/-- The bytes of `comm.buf` from `lo` on and before `hi`. -/
structure Span where
  lo : ℤ
  hi : ℤ
  deriving DecidableEq, Repr

/-- What a handler makes of a frame: the string it gives to `jaildir`, the path it gets, the
numbers if `jaildir` succeeds, and the bytes it has accessed. -/
structure HpfReq where
  src : List Byte
  dst : List Byte
  fields : Option (List (BitVec 64))
  spans : List Span
  deriving DecidableEq, Repr

section

variable (o : Endian)

/-- A number of the structure, as it is after `swapbo64` on a little-endian host. -/
def hpfField (bs : List Byte) : BitVec 64 :=
  let b := BitVec.ofNat 64 (ofMem o bs)
  if isbigendian o then b else swapbo64 b

/-- Where the NUL is stored, counted from `comm.buf`.  The offset is a `size_t`, and a pointer
wraps as the address does. -/
def hpfNul (c : HpfCmd) (buflen : ℕ) : ℤ :=
  c.start +
    (BitVec.ofNat 64 buflen - BitVec.ofNat 64 c.start - BitVec.ofNat 64 c.size - 1).toInt

/-- `comm.buf` with the NUL in it. -/
def hpfMem (c : HpfCmd) (mem : List Byte) (buflen : ℕ) : List Byte :=
  if 0 ≤ hpfNul c buflen then mem.set (hpfNul c buflen).toNat 0 else mem

/-- The first lines of `cmd_put`, `cmd_get`, `cmd_putcan` and `cmd_getcan`, with `mem` the
content of `comm.buf` and `buflen` the length of the frame. -/
def hpfRequest (fs : Fs) (j : Jail) (beyond : List Byte) (c : HpfCmd) (mem : List Byte)
    (buflen : ℕ) : HpfReq :=
  let nul := hpfNul c buflen
  let mem := hpfMem c mem buflen
  let src := cstr (mem.drop c.start)
  let pt := c.start + src.length
  let spans : List Span := [⟨nul, nul + 1⟩, ⟨c.start, pt + 1⟩]
  let r := jaildir fs (c.site.arm j) src beyond
  if r.ok then
    ⟨src, r.dst,
      some ((List.range c.nfields).map fun i => hpfField o ((mem.drop (pt + 1 + 8 * i)).take 8)),
      spans ++ [⟨pt + 1, pt + 1 + c.size⟩]⟩
  else ⟨src, r.dst, none, spans⟩

end

/-- A frame as it stands in `comm.buf`. -/
structure HpfFrame where
  bytes : List Byte
  fits : bytes.length ≤ commbuflen

/-- A number on the wire. -/
def beField (v : BitVec 64) : List Byte := memBytes .big 8 v.toNat

/-- The request that a client sends. -/
def hpfFrame (c : HpfCmd) (path : List Byte) (sep : Byte) (fields : List (BitVec 64)) : List Byte :=
  c.name ++ (blank :: (path ++ sep :: fields.flatMap beField))

/-- What the handlers owe a frame, with `rest` behind it in `comm.buf`. -/
structure HpfSafe (o : Endian) (fs : Fs) (j : Jail) (beyond : List Byte) (c : HpfCmd)
    (frame : HpfFrame) (rest : List Byte) : Prop where
  /-- A request is decoded to the path and the numbers that were sent. -/
  decoded : ∀ path sep fields, 0 ∉ path → fields.length = c.nfields →
    frame.bytes = hpfFrame c path sep fields →
    let r := hpfRequest o fs j beyond c (frame.bytes ++ rest) frame.bytes.length
    r.src = path ∧ (j.dbdir.length + path.length < pathMax → r.dst = j.dbdir ++ path) ∧
      r.fields = if (jaildir fs (c.site.arm j) path beyond).ok then some fields else none
  /-- No access is outside the frame. -/
  inside : ∀ a ∈ (hpfRequest o fs j beyond c (frame.bytes ++ rest) frame.bytes.length).spans,
    0 ≤ a.lo ∧ a.hi ≤ frame.bytes.length

/-! ### The place of the NUL -/

theorem HpfCmd.start_le (c : HpfCmd) : c.start ≤ 7 := by cases c <;> decide

theorem HpfCmd.size_le (c : HpfCmd) : 16 ≤ c.size ∧ c.size ≤ 24 := by cases c <;> decide

/-- The NUL is stored before the last `c.size` bytes of the frame, wherever that is. -/
theorem hpf_nul (c : HpfCmd) {n : ℕ} (hn : n ≤ commbuflen) :
    hpfNul c n = n - c.size - 1 := by
  have hstart := c.start_le
  have hsize := c.size_le
  have hnat : ∀ k : ℕ, k ≤ 524288 → (BitVec.ofNat 64 k).toInt = k := by
    intro k hk
    rw [← BitVec.ofInt_natCast, BitVec.toInt_ofInt, Int.bmod_def]
    norm_num
    omega
  have hsub : ∀ a b : BitVec 64, -524320 ≤ a.toInt - b.toInt → a.toInt - b.toInt ≤ 524288 →
      (a - b).toInt = a.toInt - b.toInt := by
    intro a b hlow hhigh
    rw [BitVec.toInt_sub, Int.bmod_def]
    norm_num
    omega
  unfold commbuflen at hn
  have hlen := hnat n (by omega)
  have hst := hnat c.start (by omega)
  have hsz := hnat c.size (by omega)
  have h1 : (1 : BitVec 64).toInt = 1 := by decide
  have hone := hsub (BitVec.ofNat 64 n) (BitVec.ofNat 64 c.start) (by omega) (by omega)
  have htwo := hsub (BitVec.ofNat 64 n - BitVec.ofNat 64 c.start) (BitVec.ofNat 64 c.size)
    (by omega) (by omega)
  rw [hpfNul, hsub _ 1 (by omega) (by omega)]
  omega

/-! ### A request of a client -/

theorem length_beField (v : BitVec 64) : (beField v).length = 8 := length_memBytes ..

/-- **A number survives**, whatever the byte order of the host. -/
theorem hpfField_beField (o : Endian) (v : BitVec 64) : hpfField o (beField v) = v := by
  have hwire : beField v = wire64 o v.toInt := by
    rw [wire64_eq, BitVec.ofInt_toInt, beField]
  have hback : ∀ b : BitVec 64, BitVec.ofNat 64 (ofMem o (memBytes o 8 b.toNat)) = b := by
    intro b
    rw [ofMem_memBytes o (by have := b.isLt; omega), BitVec.ofNat_toNat, BitVec.setWidth_eq]
  rw [hwire]
  unfold hpfField wire64
  simp only [hback, BitVec.ofInt_toInt]
  cases isbigendian o with
  | true => simp
  | false => simp [swapbo64_swapbo64]

theorem length_beFields (fields : List (BitVec 64)) :
    (fields.flatMap beField).length = 8 * fields.length := by
  induction fields with
  | nil => rfl
  | cons v fields ih =>
    rw [List.flatMap_cons, List.length_append, length_beField, ih, List.length_cons]
    omega

/-- The numbers are found one behind the other. -/
theorem hpfFields_eq (o : Endian) (rest : List Byte) : ∀ fields : List (BitVec 64),
    ((List.range fields.length).map fun i =>
      hpfField o (((fields.flatMap beField ++ rest).drop (8 * i)).take 8)) = fields := by
  intro fields
  induction fields with
  | nil => rfl
  | cons v fields ih =>
    have hfirst : ((beField v ++ (fields.flatMap beField ++ rest)).drop (8 * 0)).take 8
        = beField v := by
      rw [Nat.mul_zero, List.drop_zero, List.take_left' (length_beField v)]
    have hlater : ∀ i, (beField v ++ (fields.flatMap beField ++ rest)).drop (8 * (i + 1))
        = (fields.flatMap beField ++ rest).drop (8 * i) := by
      intro i
      rw [Nat.mul_succ, Nat.add_comm, ← List.drop_drop, List.drop_left' (length_beField v)]
    rw [List.length_cons, List.range_succ_eq_map, List.map_cons, List.map_map, List.flatMap_cons,
      List.append_assoc, hfirst, hpfField_beField]
    simp only [Function.comp_def, Nat.succ_eq_add_one, hlater]
    rw [ih]

variable (o : Endian) (fs : Fs) (j : Jail) (beyond : List Byte) (c : HpfCmd)

/-- **A request comes back as it was sent.** -/
theorem hpfRequest_wellFormed {path : List Byte} (hpath : 0 ∉ path) (sep : Byte)
    {fields : List (BitVec 64)} (hfields : fields.length = c.nfields)
    (hfits : (hpfFrame c path sep fields).length ≤ commbuflen) (rest : List Byte) :
    let r := hpfRequest o fs j beyond c (hpfFrame c path sep fields ++ rest)
      (hpfFrame c path sep fields).length
    r.src = path ∧ (j.dbdir.length + path.length < pathMax → r.dst = j.dbdir ++ path) ∧
      r.fields = if (jaildir fs (c.site.arm j) path beyond).ok then some fields else none := by
  have hsize : (fields.flatMap beField).length = c.size := by
    rw [length_beFields, hfields, HpfCmd.size]
  have hlen : (hpfFrame c path sep fields).length = c.start + path.length + 1 + c.size := by
    simp only [hpfFrame, List.length_append, List.length_cons, hsize, HpfCmd.start]
    omega
  have hnul : hpfNul c (hpfFrame c path sep fields).length = (c.start + path.length : ℕ) := by
    rw [hpf_nul c hfits, hlen]
    push_cast
    omega
  have hfront : (c.name ++ [blank]).length = c.start := by
    rw [List.length_append, List.length_singleton, HpfCmd.start]
  -- the NUL takes the place of the separator
  have hmem : hpfMem c (hpfFrame c path sep fields ++ rest) (hpfFrame c path sep fields).length =
      (c.name ++ [blank]) ++ (path ++ 0 :: (fields.flatMap beField ++ rest)) := by
    have hsplit : hpfFrame c path sep fields ++ rest =
        (c.name ++ [blank]) ++ (path ++ sep :: (fields.flatMap beField ++ rest)) := by
      simp [hpfFrame]
    rw [hpfMem, hnul, if_pos (Int.natCast_nonneg _), Int.toNat_natCast, hsplit,
      List.set_append_right _ _ (by rw [hfront]; omega), hfront, Nat.add_sub_cancel_left,
      List.set_append_right _ _ le_rfl, Nat.sub_self, List.set_cons_zero]
  have hsrc : cstr (((c.name ++ [blank]) ++ (path ++ 0 :: (fields.flatMap beField ++ rest))).drop
      c.start) = path := by
    rw [List.drop_left' hfront, cstr_of_not_mem hpath]
  have hdrop : ∀ i, ((c.name ++ [blank]) ++ (path ++ 0 :: (fields.flatMap beField ++ rest))).drop
      (c.start + path.length + 1 + 8 * i) = (fields.flatMap beField ++ rest).drop (8 * i) := by
    intro i
    rw [← List.drop_drop, ← List.drop_drop, ← List.drop_drop, List.drop_left' hfront,
      List.drop_left, List.drop_one, List.tail_cons]
  have hdst : j.dbdir.length + path.length < pathMax →
      (jaildir fs (c.site.arm j) path beyond).dst = j.dbdir ++ path := by
    intro hlt
    rw [jaildir_dst, jailed_of_lt (by omega)]
    rfl
  unfold hpfRequest
  dsimp only
  rw [hmem, hsrc]
  simp only [hdrop]
  rw [← hfields, hpfFields_eq]
  split
  · exact ⟨rfl, hdst, rfl⟩
  · exact ⟨rfl, hdst, rfl⟩

/-! ### Bounds -/

/-- The accesses of a request: the NUL, the path and, if it is let through, the numbers. -/
theorem hpf_inside_iff {n : ℕ} (hn : n ≤ commbuflen) (mem : List Byte) (m : ℕ) :
    (∀ a ∈ (hpfRequest o fs j beyond c mem n).spans, 0 ≤ a.lo ∧ a.hi ≤ m) ↔
      (c.size + 1 ≤ n ∧ n - c.size ≤ m) ∧
        c.start + (cstr ((hpfMem c mem n).drop c.start)).length + 1 ≤ m ∧
        ((jaildir fs (c.site.arm j) (cstr ((hpfMem c mem n).drop c.start)) beyond).ok = true →
          c.start + (cstr ((hpfMem c mem n).drop c.start)).length + 1 + c.size ≤ m) := by
  have hnul := hpf_nul c hn
  unfold hpfRequest
  dsimp only
  split
  next hok =>
    simp only [List.cons_append, List.nil_append, List.forall_mem_cons, List.not_mem_nil,
      false_imp_iff, implies_true, and_true, hnul, hok, true_imp_iff]
    push_cast
    omega
  next hok =>
    simp only [List.forall_mem_cons, List.not_mem_nil, false_imp_iff, implies_true, and_true, hnul,
      hok, Bool.false_eq_true]
    omega

/-- A NUL that is stored behind the start of the path ends it. -/
theorem length_src_le {frame rest : List Byte} (hn : frame.length ≤ commbuflen)
    (hlong : c.start + 1 + c.size ≤ frame.length) :
    c.start + (cstr ((hpfMem c (frame ++ rest) frame.length).drop c.start)).length + 1 + c.size
      ≤ frame.length := by
  have hnul := hpf_nul c hn
  have hidx : hpfNul c frame.length = (frame.length - c.size - 1 : ℕ) := by omega
  have hle : (cstr ((hpfMem c (frame ++ rest) frame.length).drop c.start)).length
      ≤ frame.length - c.size - 1 - c.start := by
    apply length_cstr_le
    intro b hb
    rw [hpfMem, hidx, if_pos (Int.natCast_nonneg _), Int.toNat_natCast, List.getElem?_drop,
      show c.start + (frame.length - c.size - 1 - c.start) = frame.length - c.size - 1 by omega,
      List.getElem?_set_self (by rw [List.length_append]; omega)] at hb
    exact (Option.some.inj hb).symm
  omega

/-- A NUL that is stored before the path does not touch it. -/
theorem drop_hpfMem {frame rest : List Byte} (hn : frame.length ≤ commbuflen)
    (hshort : frame.length < c.start + 1 + c.size) (hlen : c.size + 1 ≤ frame.length) :
    (hpfMem c (frame ++ rest) frame.length).drop c.start = frame.drop c.start ++ rest := by
  have hstart := c.start_le
  have hsize := c.size_le
  have hidx : hpfNul c frame.length = (frame.length - c.size - 1 : ℕ) := by
    have := hpf_nul c hn
    omega
  rw [hpfMem, hidx, if_pos (Int.natCast_nonneg _), Int.toNat_natCast,
    List.drop_set_of_lt (by omega), List.drop_append_of_le_length (by omega)]

/-- **When the handlers stay in the frame.**  Every request is decoded, and no access leaves the
frame, exactly when the frame has room for the name, a blank, the byte before the numbers and
the numbers; or when it has room for that byte and the numbers only, the path ends at a NUL of
the frame, and `jaildir` refuses it. -/
theorem hpf_safe_iff (frame : HpfFrame) (rest : List Byte) :
    HpfSafe o fs j beyond c frame rest ↔
      (c.start + 1 + c.size ≤ frame.bytes.length ∨
        (c.size + 1 ≤ frame.bytes.length ∧ 0 ∈ frame.bytes.drop c.start ∧
          (jaildir fs (c.site.arm j) (cstr (frame.bytes.drop c.start)) beyond).ok = false)) := by
  obtain ⟨bytes, hn⟩ := frame
  dsimp only
  have hdecoded : ∀ path sep fields, 0 ∉ path → fields.length = c.nfields →
      bytes = hpfFrame c path sep fields →
      let r := hpfRequest o fs j beyond c (bytes ++ rest) bytes.length
      r.src = path ∧ (j.dbdir.length + path.length < pathMax → r.dst = j.dbdir ++ path) ∧
        r.fields = if (jaildir fs (c.site.arm j) path beyond).ok then some fields else none := by
    rintro path sep fields hpath hfields rfl
    exact hpfRequest_wellFormed o fs j beyond c hpath sep hfields hn rest
  have hinside := hpf_inside_iff o fs j beyond c hn (bytes ++ rest) bytes.length
  have hsize := c.size_le
  have hstart := c.start_le
  by_cases hlong : c.start + 1 + c.size ≤ bytes.length
  · have hsrc := @length_src_le c bytes rest hn hlong
    refine iff_of_true ⟨hdecoded, hinside.mpr ⟨⟨by omega, by omega⟩, by omega, fun _ => hsrc⟩⟩
      (.inl hlong)
  · constructor
    · rintro ⟨-, hin⟩
      obtain ⟨⟨hlen, -⟩, hsrc, hok⟩ := hinside.mp hin
      rw [drop_hpfMem c hn (by omega) hlen] at hsrc hok
      have hmem : 0 ∈ bytes.drop c.start := by
        rw [← @cstr_append_of_lt _ rest, List.length_drop]
        omega
      rw [cstr_append_of_mem hmem] at hok
      refine .inr ⟨hlen, hmem, Bool.eq_false_of_not_eq_true fun h => ?_⟩
      -- the numbers would be taken from behind the frame
      have := hok h
      omega
    · rintro (h | ⟨hlen, hmem, hno⟩)
      · exact absurd h hlong
      · refine ⟨hdecoded, hinside.mpr ⟨⟨hlen, by omega⟩, ?_, ?_⟩⟩
        · rw [drop_hpfMem c hn (by omega) hlen]
          have := (@cstr_append_of_lt _ rest).mpr hmem
          rw [List.length_drop] at this
          omega
        · rw [drop_hpfMem c hn (by omega) hlen, cstr_append_of_mem hmem, hno]
          exact fun h => nomatch h

/-- The three bytes `PUT`: the NUL is stored fourteen bytes before the buffer. -/
theorem hpf_name_alone :
    ¬ ∀ (o : Endian) (fs : Fs) (j : Jail) (beyond : List Byte) (c : HpfCmd) (frame : HpfFrame)
      (rest : List Byte), cmdtoupper (excmd (frame.bytes ++ rest)) = c.name →
      HpfSafe o fs j beyond c frame rest := by
  intro h
  have hsafe := h .little ⟨fun _ => true, fun _ => true, fun _ => none⟩ default [] .put
    ⟨lit "PUT", by decide⟩ [0] (by decide)
  have hroom := (hpf_inside_iff .little _ default [] .put (n := 3) (by decide) _ 3).mp hsafe.inside
  exact absurd hroom.1.1 (by decide)

end TFProtocol
