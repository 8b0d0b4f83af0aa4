import TFProtocol.HpfCodes

/-!
# The thread that waits for a cancellation

While `GET` sends a file, the thread of `getstream_cancelth` reads codes from the client:
`HPFCANCEL` stops the transfer, and `HPFFIN` ends the thread, for which `getstream` waits.
The loop does not look at what `readbuf_ex` returns.  A read that fails leaves in `code`
what the turn before left there, with the bytes that arrived before the failure laid over
it, and the turn converts it once more.

## Main definitions

* `getstreamCancelth` — the loop, with a bound on its turns.
* `codeStores` — what the reads store, as long as anything can arrive.
* `FinArrives` — the condition: one of the words made of it is `HPFFIN`.

## Main results

* `cancelth_ends_iff` — the thread ends if and only if the condition holds.
-/

namespace TFProtocol

open Bytes CStr

section

variable (o : Endian) (aes : Aes)

/-! ### The loop -/

/-- `code` after a turn: the bytes that the read stored over it, converted. -/
def codeWord (code : BitVec 64) (got : List Byte) : BitVec 64 :=
  let v := BitVec.ofNat 64 (ofMem o (overlay (memBytes o 8 code.toNat) got))
  if isbigendian o then v else swapbo64 v

/-- `getstream_cancelth`: `hpfcont` when the thread ends, if it does in that many turns. -/
def getstreamCancelth : ℕ → Sess → BitVec 64 → Bool → Option Bool
  | 0, _, _, _ => none
  | turns + 1, s, code, hpfcont =>
    let r := readbufEx o aes s 8
    let code := codeWord o code r.got
    if code.toInt = hpfcancel then getstreamCancelth turns r.sess code false
    else if code.toInt = hpffin then some hpfcont
    else getstreamCancelth turns r.sess code hpfcont

/-! ### What arrives -/

/-- What can still arrive: bytes, and answers of the kernel. -/
def Sess.pending (s : Sess) : ℕ := s.inp.length + s.rsched.length

/-- Nothing can arrive any more. -/
def Sess.Drained (s : Sess) : Prop := s.inp = [] ∧ s.rsched = []

/-- What the first reads of eight bytes store. -/
def codeReads : ℕ → Sess → List (List Byte)
  | 0, _ => []
  | n + 1, s => (readbufEx o aes s 8).got :: codeReads n (readbufEx o aes s 8).sess

/-- What the reads store, as long as anything can arrive: each of them takes a byte or an
answer. -/
def codeStores (s : Sess) : List (List Byte) := codeReads o aes s.pending s

/-- The words that are made of it, one behind the other. -/
def codeWords (code : BitVec 64) : List (List Byte) → List (BitVec 64)
  | [] => []
  | got :: stores => codeWord o code got :: codeWords (codeWord o code got) stores

/-- **The code that ends the thread arrives**: one of the words made of what the client sent
is `HPFFIN`, or the last one is, in one of the two byte orders. -/
def FinArrives (code : BitVec 64) (stores : List (List Byte)) : Prop :=
  (∃ w ∈ codeWords o code stores, w.toInt = hpffin) ∨
    ((codeWords o code stores).getLastD code).toInt = hpffin ∨
    (codeWord o ((codeWords o code stores).getLastD code) []).toInt = hpffin

end

/-! ### Reads use up what can arrive -/

theorem rdLoop_measure (sched : List SysRes) (len : ℕ) (inp : List Byte) :
    (rdLoop sched len inp).rest.length + (rdLoop sched len inp).sched.length ≤
      inp.length + sched.length := by
  fun_induction rdLoop sched len inp with
  | case1 => exact le_rfl
  | case2 len inp hle => simp
  | case3 => simp
  | case4 => simp
  | case5 inp sched len ih => simp only [Xfer.after_rest, Xfer.after_sched, List.length_cons]; omega
  | case6 => simp
  | case7 => simp
  | case8 n sched len inp hnil k ih =>
    simp only [Xfer.after_rest, Xfer.after_sched, List.length_cons, List.length_drop] at ih ⊢
    omega

/-- Every read that asks for something takes a byte or an answer. -/
theorem rdLoop_progress {sched : List SysRes} {len : ℕ} {inp : List Byte} (hlen : 0 < len)
    (h : ¬ (inp = [] ∧ sched = [])) :
    (rdLoop sched len inp).rest.length + (rdLoop sched len inp).sched.length <
      inp.length + sched.length := by
  cases sched with
  | nil =>
    have hpos : 0 < inp.length := List.length_pos_iff.mpr fun hnil => h ⟨hnil, rfl⟩
    obtain ⟨k, rfl⟩ := Nat.exists_eq_succ_of_ne_zero hlen.ne'
    rw [rdLoop]
    split
    · simp only [List.length_drop, List.length_nil]
      omega
    · split
      · next hnil => exact absurd ⟨hnil, rfl⟩ h
      · simpa using hpos
  | cons r sched =>
    obtain ⟨k, rfl⟩ := Nat.exists_eq_succ_of_ne_zero hlen.ne'
    cases r with
    | eintr =>
      have := rdLoop_measure sched (k + 1) inp
      simp only [rdLoop, Xfer.after_rest, Xfer.after_sched, List.length_cons]
      omega
    | err => simp [rdLoop]
    | cnt n =>
      rw [rdLoop]
      split
      · simp only [List.length_nil, List.length_cons]
        omega
      · have := rdLoop_measure sched (k + 1 - min (n + 1) (min (k + 1) inp.length))
          (inp.drop (min (n + 1) (min (k + 1) inp.length)))
        simp only [List.length_drop] at this
        simp only [Xfer.after_rest, Xfer.after_sched, List.length_cons]
        omega

theorem Sess.drained_iff {s : Sess} : s.Drained ↔ s.pending = 0 := by
  simp [Sess.Drained, Sess.pending]

theorem rdfd_pending_le (s : Sess) (len : ℤ) : (rdfd s len).sess.pending ≤ s.pending :=
  rdLoop_measure _ _ _

theorem rdfd_pending_lt {s : Sess} {len : ℤ} (hlen : 0 < len) (hs : ¬ s.Drained) :
    (rdfd s len).sess.pending < s.pending :=
  rdLoop_progress (by omega) hs

theorem rdfd_drained {s : Sess} {len : ℤ} (hlen : 0 < len) (hs : s.Drained) :
    (rdfd s len).ret = -1 ∧ (rdfd s len).got = [] ∧ (rdfd s len).sess.Drained := by
  obtain ⟨n, hn⟩ := Nat.exists_eq_succ_of_ne_zero (show len.toNat ≠ 0 by omega)
  simp [rdfd, hs.1, hs.2, hn, rdLoop, Sess.Drained]

section

variable {o : Endian} {aes : Aes}

theorem streamRead_pending (s : Sess) (len : ℤ) (enc : Bool) :
    (streamRead o s len enc).sess.pending = (rdfd s len).sess.pending := by
  simp only [streamRead]
  split
  · rfl
  · split <;> rfl

theorem blkRead_pending (s : Sess) (len : ℕ) :
    (blkRead aes s len).sess.pending = (rdfd s (aesLen len)).sess.pending := by
  simp only [blkRead]
  split <;> rfl

theorem aesLen_pos (len : ℕ) : (0 : ℤ) < aesLen len :=
  Int.natCast_pos.mpr (Nat.mul_pos (Nat.succ_pos _) (by decide))

theorem streamRead_drained {s : Sess} {len : ℤ} {enc : Bool} (hlen : 0 < len) (hs : s.Drained) :
    (streamRead o s len enc).ret = -1 ∧ (streamRead o s len enc).got = [] := by
  obtain ⟨hret, hgot, -⟩ := rdfd_drained hlen hs
  simp [streamRead, hret, hgot]

theorem blkRead_drained {s : Sess} {len : ℕ} (hs : s.Drained) :
    (blkRead aes s len).ret = -1 ∧ (blkRead aes s len).got = [] := by
  obtain ⟨hret, -, -⟩ := rdfd_drained (aesLen_pos len) hs
  simp [blkRead, hret]

theorem streamRead_pending_le (s : Sess) (len : ℤ) (enc : Bool) :
    (streamRead o s len enc).sess.pending ≤ s.pending := by
  rw [streamRead_pending]
  exact rdfd_pending_le s len

theorem blkRead_pending_le (s : Sess) (len : ℕ) : (blkRead aes s len).sess.pending ≤ s.pending := by
  rw [blkRead_pending]
  exact rdfd_pending_le s _

theorem streamRead_pending_lt {s : Sess} {len : ℤ} (enc : Bool) (hlen : 0 < len)
    (hs : ¬ s.Drained) : (streamRead o s len enc).sess.pending < s.pending := by
  rw [streamRead_pending]
  exact rdfd_pending_lt hlen hs

theorem blkRead_pending_lt {s : Sess} (len : ℕ) (hs : ¬ s.Drained) :
    (blkRead aes s len).sess.pending < s.pending := by
  rw [blkRead_pending]
  exact rdfd_pending_lt (aesLen_pos len) hs

theorem blkRcvbuf_pending_lt {s : Sess} {len : ℤ} (hlen : 0 < len) (hs : ¬ s.Drained) :
    (blkRcvbuf aes s len).sess.pending < s.pending := by
  rw [blkRcvbuf, if_neg (not_le.mpr hlen)]
  have htok : (blkRead aes { s with ciaSend := false } 36).sess.pending < s.pending :=
    blkRead_pending_lt 36 hs
  split
  · split
    · exact blkRead_pending_lt len.toNat hs
    · simp only
      split
      · exact htok
      · split
        · exact lt_of_le_of_lt (blkRead_pending_le _ _) htok
        · exact htok
  · exact blkRead_pending_lt len.toNat hs

/-- **Every receive uses something up**, in either mode, while there is anything. -/
theorem readbufEx_pending_lt {s : Sess} {len : ℤ} (hlen : 0 < len) (hs : ¬ s.Drained) :
    (readbufEx o aes s len).sess.pending < s.pending := by
  rw [readbufEx, rcvbuf]
  have htok : (streamRead o s 36 true).sess.pending < s.pending :=
    streamRead_pending_lt true (by decide) hs
  split
  · exact blkRcvbuf_pending_lt hlen hs
  · split
    · simp only
      split
      · exact htok
      · split
        · exact lt_of_le_of_lt (streamRead_pending_le _ _ _) htok
        · exact htok
    · exact streamRead_pending_lt true hlen hs

theorem blkRcvbuf_drained {s : Sess} {len : ℤ} (hlen : 0 < len) (hs : s.Drained) :
    (blkRcvbuf aes s len).got = [] ∧ (blkRcvbuf aes s len).sess.pending ≤ s.pending := by
  have hdrained : Sess.Drained { s with ciaSend := false } := hs
  have htok : (blkRead aes { s with ciaSend := false } 36).ret = -1 := (blkRead_drained hdrained).1
  rw [blkRcvbuf, if_neg (not_le.mpr hlen)]
  split
  · split
    · exact ⟨(blkRead_drained hdrained).2, blkRead_pending_le _ _⟩
    · simp only [htok, if_true, true_and]
      exact blkRead_pending_le { s with ciaSend := false } 36
  · exact ⟨(blkRead_drained hs).2, blkRead_pending_le _ _⟩

/-- **When everything is used up nothing is stored**, and it stays so. -/
theorem readbufEx_drained {s : Sess} {len : ℤ} (hlen : 0 < len) (hs : s.Drained) :
    (readbufEx o aes s len).got = [] ∧ (readbufEx o aes s len).sess.Drained := by
  have hzero := Sess.drained_iff.mp hs
  have htok : (streamRead o s 36 true).ret = -1 := (streamRead_drained (by decide) hs).1
  suffices h : (readbufEx o aes s len).got = [] ∧
      (readbufEx o aes s len).sess.pending ≤ s.pending from
    ⟨h.1, Sess.drained_iff.mpr (by omega)⟩
  rw [readbufEx, rcvbuf]
  split
  · exact blkRcvbuf_drained hlen hs
  · split
    · simp only [htok, if_true, true_and]
      exact streamRead_pending_le s 36 true
    · exact ⟨(streamRead_drained hlen hs).2, streamRead_pending_le _ _ _⟩

/-! ### The words -/

/-- A turn whose read stores nothing only converts the word. -/
theorem codeWord_nil (code : BitVec 64) :
    codeWord o code [] = if isbigendian o then code else swapbo64 code := by
  have hback : BitVec.ofNat 64 (ofMem o (overlay (memBytes o 8 code.toNat) [])) = code := by
    rw [overlay, List.nil_append, List.length_nil, List.drop_zero,
      ofMem_memBytes o (by have := code.isLt; omega), BitVec.ofNat_toNat, BitVec.setWidth_eq]
  rw [codeWord, hback]

theorem codeWord_codeWord_nil (code : BitVec 64) :
    codeWord o (codeWord o code []) [] = code := by
  rw [codeWord_nil, codeWord_nil]
  split
  · rfl
  · exact swapbo64_swapbo64 code

theorem codeWords_append : ∀ (a b : List (List Byte)) (code : BitVec 64),
    codeWords o code (a ++ b) =
      codeWords o code a ++ codeWords o ((codeWords o code a).getLastD code) b := by
  intro a
  induction a with
  | nil => intro b code; rfl
  | cons got a ih =>
    intro b code
    rw [List.cons_append, codeWords, codeWords, ih, List.cons_append, List.getLastD_cons]

/-- Behind the last byte that arrives the word goes back and forth between two values. -/
theorem mem_codeWords_replicate {w : BitVec 64} : ∀ (n : ℕ) {code : BitVec 64},
    w ∈ codeWords o code (List.replicate n []) → w = code ∨ w = codeWord o code [] := by
  intro n
  induction n with
  | zero => intro code h; cases h
  | succ n ih =>
    intro code h
    rw [List.replicate_succ, codeWords, List.mem_cons] at h
    rcases h with rfl | h
    · exact .inr rfl
    · rcases ih h with rfl | rfl
      · exact .inr rfl
      · exact .inl (codeWord_codeWord_nil code)

/-! ### The turns -/

/-- **The turns of the loop**: it ends with the first word that is `HPFFIN`. -/
theorem cancelth_isSome_iff : ∀ (turns : ℕ) (s : Sess) (code : BitVec 64) (cont : Bool),
    (getstreamCancelth o aes turns s code cont).isSome = true ↔
      ∃ w ∈ codeWords o code (codeReads o aes turns s), w.toInt = hpffin := by
  intro turns
  induction turns with
  | zero => intro s code cont; simp [getstreamCancelth, codeReads, codeWords]
  | succ turns ih =>
    intro s code cont
    simp only [getstreamCancelth, codeReads, codeWords, List.mem_cons, exists_eq_or_imp]
    split
    · next hcancel =>
      have hne : (codeWord o code (readbufEx o aes s 8).got).toInt ≠ hpffin := by
        rw [hcancel]
        decide
      rw [ih]
      simp [hne]
    · split
      · next hfin => simp [hfin]
      · next hfin => rw [ih]; simp [hfin]

theorem codeReads_drained : ∀ (n : ℕ) {s : Sess}, s.Drained →
    codeReads o aes n s = List.replicate n [] := by
  intro n
  induction n with
  | zero => intro s _; rfl
  | succ n ih =>
    intro s hs
    obtain ⟨hgot, hnext⟩ := @readbufEx_drained o aes s 8 (by decide) hs
    rw [codeReads, hgot, ih hnext, List.replicate_succ]

/-- Everything that can arrive has arrived after `pending` reads. -/
theorem codeReads_eq : ∀ (p : ℕ) {s : Sess}, s.pending ≤ p → ∀ {n : ℕ}, s.pending ≤ n →
    codeReads o aes n s = codeStores o aes s ++ List.replicate (n - s.pending) [] := by
  intro p
  induction p with
  | zero =>
    intro s hp n _
    have hzero : s.pending = 0 := by omega
    rw [codeReads_drained n (Sess.drained_iff.mpr hzero), codeStores, hzero]
    rfl
  | succ p ih =>
    intro s hp n hn
    by_cases hs : s.Drained
    · rw [codeReads_drained n hs, codeStores, Sess.drained_iff.mp hs]
      rfl
    · have hlt := @readbufEx_pending_lt o aes s 8 (by decide) hs
      obtain ⟨q, hq⟩ := Nat.exists_eq_succ_of_ne_zero (show s.pending ≠ 0 by omega)
      obtain ⟨m, rfl⟩ := Nat.exists_eq_succ_of_ne_zero (show n ≠ 0 by omega)
      -- both sides continue from the same session, with room for all that is left
      rw [codeStores, hq, codeReads, codeReads, ih (by omega) (show _ ≤ q by omega),
        ih (by omega) (show _ ≤ m by omega), List.cons_append, List.append_assoc,
        ← List.replicate_add]
      congr 4
      omega

theorem codeReads_isPrefix : ∀ (n m : ℕ) (s : Sess),
    codeReads o aes n s <+: codeReads o aes (n + m) s := by
  intro n
  induction n with
  | zero => intro m s; exact List.nil_prefix
  | succ n ih =>
    intro m s
    rw [Nat.succ_add]
    exact List.cons_prefix_cons.mpr ⟨rfl, ih m _⟩

theorem codeWords_isPrefix {a b : List (List Byte)} (h : a <+: b) (code : BitVec 64) :
    codeWords o code a <+: codeWords o code b := by
  obtain ⟨t, rfl⟩ := h
  rw [codeWords_append]
  exact List.prefix_append _ _

/-- A thread that ends was told to. -/
theorem finArrives_of_ends {s : Sess} {code : BitVec 64} {cont : Bool} {turns : ℕ}
    (h : (getstreamCancelth o aes turns s code cont).isSome = true) :
    FinArrives o code (codeStores o aes s) := by
  rw [cancelth_isSome_iff] at h
  obtain ⟨w, hw, hfin⟩ := h
  have hmem := (codeWords_isPrefix (codeReads_isPrefix turns s.pending s) code).subset hw
  rw [codeReads_eq s.pending le_rfl (Nat.le_add_left _ _), codeWords_append,
    List.mem_append] at hmem
  rcases hmem with hmem | hmem
  · exact .inl ⟨w, hmem, hfin⟩
  · rcases mem_codeWords_replicate _ hmem with rfl | rfl
    · exact .inr (.inl hfin)
    · exact .inr (.inr hfin)

/-- A thread that is told to end does. -/
theorem ends_of_finArrives {s : Sess} {code : BitVec 64} (cont : Bool)
    (h : FinArrives o code (codeStores o aes s)) :
    ∃ turns, (getstreamCancelth o aes turns s code cont).isSome = true := by
  -- two turns behind the last byte show both values of the word
  refine ⟨s.pending + 2, ?_⟩
  rw [cancelth_isSome_iff, codeReads_eq s.pending le_rfl (Nat.le_add_right _ _), codeWords_append,
    Nat.add_sub_cancel_left]
  rcases h with ⟨w, hw, hfin⟩ | hfin | hfin
  · exact ⟨w, List.mem_append_left _ hw, hfin⟩
  · refine ⟨_, List.mem_append_right _ ?_, hfin⟩
    simp [List.replicate, codeWords, codeWord_codeWord_nil]
  · refine ⟨_, List.mem_append_right _ ?_, hfin⟩
    simp [List.replicate, codeWords]

/-- **When the thread ends**, whatever arrives, in whatever pieces, and whatever is in `code`
at first: exactly when `HPFFIN` arrives. -/
theorem cancelth_ends_iff (s : Sess) (code : BitVec 64) :
    (∃ turns, (getstreamCancelth o aes turns s code true).isSome = true) ↔
      FinArrives o code (codeStores o aes s) :=
  ⟨fun ⟨_, h⟩ => finArrives_of_ends h, ends_of_finArrives true⟩

end

/-- A client that cancels a transfer and is gone. -/
def exampleCancel : Sess := { (default : Sess) with inp := wire64 .little hpfcancel }

/-- The thread then turns for ever. -/
theorem cancelth_never_ends :
    ¬ ∃ turns, (getstreamCancelth .little Aes.sample turns exampleCancel 0 true).isSome = true := by
  have hstores : codeStores .little Aes.sample exampleCancel =
      wire64 .little hpfcancel :: List.replicate 7 [] := by decide
  -- the code, and the code in the other byte order
  have hcancel : codeWord .little 0 (wire64 .little hpfcancel) = 0xFFFFFFFFFFFFFFFE := by decide
  have hswap : codeWord .little 0xFFFFFFFFFFFFFFFE [] = 0xFEFFFFFFFFFFFFFF := by decide
  have hback : codeWord .little 0xFEFFFFFFFFFFFFFF [] = 0xFFFFFFFFFFFFFFFE := by decide
  rintro ⟨turns, h⟩
  have harrives := finArrives_of_ends h
  rw [hstores] at harrives
  have hne : (0xFFFFFFFFFFFFFFFE : BitVec 64).toInt ≠ hpffin := by decide
  have hne' : (0xFEFFFFFFFFFFFFFF : BitVec 64).toInt ≠ hpffin := by decide
  simp only [FinArrives, List.replicate, codeWords, hcancel, hswap, hback, List.getLastD_cons,
    List.getLastD_nil, List.mem_cons, List.not_mem_nil, or_false] at harrives
  rcases harrives with ⟨w, hw, hfin⟩ | hfin | hfin
  · rcases hw with rfl | rfl | rfl | rfl | rfl | rfl | rfl | rfl
    all_goals first | exact hne hfin | exact hne' hfin
  · exact hne' hfin
  · exact hne hfin

end TFProtocol
