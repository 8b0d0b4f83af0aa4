import TFProtocol.Lib.Mealy
import TFProtocol.Lib.TextLines
import TFProtocol.Roots

/-!
# The load balancer

A `TLB` request, over TCP or as a datagram, is answered with one line of the balancer file.
Each of the two functions keeps the offset at which its next request reads in a static
variable, and begins again when the offset is the size of the file.  The file can be edited
between two requests, and the offset is one into the file as it was.

## Main definitions

* `TlbKind`, `tlbReply`, `tlbStep` — a request of either kind.
* `Balanced` — while the file stays the same its lines are the answers, in cyclic order.
* `AtLine` — the offset is where a line of the file starts, or the file ends.

## Main results

* `tlb_balances` — the requests are balanced if every edit leaves the offset at a line.
-/

namespace TFProtocol

open Bytes CStr

/-! ### A request -/

/-- `cmd_tlb`, and `procmsg` with `UDP_TLB`. -/
inductive TlbKind
  | tcp
  | udp
  deriving DecidableEq, Repr

/-- The number of bytes `fgets` is given: what is left of `comm.buf`, and `TLB_TUPLEN`. -/
def TlbKind.size : TlbKind → ℕ
  | .tcp => commbuflen - (cmdOkText.length + 1)
  | .udp => 256

/-- What is sent, for a line or in its absence. -/
def tlbReply : TlbKind → Option (List Byte) → List Byte
  | .tcp, some text => cmdOkText ++ lit " " ++ text
  | .tcp, none => cmdFailText (lit "52 : Failed to retrieve TLB tuple.")
  -- `UDP_OK`, the line and its terminator, or `UDP_FAILED`
  | .udp, some text => 1 :: text ++ [0]
  | .udp, none => [0]

/-- A request that finds `content` in the file: `pos` afterwards, and the reply.  `fseek`
does not fail on an offset behind the end. -/
def tlbStep (kind : TlbKind) (pos : ℕ) (content : List Byte) : ℕ × List Byte :=
  let start := if pos = content.length then 0 else pos
  match lines newline kind.size (content.drop start) with
  | [] => (pos, tlbReply kind none)
  | line :: _ => (start + line.length, tlbReply kind (some (chop (cstr line))))

/-- A sequence of requests, each with the content it finds: `pos`, and the replies. -/
def tlbRun (kind : TlbKind) (contents : List (List Byte)) : ℕ × List (List Byte) :=
  Mealy.run (tlbStep kind) 0 contents

/-! ### What is wanted -/

/-- A line of the balancer file. -/
def TlbLine (l : List Byte) : Prop := newline ∉ l ∧ l.length < 255

/-- **The requests are balanced**: as long as the same lines are found in the file, they are
the answers, in cyclic order. -/
def Balanced (kind : TlbKind) (contents : List (List Byte)) : Prop :=
  ∀ before n after ls, contents = before ++ (List.replicate n (unlines newline ls) ++ after) →
    ls ≠ [] → (∀ l ∈ ls, TlbLine l) →
      ∃ k, ((tlbRun kind contents).2.drop before.length).take n =
        (List.range n).map fun i => tlbReply kind (some (ls.getD ((k + i) % ls.length) []))

/-- The offset is where a line of the file starts, or where the file ends, and the file has
no terminators in it. -/
def AtLine (pos : ℕ) (content : List Byte) : Prop :=
  (pos = 0 ∨ content[pos - 1]? = some newline) ∧ 0 ∉ content

instance (pos : ℕ) (content : List Byte) : Decidable (AtLine pos content) :=
  inferInstanceAs (Decidable (_ ∧ _))

/-- Every request that finds another content than the one before it finds its offset at a
line. -/
def EditsKeepLines (kind : TlbKind) (contents : List (List Byte)) : Prop :=
  ∀ before content after, contents = before ++ content :: after → content ≠ [] →
    before.getLast? ≠ some content → AtLine (tlbRun kind before).1 content

/-! ### The lines -/

section

variable {kind : TlbKind} {ls : List (List Byte)} (hls : ∀ l ∈ ls, TlbLine l)

include hls in
theorem AtLine.exists_start {pos : ℕ} (h : AtLine pos (unlines newline ls)) :
    ∃ k ≤ ls.length, pos = lineStart newline ls k := by
  rcases h.1 with rfl | hnl
  · exact ⟨0, Nat.zero_le _, rfl⟩
  · by_cases hpos : pos = 0
    · exact ⟨0, Nat.zero_le _, hpos⟩
    · obtain ⟨k, hk, heq⟩ := exists_lineStart (fun l hl => (hls l hl).1) hnl
      exact ⟨k, hk, by omega⟩

theorem TlbKind.le_size (kind : TlbKind) : 256 ≤ kind.size := by
  cases kind <;> decide

include hls in
/-- A request at the start of a line, or at the end of the file, is answered with a line, and
leaves the offset behind it. -/
theorem tlbStep_lineStart (hfree : 0 ∉ unlines newline ls) (hne : ls ≠ []) {k : ℕ}
    (hk : k ≤ ls.length) :
    tlbStep kind (lineStart newline ls k) (unlines newline ls) =
      (lineStart newline ls (k % ls.length + 1),
        tlbReply kind (some (ls.getD (k % ls.length) []))) := by
  have hpos : 0 < ls.length := List.length_pos_iff.mpr hne
  have hlt : k % ls.length < ls.length := Nat.mod_lt _ hpos
  have hstart : (if lineStart newline ls k = (unlines newline ls).length then 0
      else lineStart newline ls k) = lineStart newline ls (k % ls.length) := by
    rcases Nat.lt_or_eq_of_le hk with hlt | rfl
    · rw [if_neg (lineStart_lt hlt).ne, Nat.mod_eq_of_lt hlt]
    · rw [lineStart_length, if_pos rfl, Nat.mod_self, lineStart_zero]
  obtain ⟨l, hl⟩ : ∃ l, ls[k % ls.length]? = some l := ⟨_, List.getElem?_eq_getElem hlt⟩
  have hmem : l ∈ ls := List.mem_of_getElem? hl
  have hsize := kind.le_size
  have hlines : lines newline kind.size (unlines newline (ls.drop (k % ls.length))) =
      (ls.drop (k % ls.length)).map fun l => l ++ [newline] := by
    apply lines_unlines
    intro l hl
    have := hls l (List.mem_of_mem_drop hl)
    exact ⟨this.1, by have := this.2; omega⟩
  have hfirst : (ls.drop (k % ls.length)).map (fun l => l ++ [newline]) =
      (l ++ [newline]) :: (ls.drop (k % ls.length + 1)).map fun l => l ++ [newline] := by
    obtain ⟨-, rfl⟩ := List.getElem?_eq_some_iff.mp hl
    rw [List.drop_eq_getElem_cons hlt, List.map_cons]
  have hcut : chop (cstr (l ++ [newline])) = l := by
    have hzero : 0 ∉ l ++ [newline] := by
      intro h
      apply hfree
      refine List.mem_flatMap.mpr ⟨l, hmem, h⟩
    rw [cstr_eq_self hzero, chop, strchr_append (hls l hmem).1]
  simp only [tlbStep, hstart, drop_lineStart, hlines, hfirst, hcut]
  rw [lineStart_succ hl, List.getD_eq_getElem?_getD, hl]
  rfl

include hls in
/-- The requests that find the same lines. -/
theorem run_replicate (hfree : 0 ∉ unlines newline ls) (hne : ls ≠ []) : ∀ (n : ℕ) {k : ℕ},
    k ≤ ls.length →
    (Mealy.run (tlbStep kind) (lineStart newline ls k)
      (List.replicate n (unlines newline ls))).2 =
        (List.range n).map fun i => tlbReply kind (some (ls.getD ((k + i) % ls.length) [])) := by
  intro n
  induction n with
  | zero => intro k _; rfl
  | succ n ih =>
    intro k hk
    have hpos : 0 < ls.length := List.length_pos_iff.mpr hne
    have hnext := Nat.mod_lt k hpos
    rw [List.replicate_succ, Mealy.run_cons, tlbStep_lineStart hls hfree hne hk, List.range_succ_eq_map]
    simp only [List.map_cons, List.map_map, Nat.add_zero, ih (Nat.succ_le_of_lt hnext)]
    congr 2
    funext i
    simp only [Function.comp_apply]
    congr 3
    rw [show k % ls.length + 1 + i = k % ls.length + (1 + i) by omega, Nat.mod_add_mod]
    congr 1
    omega

include hls in
/-- A request leaves the offset at a line of the file. -/
theorem AtLine.next {pos : ℕ} (h : AtLine pos (unlines newline ls)) (hne : ls ≠ []) :
    AtLine (tlbStep kind pos (unlines newline ls)).1 (unlines newline ls) := by
  obtain ⟨k, hk, rfl⟩ := h.exists_start hls
  have hlt : k % ls.length < ls.length := Nat.mod_lt _ (List.length_pos_iff.mpr hne)
  rw [tlbStep_lineStart hls h.2 hne hk]
  exact ⟨.inr (getElem?_lineStart (List.getElem?_eq_getElem hlt)), h.2⟩

end

/-- While the file stays the same the offset stays at its lines. -/
theorem EditsKeepLines.atLine {kind : TlbKind} {contents : List (List Byte)}
    (h : EditsKeepLines kind contents) {ls : List (List Byte)} (hls : ∀ l ∈ ls, TlbLine l)
    (hne : ls ≠ []) : ∀ (before after : List (List Byte)),
    contents = before ++ unlines newline ls :: after →
      AtLine (tlbRun kind before).1 (unlines newline ls) := by
  have hcontent : unlines newline ls ≠ [] := by
    obtain ⟨l, ls, rfl⟩ := List.exists_cons_of_ne_nil hne
    simp [unlines]
  intro before
  -- backwards to the request that found the lines first
  induction before using List.reverseRecOn with
  | nil => exact fun after heq => h [] _ after heq hcontent (by simp)
  | append_singleton before last ih =>
    intro after heq
    by_cases hsame : last = unlines newline ls
    · have hat := ih (unlines newline ls :: after) (by rw [heq, hsame]; simp)
      have hrun : (tlbRun kind (before ++ [last])).1 =
          (tlbStep kind (tlbRun kind before).1 (unlines newline ls)).1 := by
        rw [tlbRun, Mealy.run_append, hsame]
        rfl
      rw [hrun]
      exact hat.next hls hne
    · refine h _ _ after heq hcontent ?_
      rw [List.getLast?_concat]
      exact fun hlast => hsame (Option.some.inj hlast)

/-- **The load balancer.**  If every edit leaves the offset at the start of a line, or at the
end of the file, the replies are balanced.  This is said of one `pos`, whose requests are served
one after the other.  Requests of both kinds together, and those of several UDP workers, each of
which has a `pos` of its own, are not covered. -/
theorem tlb_balances (kind : TlbKind) (contents : List (List Byte))
    (hedits : EditsKeepLines kind contents) : Balanced kind contents := by
  rintro before n after ls rfl hne hls
  cases n with
  | zero => exact ⟨0, by simp⟩
  | succ n =>
    have hat := hedits.atLine hls hne before (List.replicate n (unlines newline ls) ++ after)
      (by rw [List.replicate_succ, List.cons_append])
    obtain ⟨k, hk, hpos⟩ := hat.exists_start hls
    refine ⟨k, ?_⟩
    have hlen : (tlbRun kind before).2.length = before.length := Mealy.length_run ..
    rw [tlbRun, Mealy.run_append, ← tlbRun, hpos, ← hlen, List.drop_left, Mealy.run_append]
    rw [List.take_append_of_le_length (by simp), List.take_of_length_le (by simp)]
    exact run_replicate hls hat.2 hne (n + 1) hk

/-- A line is appended after the first request. -/
theorem tlb_balances_appended :
    Balanced .udp [lit "a:1\nb:2\n", lit "a:1\nb:2\nc:3\n", lit "a:1\nb:2\nc:3\n"] := by
  apply tlb_balances
  intro before content after heq
  rcases before with _ | ⟨c, _ | ⟨d, _ | ⟨e, before⟩⟩⟩
  all_goals simp only [List.nil_append, List.cons_append, List.cons.injEq] at heq
  · obtain ⟨rfl, -⟩ := heq
    exact fun _ _ => by decide
  · obtain ⟨rfl, rfl, -⟩ := heq
    exact fun _ _ => by decide
  · obtain ⟨rfl, rfl, rfl, -⟩ := heq
    exact fun _ h => absurd rfl h
  · exact absurd heq.2.2.2 (by simp)

/-- The first line gets shorter after the first request: the offset is in the middle of the
second line. -/
theorem tlb_cuts_line : ¬ Balanced .udp [lit "a:100\nb:2\n", lit "a:1\nb:2\n"] := by
  intro h
  obtain ⟨k, hk⟩ := h [lit "a:100\nb:2\n"] 1 [] [lit "a:1", lit "b:2"] rfl (by decide) (by
    intro l hl
    simp only [List.mem_cons, List.not_mem_nil, or_false] at hl
    rcases hl with rfl | rfl <;> exact ⟨by decide, by decide⟩)
  have hrun : ((tlbRun .udp [lit "a:100\nb:2\n", lit "a:1\nb:2\n"]).2.drop 1).take 1 =
      [1 :: lit "2" ++ [0]] := by decide
  rw [List.length_singleton, hrun] at hk
  have hcases : k % 2 = 0 ∨ k % 2 = 1 := by omega
  rcases hcases with h2 | h2
  · simp [h2, tlbReply] at hk
    revert hk
    decide
  · simp [h2, tlbReply] at hk
    revert hk
    decide

end TFProtocol
