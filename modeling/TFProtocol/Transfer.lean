import TFProtocol.Handshake
import TFProtocol.Uploads

/-!
# Files over an encrypted session

`RCVFILE` sends a file in messages `CONT <data>` and waits for an answer after each; an answer
`BREAK` ends the transfer.  `SNDFILE` says `CONT` and waits for a message `<word> <data>`, until
that is `OK` or `BREAK`.  Both end with a reply of their own, and both work in `comm.buf`, which the
cipher overwrites with every message sent and which a chunk fills to the last byte, so that
`readbuf` finds no room for a terminator.

A turn is a message of the server and the answer of the client: each side waits for the other, so
there is no other order.

## Main definitions

* `turn` — a message and its answer, through the ciphers of both ends.
* `Fetch`, `fetchNext` — `sendfile` and its client.
* `Store`, `storeNext` — `rcvfile` and its client.

## Main results

* `fetch_exact` — what the client has is the beginning of the file, and how a fetch may end.
* `store_refines` — an upload is `rcvfileLoop` on the messages of the client.
* `copy_exact` — the messages of a fetch, handed on, leave the same file on another server.
-/

namespace TFProtocol

open Bytes CStr Runs

variable {o : Endian} {aes : Aes} {c s : Sess}

/-! ### A message that fills the buffer -/

/-- A message arrives, also one that fills the buffer. -/
theorem readbuf_of_writebuf_le {tx rx : Sess} (h : Linked tx rx) {m rest : List Byte}
    (hm : m.length ≤ commbuflen) (hbuf : rx.buf.length = commbuflen)
    (hinp : rx.inp = sealedMsg o aes tx m ++ rest) :
    Arrives o aes rx m rest ∧ Linked (writebuf o aes tx m).sess (readbuf o aes rx).sess := by
  rcases Nat.lt_or_ge m.length commbuflen with hlt | hge
  · exact arrives_linked h hlt hinp
  have heq : m.length = commbuflen := le_antisymm hm hge
  have hlen : m.length < 2 ^ 31 := by unfold commbuflen at hm; omega
  obtain ⟨hw, -, -⟩ := writebuf_stream o aes h.txReady hlen
  rw [sealedMsg, List.append_assoc] at hinp
  have hhdr : (hdrsetsz o m.length).length < 2 ^ 31 := by simp
  obtain ⟨hret, hgot, hrest, hlink⟩ := rcvbuf_of_sndbuf o aes h hhdr hinp
  rw [length_hdrsetsz, Nat.cast_ofNat] at hret hgot hrest hlink
  have hsz : hdrgetsz o (readHdr o aes rx).sess.rxhdr = m.length := by
    simp only [readHdr, hgot, overlay]
    exact hdrgetsz_hdrsetsz o _ hlen
  have hne : ¬ (readHdr o aes rx).ret = -1 := by
    simp only [readHdr, hret]
    decide
  have hlink' : Linked (sndbuf o aes tx (hdrsetsz o m.length) true).sess
      (readHdr o aes rx).sess :=
    hlink.congr_mem (readHdr o aes rx).sess.rxhdr (rcvbuf o aes rx 4 true).sess.buf
  obtain ⟨hret', hgot', hrest', hlink''⟩ := rcvbuf_of_sndbuf o aes hlink' hlen hrest
  -- there is no room for a terminator
  have hfull : ¬ ((0 : ℤ) ≤ m.length ∧ (m.length : ℤ) < commbuflen) := by omega
  have hr : readbuf o aes rx = { rcvbuf o aes (readHdr o aes rx).sess m.length true with
      sess := { (rcvbuf o aes (readHdr o aes rx).sess m.length true).sess with
        buf := overlay (rcvbuf o aes (readHdr o aes rx).sess m.length true).sess.buf
          (rcvbuf o aes (readHdr o aes rx).sess m.length true).got } } := by
    simp only [readbuf, hne, if_false, hsz, readBody, if_neg hfull]
  have hret'' : (readbuf o aes rx).ret = m.length := by rw [hr, hret']
  have hgot'' : (readbuf o aes rx).got = m := by rw [hr, hgot']
  refine ⟨⟨hret'', hgot'', by rw [hr, hrest'], ?_⟩, ?_⟩
  · obtain ⟨buf, hover, hkeep⟩ := @readbuf_over o aes rx rx.buf
    have hsame : (readbuf o aes rx).sess.buf = buf := by
      conv_lhs => rw [show rx = { rx with buf := rx.buf } from rfl, hover]
      rfl
    have hann : announced o aes rx = m.length := hsz
    rw [hsame, hkeep (by rw [hret'']; omega), hann, if_neg hfull, hgot'',
      List.set_eq_of_length_le (by omega)]
  · rw [hr, hw]
    exact hlink''.congr_mem (rcvbuf o aes (readHdr o aes rx).sess m.length true).sess.rxhdr _

/-! ### The two directions -/

/-- The ends are linked in both directions, and both have a buffer of the size of `comm.buf`. -/
structure Talking (c s : Sess) : Prop where
  joined : Joined c s
  buf : c.buf.length = commbuflen

/-- What a reader finds of a message. -/
def heard (o : Endian) (aes : Aes) (c s sent : Sess) : Rcv :=
  readbuf o aes (c.fed (sent.out.drop s.out.length))

/-- The client sends a message. -/
theorem Talking.up (h : Talking c s) {m : List Byte} (hm : m.length ≤ commbuflen) :
    (heard o aes s c (writebuf o aes c m).sess).ret = m.length ∧
      (heard o aes s c (writebuf o aes c m).sess).sess.buf = overlay (s.buf.set m.length 0) m ∧
      Talking (writebuf o aes c m).sess (heard o aes s c (writebuf o aes c m).sess).sess := by
  have hlen : m.length < 2 ^ 31 := by unfold commbuflen at hm; omega
  obtain ⟨-, hout, -⟩ := writebuf_stream o aes h.joined.up.txReady hlen
  have hkept := @writebuf_rxKept o aes c m h.joined.up.txMode
  obtain ⟨hcbuf, -⟩ := @writebuf_buf o aes c m h.joined.up.txMode
  have hlink : Linked c (s.fed ((writebuf o aes c m).sess.out.drop c.out.length)) :=
    h.joined.up.congr ⟨rfl, rfl, rfl, rfl⟩ rfl rfl rfl rfl
  have hinp : (s.fed ((writebuf o aes c m).sess.out.drop c.out.length)).inp
      = sealedMsg o aes c m ++ [] := by
    show s.inp ++ (writebuf o aes c m).sess.out.drop c.out.length = _
    rw [h.joined.sInp, hout, List.drop_left, List.nil_append, List.append_nil]
  obtain ⟨harr, hup⟩ := readbuf_of_writebuf_le hlink hm h.joined.buf hinp
  have htx := @readbuf_txKept o aes
    (s.fed ((writebuf o aes c m).sess.out.drop c.out.length)) h.joined.up.rxMode
  refine ⟨harr.ret, harr.buf, ⟨hup, ?_, hkept.inp.trans h.joined.cInp, harr.inp, ?_⟩, ?_⟩
  · exact h.joined.down.congr ⟨htx.crypTx, htx.out, htx.wsched, htx.mode⟩ hkept.crypRx
      hkept.rsched hkept.mode hkept.cia
  · show (readbuf o aes _).sess.buf.length = commbuflen
    rw [harr.buf, length_overlay, List.length_set]
    have := h.joined.buf
    simp only [Sess.fed]
    omega
  · rw [hcbuf, h.buf]

/-- The server sends a message from a buffer, which the cipher overwrites. -/
theorem Talking.down (h : Talking c s) {buf m : List Byte} (hbuf : buf.length = commbuflen)
    (hm : m.length ≤ commbuflen) (loop : Bool) :
    let w := writebuf o aes { s with buf := buf } m
    let sent := { w.sess with buf := overlay w.sess.buf w.buf, loop := loop }
    (heard o aes c s sent).got = m ∧ Talking (heard o aes c s sent).sess sent := by
  intro w sent
  have hlen : m.length < 2 ^ 31 := by unfold commbuflen at hm; omega
  have hdown : Linked { s with buf := buf } c :=
    h.joined.down.congr ⟨rfl, rfl, rfl, rfl⟩ rfl rfl rfl rfl
  obtain ⟨-, hout, -⟩ := writebuf_stream o aes hdown.txReady hlen
  have hkept := @writebuf_rxKept o aes { s with buf := buf } m h.joined.down.txMode
  obtain ⟨hwbuf, hwlen⟩ := @writebuf_buf o aes { s with buf := buf } m h.joined.down.txMode
  have hlink : Linked { s with buf := buf } (c.fed (sent.out.drop s.out.length)) :=
    hdown.congr ⟨rfl, rfl, rfl, rfl⟩ rfl rfl rfl rfl
  have hinp : (c.fed (sent.out.drop s.out.length)).inp
      = sealedMsg o aes { s with buf := buf } m ++ [] := by
    show c.inp ++ (writebuf o aes { s with buf := buf } m).sess.out.drop s.out.length = _
    rw [h.joined.cInp, hout, List.drop_left, List.nil_append, List.append_nil]
  obtain ⟨harr, hlink'⟩ := readbuf_of_writebuf_le hlink hm h.buf hinp
  have htx := @readbuf_txKept o aes (c.fed (sent.out.drop s.out.length)) h.joined.up.txMode
  refine ⟨harr.got, ⟨?_, ?_, harr.inp, hkept.inp.trans h.joined.sInp, ?_⟩, ?_⟩
  · exact h.joined.up.congr ⟨htx.crypTx, htx.out, htx.wsched, htx.mode⟩ hkept.crypRx
      hkept.rsched hkept.mode hkept.cia
  · exact hlink'.congr ⟨rfl, rfl, rfl, rfl⟩ rfl rfl rfl rfl
  · show (overlay w.sess.buf w.buf).length = commbuflen
    rw [length_overlay, hwbuf, hwlen]
    simp only
    omega
  · show (readbuf o aes _).sess.buf.length = commbuflen
    rw [harr.buf, length_overlay, List.length_set]
    have := h.buf
    simp only [Sess.fed]
    omega

/-- The server sends a reply. -/
theorem Talking.reply (h : Talking c s) {text : List Byte} (htext : text.length < commbuflen) :
    (heard o aes c s (sendReply o aes s text)).got = text ∧
      Talking (heard o aes c s (sendReply o aes s text)).sess (sendReply o aes s text) := by
  refine h.down ?_ htext.le _
  rw [length_overlay, h.joined.buf, List.length_append, List.length_singleton]
  omega

/-- An end of a session with the example key. -/
def exampleEnd : Sess :=
  withKey .little exampleKey { (default : Sess) with buf := List.replicate commbuflen 0 }

theorem exampleEnd_talking : Talking exampleEnd exampleEnd := by
  have hkey : HasKey .little exampleKey
      ⟨true, exampleKey, exampleKey.length, .off, keySeed .little exampleKey, .pack⟩ :=
    ⟨rfl, rfl, rfl, List.take_length, rfl⟩
  have hquiet : Quiet [] := List.not_mem_nil
  have hlink : Linked exampleEnd exampleEnd :=
    ⟨(hkey.paired (by decide)).1, rfl, rfl, rfl, hquiet, hquiet⟩
  exact ⟨⟨hlink, hlink, rfl, rfl, List.length_replicate⟩, List.length_replicate⟩

/-! ### A turn -/

/-- What a turn leaves: both ends, the message the client read, if there was one, and what `readbuf`
returned. -/
structure Turn where
  cli : Sess
  srv : Sess
  got : List (List Byte)
  ret : ℤ
  deriving DecidableEq, Repr

/-- The server writes a message out of `comm.buf` and reads the answer into it; either may fail,
which is `endcomm`. -/
def turn (o : Endian) (aes : Aes) (c s : Sess) (mem m answer : List Byte) : Turn :=
  let w := writebuf o aes { s with buf := overlay s.buf mem } m
  let sent := { w.sess with buf := overlay w.sess.buf w.buf }
  if w.ret = -1 then ⟨c, { sent with loop := false }, [], -1⟩
  else
    let r := heard o aes c s sent
    let cli := (writebuf o aes r.sess answer).sess
    let q := heard o aes sent r.sess cli
    ⟨cli, { q.sess with loop := if q.ret = -1 then false else q.sess.loop }, [r.got], q.ret⟩

theorem writebuf_ret {tx : Sess} (h : TxReady tx) {m : List Byte} (hlen : m.length < 2 ^ 31) :
    (writebuf o aes tx m).ret = m.length := by
  have hhdr : (hdrsetsz o m.length).length < 2 ^ 31 := by simp
  obtain ⟨-, -, -, hready⟩ := sndbuf_stream o aes h hhdr
  rw [(writebuf_stream o aes h hlen).1]
  exact (sndbuf_stream o aes hready hlen).1

/-- What `strcmp` and `excmd` see of an answer, also of one that fills the buffer. -/
theorem cstr_arrived {buf m : List Byte} (hm : m.length ≤ buf.length) :
    cstr (overlay (buf.set m.length 0) m) = cstr m := by
  rcases Nat.lt_or_ge m.length buf.length with hlt | hge
  · have hdrop : (buf.set m.length 0).drop m.length = 0 :: buf.drop (m.length + 1) := by
      rw [List.drop_eq_getElem_cons (by simpa using hlt), List.getElem_set_self,
        List.drop_set_of_lt (by omega)]
    by_cases hmem : 0 ∈ m
    · exact cstr_append_of_mem hmem _
    · rw [overlay, hdrop, cstr_of_not_mem hmem, cstr_eq_self hmem]
  · rw [overlay_of_length_eq (by rw [List.length_set]; omega)]

theorem Talking.congr_loop (h : Talking c s) (loop : Bool) : Talking c { s with loop := loop } :=
  ⟨⟨{ h.joined.up with }, { h.joined.down with }, h.joined.cInp, h.joined.sInp, h.joined.buf⟩,
    h.buf⟩

/-- What a turn does over linked ends. -/
structure Turned (m answer : List Byte) (q : Turn) : Prop where
  talking : Talking q.cli q.srv
  got : q.got = [m]
  ret : q.ret = answer.length
  text : cstr q.srv.buf = cstr answer
  data : q.srv.buf.take answer.length = answer

theorem Talking.turned (h : Talking c s) {mem m answer : List Byte} (hmem : mem.length ≤ commbuflen)
    (hm : m.length ≤ commbuflen) (hanswer : answer.length ≤ commbuflen) :
    Turned m answer (turn o aes c s mem m answer) := by
  have hlen : m.length < 2 ^ 31 := by unfold commbuflen at hm; omega
  have hbuf : (overlay s.buf mem).length = commbuflen := by
    rw [length_overlay, h.joined.buf]
    omega
  have hready : TxReady { s with buf := overlay s.buf mem } :=
    ⟨h.joined.down.txMode, h.joined.down.keys.txSet, h.joined.down.txQuiet⟩
  have hret := @writebuf_ret o aes _ hready m hlen
  have hne : ¬ (writebuf o aes { s with buf := overlay s.buf mem } m).ret = -1 := by omega
  obtain ⟨hgot, hdown⟩ := @Talking.down o aes c s h _ m hbuf hm
    (writebuf o aes { s with buf := overlay s.buf mem } m).sess.loop
  have hsrv := hdown.joined.buf
  obtain ⟨hret', hbuf', hup⟩ := @Talking.up o aes _ _ hdown answer hanswer
  rw [turn, if_neg hne]
  refine ⟨hup.congr_loop _, congrArg (fun x => [x]) hgot, hret', ?_, ?_⟩
  · exact (congrArg cstr hbuf').trans (cstr_arrived (hanswer.trans hsrv.ge))
  · refine (congrArg (List.take answer.length) hbuf').trans ?_
    rw [overlay, List.take_left]

/-! ### RCVFILE -/

/-- `CMD_CONT` and the blank behind it. -/
def contHead : List Byte := lit "CONT "

/-- The room `fapiread` has in `comm.buf`. -/
def chunkLen : ℕ := commbuflen - contHead.length

/-- `fapiread`: one call, and as many more as are interrupted; the bytes read. -/
def fapiread : List SysRes → List Byte → ℕ → Option (List Byte)
  | [], rest, len => some (rest.take len)
  | .eintr :: sched, rest, len => fapiread sched rest len
  | .err :: _, _, _ => none
  | .cnt n :: _, rest, len => some (rest.take (min (n + 1) len))

/-- `sendfile` and the client: what is not read of the file, the messages the client has read,
whether the file is still there, and the reply. -/
structure Fetch where
  cli : Sess
  srv : Sess
  rest : List Byte
  msgs : List (List Byte)
  kept : Bool
  reply : Option (List Byte)
  ended : Bool
  deriving DecidableEq, Repr

/-- The file is open. -/
def Fetch.start (c s : Sess) (file : List Byte) : Fetch := ⟨c, s, file, [], true, none, false⟩

/-- What the messages carry. -/
def Fetch.data (t : Fetch) : List Byte := t.msgs.flatMap (List.drop contHead.length)

section

variable (o : Endian) (aes : Aes)

/-- `cmd_ok` or `cmd_fail`, and the client reads it. -/
def Fetch.finish (t : Fetch) (text : List Byte) : Fetch :=
  let srv := sendReply o aes t.srv text
  let r := heard o aes t.cli t.srv srv
  { t with cli := r.sess, srv := srv, reply := some r.got, ended := true }

/-- The loop of `sendfile`, once around: how the calls of `read` end, and what the client answers.
`del` is its argument, `err` the text of `fapierr`, if there is one. -/
def fetchNext (del : Bool) (err : List Byte) (t : Fetch) (a : List SysRes × List Byte) :
    Option Fetch :=
  if t.ended then none
  else some <|
    match fapiread a.1 t.rest chunkLen with
    | none => t.finish o aes (cmdFailText err)
    | some [] => { t with kept := !del }.finish o aes cmdOkText
    | some (b :: bs) =>
      let q := turn o aes t.cli t.srv (contHead ++ b :: bs) (contHead ++ b :: bs) a.2
      let t := { t with
        cli := q.cli
        srv := q.srv
        rest := t.rest.drop (bs.length + 1)
        msgs := t.msgs ++ q.got }
      if q.ret = -1 then { t with ended := true }
      else if cstr q.srv.buf = lit "BREAK" then t.finish o aes cmdOkText
      else t

end

/-- What was read is the beginning of what was left, and nothing only at the end. -/
theorem fapiread_eq : ∀ {sched : List SysRes} {rest data : List Byte} {len : ℕ},
    fapiread sched rest len = some data →
      ∃ k ≤ len, data = rest.take k ∧ (0 < len → 0 < k) := by
  intro sched
  induction sched with
  | nil =>
    intro rest data len h
    exact ⟨len, le_rfl, (Option.some.inj h).symm, id⟩
  | cons r sched ih =>
    intro rest data len h
    cases r with
    | eintr => exact ih h
    | err => cases h
    | cnt n => exact ⟨min (n + 1) len, min_le_right .., (Option.some.inj h).symm, by omega⟩

/-- What `sendfile` reads of the file: a chunk that is empty only at the end. -/
theorem fapiread_chunk {sched : List SysRes} {rest data : List Byte}
    (h : fapiread sched rest chunkLen = some data) :
    data.length ≤ chunkLen ∧ data ++ rest.drop data.length = rest ∧ (data = [] → rest = []) := by
  obtain ⟨k, hk, rfl, hpos⟩ := fapiread_eq h
  refine ⟨(List.length_take_le ..).trans hk,
    List.prefix_iff_eq_append.mp (List.take_prefix k rest), fun hnil => ?_⟩
  have hlt := hpos (by decide)
  exact (List.take_eq_nil_iff.mp hnil).resolve_left (by omega)

/-- How a fetch may end on these calls and answers. -/
inductive FetchEnd (del : Bool) (err : List Byte) (as : List (List SysRes × List Byte))
    (t : Fetch) : Prop
  | whole : t.rest = [] → t.kept = !del → t.reply = some cmdOkText →
      (∀ a ∈ as.dropLast, cstr a.2 ≠ lit "BREAK") → FetchEnd del err as t
  | broken : (∃ a ∈ as.getLast?, cstr a.2 = lit "BREAK") → t.kept = true →
      t.reply = some cmdOkText → FetchEnd del err as t
  | failed : (∃ a ∈ as.getLast?, fapiread a.1 t.rest chunkLen = none) → t.kept = true →
      t.reply = some (cmdFailText err) → FetchEnd del err as t

/-- A message of `sendfile`. -/
def IsPart (m : List Byte) : Prop := ∃ d, m = contHead ++ d ∧ 0 < d.length ∧ d.length ≤ chunkLen

/-- Where a fetch stands behind these calls and answers. -/
structure Fetched (del : Bool) (err file : List Byte) (as : List (List SysRes × List Byte))
    (t : Fetch) : Prop where
  talking : Talking t.cli t.srv
  split : t.data ++ t.rest = file
  parts : ∀ m ∈ t.msgs, IsPart m
  turns : as.length ≤ t.msgs.length + 1
  going : t.ended = false → t.kept = true ∧ t.reply = none ∧ t.msgs.length = as.length ∧
    ∀ a ∈ as, cstr a.2 ≠ lit "BREAK"
  ended : t.ended = true → FetchEnd del err as t

theorem contHead_chunkLen : contHead.length + chunkLen = commbuflen := by decide

theorem Fetch.finish_spec {t : Fetch} (h : Talking t.cli t.srv) {text : List Byte}
    (htext : text.length < commbuflen) :
    (t.finish o aes text).reply = some text ∧
      Talking (t.finish o aes text).cli (t.finish o aes text).srv := by
  obtain ⟨hgot, htalk⟩ := @Talking.reply o aes _ _ h text htext
  exact ⟨congrArg some hgot, htalk⟩

theorem Fetched.start (h : Talking c s) (del : Bool) (err file : List Byte) :
    Fetched del err file [] (Fetch.start c s file) :=
  ⟨h, rfl, by simp [Fetch.start], by simp, fun _ => ⟨rfl, rfl, rfl, by simp⟩, by simp [Fetch.start]⟩

/-- Once around the loop. -/
theorem Fetched.next {del : Bool} {err file : List Byte} {as : List (List SysRes × List Byte)}
    {t u : Fetch} {a : List SysRes × List Byte} (herr : (cmdFailText err).length < commbuflen)
    (ha : a.2.length ≤ commbuflen) (h : Fetched del err file as t)
    (hnext : fetchNext o aes del err t a = some u) : Fetched del err file (as ++ [a]) u := by
  have hok : cmdOkText.length < commbuflen := by decide
  have hlast : a ∈ (as ++ [a]).getLast? := by simp
  unfold fetchNext at hnext
  split at hnext
  · cases hnext
  rename_i hover
  obtain ⟨hkept, hreply, hturns, hquiet⟩ := h.going (by simpa using hover)
  have hcount : (as ++ [a]).length ≤ t.msgs.length + 1 := by simp [hturns]
  have hnot : ¬ true = false := by decide
  replace hnext := Option.some.inj hnext
  split at hnext
  · -- `read` fails
    rename_i hread
    obtain ⟨hrep, htalk⟩ := @Fetch.finish_spec o aes t h.talking _ herr
    subst hnext
    exact ⟨htalk, h.split, h.parts, hcount, fun hgo => absurd hgo hnot,
      fun _ => .failed ⟨a, hlast, hread⟩ hkept hrep⟩
  · -- the end of the file
    rename_i hread
    have hrest := (fapiread_chunk hread).2.2 rfl
    obtain ⟨hrep, htalk⟩ := @Fetch.finish_spec o aes { t with kept := !del } h.talking _ hok
    subst hnext
    refine ⟨htalk, h.split, h.parts, hcount, fun hgo => absurd hgo hnot,
      fun _ => .whole hrest rfl hrep ?_⟩
    rwa [List.dropLast_concat]
  · rename_i b bs hread
    obtain ⟨hle, hsplit, -⟩ := fapiread_chunk hread
    have hm : (contHead ++ b :: bs).length ≤ commbuflen := by
      rw [List.length_append, ← contHead_chunkLen]
      omega
    obtain ⟨htalk, hgot, hret, htext, -⟩ := @Talking.turned o aes _ _ h.talking
      (contHead ++ b :: bs) (contHead ++ b :: bs) a.2 hm hm ha
    have hne : ¬ (turn o aes t.cli t.srv (contHead ++ b :: bs) (contHead ++ b :: bs) a.2).ret
        = -1 := by omega
    have hparts : ∀ m ∈ t.msgs ++ [contHead ++ b :: bs], IsPart m :=
      List.forall_mem_append.mpr ⟨h.parts,
        List.forall_mem_singleton.mpr ⟨b :: bs, rfl, Nat.succ_pos _, hle⟩⟩
    have hdata : (t.msgs ++ [contHead ++ b :: bs]).flatMap (List.drop contHead.length) ++
        t.rest.drop (b :: bs).length = file := by
      rw [List.flatMap_append, List.flatMap_singleton, List.drop_left, List.append_assoc, hsplit]
      exact h.split
    have hcount' : (as ++ [a]).length ≤ (t.msgs ++ [contHead ++ b :: bs]).length + 1 := by
      simp [hturns]
    simp only [hne, if_false, htext, hgot] at hnext
    split at hnext
    · -- `BREAK`
      rename_i hbreak
      obtain ⟨hrep, htalk'⟩ := @Fetch.finish_spec o aes { t with
        cli := _, srv := _, rest := t.rest.drop (bs.length + 1)
        msgs := t.msgs ++ [contHead ++ b :: bs] } htalk _ hok
      subst hnext
      exact ⟨htalk', hdata, hparts, hcount', fun hgo => absurd hgo hnot,
        fun _ => .broken ⟨a, hlast, hbreak⟩ hkept hrep⟩
    · rename_i hgoes
      subst hnext
      refine ⟨htalk, hdata, hparts, hcount', fun _ => ⟨hkept, hreply, ?_, ?_⟩, fun hend => ?_⟩
      · simp [hturns]
      · exact List.forall_mem_append.mpr ⟨hquiet, List.forall_mem_singleton.mpr hgoes⟩
      · exact absurd hend hover

theorem length_le_data : ∀ {msgs : List (List Byte)}, (∀ m ∈ msgs, IsPart m) →
    msgs.length ≤ (msgs.flatMap (List.drop contHead.length)).length := by
  intro msgs
  induction msgs with
  | nil => intro _; exact Nat.zero_le _
  | cons m msgs ih =>
    intro h
    obtain ⟨d, rfl, hpos, -⟩ := h m List.mem_cons_self
    have hrest := ih fun x hx => h x (List.mem_cons_of_mem _ hx)
    rw [List.flatMap_cons, List.drop_left, List.length_append, List.length_cons]
    omega

theorem Fetched.length_msgs_le {del : Bool} {err file : List Byte}
    {as : List (List SysRes × List Byte)} {t : Fetch} (h : Fetched del err file as t) :
    t.msgs.length ≤ file.length := by
  have hdata := length_le_data h.parts
  have hfile := congrArg List.length h.split
  rw [List.length_append, Fetch.data] at hfile
  omega

theorem fetched_of_run {del : Bool} {err file : List Byte} {as : List (List SysRes × List Byte)}
    {t : Fetch} (h : Talking c s) (herr : (cmdFailText err).length < commbuflen)
    (has : ∀ a ∈ as, a.2.length ≤ commbuflen)
    (hrun : run (fetchNext o aes del err) (Fetch.start c s file) as = some t) :
    Fetched del err file as t := by
  exact inv_of_history (fun _ _ _ _ hinv ha hnext => hinv.next herr ha hnext)
    (Fetched.start h del err file) (meets_of_mem has) hrun

theorem fapiread_of_quiet : ∀ {sched : List SysRes} (rest : List Byte) (len : ℕ), Quiet sched →
    fapiread sched rest len ≠ none := by
  intro sched
  induction sched with
  | nil => intro rest len _; exact Option.some_ne_none _
  | cons r sched ih =>
    intro rest len h
    cases r with
    | eintr => exact ih rest len fun hmem => h (List.mem_cons_of_mem _ hmem)
    | err => exact absurd List.mem_cons_self h
    | cnt n => exact Option.some_ne_none _

/-- A fetch ends with the whole file when no call fails and the client takes everything. -/
theorem fetch_ends (h : Talking c s) (del : Bool) {err : List Byte}
    (herr : (cmdFailText err).length < commbuflen) (file : List Byte)
    {as : List (List SysRes × List Byte)} (hlong : file.length < as.length)
    (has : ∀ a ∈ as, Quiet a.1 ∧ a.2.length ≤ commbuflen ∧ cstr a.2 ≠ lit "BREAK") :
    ∃ before t, before <+: as ∧
      run (fetchNext o aes del err) (Fetch.start c s file) before = some t ∧
        Fetched del err file before t ∧ t.ended = true ∧ t.rest = [] ∧ t.kept = !del ∧
          t.reply = some cmdOkText := by
  obtain ⟨before, t, hpre, hrun, hend⟩ := exists_stuck (fetchNext o aes del err) as
    (Fetch.start c s file)
  have hin : ∀ a ∈ before, a ∈ as := fun a ha => hpre.subset ha
  have hf := fetched_of_run h herr (fun a ha => (has a (hin a ha)).2.1) hrun
  have hover : t.ended = true := by
    by_contra hgo
    have hgo' : t.ended = false := by simpa using hgo
    obtain ⟨-, -, hturns, -⟩ := hf.going hgo'
    have hall : before = as := by
      refine hend.resolve_right fun ⟨a, ha⟩ => ?_
      simp [fetchNext, hgo'] at ha
    have hdata := hf.length_msgs_le
    rw [hall] at hturns
    omega
  refine ⟨before, t, hpre, hrun, hf, hover, ?_⟩
  cases hf.ended hover with
  | whole hrest hkept hreply _ => exact ⟨hrest, hkept, hreply⟩
  | broken hlast _ _ =>
    obtain ⟨a, ha, hbreak⟩ := hlast
    exact absurd hbreak (has a (hin a (List.mem_of_getLast? ha))).2.2
  | failed hlast _ _ =>
    obtain ⟨a, ha, hread⟩ := hlast
    exact absurd hread (fapiread_of_quiet _ _ (has a (hin a (List.mem_of_getLast? ha))).1)

/-- Three turns: every read is of one byte, and the client takes it. -/
def exampleTurns : List (List SysRes × List Byte) := List.replicate 3 ([.cnt 0], lit "OK")

theorem exampleTurns_quiet : ∀ a ∈ exampleTurns,
    Quiet a.1 ∧ a.2.length ≤ commbuflen ∧ cstr a.2 ≠ lit "BREAK" := by
  intro a ha
  obtain rfl := List.eq_of_mem_replicate ha
  have hquiet : Quiet [.cnt 0] := by simp [Quiet]
  exact ⟨hquiet, by decide, by decide⟩

/-- **A fetch over an encrypted session**, whatever `read` returns and the client answers. -/
theorem fetch_exact {del : Bool} {err file : List Byte} {as : List (List SysRes × List Byte)}
    {t : Fetch} (h : Talking c s) (herr : (cmdFailText err).length < commbuflen)
    (has : ∀ a ∈ as, a.2.length ≤ commbuflen)
    (hrun : run (fetchNext o aes del err) (Fetch.start c s file) as = some t) :
    Fetched del err file as t ∧ as.length ≤ file.length + 1 := by
  have hf := fetched_of_run h herr has hrun
  exact ⟨hf, hf.turns.trans (Nat.succ_le_succ hf.length_msgs_le)⟩

theorem fetch_exact_example : ∃ before t,
    run (fetchNext .little Aes.sample true (lit "x")) (Fetch.start exampleEnd exampleEnd (lit "hi"))
      before = some t ∧ t.ended = true ∧
    Fetched true (lit "x") (lit "hi") before t ∧ before.length ≤ (lit "hi").length + 1 := by
  have herr : (cmdFailText (lit "x")).length < commbuflen := by decide
  obtain ⟨before, t, hpre, hrun, -, hover, -⟩ := @fetch_ends .little Aes.sample _ _
    exampleEnd_talking true _ herr (lit "hi") exampleTurns (by decide) exampleTurns_quiet
  exact ⟨before, t, hrun, hover, fetch_exact exampleEnd_talking herr
    (fun a ha => (exampleTurns_quiet a (hpre.subset ha)).2.1) hrun⟩

/-! ### SNDFILE -/

/-- `rcvfile` and the client: the file, unless it was taken away, and the reply. -/
structure Store where
  cli : Sess
  srv : Sess
  file : Option (List Byte)
  reply : Option (List Byte)
  ended : Bool
  deriving DecidableEq, Repr

/-- The file is open, and empty. -/
def Store.start (c s : Sess) : Store := ⟨c, s, some [], none, false⟩

section

variable (o : Endian) (aes : Aes)

/-- `cmd_ok` or `cmd_fail`, and the client reads it. -/
def Store.finish (t : Store) (text : List Byte) : Store :=
  let srv := sendReply o aes t.srv text
  let r := heard o aes t.cli t.srv srv
  { t with cli := r.sess, srv := srv, reply := some r.got, ended := true }

/-- `endcomm` and no reply. -/
def Store.hangUp (t : Store) : Store := { t with srv := { t.srv with loop := false }, ended := true }

/-- The loop of `rcvfile`, once around: the message of the client, and how the calls of `write`
end.  A length of `-1` is one that `write` refuses. -/
def storeNext (full : Bool) (t : Store) (a : List Byte × List SysRes) : Option Store :=
  if t.ended then none
  else some <|
    let q := turn o aes t.cli t.srv (lit "CONT" ++ [0]) (lit "CONT") a.1
    let t := { t with cli := q.cli, srv := q.srv }
    if q.ret = -1 then { t with ended := true }
    else
      let cmd := excmd q.srv.buf
      if cmd = lit "BREAK" then { t with file := none }.finish o aes cmdOkText
      else if cmd = lit "OK" then t.finish o aes cmdOkText
      else
        let len : ℤ := q.ret - cmd.length - 1
        if len < 0 then t.hangUp
        else
          let w := fapiwrite a.2 ((q.srv.buf.drop (cmd.length + 1)).take len.toNat)
          if w.1 = -1 then
            if full then { t with file := none }.finish o aes (cmdFailText equota) else t.hangUp
          else { t with file := t.file.map (· ++ w.2) }

end

theorem Store.finish_spec {t : Store} (h : Talking t.cli t.srv) {text : List Byte}
    (htext : text.length < commbuflen) :
    (t.finish o aes text).reply = some text ∧
      Talking (t.finish o aes text).cli (t.finish o aes text).srv := by
  obtain ⟨hgot, htalk⟩ := @Talking.reply o aes _ _ h text htext
  exact ⟨congrArg some hgot, htalk⟩

/-- A message has a byte behind its word, or is one of the two that end the transfer. -/
def Worded (m : List Byte) : Prop :=
  let cmd := excmd (m ++ [0])
  cmd = lit "BREAK" ∨ cmd = lit "OK" ∨ cmd.length < m.length

/-- Where an upload stands behind these messages: as far as the loop on the messages alone. -/
structure Uploaded (full : Bool) (as : List (List Byte × List SysRes)) (t : Store) : Prop where
  talking : Talking t.cli t.srv
  going : t.ended = false → t.reply = none ∧ ∃ file, t.file = some file ∧
    ∀ more, rcvfileLoop full (as ++ more) [] = rcvfileLoop full more file
  ended : t.ended = true → ∀ more,
    rcvfileLoop full (as ++ more) [] = some ⟨t.file, t.reply, t.reply.isNone⟩

theorem Uploaded.start (h : Talking c s) (full : Bool) : Uploaded full [] (Store.start c s) :=
  ⟨h, fun _ => ⟨rfl, [], rfl, fun _ => rfl⟩, by simp [Store.start]⟩

/-- The word of a message is the same with whatever stands behind it in the buffer. -/
theorem excmd_arrived {buf m : List Byte} (h : cstr buf = cstr m) :
    excmd buf = excmd (m ++ [0]) := by
  have hcstr : cstr m = cstr (m ++ [0]) := by
    by_cases hmem : 0 ∈ m
    · exact (cstr_append_of_mem hmem _).symm
    · rw [cstr_of_not_mem hmem, cstr_eq_self hmem]
  rw [excmd, excmd, h, hcstr]

/-- The message with which the loop ends. -/
theorem Uploaded.close {full : Bool} {as : List (List Byte × List SysRes)} {file : List Byte}
    {u : Store} {a : List Byte × List SysRes}
    (hloop : ∀ more, rcvfileLoop full (as ++ more) [] = rcvfileLoop full more file)
    (htalk : Talking u.cli u.srv) (hover : u.ended = true)
    (hend : ∀ more, rcvfileLoop full (a :: more) file = some ⟨u.file, u.reply, u.reply.isNone⟩) :
    Uploaded full (as ++ [a]) u := by
  refine ⟨htalk, fun hgo => absurd (hgo.symm.trans hover) (by decide), fun _ more => ?_⟩
  rw [List.append_assoc, hloop, List.singleton_append, hend]

/-- Once around the loop. -/
theorem Uploaded.next {full : Bool} {as : List (List Byte × List SysRes)} {t u : Store}
    {a : List Byte × List SysRes} (ha : a.1.length ≤ commbuflen) (hword : Worded a.1)
    (h : Uploaded full as t) (hnext : storeNext o aes full t a = some u) :
    Uploaded full (as ++ [a]) u := by
  have hok : cmdOkText.length < commbuflen := by decide
  have hquota : (cmdFailText equota).length < commbuflen := by decide
  have hcont : (lit "CONT" ++ [0]).length ≤ commbuflen := by decide
  have hcont' : (lit "CONT").length ≤ commbuflen := by decide
  unfold storeNext at hnext
  split at hnext
  · cases hnext
  rename_i hover
  obtain ⟨hreply, file, hfile, hloop⟩ := h.going (by simpa using hover)
  replace hnext := Option.some.inj hnext
  obtain ⟨htalk, -, hret, htext, hdata⟩ := @Talking.turned o aes _ _ h.talking
    (lit "CONT" ++ [0]) (lit "CONT") a.1 hcont hcont' ha
  have hcmd := excmd_arrived htext
  have hne : ¬ (a.1.length : ℤ) = -1 := by omega
  have hfits : ¬ commbuflen < a.1.length := Nat.not_lt.mpr ha
  generalize turn o aes t.cli t.srv (lit "CONT" ++ [0]) (lit "CONT") a.1 = q
    at hnext htalk hret hdata hcmd
  simp only [hret, if_neg hne, hcmd, hfile, Option.map_some] at hnext
  split at hnext
  · -- `BREAK`
    rename_i hbreak
    obtain ⟨hrep, htalk'⟩ := @Store.finish_spec o aes
      { t with cli := q.cli, srv := q.srv, file := none } htalk _ hok
    subst hnext
    refine .close hloop htalk' rfl fun more => ?_
    rw [rcvfileLoop, if_neg hfits, if_pos hbreak, hrep]
    rfl
  rename_i hbreak
  split at hnext
  · -- `OK`
    rename_i hend
    obtain ⟨hrep, htalk'⟩ := @Store.finish_spec o aes
      { t with cli := q.cli, srv := q.srv, file := some file } htalk _ hok
    subst hnext
    refine .close hloop htalk' rfl fun more => ?_
    rw [rcvfileLoop, if_neg hfits, if_neg hbreak, if_pos hend, hrep]
    rfl
  rename_i hend
  have hroom : (excmd (a.1 ++ [0])).length < a.1.length :=
    (hword.resolve_left hbreak).resolve_left hend
  have hlen : ¬ ((a.1.length : ℤ) - (excmd (a.1 ++ [0])).length - 1 < 0) := by omega
  have hnat : ((a.1.length : ℤ) - (excmd (a.1 ++ [0])).length - 1).toNat
      = a.1.length - ((excmd (a.1 ++ [0])).length + 1) := by omega
  have hchunk : (q.srv.buf.drop ((excmd (a.1 ++ [0])).length + 1)).take
      (a.1.length - ((excmd (a.1 ++ [0])).length + 1))
      = a.1.drop ((excmd (a.1 ++ [0])).length + 1) := by
    rw [← List.drop_take, hdata]
  simp only [if_neg hlen, hnat, hchunk] at hnext
  split at hnext
  · rename_i hwrite
    split at hnext
    · -- the disk is full
      rename_i hfull
      obtain ⟨hrep, htalk'⟩ := @Store.finish_spec o aes
        { t with cli := q.cli, srv := q.srv, file := none } htalk _ hquota
      subst hnext
      refine .close hloop htalk' rfl fun more => ?_
      rw [rcvfileLoop, if_neg hfits, if_neg hbreak, if_neg hend, if_pos hwrite, if_pos hfull, hrep]
      rfl
    · rename_i hfull
      subst hnext
      refine .close hloop (htalk.congr_loop _) rfl fun more => ?_
      rw [rcvfileLoop, if_neg hfits, if_neg hbreak, if_neg hend, if_pos hwrite, if_neg hfull]
      show _ = some (⟨some file, t.reply, t.reply.isNone⟩ : RcvfileEnd)
      rw [hreply]
      rfl
  · -- a chunk is stored
    rename_i hwrite
    subst hnext
    refine ⟨htalk, fun _ => ⟨hreply, _, rfl, fun more => ?_⟩, fun hgo => absurd hgo hover⟩
    rw [List.append_assoc, hloop, List.singleton_append, rcvfileLoop, if_neg hfits, if_neg hbreak,
      if_neg hend, if_neg hwrite]

theorem uploaded_of_run {full : Bool} {as : List (List Byte × List SysRes)} {t : Store}
    (h : Talking c s) (has : ∀ a ∈ as, a.1.length ≤ commbuflen ∧ Worded a.1)
    (hrun : run (storeNext o aes full) (Store.start c s) as = some t) : Uploaded full as t := by
  exact inv_of_history (fun _ _ _ _ hinv ha hnext => hinv.next ha.1 ha.2 hnext)
    (Uploaded.start h full) (meets_of_mem has) hrun

theorem cont_free : ∀ b ∈ lit "CONT", b ≠ 0 ∧ b ≠ blank := by decide

theorem cont_fits : (lit "CONT").length < cmdNamelen := by decide

theorem cont_ne_break : lit "CONT" ≠ lit "BREAK" := by decide

theorem cont_ne_ok : lit "CONT" ≠ lit "OK" := by decide

/-- The word of the messages of `sendfile`. -/
def contWord : PartName := ⟨lit "CONT", cont_free, cont_fits, cont_ne_break, cont_ne_ok⟩

theorem contHead_append (d : List Byte) : contHead ++ d = contWord.name ++ blank :: d := rfl

theorem fapiwrite_of_whole : ∀ {sched : List SysRes} {buf : List Byte},
    wholeWrite sched buf = true → fapiwrite sched buf = ((buf.length : ℤ), buf) := by
  intro sched
  induction sched with
  | nil => intro buf _; rfl
  | cons r sched ih =>
    intro buf h
    cases r with
    | eintr => exact ih h
    | err => cases h
    | cnt n => rw [fapiwrite, List.take_of_length_le (of_decide_eq_true h)]

theorem rcvfileLoop_parts (full : Bool) (more : List (List Byte × List SysRes)) :
    ∀ (ups : List (List Byte × List SysRes)) (file : List Byte),
      (∀ u ∈ ups, IsPart u.1 ∧ wholeWrite u.2 (u.1.drop contHead.length) = true) →
        rcvfileLoop full (ups ++ more) file
          = rcvfileLoop full more
              (file ++ (ups.map Prod.fst).flatMap (List.drop contHead.length)) := by
  intro ups
  induction ups with
  | nil =>
    intro file _
    rw [List.nil_append, List.map_nil, List.flatMap_nil, List.append_nil]
  | cons u ups ih =>
    intro file h
    obtain ⟨msg, sched⟩ := u
    obtain ⟨⟨d, hmsg, -, hlen'⟩, hwhole⟩ := h (msg, sched) List.mem_cons_self
    obtain rfl : msg = contHead ++ d := hmsg
    have hfits : ¬ commbuflen < (contHead ++ d).length := by
      rw [List.length_append, ← contHead_chunkLen]
      omega
    have hcmd : excmd (contHead ++ d ++ [0]) = lit "CONT" := excmd_word contWord d
    have hlen : (lit "CONT").length + 1 = contHead.length := by decide
    have hdrop : (contHead ++ d).drop ((lit "CONT").length + 1) = d := by
      rw [hlen, List.drop_left]
    have hwrite : fapiwrite sched d = ((d.length : ℤ), d) := by
      refine fapiwrite_of_whole ?_
      simpa only [List.drop_left] using hwhole
    have hne : ¬ (d.length : ℤ) = -1 := by omega
    rw [List.cons_append, rcvfileLoop, if_neg hfits, hcmd, if_neg cont_ne_break, if_neg cont_ne_ok,
      hdrop, hwrite]
    simp only [if_neg hne]
    rw [ih _ fun v hv => h v (List.mem_cons_of_mem _ hv), List.map_cons, List.flatMap_cons,
      List.drop_left, List.append_assoc]

theorem worded_forward {ups : List (List Byte × List SysRes)} (h : ∀ u ∈ ups, IsPart u.1) :
    ∀ a ∈ ups ++ [(lit "OK", [])], a.1.length ≤ commbuflen ∧ Worded a.1 := by
  intro a ha
  rcases List.mem_append.mp ha with ha | ha
  · obtain ⟨d, hd, hpos, hlen⟩ := h a ha
    rw [hd]
    refine ⟨?_, .inr (.inr ?_)⟩
    · rw [List.length_append, ← contHead_chunkLen]
      omega
    · rw [contHead_append, excmd_word contWord d]
      simp
  · obtain rfl := List.mem_singleton.mp ha
    exact ⟨by decide, .inr (.inl (by decide))⟩

/-- The second server takes every message, and the `OK` behind them. -/
theorem exists_forward (h : Talking c s) (full : Bool) {ups : List (List Byte × List SysRes)}
    (hups : ∀ u ∈ ups, IsPart u.1 ∧ wholeWrite u.2 (u.1.drop contHead.length) = true) :
    ∃ t, run (storeNext o aes full) (Store.start c s) (ups ++ [(lit "OK", [])]) = some t := by
  obtain ⟨before, t, hpre, hrun, hend⟩ := exists_stuck (storeNext o aes full)
    (ups ++ [(lit "OK", [])]) (Store.start c s)
  have hmsgs := worded_forward fun u hu => (hups u hu).1
  have hstored := uploaded_of_run h (fun a ha => hmsgs a (hpre.subset ha)) hrun
  rcases List.prefix_concat_iff.mp hpre with rfl | hpre'
  · exact ⟨t, hrun⟩
  -- behind fewer messages the loop still depends on what follows, so it is not over
  have hloop := fun more => rcvfileLoop_parts full more before [] fun u hu =>
    hups u (hpre'.subset hu)
  have hgo : t.ended = false := by
    by_contra hover
    have hended := hstored.ended (by simpa using hover)
    have hnil := (hended []).symm.trans (hloop [])
    have hok := ((hended [(lit "OK", [])]).symm.trans (hloop _)).trans (rcvfileLoop_ok ..)
    cases hnil.symm.trans hok
  rcases hend with rfl | ⟨a, ha⟩
  · exact ⟨t, hrun⟩
  · simp [storeNext, hgo] at ha

/-- **An upload over an encrypted session** does what the loop of `rcvfile` does on the messages
of the client. -/
theorem store_refines {full : Bool} {as : List (List Byte × List SysRes)} {t : Store}
    (h : Talking c s) (has : ∀ a ∈ as, a.1.length ≤ commbuflen ∧ Worded a.1)
    (hrun : run (storeNext o aes full) (Store.start c s) as = some t) :
    Talking t.cli t.srv ∧
      (t.ended = true → rcvfileLoop full as [] = some ⟨t.file, t.reply, t.reply.isNone⟩) ∧
      (t.ended = false → ∃ file, t.file = some file ∧
        ∀ more, rcvfileLoop full (as ++ more) [] = rcvfileLoop full more file) := by
  have hstored := uploaded_of_run h has hrun
  refine ⟨hstored.talking, fun hover => ?_, fun hover => (hstored.going hover).2⟩
  have hloop := hstored.ended hover []
  rwa [List.append_nil] at hloop

theorem store_refines_example : ∃ t,
    run (storeNext .little Aes.sample false) (Store.start exampleEnd exampleEnd)
      [(lit "CONT hi", []), (lit "OK", [])] = some t ∧ Talking t.cli t.srv ∧
      (t.ended = true → rcvfileLoop false [(lit "CONT hi", []), (lit "OK", [])] []
        = some ⟨t.file, t.reply, t.reply.isNone⟩) := by
  have hpart : ∀ u ∈ [(lit "CONT hi", ([] : List SysRes))],
      IsPart u.1 ∧ wholeWrite u.2 (u.1.drop contHead.length) = true := by
    intro u hu
    obtain rfl := List.mem_singleton.mp hu
    exact ⟨⟨lit "hi", by decide, by decide, by decide⟩, rfl⟩
  obtain ⟨t, hrun⟩ := @exists_forward .little Aes.sample _ _ exampleEnd_talking false _ hpart
  obtain ⟨htalk, hended, -⟩ := store_refines exampleEnd_talking
    (worded_forward fun u hu => (hpart u hu).1) hrun
  exact ⟨t, hrun, htalk, hended⟩

/-! ### From one server to another -/

/-- **A file goes from one server to another**: a client that hands the messages of the first on to
the second as they are leaves the file there. -/
theorem copy_exact {c' s' : Sess} (h : Talking c s) (h' : Talking c' s') (del full : Bool)
    {err : List Byte} (herr : (cmdFailText err).length < commbuflen) (file : List Byte)
    {as : List (List SysRes × List Byte)} (hlong : file.length < as.length)
    (has : ∀ a ∈ as, Quiet a.1 ∧ a.2.length ≤ commbuflen ∧ cstr a.2 ≠ lit "BREAK")
    (writes : List Byte → List SysRes)
    (hwrites : ∀ m, wholeWrite (writes m) (m.drop contHead.length) = true) :
    ∃ before t u, before <+: as ∧
      run (fetchNext o aes del err) (Fetch.start c s file) before = some t ∧
        t.reply = some cmdOkText ∧ t.kept = !del ∧
      run (storeNext o aes full) (Store.start c' s')
        (t.msgs.map (fun m => (m, writes m)) ++ [(lit "OK", [])]) = some u ∧
        u.ended = true ∧ u.file = some file ∧ u.reply = some cmdOkText := by
  obtain ⟨before, t, hpre, hrun, hf, -, hrest, hkept, hreply⟩ :=
    @fetch_ends o aes c s h del err herr file as hlong has
  have hparts : ∀ u ∈ t.msgs.map fun m => (m, writes m),
      IsPart u.1 ∧ wholeWrite u.2 (u.1.drop contHead.length) = true := by
    intro u hu
    obtain ⟨m, hm, rfl⟩ := List.mem_map.mp hu
    exact ⟨hf.parts m hm, hwrites m⟩
  have hdata : ((t.msgs.map fun m => (m, writes m)).map Prod.fst).flatMap
      (List.drop contHead.length) = file := by
    rw [List.map_map, Function.comp_def, List.map_id', ← hf.split, hrest, List.append_nil]
    rfl
  obtain ⟨u, hrun'⟩ := @exists_forward o aes c' s' h' full _ hparts
  have hstored := uploaded_of_run h' (worded_forward fun u hu => (hparts u hu).1) hrun'
  have hloop : ∀ more, rcvfileLoop full
      ((t.msgs.map fun m => (m, writes m)) ++ [(lit "OK", [])] ++ more) []
        = some ⟨some file, some cmdOkText, false⟩ := by
    intro more
    rw [List.append_assoc, rcvfileLoop_parts full _ _ [] hparts, hdata, List.nil_append,
      List.singleton_append, rcvfileLoop_ok]
  have hover : u.ended = true := by
    by_contra hgo
    obtain ⟨-, f, -, hgoing⟩ := hstored.going (by simpa using hgo)
    cases (hgoing []).symm.trans (hloop [])
  have hend := Option.some.inj ((hstored.ended hover []).symm.trans (hloop []))
  exact ⟨before, t, u, hpre, hrun, hreply, hkept, hrun', hover, congrArg RcvfileEnd.file hend,
    congrArg RcvfileEnd.reply hend⟩

theorem copy_exact_example : ∃ before t u, before <+: exampleTurns ∧
    run (fetchNext .little Aes.sample true (lit "x")) (Fetch.start exampleEnd exampleEnd (lit "hi"))
      before = some t ∧ t.reply = some cmdOkText ∧ t.kept = false ∧
    run (storeNext .little Aes.sample false) (Store.start exampleEnd exampleEnd)
      (t.msgs.map (fun m => (m, [])) ++ [(lit "OK", [])]) = some u ∧
      u.ended = true ∧ u.file = some (lit "hi") ∧ u.reply = some cmdOkText :=
  copy_exact exampleEnd_talking exampleEnd_talking true false (by decide) (lit "hi") (by decide)
    exampleTurns_quiet (fun _ => []) (fun _ => rfl)

end TFProtocol
