import Mathlib.Tactic
import TFProtocol.Lib.Dll
import TFProtocol.Lib.Runs

/-!
# The handle table of the SQL modules

`xs_sqlite`, `xs_mysql` and `xs_postgresql` keep the databases a client has opened in a
doubly linked list, each with its own copy of the same functions.  `OPEN` appends a node
whose id is one more than that of the last node, `CLOSE` looks an id up and unlinks the node
it finds, and every other command only looks up.  An id is a 64-bit number in the nodes and
in the requests, but `find` takes it as an `int`.

The model keeps the nodes in a heap, so that a node that was freed is no longer there: an
access to it is a fault.

## Main definitions

* `SqlList`, `SqlList.pushBack`, `SqlList.find`, `SqlList.erase` — the list and its functions.
* `SqlTable`, `tableNext` — the list beside the handles that are open, and one command.
* `ListSound` — what the list should be at any time.
* `TableAllowed` — what a command must be for the list to stay so.

## Main results

* `ListSound.find_eq` — what a lookup finds in a sound list.
* `ListSound.erase` — unlinking any node but the first of several.
* `table_sound` — **the table is sound in every run of allowed commands.**
-/

namespace TFProtocol

open Dll

variable {H : Type}

/-! ### The list -/

/-- What a node carries.  The field `data` of `xs_sqlite` is never read. -/
structure SqlNode (H : Type) where
  handler : H
  id : BitVec 64
  deriving DecidableEq, Repr

/-- `list`, with the heap its nodes lie in. -/
structure SqlList (H : Type) where
  heap : Heap (SqlNode H)
  head : Option ℕ
  tail : Option ℕ
  size : BitVec 32

/-- `new_list`. -/
def SqlList.newList : SqlList H := ⟨∅, none, none, 0⟩

/-- `push_back`, where `malloc` returned the address `p`: the list and the id of the node. -/
def SqlList.pushBack (l : SqlList H) (p : ℕ) (handler : H) : Option (SqlList H × BitVec 64) :=
  if l.size = 0 then
    some (⟨l.heap.insert p ⟨none, none, ⟨handler, 1⟩⟩, some p, some p, l.size + 1⟩, 1)
  else do
    let t ← l.tail
    let h ← setNext l.heap t (some p)
    let c ← h.lookup t
    let id := c.val.id + 1
    some (⟨h.insert p ⟨some t, none, ⟨handler, id⟩⟩, l.head, some p, l.size + 1⟩, id)

/-- The loop of `find`.  A walk that is longer than there are nodes does not end. -/
def findFrom (h : Heap (SqlNode H)) (id : BitVec 64) : ℕ → Option ℕ → Option (Option ℕ)
  | 0, _ => none
  | n + 1, current => do
    let p ← current
    let c ← h.lookup p
    if c.val.id = id then some current
    else if c.next = none then some none
    else findFrom h id n c.next

/-- `find`: the parameter is an `int`, which the comparison extends again. -/
def SqlList.find (l : SqlList H) (id : BitVec 32) : Option (Option ℕ) :=
  if l.size = 0 then some none
  else findFrom l.heap (id.signExtend 64) l.heap.keys.length l.head

/-- `erase`, before the node is freed. -/
def SqlList.unlink (l : SqlList H) (node : ℕ) : Option (SqlList H) := do
  let c ← l.heap.lookup node
  if c.prev = none ∧ c.next = none then some { l with head := none, tail := none }
  else if c.prev = none then
    -- the link that is cleared is the one of the node to be erased
    let h ← setPrev l.heap (← l.head) none
    let c ← h.lookup node
    some { l with heap := h, head := c.next }
  else if c.next = none then
    let h ← setNext l.heap (← c.prev) none
    some { l with heap := h, tail := c.prev }
  else
    let h ← setPrev l.heap (← c.next) c.prev
    let c ← h.lookup node
    let h ← setNext h (← c.prev) c.next
    some { l with heap := h }

/-- `erase`. -/
def SqlList.erase (l : SqlList H) (node : ℕ) : Option (SqlList H) :=
  (l.unlink node).map fun l => { l with heap := l.heap.erase node, size := l.size - 1 }

/-! ### The table -/

/-- The list, and the handles that are open: an `OPEN` that answered with an id opened a
handle under it, and a `CLOSE` that answered OK closed the handle of its id.  A fault is an
access to a node that is not there. -/
inductive SqlTable (H : Type)
  | live (l : SqlList H) (opened : List (ℕ × SqlNode H))
  | fault

/-- A command, as far as it uses the table. -/
inductive TableCmd (H : Type)
  /-- `OPEN`, with the address `malloc` returns. -/
  | opens (p : ℕ) (handler : H)
  /-- `CLOSE`, and whether the library closes the database. -/
  | close (id : BitVec 64) (closes : Bool)
  /-- Any other command. -/
  | lookup (id : BitVec 64)

/-- One command.  `malloc` does not return the address of a node. -/
def tableNext : SqlTable H → TableCmd H → Option (SqlTable H)
  | .fault, _ => none
  | .live l opened, .opens p handler =>
    if (l.heap.lookup p).isSome then none
    else some <|
      match l.pushBack p handler with
      | none => .fault
      | some (l', id) => .live l' (opened ++ [(p, ⟨handler, id⟩)])
  | .live l opened, .close id closes => some <|
      match l.find (id.setWidth 32) with
      | none => .fault
      | some none => .live l opened
      | some (some node) =>
        if closes then
          match l.erase node with
          | none => .fault
          | some l' => .live l' (opened.filter fun c => c.2.id ≠ id)
        else .live l opened
  | .live l opened, .lookup id => some <|
      match l.find (id.setWidth 32) with
      | none => .fault
      | some _ => .live l opened

/-- The table before the first command. -/
def SqlTable.new : SqlTable H := .live .newList []

/-! ### What the table should be -/

/-- The nodes of the list are the handles that are open, in order: the links agree in both
directions and are NULL at both ends, the size counts the nodes, and the ids grow.  All
nodes are in the heap, so no link leads to a node that was freed. -/
structure ListSound (l : SqlList H) (opened : List (ℕ × SqlNode H)) : Prop where
  links : Seg l.heap none opened none
  head : l.head = first opened none
  tail : l.tail = last none opened
  size : l.size.toInt = opened.length
  ids : opened.Pairwise fun a b => a.2.id.toInt < b.2.id.toInt
  distinct : (opened.map Prod.fst).Nodup

/-- A lookup finds the node that was opened under the id, and NULL if there is none. -/
def FindsOpened (l : SqlList H) (opened : List (ℕ × SqlNode H)) (id : BitVec 64) : Prop :=
  l.find (id.setWidth 32) = some ((opened.find? fun c => c.2.id = id).map Prod.fst)

/-- The table as it should be. -/
def TableSound : SqlTable H → Prop
  | .fault => False
  | .live l opened => ListSound l opened ∧ ∀ id, FindsOpened l opened id

/-- The number an id becomes as an `int`. -/
def narrow (id : BitVec 64) : BitVec 64 := (id.setWidth 32).signExtend 64

/-- The id is an `int`, or no handle is open under it or under the `int` it becomes. -/
def Unaliased (opened : List (ℕ × SqlNode H)) (id : BitVec 64) : Prop :=
  narrow id = id ∨ ∀ c ∈ opened, c.2.id ≠ id ∧ c.2.id ≠ narrow id

/-- What a command must be for the table to stay sound: the counters do not overflow, an id
is not confused with another, and the node to be erased is not the first of several. -/
def TableAllowed : SqlTable H → TableCmd H → Prop
  | .fault, _ => False
  | .live _ opened, .opens _ _ =>
    opened.length < 2 ^ 31 - 1 ∧ ∀ c ∈ opened.getLast?, c.2.id.toInt < 2 ^ 63 - 1
  | .live _ opened, .close id closes =>
    Unaliased opened id ∧
      (closes = true → ∀ c ∈ opened.head?, c.2.id = id → opened.length = 1)
  | .live _ opened, .lookup id => Unaliased opened id

instance (opened : List (ℕ × SqlNode H)) (id : BitVec 64) : Decidable (Unaliased opened id) :=
  inferInstanceAs (Decidable (_ ∨ ∀ c ∈ opened, _ ∧ _))

instance : ∀ (s : SqlTable H) (a : TableCmd H), Decidable (TableAllowed s a)
  | .fault, _ => .isFalse id
  | .live .., .opens .. => inferInstanceAs (Decidable (_ ∧ _))
  | .live .., .close .. => inferInstanceAs (Decidable (_ ∧ (_ → _)))
  | .live .., .lookup id => inferInstanceAs (Decidable (Unaliased _ id))


/-! ### Machine numbers -/

theorem toInt_succ {w : ℕ} (hw : 1 < w) {x : BitVec w} (h : x.toInt < 2 ^ (w - 1) - 1) :
    (x + 1).toInt = x.toInt + 1 := by
  have hlow := BitVec.le_toInt x
  have hone : (1 : BitVec w).toInt = 1 := BitVec.toInt_one hw
  have hpow : (2 : ℤ) ^ w = 2 * 2 ^ (w - 1) := by
    rw [← pow_succ']
    congr 1
    omega
  rw [BitVec.toInt_add, hone]
  apply Int.bmod_eq_of_le
  · push_cast
    omega
  · push_cast
    omega

theorem toInt_pred {w : ℕ} (hw : 1 < w) {x : BitVec w} (h : 0 < x.toInt) :
    (x - 1).toInt = x.toInt - 1 := by
  have hhigh := @BitVec.toInt_lt w x
  have hone : (1 : BitVec w).toInt = 1 := BitVec.toInt_one hw
  have hpow : (2 : ℤ) ^ w = 2 * 2 ^ (w - 1) := by
    rw [← pow_succ']
    congr 1
    omega
  rw [BitVec.toInt_sub, hone]
  apply Int.bmod_eq_of_le
  · push_cast
    omega
  · push_cast
    omega

/-- An id is the same number as an `int` if and only if it is in the range of `int`. -/
theorem narrow_eq_self_iff (id : BitVec 64) :
    narrow id = id ↔ -2 ^ 31 ≤ id.toInt ∧ id.toInt < 2 ^ 31 := by
  have hnat := BitVec.toInt_eq_toNat_cond id
  rw [narrow, ← BitVec.toInt_inj, BitVec.toInt_signExtend_of_le (by omega), BitVec.toInt_setWidth,
    Int.bmod_def]
  split at hnat <;> split <;> omega

/-! ### Looking up -/

section

variable {l l' : SqlList H} {opened : List (ℕ × SqlNode H)}

/-- The walk of `find` along a segment. -/
theorem findFrom_eq {h : Heap (SqlNode H)} (id : BitVec 64) :
    ∀ {cs : List (ℕ × SqlNode H)} {before : Option ℕ} {n : ℕ}, Seg h before cs none → cs ≠ [] →
      cs.length ≤ n →
        findFrom h id n (first cs none) = some ((cs.find? fun c => c.2.id = id).map Prod.fst) := by
  intro cs
  induction cs with
  | nil => intro before n _ hne; exact absurd rfl hne
  | cons c cs ih =>
    intro before n hseg _ hlen
    obtain ⟨n, rfl⟩ : ∃ m, n = m + 1 := Nat.exists_eq_add_one.mpr (by simp at hlen; omega)
    obtain ⟨hc, hcs⟩ := hseg
    simp only [findFrom, first_cons, Option.bind_eq_bind, Option.bind_some, hc]
    by_cases hid : c.2.id = id
    · simp [hid]
    · rw [if_neg hid, List.find?_cons_of_neg (by simpa using hid)]
      cases cs with
      | nil => simp
      | cons d ds =>
        rw [if_neg (by simp)]
        exact ih hcs (by simp) (by simpa using hlen)

theorem ListSound.length_le (hs : ListSound l opened) :
    opened.length ≤ l.heap.keys.length := by
  have hsub : opened.map Prod.fst ⊆ l.heap.keys := by
    intro p hp
    obtain ⟨c, hc, rfl⟩ := List.mem_map.mp hp
    exact AList.mem_keys.mp (AList.lookup_isSome.mp (hs.links.lookup_isSome c hc))
  simpa using hs.distinct.length_le_of_subset hsub

theorem ListSound.size_eq_zero_iff (hs : ListSound l opened) : l.size = 0 ↔ opened = [] := by
  rw [← BitVec.toInt_inj, hs.size]
  simp

/-- **What a lookup finds**: the handle whose id is the request's id as an `int`. -/
theorem ListSound.find_eq (hs : ListSound l opened) (id : BitVec 64) :
    l.find (id.setWidth 32)
      = some ((opened.find? fun c => c.2.id = narrow id).map Prod.fst) := by
  by_cases hnil : opened = []
  · simp [SqlList.find, hs.size_eq_zero_iff.mpr hnil, hnil]
  · rw [SqlList.find, if_neg (mt hs.size_eq_zero_iff.mp hnil), hs.head]
    exact findFrom_eq _ hs.links hnil hs.length_le

theorem ListSound.nodup_ids (hs : ListSound l opened) :
    (opened.map fun c => c.2.id).Nodup :=
  List.pairwise_map.mpr (hs.ids.imp fun h heq => ne_of_lt h (congrArg BitVec.toInt heq))

/-- **A lookup is right exactly when the id is not confused with another.** -/
theorem ListSound.findsOpened_iff (hs : ListSound l opened) (id : BitVec 64) :
    FindsOpened l opened id ↔ Unaliased opened id := by
  rw [FindsOpened, hs.find_eq, Option.some.injEq]
  by_cases hnarrow : narrow id = id
  · simp [Unaliased, hnarrow]
  · constructor
    · intro h
      refine .inr fun c hc => ?_
      by_contra hcon
      -- a handle under one of the two ids is found under the other one too
      have hsame : ∃ d ∈ opened, d.2.id = id ∧ d.2.id = narrow id := by
        rcases hid : opened.find? fun c => c.2.id = id with _ | d
        · rw [hid, Option.map_none, Option.map_eq_none_iff] at h
          have h1 := List.find?_eq_none.mp hid c hc
          have h2 := List.find?_eq_none.mp h c hc
          exact absurd ⟨by simpa using h1, by simpa using h2⟩ hcon
        · rw [hid, Option.map_some, Option.map_eq_some_iff] at h
          obtain ⟨e, he, hfst⟩ := h
          have hde := List.inj_on_of_nodup_map hs.distinct (List.mem_of_find?_eq_some he)
            (List.mem_of_find?_eq_some hid) hfst
          subst hde
          exact ⟨e, List.mem_of_find?_eq_some hid, by simpa using List.find?_some hid,
            by simpa using List.find?_some he⟩
      obtain ⟨d, -, h1, h2⟩ := hsame
      exact hnarrow (h2.symm.trans h1)
    · rintro (h | h)
      · exact absurd h hnarrow
      · rw [List.find?_eq_none.mpr fun c hc => by simpa using (h c hc).2,
          List.find?_eq_none.mpr fun c hc => by simpa using (h c hc).1]

/-! ### Unlinking -/

/-- What is left to show of `erase` once the node is unlinked. -/
theorem ListSound.of_unlink {xs ys : List (ℕ × SqlNode H)} {c : ℕ × SqlNode H}
    (hs : ListSound l (xs ++ c :: ys)) (hun : l.unlink c.1 = some l') (hsize : l'.size = l.size)
    (hlinks : Seg l'.heap none (xs ++ ys) none) (hhead : l'.head = first (xs ++ ys) none)
    (htail : l'.tail = last none (xs ++ ys)) :
    ∃ t, l.erase c.1 = some t ∧ ListSound t (xs ++ ys) := by
  have hsub : (xs ++ ys).Sublist (xs ++ c :: ys) :=
    List.Sublist.append_left (List.sublist_cons_self c ys) xs
  refine ⟨_, by rw [SqlList.erase, hun, Option.map_some], ?_⟩
  constructor
  case links =>
    exact hlinks.frame fun d hd => AList.lookup_erase_ne (ne_of_nodup hs.distinct d hd)
  case head => exact hhead
  case tail => exact htail
  case size =>
    have hlen : (l.size.toInt : ℤ) = (xs ++ ys).length + 1 := by
      rw [hs.size]
      simp only [List.length_append, List.length_cons]
      push_cast
      omega
    rw [hsize, toInt_pred (by omega) (by omega), hlen]
    omega
  case ids => exact hs.ids.sublist hsub
  case distinct => exact hs.distinct.sublist (hsub.map _)

theorem ListSound.erase_only {c : ℕ × SqlNode H} (hs : ListSound l [c]) :
    ∃ t, l.erase c.1 = some t ∧ ListSound t [] := by
  have hc : l.heap.lookup c.1 = some ⟨none, none, c.2⟩ := hs.links.1
  have hun : l.unlink c.1 = some { l with head := none, tail := none } := by
    simp [SqlList.unlink, hc]
  have hs : ListSound l ([] ++ c :: []) := hs
  exact hs.of_unlink hun rfl trivial rfl rfl

theorem ListSound.erase_last {xs : List (ℕ × SqlNode H)} {q c : ℕ × SqlNode H}
    (hs : ListSound l (xs ++ [q] ++ [c])) :
    ∃ t, l.erase c.1 = some t ∧ ListSound t (xs ++ [q]) := by
  obtain ⟨hxs, hc, -⟩ := seg_append.mp hs.links
  have hq : ∀ d ∈ xs, d.1 ≠ q.1 := by
    have h := hs.distinct
    rw [List.append_assoc] at h
    exact fun d hd => ne_of_nodup h d (List.mem_append_left _ hd)
  obtain ⟨hset, hseg⟩ := hxs.setNext_last hq none
  rw [last_append, last_cons, last_nil, first_nil] at hc
  have hun : l.unlink c.1 = some { l with
      heap := l.heap.insert q.1 ⟨last none xs, none, q.2⟩, tail := some q.1 } := by
    simp [SqlList.unlink, hc, hset]
  have h := hs.of_unlink hun rfl
  rw [List.append_nil] at h
  apply h hseg
  · rw [hs.head, first_append, first_append, first_cons, first_append, first_cons]
  · rw [last_append, last_cons, last_nil]

theorem ListSound.erase_between {xs ys : List (ℕ × SqlNode H)} {q c r : ℕ × SqlNode H}
    (hs : ListSound l (xs ++ [q] ++ c :: r :: ys)) :
    ∃ t, l.erase c.1 = some t ∧ ListSound t (xs ++ [q] ++ r :: ys) := by
  obtain ⟨hxs, hc, hys⟩ := seg_append.mp hs.links
  have hne := ne_of_nodup hs.distinct
  have hr : ∀ d ∈ xs ++ [q] ++ c :: ys, d.1 ≠ r.1 := by
    have h := hs.distinct
    rw [show xs ++ [q] ++ c :: r :: ys = (xs ++ [q] ++ [c]) ++ r :: ys by simp] at h
    intro d hd
    exact ne_of_nodup h d (by simpa using hd)
  have hq : ∀ d ∈ xs ++ c :: r :: ys, d.1 ≠ q.1 := by
    have h := hs.distinct
    rw [List.append_assoc] at h
    exact ne_of_nodup h
  rw [last_append, last_cons, last_nil, first_cons] at hc
  -- the link back, and then the link forth
  obtain ⟨hset1, hys1⟩ := hys.setPrev_first (fun d hd => hr d (by simp [hd])) (some q.1)
  have hxs1 : Seg (l.heap.insert r.1 ⟨some q.1, first ys none, r.2⟩) none (xs ++ [q])
      (some c.1) :=
    hxs.frame fun d hd => AList.lookup_insert_ne (hr d (List.mem_append_left _ hd))
  obtain ⟨hset2, hxs2⟩ := hxs1.setNext_last (fun d hd => hq d (by simp [hd])) (some r.1)
  have hc1 : (l.heap.insert r.1 ⟨some q.1, first ys none, r.2⟩).lookup c.1
      = some ⟨some q.1, some r.1, c.2⟩ := by
    rw [AList.lookup_insert_ne (hr c (by simp)), hc]
  have hun : l.unlink c.1 = some { l with
      heap := (l.heap.insert r.1 ⟨some q.1, first ys none, r.2⟩).insert q.1
        ⟨last none xs, some r.1, q.2⟩ } := by
    simp [SqlList.unlink, hc, hset1, hc1, hset2]
  apply hs.of_unlink hun rfl
  · rw [seg_append, last_append, last_cons, last_nil]
    refine ⟨hxs2, hys1.frame fun d hd => AList.lookup_insert_ne (hq d ?_)⟩
    exact List.mem_append_right _ (List.mem_cons_of_mem _ hd)
  · simp [hs.head]
  · simp [hs.tail]

/-- **Unlinking any node but the first of several.** -/
theorem ListSound.erase {xs ys : List (ℕ × SqlNode H)} {c : ℕ × SqlNode H}
    (hs : ListSound l (xs ++ c :: ys)) (hfirst : xs = [] → ys = []) :
    ∃ t, l.erase c.1 = some t ∧ ListSound t (xs ++ ys) := by
  rcases List.eq_nil_or_concat' xs with rfl | ⟨xs, q, rfl⟩
  · obtain rfl := hfirst rfl
    exact hs.erase_only
  · rcases ys with _ | ⟨r, ys⟩
    · rw [List.append_nil]
      exact hs.erase_last
    · exact hs.erase_between

/-! ### Appending -/

theorem ListSound.newList : ListSound (.newList : SqlList H) [] where
  links := trivial
  head := rfl
  tail := rfl
  size := rfl
  ids := .nil
  distinct := .nil

/-- **Appending a node**, whose id is larger than those in the list. -/
theorem ListSound.pushBack (hs : ListSound l opened) {p : ℕ} (hp : l.heap.lookup p = none)
    (hlen : opened.length < 2 ^ 31 - 1)
    (hid : ∀ c ∈ opened.getLast?, c.2.id.toInt < 2 ^ 63 - 1) (handler : H) :
    ∃ t id, l.pushBack p handler = some (t, id) ∧
      ListSound t (opened ++ [(p, ⟨handler, id⟩)]) := by
  have hfresh : ∀ c ∈ opened, c.1 ≠ p := by
    intro c hc heq
    have h := hs.links.lookup_isSome c hc
    rw [heq, hp] at h
    exact absurd h (by simp)
  have hsize : (l.size + 1).toInt = opened.length + 1 := by
    rw [toInt_succ (by omega) (by rw [hs.size]; omega), hs.size]
  have hdistinct : ∀ v : SqlNode H, ((opened ++ [(p, v)]).map Prod.fst).Nodup := by
    intro v
    rw [List.map_append, List.nodup_append]
    refine ⟨hs.distinct, by simp, ?_⟩
    intro a ha b hb
    obtain ⟨c, hc, rfl⟩ := List.mem_map.mp ha
    rw [List.mem_singleton.mp hb]
    exact hfresh c hc
  rcases List.eq_nil_or_concat' opened with rfl | ⟨xs, q, rfl⟩
  · have hzero : l.size = 0 := hs.size_eq_zero_iff.mpr rfl
    refine ⟨_, _, by rw [SqlList.pushBack, if_pos hzero], ?_⟩
    constructor
    case links => exact ⟨AList.lookup_insert _, trivial⟩
    case head => rfl
    case tail => rfl
    case size => simpa using hsize
    case ids => exact List.pairwise_singleton _ _
    case distinct => exact hdistinct _
  · have hzero : l.size ≠ 0 := mt hs.size_eq_zero_iff.mp (by simp)
    have hq : ∀ d ∈ xs, d.1 ≠ q.1 := fun d hd =>
      ne_of_nodup hs.distinct d (List.mem_append_left _ hd)
    obtain ⟨hset, hseg⟩ := hs.links.setNext_last hq (some p)
    have htail : l.tail = some q.1 := by rw [hs.tail, last_append, last_cons, last_nil]
    have hpush : l.pushBack p handler = some (⟨(l.heap.insert q.1
        ⟨last none xs, some p, q.2⟩).insert p ⟨some q.1, none, ⟨handler, q.2.id + 1⟩⟩,
        l.head, some p, l.size + 1⟩, q.2.id + 1) := by
      rw [SqlList.pushBack, if_neg hzero, htail]
      simp only [Option.bind_eq_bind, Option.bind_some, hset, AList.lookup_insert]
    refine ⟨_, _, hpush, ?_⟩
    constructor
    case links =>
      rw [seg_append]
      refine ⟨hseg.frame fun d hd => AList.lookup_insert_ne (hfresh d hd), ?_, trivial⟩
      rw [last_append, last_cons, last_nil]
      exact AList.lookup_insert _
    case head =>
      rw [hs.head, first_append, first_append, first_cons, first_append, first_cons]
    case tail => rw [last_append, last_cons, last_nil]
    case size =>
      rw [List.length_append, List.length_singleton, Nat.cast_add_one]
      exact hsize
    case ids =>
      have hlast : q.2.id.toInt < 2 ^ 63 - 1 := hid q (by simp)
      have hsucc := toInt_succ (by omega) hlast
      rw [List.pairwise_append]
      refine ⟨hs.ids, List.pairwise_singleton _ _, fun a ha b hb => ?_⟩
      rw [List.mem_singleton.mp hb, hsucc]
      rcases List.mem_append.mp ha with ha | ha
      · have := (List.pairwise_append.mp hs.ids).2.2 a ha q List.mem_cons_self
        omega
      · rw [List.mem_singleton.mp ha]
        omega
    case distinct => exact hdistinct _

end

/-! ### Runs -/

/-- The handles that are open after the one under `id` was closed. -/
theorem ListSound.filter_eq {l : SqlList H} {xs ys : List (ℕ × SqlNode H)} {c : ℕ × SqlNode H}
    (hs : ListSound l (xs ++ c :: ys)) :
    (xs ++ c :: ys).filter (fun d => d.2.id ≠ c.2.id) = xs ++ ys := by
  have hne : ∀ d ∈ xs ++ ys, d.2.id ≠ c.2.id := by
    have h := hs.nodup_ids
    rw [List.map_append, List.map_cons, List.nodup_middle, ← List.map_append] at h
    intro d hd heq
    exact (List.nodup_cons.mp h).1 (heq ▸ List.mem_map_of_mem hd)
  rw [List.filter_append, List.filter_cons_of_neg (by simp), ← List.filter_append,
    List.filter_eq_self]
  intro d hd
  simpa using hne d hd

/-- A table without a fault whose list is sound. -/
def ListSoundAt : SqlTable H → Prop
  | .fault => False
  | .live l opened => ListSound l opened

/-- **One command.** -/
theorem tableNext_sound {s t : SqlTable H} {a : TableCmd H} (hs : ListSoundAt s)
    (hok : TableAllowed s a) (hstep : tableNext s a = some t) : ListSoundAt t := by
  rcases s with ⟨l, opened⟩ | _
  · replace hs : ListSound l opened := hs
    cases a with
    | opens p handler =>
      obtain ⟨hlen, hid⟩ := hok
      rw [tableNext] at hstep
      split at hstep
      next => cases hstep
      next hp =>
        obtain ⟨l', id, hpush, hs'⟩ := hs.pushBack (by simpa using hp) hlen hid handler
        rw [hpush] at hstep
        obtain rfl := Option.some.inj hstep
        exact hs'
    | close id closes =>
      obtain ⟨hid, hfirst⟩ := hok
      rw [tableNext, (hs.findsOpened_iff id).mpr hid] at hstep
      obtain rfl := Option.some.inj hstep
      rcases hfind : opened.find? fun c => c.2.id = id with _ | c
      · rw [hfind, Option.map_none]
        exact hs
      · rw [hfind, Option.map_some]
        cases closes with
        | false => exact hs
        | true =>
          have hcid : c.2.id = id := by simpa using List.find?_some hfind
          obtain ⟨xs, ys, rfl⟩ := List.append_of_mem (List.mem_of_find?_eq_some hfind)
          obtain ⟨l', herase, hs'⟩ := hs.erase fun hxs => by
            subst hxs
            simpa using hfirst rfl c (by simp) hcid
          simp only [herase, if_true]
          rw [← hcid, hs.filter_eq]
          exact hs'
    | lookup id =>
      rw [tableNext, (hs.findsOpened_iff id).mpr hok] at hstep
      obtain rfl := Option.some.inj hstep
      exact hs
  · cases hs

/-- **The handle table is sound in every run of allowed commands**: no node that was freed
is used, the list is linked, counted and ordered, and a lookup is right for every id that
is not confused with another one. -/
theorem table_sound (as : List (TableCmd H))
    (hok : Runs.Meets tableNext TableAllowed SqlTable.new as) (s : SqlTable H)
    (hrun : Runs.run tableNext SqlTable.new as = some s) :
    ∃ l opened, s = .live l opened ∧ ListSound l opened ∧
      ∀ id, FindsOpened l opened id ↔ Unaliased opened id := by
  have hnew : ListSoundAt (SqlTable.new : SqlTable H) := ListSound.newList
  have hs : ListSoundAt s := Runs.inv_of_run (fun _ _ _ => tableNext_sound) hnew hok hrun
  rcases s with ⟨l, opened⟩ | _
  · exact ⟨l, opened, rfl, hs, fun id => hs.findsOpened_iff id⟩
  · cases hs

/-- Two handles are opened, and the second one is closed. -/
def exampleTableRun : List (TableCmd Unit) :=
  [.opens 1 (), .opens 2 (), .lookup 2, .close 2 true, .lookup 1]

theorem table_sound_example : ∃ s l opened,
    Runs.run tableNext SqlTable.new exampleTableRun = some s ∧ s = .live l opened ∧
      ListSound l opened ∧ ∀ id, FindsOpened l opened id ↔ Unaliased opened id := by
  have hok : Runs.Meets tableNext TableAllowed SqlTable.new exampleTableRun := by decide
  obtain ⟨l, opened, h⟩ := table_sound exampleTableRun hok _ rfl
  exact ⟨_, l, opened, rfl, h⟩

/-- The first of two handles is closed, and then the second one: the link back of the
second node leads to the first one, which was freed. -/
theorem table_unsound : ¬ ∀ (as : List (TableCmd Unit)) (s : SqlTable Unit),
    Runs.run tableNext SqlTable.new as = some s → TableSound s := by
  intro h
  exact h [.opens 1 (), .opens 2 (), .close 1 true, .close 2 true] .fault rfl

end TFProtocol
