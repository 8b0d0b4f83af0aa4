import TFProtocol.Lib.Bytes

/-!
# Base64

The encoder that writes keys to text files: three bytes become four symbols of an
alphabet of 64, and a last group of one or two bytes is padded.

## Main definitions

* `Base64.en`, `Base64.de` — the encoder and the decoder.

## Main results

* `Base64.de_en`, `Base64.en_injective` — a text determines its key.
* `Base64.mem_en` — the symbols a text is made of.
* `Base64.exists_en_eq` — where the padding stands.
-/

namespace Base64

open Bytes

/-- The symbols. -/
def alphabet : List Byte := lit "ABCDEFGHIJKLMNOPQRSTUVWXYZabcdefghijklmnopqrstuvwxyz0123456789+/"

/-- The symbol of six bits. -/
def sym (i : ℕ) : Byte := alphabet.getD i 0

/-- The padding. -/
def pad : Byte := ofChar '='

/-- The encoder. -/
def en : List Byte → List Byte
  | a :: b :: c :: t =>
    sym (a.toNat / 4) :: sym (a.toNat % 4 * 16 + b.toNat / 16) ::
      sym (b.toNat % 16 * 4 + c.toNat / 64) :: sym (c.toNat % 64) :: en t
  | [a, b] =>
    [sym (a.toNat / 4), sym (a.toNat % 4 * 16 + b.toNat / 16), sym (b.toNat % 16 * 4), pad]
  | [a] => [sym (a.toNat / 4), sym (a.toNat % 4 * 16), pad, pad]
  | [] => []

/-- The six bits of a symbol. -/
def val (x : Byte) : ℕ := alphabet.idxOf x

/-- The decoder, on texts of the encoder. -/
def de : List Byte → List Byte
  | w :: x :: y :: z :: t =>
    BitVec.ofNat 8 (val w * 4 + val x / 16) ::
      if y = pad then []
      else BitVec.ofNat 8 (val x % 16 * 16 + val y / 4) ::
        if z = pad then [] else BitVec.ofNat 8 (val y % 4 * 64 + val z) :: de t
  | _ => []

theorem nodup_alphabet : alphabet.Nodup := by
  refine List.Nodup.of_map BitVec.toNat ?_
  rw [alphabet, lit_ofList]
  decide

theorem length_alphabet : alphabet.length = 64 := by
  rw [alphabet, lit_ofList]
  rfl

theorem pad_not_mem_alphabet : pad ∉ alphabet := by
  rw [alphabet, lit_ofList]
  decide

theorem sym_eq_getElem {i : ℕ} (h : i < alphabet.length) : sym i = alphabet[i] :=
  (List.getElem_eq_getD 0).symm

theorem sym_mem_alphabet {i : ℕ} (hi : i < 64) : sym i ∈ alphabet := by
  have hlen : i < alphabet.length := by rwa [length_alphabet]
  rw [sym_eq_getElem hlen]
  exact List.getElem_mem hlen

theorem val_sym : ∀ i < 64, val (sym i) = i := by
  intro i hi
  have hlen : i < alphabet.length := by rwa [length_alphabet]
  rw [val, sym_eq_getElem hlen]
  exact nodup_alphabet.idxOf_getElem i hlen

theorem sym_ne_pad : ∀ i < 64, sym i ≠ pad := fun _ hi hpad =>
  pad_not_mem_alphabet (hpad ▸ sym_mem_alphabet hi)

theorem length_en : ∀ k : List Byte, (en k).length = (k.length + 2) / 3 * 4 := by
  intro k
  induction k using en.induct with
  | case1 a b c t ih =>
    simp only [en, List.length_cons, ih]
    omega
  | case2 a b => simp [en]
  | case3 a => simp [en]
  | case4 => simp [en]

/-- A text is made of symbols and padding. -/
theorem mem_en : ∀ {k : List Byte} {x : Byte}, x ∈ en k → x = pad ∨ ∃ i < 64, x = sym i := by
  intro k
  induction k using en.induct with
  | case1 a b c t ih =>
    intro x hx
    have ha := a.isLt
    have hb := b.isLt
    have hc := c.isLt
    simp only [en, List.mem_cons] at hx
    rcases hx with rfl | rfl | rfl | rfl | hx
    · exact .inr ⟨_, by omega, rfl⟩
    · exact .inr ⟨_, by omega, rfl⟩
    · exact .inr ⟨_, by omega, rfl⟩
    · exact .inr ⟨_, by omega, rfl⟩
    · exact ih hx
  | case2 a b =>
    intro x hx
    have ha := a.isLt
    have hb := b.isLt
    simp only [en, List.mem_cons, List.not_mem_nil, or_false] at hx
    rcases hx with rfl | rfl | rfl | rfl
    · exact .inr ⟨_, by omega, rfl⟩
    · exact .inr ⟨_, by omega, rfl⟩
    · exact .inr ⟨_, by omega, rfl⟩
    · exact .inl rfl
  | case3 a =>
    intro x hx
    have ha := a.isLt
    simp only [en, List.mem_cons, List.not_mem_nil, or_false] at hx
    rcases hx with rfl | rfl | rfl | rfl
    · exact .inr ⟨_, by omega, rfl⟩
    · exact .inr ⟨_, by omega, rfl⟩
    · exact .inl rfl
    · exact .inl rfl
  | case4 =>
    intro x hx
    cases hx

/-- The number of padding symbols in the text of some bytes. -/
def pads (k : List Byte) : ℕ := (k.length + 2) / 3 * 3 - k.length

/-- The padding stands at the end of the text, and nowhere else. -/
theorem exists_en_eq : ∀ k : List Byte, ∃ body, en k = body ++ List.replicate (pads k) pad ∧
    pad ∉ body := by
  intro k
  induction k using en.induct with
  | case1 a b c t ih =>
    obtain ⟨body, heq, hmem⟩ := ih
    have ha := a.isLt
    have hb := b.isLt
    have hc := c.isLt
    have hpads : pads (a :: b :: c :: t) = pads t := by
      simp only [pads, List.length_cons]
      omega
    refine ⟨sym (a.toNat / 4) :: sym (a.toNat % 4 * 16 + b.toNat / 16) ::
      sym (b.toNat % 16 * 4 + c.toNat / 64) :: sym (c.toNat % 64) :: body, ?_, ?_⟩
    · rw [en, heq, hpads]
      rfl
    · simp only [List.mem_cons, not_or]
      exact ⟨(sym_ne_pad _ (by omega)).symm, (sym_ne_pad _ (by omega)).symm,
        (sym_ne_pad _ (by omega)).symm, (sym_ne_pad _ (by omega)).symm, hmem⟩
  | case2 a b =>
    have ha := a.isLt
    have hb := b.isLt
    refine ⟨[sym (a.toNat / 4), sym (a.toNat % 4 * 16 + b.toNat / 16), sym (b.toNat % 16 * 4)],
      by simp [en, pads], ?_⟩
    simp only [List.mem_cons, List.not_mem_nil, or_false, not_or]
    exact ⟨(sym_ne_pad _ (by omega)).symm, (sym_ne_pad _ (by omega)).symm,
      (sym_ne_pad _ (by omega)).symm⟩
  | case3 a =>
    have ha := a.isLt
    refine ⟨[sym (a.toNat / 4), sym (a.toNat % 4 * 16)], by simp [en, pads], ?_⟩
    simp only [List.mem_cons, List.not_mem_nil, or_false, not_or]
    exact ⟨(sym_ne_pad _ (by omega)).symm, (sym_ne_pad _ (by omega)).symm⟩
  | case4 => exact ⟨[], by simp [en, pads], List.not_mem_nil⟩

/-- **The decoder undoes the encoder.** -/
theorem de_en : ∀ k : List Byte, de (en k) = k := by
  have hbyte : ∀ {n : ℕ} {b : Byte}, n = b.toNat → BitVec.ofNat 8 n = b := by
    rintro n b rfl
    simp
  intro k
  induction k using en.induct with
  | case1 a b c t ih =>
    have ha := a.isLt
    have hb := b.isLt
    have hc := c.isLt
    rw [en, de, if_neg (sym_ne_pad _ (by omega)), if_neg (sym_ne_pad _ (by omega)),
      val_sym _ (by omega), val_sym _ (by omega), val_sym _ (by omega), val_sym _ (by omega), ih]
    rw [hbyte (b := a) (by omega), hbyte (b := b) (by omega), hbyte (b := c) (by omega)]
  | case2 a b =>
    have ha := a.isLt
    have hb := b.isLt
    rw [en, de, if_neg (sym_ne_pad _ (by omega)), if_pos rfl, val_sym _ (by omega),
      val_sym _ (by omega), val_sym _ (by omega)]
    rw [hbyte (b := a) (by omega), hbyte (b := b) (by omega)]
  | case3 a =>
    have ha := a.isLt
    rw [en, de, if_pos rfl, val_sym _ (by omega), val_sym _ (by omega),
      hbyte (b := a) (by omega)]
  | case4 => rfl

/-- **Different keys have different texts.** -/
theorem en_injective : Function.Injective en := Function.LeftInverse.injective de_en

end Base64
