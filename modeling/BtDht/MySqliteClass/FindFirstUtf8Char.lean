import BtDht.Data.Utf8
import BtDht.MySqliteClass.Tokenizers

/-!
# BtDht.MySqliteClass.FindFirstUtf8Char

`findFirstUtf8Char` is to find a valid UTF-8 character.  It looks at the
pattern of the bytes only: what it accepts are the sequences that stand for a
number (`isCharacter_iff_number`), among them overlong forms, surrogates and
numbers above U+10FFFF.  On every other string it is right
(`findFirstUtf8Char_scans_iff`).
-/

namespace BtDht.MySqliteTokenizers

open Utf8

/-! ## the specification -/

/-- What the scanner is to answer at `offset`, when `*findFirstCharSize` was
`n`. -/
structure ScansUtf8 (str : Bytes) (offset n : Nat) : Prop where
  /-- `true` if and only if the encoding of a character begins there -/
  result_iff : (findFirstUtf8Char str offset str.length n).result = true ↔
    ∃ c : Char, String.utf8EncodeChar c <+: str.drop offset
  /-- with the length of that encoding -/
  size_eq : ∀ c : Char, String.utf8EncodeChar c <+: str.drop offset →
    (findFirstUtf8Char str offset str.length n).findFirstCharSize = (String.utf8EncodeChar c).length
  /-- and nothing written when there is none -/
  unchanged : (findFirstUtf8Char str offset str.length n).result = false →
    (findFirstUtf8Char str offset str.length n).findFirstCharSize = n

/-- The string begins with a sequence in the pattern of UTF-8 whose number is
no scalar value, or has a shorter form. -/
def Malformed (s : Bytes) : Prop :=
  ∃ p v, p <+: s ∧ number p = some v ∧ ¬ (v.isValidChar ∧ p.length = shortest v)

/-! ## what the scanner accepts -/

theorem isTail_iff (b : UInt8) : IsTail b ↔ b &&& 0xC0 = 0x80 :=
  (continuation_iff b).symm

theorem charSize_eq_lead (b : UInt8) : charSize b = (lead b).map fun x => x.1 + 1 := by
  rw [charSize_eq, lead]
  grind

/-- The scanner's characters are the sequences that stand for a number. -/
theorem isCharacter_iff_number {p : Bytes} : IsCharacter p ↔ ∃ v, number p = some v := by
  cases p with
  | nil =>
      constructor
      · intro h
        exact absurd h.length_pos (by simp)
      · intro h
        obtain ⟨v, hv⟩ := h
        cases hv
  | cons first rest =>
      constructor
      · intro h
        have hsize := h.size
        rw [List.headD_cons, charSize_eq_lead] at hsize
        obtain ⟨x, hlead, hx⟩ := Option.map_eq_some_iff.mp hsize
        have hn : x.1 = rest.length := by simpa using hx
        have htails : ∀ b ∈ rest, IsTail b := fun b hb => (isTail_iff b).mpr (h.continuation b hb)
        exact ⟨_, number_cons_eq_some.mpr ⟨x.2, by rw [hlead, ← hn], htails, rfl⟩⟩
      · intro h
        obtain ⟨v, hv⟩ := h
        obtain ⟨bits, hlead, htails, -⟩ := number_cons_eq_some.mp hv
        have hsize : charSize first = some (first :: rest).length := by
          rw [charSize_eq_lead, hlead]
          rfl
        exact ⟨hsize, fun b hb => (isTail_iff b).mp (htails b hb)⟩

variable {str p : Bytes} {offset n : Nat}

/-- It accepts wherever one of them begins. -/
theorem findFirstUtf8Char_of_begins (h : IsCharacter p) (hp : p <+: str.drop offset) (n : Nat) :
    findFirstUtf8Char str offset str.length n = ⟨true, p.length, none⟩ := by
  obtain ⟨post, hpost⟩ := hp
  have hlt : offset < str.length := by
    have hlen := congrArg List.length hpost
    have hpos := h.length_pos
    simp at hlen
    omega
  have hpre : (str.take offset).length = offset := by
    simp
    omega
  have hfound := findFirstUtf8Char_character (str.take offset) post h n
  rwa [hpost, List.take_append_drop, hpre] at hfound

/-- And nowhere else. -/
theorem exists_prefix_of_result (h : (findFirstUtf8Char str offset str.length n).result = true) :
    ∃ p, IsCharacter p ∧ p <+: str.drop offset := by
  cases hf : findFirstUtf8Char str offset str.length n with
  | mk result count error =>
      rw [hf] at h
      obtain rfl : result = true := h
      exact ⟨_, isCharacter_of_found hf, List.take_prefix _ _⟩

/-- A refusal writes nothing. -/
theorem findFirstCharSize_of_refused
    (h : (findFirstUtf8Char str offset str.length n).result = false) :
    (findFirstUtf8Char str offset str.length n).findFirstCharSize = n := by
  revert h
  unfold findFirstUtf8Char
  grind

/-- At most one of them begins at a place. -/
theorem eq_of_begins {s q : Bytes} {v w : Nat} (hp : p <+: s) (hq : q <+: s)
    (hv : number p = some v) (hw : number q = some w) : p = q := by
  have hfound := findFirstUtf8Char_of_begins (isCharacter_iff_number.mpr ⟨v, hv⟩)
    (show p <+: s.drop 0 from hp) 0
  have hfound' := findFirstUtf8Char_of_begins (isCharacter_iff_number.mpr ⟨w, hw⟩)
    (show q <+: s.drop 0 from hq) 0
  rw [hfound, Found.mk.injEq] at hfound'
  exact (List.prefix_of_prefix_length_le hp hq hfound'.2.1.le).eq_of_length hfound'.2.1

/-! ## where it is right -/

/-- Where a malformed sequence begins, the scanner accepts it. -/
theorem not_scansUtf8_of_malformed (h : Malformed (str.drop offset)) : ¬ ScansUtf8 str offset n := by
  intro hscans
  obtain ⟨p, v, hp, hv, hbad⟩ := h
  have hfound := findFirstUtf8Char_of_begins (isCharacter_iff_number.mpr ⟨v, hv⟩) hp n
  obtain ⟨c, hc⟩ := hscans.result_iff.mp (by rw [hfound])
  have hnumber := number_utf8EncodeChar c
  have hlen := length_utf8EncodeChar c
  have heq := eq_of_begins hp hc hv hnumber
  rw [← heq, hv] at hnumber
  obtain rfl := Option.some.inj hnumber
  rw [← heq] at hlen
  exact hbad ⟨c.valid, hlen⟩

/-- **The scanner finds exactly the UTF-8 characters, unless it stands at a
malformed one.** -/
theorem findFirstUtf8Char_scans_iff (str : Bytes) (offset n : Nat) :
    ScansUtf8 str offset n ↔ ¬ Malformed (str.drop offset) := by
  constructor
  · intro hscans hbad
    exact not_scansUtf8_of_malformed hbad hscans
  · intro hgood
    have hchar : ∀ c : Char, IsCharacter (String.utf8EncodeChar c) := isCharacter_utf8EncodeChar
    refine ⟨⟨fun h => ?_, fun h => ?_⟩, fun c hc => ?_, findFirstCharSize_of_refused⟩
    · obtain ⟨p, hp, hprefix⟩ := exists_prefix_of_result h
      obtain ⟨v, hv⟩ := isCharacter_iff_number.mp hp
      have hform : v.isValidChar ∧ p.length = shortest v := by
        by_contra hbad
        exact hgood ⟨p, v, hprefix, hv, hbad⟩
      obtain ⟨c, hc⟩ := exists_utf8EncodeChar_iff.mpr ⟨v, hv, hform⟩
      exact ⟨c, hc ▸ hprefix⟩
    · obtain ⟨c, hc⟩ := h
      rw [findFirstUtf8Char_of_begins (hchar c) hc]
    · rw [findFirstUtf8Char_of_begins (hchar c) hc]

/-- The two bytes `C0 80` are taken for a character; they are an overlong form
of U+0000. -/
theorem findFirstUtf8Char_overlong :
    findFirstUtf8Char [0xC0, 0x80] 0 [0xC0, 0x80].length 0 = ⟨true, 2, none⟩ ∧
      ¬ ScansUtf8 [0xC0, 0x80] 0 0 := by
  have hbad : Malformed [0xC0, 0x80] := ⟨[0xC0, 0x80], 0, List.prefix_rfl, by decide, by decide⟩
  exact ⟨by decide, not_scansUtf8_of_malformed hbad⟩

end BtDht.MySqliteTokenizers
