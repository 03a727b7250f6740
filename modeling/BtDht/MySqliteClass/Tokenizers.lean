import BtDht.Cpp
import BtDht.Data.Fts5
import BtDht.MySqliteClass.Stmt
import Mathlib.Data.Fintype.Basic

/-!
# BtDht.MySqliteClass.Tokenizers

`SqlMy::MySqliteTokenizers`: the tokenizer of the full text table.  It makes
one token of each character of the text, and after a lower-case letter a
colocated token with the upper-case one.

The tokenizer runs to its end on exactly the strings that are a row of
characters (`isOk_tokens_iff`).  The encoding of a text is one, and each of its
characters is a position, so a phrase matches a document exactly where it is
found up to the case of ASCII letters.
-/

namespace BtDht

/-- `SQLITE_OK` -/
def sqliteOk : Int := 0

namespace MySqliteTokenizers

open Fts5

/-! ## the scanner -/

/-- What `findFirstUtf8Char` returns and what it leaves in its out-parameters. -/
structure Found where
  result : Bool
  findFirstCharSize : Nat
  errorMsg : Option String
  deriving DecidableEq, Repr

/-- The number of bytes a first byte announces. -/
def charSize (firstByte : UInt8) : Option Nat :=
  if firstByte &&& 0x80 = 0 then some 1
  else if firstByte &&& 0xE0 = 0xC0 then some 2
  else if firstByte &&& 0xF0 = 0xE0 then some 3
  else if firstByte &&& 0xF8 = 0xF0 then some 4
  else none

/-- `findFirstUtf8Char`; the pointers it is given are never null. -/
def findFirstUtf8Char (str : Bytes) (offset size findFirstCharSize : Nat) : Found :=
  let fail errorMsg := ⟨false, findFirstCharSize, some errorMsg⟩
  if offset ≥ size then fail "Invalid input parameters."
  else
    let i := offset
    if i ≥ size then fail "Offset is out of bounds."
    else
      match charSize (str.getD i 0) with
      | none => fail "Invalid UTF-8 start byte."
      | some charSize =>
          if i + charSize > size then fail "Not enough bytes to complete the UTF-8 character."
          else if (List.range' 1 (charSize - 1)).any fun j => str.getD (i + j) 0 &&& 0xC0 ≠ 0x80 then
            fail "Invalid UTF-8 continuation byte."
          else ⟨true, charSize, none⟩

theorem charSize_pos {b : UInt8} {n : Nat} (h : charSize b = some n) : 0 < n := by
  grind [charSize]

/-- When a character is found: its first byte announces a number of bytes that
are there, and the others are continuation bytes. -/
theorem findFirstUtf8Char_eq_found_iff {str : Bytes} {offset size n count : Nat}
    {errorMsg : Option String} :
    findFirstUtf8Char str offset size n = ⟨true, count, errorMsg⟩ ↔
      offset < size ∧ charSize (str.getD offset 0) = some count ∧ offset + count ≤ size ∧
        (∀ j ∈ List.range' 1 (count - 1), str.getD (offset + j) 0 &&& 0xC0 = 0x80) ∧
        errorMsg = none := by
  unfold findFirstUtf8Char
  cases hsize : charSize (str.getD offset 0) with
  | none => grind
  | some k => grind

/-- A character that was found has at least one byte, so the tokenizer's loop
advances. -/
theorem findFirstCharSize_pos {str : Bytes} {offset size n count : Nat} {errorMsg : Option String}
    (h : findFirstUtf8Char str offset size n = ⟨true, count, errorMsg⟩) : 0 < count :=
  charSize_pos (findFirstUtf8Char_eq_found_iff.mp h).2.1

/-! ## the tokenizer -/

/-- `xToken`: flags, token and span. -/
abbrev XToken (σ : Type) := Nat → Bytes → Nat → Nat → Process σ Exit Int

/-- The loop of `TokenizeTokenizer`, from `offset` on. -/
def tokenizeFrom {σ : Type} (xToken : XToken σ) (pText : Bytes) (offset : Nat) :
    Process σ Exit Int :=
  if _hlt : offset < pText.length then
    match _hf : findFirstUtf8Char pText offset pText.length 0 with
    | ⟨true, count, _⟩ => do
        let pToken := (pText.drop offset).take count
        let iStart := offset
        let iEnd := offset + count
        if (← xToken 0 pToken iStart iEnd) ≠ sqliteOk then
          throw .xToken
        let c := pToken.headD 0
        if count = 1 ∧ 'a'.toUInt8 ≤ c ∧ c ≤ 'z'.toUInt8 then
          let c := 'A'.toUInt8 + (c - 'a'.toUInt8)
          if (← xToken tokenColocated [c] iStart iEnd) ≠ sqliteOk then
            throw .xTokenColocated
        tokenizeFrom xToken pText (offset + count)
    | ⟨false, _, error⟩ => throw (.tokenizeFindUtf8Char (error.getD "") pText.length offset)
  else
    return sqliteOk
termination_by pText.length - offset
decreasing_by
  have := findFirstCharSize_pos _hf
  omega

/-- `TokenizeTokenizer` -/
def tokenizeTokenizer {σ : Type} (xToken : XToken σ) (pText : Bytes) : Process σ Exit Int :=
  tokenizeFrom xToken pText 0

/-- FTS5's `xToken`: it stores the token and answers `SQLITE_OK`. -/
def store : XToken (List Token) := fun tflags token iStart iEnd => do
  modify (· ++ [⟨tflags, token, iStart, iEnd⟩])
  return sqliteOk

/-- What FTS5 has of a text once it is tokenized, unless that ends the process. -/
def tokens (pText : Bytes) : Except Exit (List Token) :=
  match (tokenizeTokenizer store pText).run [] with
  | .ok _ tokens => .ok tokens
  | .error exit _ => .error exit

/-! ## characters -/

/-- Bytes the scanner takes for a character: the first announces how many they
are and the others are continuation bytes. -/
structure IsCharacter (c : Bytes) : Prop where
  size : charSize (c.headD 0) = some c.length
  continuation : ∀ b ∈ c.tail, b &&& 0xC0 = 0x80

/-- The string begins with a character. -/
def StartsWithCharacter (s : Bytes) : Prop := ∃ c post, IsCharacter c ∧ s = c ++ post

/-- The string is a row of characters. -/
def Scannable (s : Bytes) : Prop := ∃ chars : List Bytes, (∀ c ∈ chars, IsCharacter c) ∧
  s = chars.flatten

theorem IsCharacter.length_pos {c : Bytes} (h : IsCharacter c) : 0 < c.length :=
  charSize_pos h.size

/-- The scanner finds a character where it stands, whatever precedes and
follows it. -/
theorem findFirstUtf8Char_character (pre post : Bytes) {ch : Bytes} (h : IsCharacter ch) (n : Nat) :
    findFirstUtf8Char (pre ++ (ch ++ post)) pre.length (pre ++ (ch ++ post)).length n =
      ⟨true, ch.length, none⟩ := by
  have hpos := h.length_pos
  have hget : ∀ j, j < ch.length →
      (pre ++ (ch ++ post)).getD (pre.length + j) 0 = ch.getD j 0 := by
    intro j hj
    simp [List.getD_eq_getElem?_getD, List.getElem?_append_right, List.getElem?_append_left, hj]
  have hfirst : (pre ++ (ch ++ post)).getD pre.length 0 = ch.headD 0 := by
    have := hget 0 hpos
    simpa [List.headD_eq_head?_getD, List.head?_eq_getElem?, List.getD_eq_getElem?_getD] using this
  have hrest : ∀ j ∈ List.range' 1 (ch.length - 1),
      (pre ++ (ch ++ post)).getD (pre.length + j) 0 &&& 0xC0 = 0x80 := by
    intro j hj
    rw [List.mem_range'_1] at hj
    have hlt : j < ch.length := by omega
    have hmem : ch[j] ∈ ch.tail := by
      have hj' : j - 1 < ch.tail.length := by simp; omega
      have heq : ch.tail[j - 1] = ch[j] := by
        simp [List.getElem_tail, Nat.sub_add_cancel hj.1]
      exact heq ▸ List.getElem_mem hj'
    have hval : (pre ++ (ch ++ post)).getD (pre.length + j) 0 = ch[j] := by
      simpa [hlt, List.getD_eq_getElem?_getD] using hget j hlt
    rw [hval]
    exact h.continuation _ hmem
  rw [findFirstUtf8Char_eq_found_iff, hfirst]
  exact ⟨by simp; omega, h.size, by simp, hrest, rfl⟩

/-- What the scanner finds is a character. -/
theorem isCharacter_of_found {s : Bytes} {offset n count : Nat} {errorMsg : Option String}
    (h : findFirstUtf8Char s offset s.length n = ⟨true, count, errorMsg⟩) :
    IsCharacter ((s.drop offset).take count) := by
  obtain ⟨hlt, hsize, hle, hrest, -⟩ := findFirstUtf8Char_eq_found_iff.mp h
  have hpos := charSize_pos hsize
  have hlen : ((s.drop offset).take count).length = count := by
    simp
    omega
  have hget : ∀ (j : Nat) (hj : j < ((s.drop offset).take count).length),
      ((s.drop offset).take count)[j] = s.getD (offset + j) 0 := by
    intro j hj
    have hj' : offset + j < s.length := by omega
    simp [List.getD_eq_getElem?_getD, hj']
  have hfirst : ((s.drop offset).take count).headD 0 = s.getD offset 0 := by
    have h0 := hget 0 (by omega)
    rw [Nat.add_zero] at h0
    rw [← h0, List.headD_eq_head?_getD, List.head?_eq_getElem?, List.getElem?_eq_getElem,
      Option.getD_some]
  have hcont : ∀ b ∈ ((s.drop offset).take count).tail, b &&& 0xC0 = 0x80 := by
    intro b hb
    obtain ⟨j, hj, rfl⟩ := List.getElem_of_mem hb
    rw [List.length_tail] at hj
    rw [List.getElem_tail, hget (j + 1) (by omega)]
    exact hrest (j + 1) (List.mem_range'_1.mpr (by omega))
  exact ⟨by rw [hfirst, hsize, hlen], hcont⟩

/-! ## the encoder -/

/-- The masks of the first byte as ranges. -/
theorem charSize_eq (b : UInt8) : charSize b =
    if b.toNat < 0x80 then some 1 else if b.toNat < 0xC0 then none
    else if b.toNat < 0xE0 then some 2 else if b.toNat < 0xF0 then some 3
    else if b.toNat < 0xF8 then some 4 else none := by
  have h : ∀ n : Fin 256, charSize (UInt8.ofFin n) =
      if n.val < 0x80 then some 1 else if n.val < 0xC0 then none
      else if n.val < 0xE0 then some 2 else if n.val < 0xF0 then some 3
      else if n.val < 0xF8 then some 4 else none := by decide +kernel
  exact h b.toFin

/-- The mask of a continuation byte as a range. -/
theorem continuation_iff (b : UInt8) : b &&& 0xC0 = 0x80 ↔ 0x80 ≤ b.toNat ∧ b.toNat < 0xC0 := by
  have h : ∀ n : Fin 256, UInt8.ofFin n &&& 0xC0 = 0x80 ↔ 0x80 ≤ n.val ∧ n.val < 0xC0 := by
    decide +kernel
  exact h b.toFin

/-- The encoder writes what the scanner looks for. -/
theorem utf8EncodeChar_eq_cons (c : Char) : ∃ first rest, String.utf8EncodeChar c = first :: rest ∧
    charSize first = some c.utf8Size ∧ ∀ b ∈ rest, b &&& 0xC0 = 0x80 := by
  rw [← String.length_utf8EncodeChar]
  simp only [charSize_eq, continuation_iff]
  fun_cases String.utf8EncodeChar c with
  | case1 v h => exact ⟨_, _, rfl, by simp; omega, by simp⟩
  | case2 v h1 h2 => exact ⟨_, _, rfl, by simp; grind, by simp; grind⟩
  | case3 v h1 h2 h3 => exact ⟨_, _, rfl, by simp; grind, by simp; grind⟩
  | case4 v h1 h2 h3 => exact ⟨_, _, rfl, by simp; grind, by simp; grind⟩

theorem utf8EncodeChar_injective {c d : Char}
    (h : String.utf8EncodeChar c = String.utf8EncodeChar d) : c = d := by
  have hc := ByteArray.utf8DecodeChar?_utf8EncodeChar_append (b := ByteArray.empty) (c := c)
  rw [h, ByteArray.utf8DecodeChar?_utf8EncodeChar_append] at hc
  exact (Option.some.inj hc).symm

/-- The UTF-8 encoding of a text. -/
def encode (text : List Char) : Bytes := text.flatMap String.utf8EncodeChar

theorem encode_eq_flatten (text : List Char) :
    encode text = (text.map String.utf8EncodeChar).flatten :=
  List.flatMap_def

theorem isCharacter_utf8EncodeChar (c : Char) : IsCharacter (String.utf8EncodeChar c) := by
  obtain ⟨first, rest, hc, hsize, hrest⟩ := utf8EncodeChar_eq_cons c
  rw [← String.length_utf8EncodeChar] at hsize
  have hsize' : charSize ((String.utf8EncodeChar c).headD 0) =
      some (String.utf8EncodeChar c).length := by
    rw [← hsize, hc, List.headD_cons]
  have hcont : ∀ b ∈ (String.utf8EncodeChar c).tail, b &&& 0xC0 = 0x80 := by
    rwa [hc, List.tail_cons]
  exact ⟨hsize', hcont⟩

/-! ## lower-case letters -/

theorem le_char_iff {a b : Char} : a ≤ b ↔ a.toNat ≤ b.toNat := by
  rw [Char.le_def, UInt32.le_iff_toNat_le]
  exact Iff.rfl

/-- A fact about the 26 lower-case letters. -/
theorem lower_cases {p : Char → Prop} (h : ∀ n : Fin 26, p (Char.ofNat (97 + n))) {c : Char}
    (ha : 'a' ≤ c) (hz : c ≤ 'z') : p c := by
  rw [le_char_iff] at ha hz
  have ha' : 97 ≤ c.toNat := ha
  have hz' : c.toNat ≤ 122 := hz
  have := h ⟨c.toNat - 97, by omega⟩
  simp only [Nat.add_sub_cancel' ha', Char.ofNat_toNat] at this
  exact this

/-- The tokenizer's test on the byte is the test on the character. -/
theorem lower_byte_iff (c : Char) :
    (c.utf8Size = 1 ∧ 'a'.toUInt8 ≤ (String.utf8EncodeChar c).headD 0 ∧
      (String.utf8EncodeChar c).headD 0 ≤ 'z'.toUInt8) ↔ 'a' ≤ c ∧ c ≤ 'z' := by
  constructor
  · rintro ⟨h1, ha, hz⟩
    rw [String.utf8EncodeChar_eq_singleton h1] at ha hz
    have hle : c.toNat ≤ 127 := UInt32.le_iff_toNat_le.mp (Char.utf8Size_eq_one_iff.mp h1)
    rw [UInt8.le_iff_toNat_le] at ha hz
    rw [le_char_iff, le_char_iff]
    have hc : c.val.toUInt8.toNat = c.toNat := Nat.mod_eq_of_lt (show c.toNat < 256 by omega)
    rw [List.headD_cons, hc] at ha hz
    exact ⟨ha, hz⟩
  · rintro ⟨ha, hz⟩
    exact lower_cases (p := fun c => c.utf8Size = 1 ∧
      'a'.toUInt8 ≤ (String.utf8EncodeChar c).headD 0 ∧
      (String.utf8EncodeChar c).headD 0 ≤ 'z'.toUInt8) (by decide) ha hz

/-- The byte it computes is the upper-case letter. -/
theorem upper_byte {c : Char} (ha : 'a' ≤ c) (hz : c ≤ 'z') :
    ['A'.toUInt8 + ((String.utf8EncodeChar c).headD 0 - 'a'.toUInt8)] =
      String.utf8EncodeChar c.toUpper :=
  lower_cases (p := fun c => ['A'.toUInt8 + ((String.utf8EncodeChar c).headD 0 - 'a'.toUInt8)] =
      String.utf8EncodeChar c.toUpper) (by decide) ha hz

/-! ## the loop on a row of characters -/

/-- The tokens of the character `c` at `offset`. -/
def characterTokens (offset : Nat) (c : Bytes) : List Token :=
  ⟨0, c, offset, offset + c.length⟩ ::
    if c.length = 1 ∧ 'a'.toUInt8 ≤ c.headD 0 ∧ c.headD 0 ≤ 'z'.toUInt8 then
      [⟨tokenColocated, ['A'.toUInt8 + (c.headD 0 - 'a'.toUInt8)], offset, offset + c.length⟩]
    else []

/-- The tokens of characters that start at `offset`. -/
def rowTokens : Nat → List Bytes → List Token
  | _, [] => []
  | offset, c :: chars => characterTokens offset c ++ rowTokens (offset + c.length) chars

/-- One turn of the loop. -/
theorem ensures_tokenizeFrom_character {pre post c : Bytes} (h : IsCharacter c) {ts : List Token}
    {Q : Int → List Token → Prop} {E : Exit → List Token → Prop} :
    Ensures (tokenizeFrom store (pre ++ (c ++ post)) pre.length) ts Q E ↔
      Ensures (tokenizeFrom store (pre ++ (c ++ post)) (pre.length + c.length))
        (ts ++ characterTokens pre.length c) Q E := by
  have hpos := h.length_pos
  have hlt : pre.length < (pre ++ (c ++ post)).length := by
    simp
    omega
  have htoken : ((pre ++ (c ++ post)).drop pre.length).take c.length = c := by
    rw [List.drop_left, List.take_left]
  have hfound := findFirstUtf8Char_character pre post h 0
  rw [tokenizeFrom, dif_pos hlt]
  split
  · next count error hf =>
      rw [hf, Found.mk.injEq] at hfound
      obtain ⟨-, rfl, -⟩ := hfound
      simp only [htoken]
      by_cases hlow : c.length = 1 ∧ 'a'.toUInt8 ≤ c.headD 0 ∧ c.headD 0 ≤ 'z'.toUInt8
      · simp [store, sqliteOk, hlow, characterTokens, -List.headD_eq_head?_getD]
      · simp [store, sqliteOk, hlow, characterTokens, -List.headD_eq_head?_getD]
  · next hf =>
      rw [hf] at hfound
      cases hfound

/-- The turns for a row of characters; by induction on the row. -/
theorem ensures_tokenizeFrom_row {chars : List Bytes} (h : ∀ c ∈ chars, IsCharacter c)
    (pre rest : Bytes) (ts : List Token) {Q : Int → List Token → Prop}
    {E : Exit → List Token → Prop} :
    Ensures (tokenizeFrom store (pre ++ (chars.flatten ++ rest)) pre.length) ts Q E ↔
      Ensures (tokenizeFrom store (pre ++ (chars.flatten ++ rest))
        (pre.length + chars.flatten.length)) (ts ++ rowTokens pre.length chars) Q E := by
  induction chars generalizing pre ts with
  | nil => simp [rowTokens]
  | cons c chars ih =>
      have hc : IsCharacter c := h c List.mem_cons_self
      have hturns := ih (fun c' hc' => h c' (List.mem_cons_of_mem c hc')) (pre ++ c)
        (ts ++ characterTokens pre.length c)
      rw [List.append_assoc pre c, List.length_append] at hturns
      rw [List.flatten_cons, List.append_assoc c, ensures_tokenizeFrom_character hc, hturns,
        List.length_append, Nat.add_assoc, rowTokens, List.append_assoc ts]

/-- On a row of characters the loop runs to its end. -/
theorem run_tokenizeTokenizer {chars : List Bytes} (h : ∀ c ∈ chars, IsCharacter c) :
    (tokenizeTokenizer store chars.flatten).run [] = .ok sqliteOk (rowTokens 0 chars) := by
  have hrun : Ensures (tokenizeFrom store ([] ++ (chars.flatten ++ [])) 0) []
      (fun code ts => code = sqliteOk ∧ ts = rowTokens 0 chars) fun _ _ => False := by
    rw [← List.length_nil, ensures_tokenizeFrom_row h, tokenizeFrom]
    simp
  simp only [List.nil_append, List.append_nil] at hrun
  obtain ⟨code, ts, hok, rfl, rfl⟩ := hrun.returns
  rw [tokenizeTokenizer, hok]

theorem tokens_flatten {chars : List Bytes} (h : ∀ c ∈ chars, IsCharacter c) :
    tokens chars.flatten = .ok (rowTokens 0 chars) := by
  rw [tokens, run_tokenizeTokenizer h]

/-- What stands before the first place where no character does. -/
theorem exists_scan (s : Bytes) : ∃ (chars : List Bytes) (rest : Bytes),
    (∀ c ∈ chars, IsCharacter c) ∧ s = chars.flatten ++ rest ∧ ¬ StartsWithCharacter rest := by
  induction hn : s.length using Nat.strongRecOn generalizing s with
  | ind n ih =>
      by_cases hstart : StartsWithCharacter s
      · obtain ⟨c, post, hc, rfl⟩ := hstart
        have hpos := hc.length_pos
        rw [List.length_append] at hn
        obtain ⟨chars, rest, hchars, rfl, hrest⟩ := ih post.length (by omega) post rfl
        have hall : ∀ c' ∈ c :: chars, IsCharacter c' := by
          simpa using ⟨hc, hchars⟩
        exact ⟨c :: chars, rest, hall, by simp, hrest⟩
      · exact ⟨[], s, by simp, rfl, hstart⟩

/-- The loop ends the process at the first place where no character stands,
unless that is the end of the text. -/
theorem run_tokenizeTokenizer_error {chars : List Bytes} {rest : Bytes}
    (h : ∀ c ∈ chars, IsCharacter c) (hrest : ¬ StartsWithCharacter rest) (hne : rest ≠ []) :
    ∃ error, (tokenizeTokenizer store (chars.flatten ++ rest)).run [] =
      .error (.tokenizeFindUtf8Char error (chars.flatten ++ rest).length chars.flatten.length)
        (rowTokens 0 chars) := by
  have hlt : chars.flatten.length < (chars.flatten ++ rest).length := by
    have := List.length_pos_of_ne_nil hne
    rw [List.length_append]
    omega
  have hend : Ensures (tokenizeFrom store ([] ++ (chars.flatten ++ rest)) 0) []
      (fun _ _ => False) fun exit ts => ts = rowTokens 0 chars ∧
        ∃ error, exit = .tokenizeFindUtf8Char error (chars.flatten ++ rest).length
          chars.flatten.length := by
    rw [← List.length_nil, ensures_tokenizeFrom_row h, tokenizeFrom]
    simp only [List.nil_append, List.length_nil, Nat.zero_add, dif_pos hlt]
    split
    · next count error hf =>
        have hstart : StartsWithCharacter ((chars.flatten ++ rest).drop chars.flatten.length) :=
          ⟨_, _, by simpa using isCharacter_of_found hf, (List.take_append_drop count _).symm⟩
        rw [List.drop_left] at hstart
        exact absurd hstart hrest
    · simp
  obtain ⟨exit, ts, hrun, rfl, error, rfl⟩ := hend.exits
  rw [List.nil_append] at hrun
  exact ⟨error, hrun⟩

theorem tokens_eq_error {chars : List Bytes} {rest : Bytes} (h : ∀ c ∈ chars, IsCharacter c)
    (hrest : ¬ StartsWithCharacter rest) (hne : rest ≠ []) :
    ∃ error, tokens (chars.flatten ++ rest) = .error (.tokenizeFindUtf8Char error
      (chars.flatten ++ rest).length chars.flatten.length) := by
  obtain ⟨error, hrun⟩ := run_tokenizeTokenizer_error h hrest hne
  exact ⟨error, by rw [tokens, hrun]⟩

/-- Exactly the rows of characters can be tokenized. -/
theorem isOk_tokens_iff (s : Bytes) : (tokens s).isOk ↔ Scannable s := by
  constructor
  · intro hok
    obtain ⟨chars, rest, hchars, rfl, hrest⟩ := exists_scan s
    by_cases hne : rest = []
    · exact ⟨chars, hchars, by rw [hne, List.append_nil]⟩
    · obtain ⟨error, herr⟩ := tokens_eq_error hchars hrest hne
      rw [herr] at hok
      cases hok
  · intro hs
    obtain ⟨chars, hchars, rfl⟩ := hs
    rw [tokens_flatten hchars]
    rfl

/-- An encoded text is a row of characters. -/
theorem tokens_encode (text : List Char) :
    tokens (encode text) = .ok (rowTokens 0 (text.map String.utf8EncodeChar)) := by
  have hchars : ∀ c ∈ text.map String.utf8EncodeChar, IsCharacter c := by
    simp [isCharacter_utf8EncodeChar]
  rw [encode_eq_flatten, tokens_flatten hchars]

/-! ## search -/

/-- The terms of a character's position. -/
def charTerms (c : Char) : List Bytes :=
  String.utf8EncodeChar c :: if 'a' ≤ c ∧ c ≤ 'z' then [String.utf8EncodeChar c.toUpper] else []

theorem split_rowTokens (offset : Nat) (text : List Char) :
    split (rowTokens offset (text.map String.utf8EncodeChar)) = ([], text.map charTerms) := by
  induction text generalizing offset with
  | nil => rfl
  | cons c text ih =>
      simp only [List.map_cons, rowTokens, characterTokens, String.length_utf8EncodeChar,
        lower_byte_iff]
      by_cases hlow : 'a' ≤ c ∧ c ≤ 'z'
      · rw [upper_byte hlow.1 hlow.2]
        simp [hlow, split, Token.colocated, tokenColocated, ih, charTerms]
      · simp [hlow, split, Token.colocated, tokenColocated, ih, charTerms]

/-- Positions are characters. -/
theorem positions_rowTokens (offset : Nat) (text : List Char) :
    positions (rowTokens offset (text.map String.utf8EncodeChar)) = text.map charTerms := by
  simp only [positions, split_rowTokens]

theorem toUpper_of_not_lower {c : Char} (h : ¬ ('a' ≤ c ∧ c ≤ 'z')) : c.toUpper = c :=
  dif_neg h

theorem not_lower_toUpper (c : Char) : ¬ ('a' ≤ c.toUpper ∧ c.toUpper ≤ 'z') := by
  by_cases h : 'a' ≤ c ∧ c ≤ 'z'
  · exact lower_cases (p := fun c => ¬ ('a' ≤ c.toUpper ∧ c.toUpper ≤ 'z')) (by decide) h.1 h.2
  · rwa [toUpper_of_not_lower h]

theorem mem_charTerms {c : Char} {term : Bytes} : term ∈ charTerms c ↔
    term = String.utf8EncodeChar c ∨ term = String.utf8EncodeChar c.toUpper := by
  by_cases hlow : 'a' ≤ c ∧ c ≤ 'z'
  · simp [charTerms, hlow]
  · simp [charTerms, hlow, toUpper_of_not_lower hlow]

/-- Two characters share a term exactly when they are equal up to the case of
ASCII letters. -/
theorem share_term_iff (a b : Char) :
    (∃ term, term ∈ charTerms a ∧ term ∈ charTerms b) ↔ a.toUpper = b.toUpper := by
  have hidem : ∀ c : Char, c.toUpper.toUpper = c.toUpper := fun c =>
    toUpper_of_not_lower (not_lower_toUpper c)
  simp only [mem_charTerms]
  constructor
  · rintro ⟨term, rfl | rfl, hb | hb⟩
    · rw [utf8EncodeChar_injective hb]
    · rw [utf8EncodeChar_injective hb, hidem]
    · rw [← utf8EncodeChar_injective hb, hidem]
    · rw [utf8EncodeChar_injective hb]
  · intro h
    exact ⟨String.utf8EncodeChar a.toUpper, .inr rfl, .inr (by rw [h])⟩

/-- **Search is substring search up to the case of ASCII letters.**  The
tokenizer runs to its end on both texts, and the phrase matches the document
exactly when the document has it at some character position. -/
theorem phraseMatches_iff (d q : List Char) : ∃ document phrase,
    tokens (encode d) = .ok document ∧ tokens (encode q) = .ok phrase ∧
    (PhraseMatches phrase document ↔ ∃ i, ∀ j (hj : j < q.length), ∃ hij : i + j < d.length,
      q[j].toUpper = d[i + j].toUpper) :=
  ⟨_, _, tokens_encode d, tokens_encode q,
    matches_map_iff share_term_iff (positions_rowTokens 0 q) (positions_rowTokens 0 d)⟩

end MySqliteTokenizers

end BtDht
