import BtDht.MySqliteClass.Tokenizers

/-!
# BtDht.MySqliteClass.Tiling

What `TokenizeTokenizer` has handed to `xToken` by the time it stops.  Its
tokens without `FTS5_TOKEN_COLOCATED` lay the text out in consecutive spans up
to the first place where no character stands, and each lower-case letter is
followed by its upper-case one.

The loop makes the tokens of a row of characters (`rowTokens`); what is said
here of that row holds of every run.
-/

namespace BtDht.MySqliteTokenizers

open Fts5

/-! ## tiles -/

/-- The tokens that are not colocated. -/
def plain (ts : List Token) : List Token := ts.filter fun t => !t.colocated

/-- Each span begins where the one before it ended, the first at `offset`. -/
def Consecutive : Nat → List Token → Prop
  | _, [] => True
  | offset, t :: ts => t.iStart = offset ∧ Consecutive t.iEnd ts

/-- A token, and after a letter `a` to `z` the upper-case one in its place. -/
def withUpper (t : Token) : List Token :=
  match t.token with
  | [c] =>
      if 'a'.toUInt8 ≤ c ∧ c ≤ 'z'.toUInt8 then
        [t, ⟨tokenColocated, [toupper c], t.iStart, t.iEnd⟩]
      else [t]
  | _ => [t]

/-- The tokens tile the text from its beginning to `stop`. -/
structure Tiles (s : Bytes) (stop : Nat) (ts : List Token) : Prop where
  consecutive : Consecutive 0 (plain ts)
  size : ∀ t ∈ plain ts, 1 ≤ t.token.length ∧ t.token.length ≤ 4
  span : ∀ t ∈ plain ts, t.iEnd = t.iStart + t.token.length ∧
    t.token = (s.drop t.iStart).take (t.iEnd - t.iStart)
  covers : ((plain ts).map Token.token).flatten = s.take stop
  colocated : ts = (plain ts).flatMap withUpper

/-! ## the tokens of a row of characters -/

theorem IsCharacter.length_le {c : Bytes} (h : IsCharacter c) : c.length ≤ 4 := by
  have hsize := h.size
  rw [charSize_eq] at hsize
  grind

/-- The tokens of a row of characters that are not colocated. -/
def plainTokens : Nat → List Bytes → List Token
  | _, [] => []
  | offset, c :: chars => ⟨0, c, offset, offset + c.length⟩ :: plainTokens (offset + c.length) chars

theorem characterTokens_eq (offset : Nat) (c : Bytes) :
    characterTokens offset c = withUpper ⟨0, c, offset, offset + c.length⟩ := by
  have hupper : ∀ c : UInt8, 'a'.toUInt8 ≤ c ∧ c ≤ 'z'.toUInt8 →
      'A'.toUInt8 + (c - 'a'.toUInt8) = toupper c := by
    intro c hc
    have hlower : 97 ≤ c ∧ c ≤ 122 := hc
    rw [toupper, if_pos hlower]
    show (65 : UInt8) + (c - 97) = c - 32
    grind
  match c with
  | [] => simp [characterTokens, withUpper]
  | [c] =>
      by_cases hc : 'a'.toUInt8 ≤ c ∧ c ≤ 'z'.toUInt8
      · simp [characterTokens, withUpper, hc, hupper c hc]
      · simp [characterTokens, withUpper, hc]
  | c :: c' :: cs => simp [characterTokens, withUpper]

theorem colocated_eq (token : Bytes) (iStart iEnd : Nat) :
    (⟨0, token, iStart, iEnd⟩ : Token).colocated = false ∧
      (⟨tokenColocated, token, iStart, iEnd⟩ : Token).colocated = true := by
  simp [Token.colocated, tokenColocated]

theorem plain_withUpper {t : Token} (h : t.colocated = false) : plain (withUpper t) = [t] := by
  unfold withUpper
  split
  · split
    · simp [plain, h, (colocated_eq _ _ _).2]
    · simp [plain, h]
  · simp [plain, h]

theorem rowTokens_eq (offset : Nat) (chars : List Bytes) :
    rowTokens offset chars = (plainTokens offset chars).flatMap withUpper := by
  induction chars generalizing offset with
  | nil => rfl
  | cons c chars ih => rw [rowTokens, characterTokens_eq, ih, plainTokens, List.flatMap_cons]

theorem plain_append (ts ts' : List Token) : plain (ts ++ ts') = plain ts ++ plain ts' :=
  List.filter_append ts ts'

theorem plain_rowTokens (offset : Nat) (chars : List Bytes) :
    plain (rowTokens offset chars) = plainTokens offset chars := by
  induction chars generalizing offset with
  | nil => rfl
  | cons c chars ih =>
      rw [rowTokens, characterTokens_eq, plain_append, plain_withUpper (colocated_eq _ _ _).1, ih]
      rfl

theorem map_token_plainTokens (offset : Nat) (chars : List Bytes) :
    (plainTokens offset chars).map Token.token = chars := by
  induction chars generalizing offset with
  | nil => rfl
  | cons c chars ih => rw [plainTokens, List.map_cons, ih]

theorem consecutive_plainTokens (offset : Nat) (chars : List Bytes) :
    Consecutive offset (plainTokens offset chars) := by
  induction chars generalizing offset with
  | nil => trivial
  | cons c chars ih => exact ⟨rfl, ih _⟩

/-- Each token is what the text has in its span. -/
theorem span_plainTokens (chars : List Bytes) (pre rest : Bytes) :
    ∀ t ∈ plainTokens pre.length chars, t.iEnd = t.iStart + t.token.length ∧
      t.token = ((pre ++ (chars.flatten ++ rest)).drop t.iStart).take (t.iEnd - t.iStart) := by
  induction chars generalizing pre with
  | nil => simp [plainTokens]
  | cons c chars ih =>
      intro t ht
      rcases List.mem_cons.mp ht with rfl | ht
      · simp
      · rw [← List.length_append] at ht
        have htail := ih (pre ++ c) t ht
        rwa [List.append_assoc, ← List.append_assoc c, ← List.flatten_cons] at htail

/-- The tokens of a row tile the text that the row begins. -/
theorem tiles_rowTokens {chars : List Bytes} (h : ∀ c ∈ chars, IsCharacter c) (rest : Bytes) :
    Tiles (chars.flatten ++ rest) chars.flatten.length (rowTokens 0 chars) where
  consecutive := by
    rw [plain_rowTokens]
    exact consecutive_plainTokens 0 chars
  size := by
    intro t ht
    rw [plain_rowTokens] at ht
    have hc := List.mem_map_of_mem (f := Token.token) ht
    rw [map_token_plainTokens] at hc
    exact ⟨(h _ hc).length_pos, (h _ hc).length_le⟩
  span := by
    rw [plain_rowTokens]
    exact span_plainTokens chars [] rest
  covers := by
    rw [plain_rowTokens, map_token_plainTokens, List.take_left]
  colocated := by
    rw [plain_rowTokens, rowTokens_eq]

/-! ## whole runs -/

/-- The scanner finds nothing where no character stands. -/
theorem result_eq_false {pre rest : Bytes} (h : ¬ StartsWithCharacter rest) (n : Nat) :
    (findFirstUtf8Char (pre ++ rest) pre.length (pre ++ rest).length n).result = false := by
  cases hf : findFirstUtf8Char (pre ++ rest) pre.length (pre ++ rest).length n with
  | mk result count error =>
      cases result with
      | false => rfl
      | true =>
          have hchar := isCharacter_of_found hf
          rw [List.drop_left] at hchar
          exact absurd ⟨_, _, hchar, (List.take_append_drop count rest).symm⟩ h

/-- **The tokenizer tiles its input and stops.**  On every text it comes back
with `SQLITE_OK` and has tiled the whole text, or it ends the process at the
end of what it has tiled, where the scanner finds no character.  On the
encoding of a text it comes back, with one token for each character. -/
theorem tokenizeTokenizer_tiles :
    (∀ s : Bytes,
      (∃ ts, (tokenizeTokenizer store s).run [] = .ok sqliteOk ts ∧ Tiles s s.length ts) ∨
      ∃ error stop ts, (tokenizeTokenizer store s).run [] =
          .error (.tokenizeFindUtf8Char error s.length stop) ts ∧
        Tiles s stop ts ∧ stop < s.length ∧
        ∀ n, (findFirstUtf8Char s stop s.length n).result = false) ∧
    ∀ text : List Char, ∃ ts, (tokenizeTokenizer store (encode text)).run [] = .ok sqliteOk ts ∧
      (plain ts).map Token.token = text.map String.utf8EncodeChar := by
  constructor
  · intro s
    obtain ⟨chars, rest, hchars, rfl, hrest⟩ := exists_scan s
    have htiles := tiles_rowTokens hchars rest
    by_cases hne : rest = []
    · left
      rw [hne, List.append_nil] at htiles ⊢
      exact ⟨_, run_tokenizeTokenizer hchars, htiles⟩
    · right
      obtain ⟨error, hrun⟩ := run_tokenizeTokenizer_error hchars hrest hne
      have hpos := List.length_pos_of_ne_nil hne
      have hlt : chars.flatten.length < (chars.flatten ++ rest).length := by
        rw [List.length_append]
        omega
      exact ⟨error, _, _, hrun, htiles, hlt, result_eq_false hrest⟩
  · intro text
    have hchars : ∀ c ∈ text.map String.utf8EncodeChar, IsCharacter c := by
      simp [isCharacter_utf8EncodeChar]
    have htokens : (plain (rowTokens 0 (text.map String.utf8EncodeChar))).map Token.token =
        text.map String.utf8EncodeChar := by
      rw [plain_rowTokens, map_token_plainTokens]
    exact ⟨_, encode_eq_flatten text ▸ run_tokenizeTokenizer hchars, htokens⟩

end BtDht.MySqliteTokenizers
