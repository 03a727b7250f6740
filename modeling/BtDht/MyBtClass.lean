import BtDht.Cpp
import Mathlib.Data.List.Basic

/-!
# BtDht.MyBtClass

`BtMy::BtFunc::GetHash16String`, which writes bytes as upper-case hexadecimal,
two characters a byte.  Reading the characters back (`ofHash16String`) gives
the bytes, so the string names the bytes it was made from.
-/

namespace BtDht.BtFunc

/-! ## writing -/

/-- What the loop has in `addressStr` when it appends it: `to_chars` leaves
out a leading zero, which is then put back. -/
def addressStr (i : UInt8) : Bytes :=
  let chars := toChars i.toNat 16
  if chars.length = 1 then 48 :: chars else chars

/-- `GetHash16String`, with what `out` holds at the end.  What it held before
is kept as it is. -/
def getHash16String (s out : Bytes) : Bytes :=
  let index := out.length
  let out := s.foldl (fun out i => out ++ addressStr i) out
  out.take index ++ (out.drop index).map toupper

/-- The two characters a byte ends up as. -/
def hexChars (i : UInt8) : Bytes := (addressStr i).map toupper

theorem getHash16String_eq (s out : Bytes) : getHash16String s out = out ++ s.flatMap hexChars := by
  have hloop : s.foldl (fun out i => out ++ addressStr i) out = out ++ s.flatMap addressStr :=
    List.foldl_append_eq_append
  simp only [getHash16String, hloop, List.take_left, List.drop_left, List.map_flatMap]
  rfl

/-! ## reading -/

/-- The value of an upper-case hexadecimal digit. -/
def digitValue (c : UInt8) : UInt8 := if c < 65 then c - 48 else c - 55

/-- The bytes that upper-case hexadecimal characters stand for. -/
def ofHash16String : Bytes → Bytes
  | hi :: lo :: rest => (16 * digitValue hi + digitValue lo) :: ofHash16String rest
  | _ => []

/-- The digits `0`-`9` and `A`-`F`. -/
def upperDigits : Bytes := [48, 49, 50, 51, 52, 53, 54, 55, 56, 57, 65, 66, 67, 68, 69, 70]

/-- The digit of a value below 16. -/
def upperDigit (n : Nat) : UInt8 := upperDigits.getD n 0

theorem upperDigit_spec {n : Nat} (h : n < 16) :
    upperDigit n ∈ upperDigits ∧ (digitValue (upperDigit n)).toNat = n := by
  have hall : ∀ n : Fin 16, upperDigits.contains (upperDigit n) ∧
      (digitValue (upperDigit n)).toNat = n := by
    decide
  obtain ⟨hmem, hval⟩ := hall ⟨n, h⟩
  exact ⟨by simpa using hmem, hval⟩

/-- Every byte becomes two digits; in particular `to_chars` never needs more
room than `addressStr` has. -/
theorem hexChars_eq (i : UInt8) :
    hexChars i = [upperDigit (i.toNat / 16), upperDigit (i.toNat % 16)] := by
  have hall : ∀ n : Fin 256, hexChars (.ofFin n) =
      [upperDigit (n.val / 16), upperDigit (n.val % 16)] := by
    decide +kernel
  have hi := hall i.toFin
  rwa [UInt8.ofFin_toFin] at hi

/-- The two digits stand for the byte. -/
theorem hexChars_spec (i : UInt8) :
    ∃ hi lo, hexChars i = [hi, lo] ∧ 16 * digitValue hi + digitValue lo = i := by
  have hlt := i.toNat_lt
  have hhi := (upperDigit_spec (show i.toNat / 16 < 16 by omega)).2
  have hlo := (upperDigit_spec (show i.toNat % 16 < 16 by omega)).2
  refine ⟨_, _, hexChars_eq i, UInt8.toNat_inj.mp ?_⟩
  rw [UInt8.toNat_add, UInt8.toNat_mul, hhi, hlo]
  show (16 * (i.toNat / 16) % 256 + i.toNat % 16) % 256 = i.toNat
  omega

/-- The bytes can be read back. -/
theorem ofHash16String_getHash16String (s : Bytes) : ofHash16String (getHash16String s []) = s := by
  rw [getHash16String_eq, List.nil_append]
  induction s with
  | nil => rfl
  | cons i s ih =>
      obtain ⟨hi, lo, heq, hval⟩ := hexChars_spec i
      rw [List.flatMap_cons, heq]
      show _ :: ofHash16String (s.flatMap hexChars) = i :: s
      rw [ih, hval]

/-- Different bytes have different strings. -/
theorem getHash16String_injective : Function.Injective fun s => getHash16String s [] :=
  Function.LeftInverse.injective ofHash16String_getHash16String

example : getHash16String [0, 10, 255] [104] = [104, 48, 48, 48, 65, 70, 70] := by decide

/-! ## the codec -/

theorem mem_upperDigits_of_mem_hexChars {i c : UInt8} (h : c ∈ hexChars i) : c ∈ upperDigits := by
  have hlt := i.toNat_lt
  rw [hexChars_eq, List.mem_pair] at h
  cases h with
  | inl h =>
      rw [h]
      exact (upperDigit_spec (by omega)).1
  | inr h =>
      rw [h]
      exact (upperDigit_spec (by omega)).1

/-- Two digits are what the byte they stand for is written as. -/
theorem hexChars_digitValue {hi lo : UInt8} (h : hi ∈ upperDigits) (h' : lo ∈ upperDigits) :
    hexChars (16 * digitValue hi + digitValue lo) = [hi, lo] := by
  have hall : upperDigits.all fun c => (digitValue c).toNat < 16 ∧
      upperDigit (digitValue c).toNat = c := by
    decide
  obtain ⟨hlt, hhi⟩ := of_decide_eq_true (List.all_eq_true.mp hall hi h)
  obtain ⟨hlt', hlo⟩ := of_decide_eq_true (List.all_eq_true.mp hall lo h')
  have hbyte : (16 * digitValue hi + digitValue lo).toNat =
      16 * (digitValue hi).toNat + (digitValue lo).toNat := by
    rw [UInt8.toNat_add, UInt8.toNat_mul]
    show (16 * (digitValue hi).toNat % 256 + (digitValue lo).toNat) % 256 = _
    omega
  have hdiv : (16 * (digitValue hi).toNat + (digitValue lo).toNat) / 16 = (digitValue hi).toNat := by
    omega
  have hmod : (16 * (digitValue hi).toNat + (digitValue lo).toNat) % 16 = (digitValue lo).toNat := by
    omega
  rw [hexChars_eq, hbyte, hdiv, hmod, hhi, hlo]

theorem length_flatMap_hexChars (s : Bytes) : (s.flatMap hexChars).length = 2 * s.length := by
  induction s with
  | nil => simp
  | cons i s ih =>
      obtain ⟨hi, lo, heq, -⟩ := hexChars_spec i
      rw [List.flatMap_cons, heq, List.length_append, ih, List.length_cons, List.length_cons]
      simp only [List.length_cons, List.length_nil]
      omega

/-- Digits two by two are written back as they were read. -/
theorem flatMap_hexChars_ofHash16String {u : Bytes} (hlen : u.length % 2 = 0)
    (hu : ∀ c ∈ u, c ∈ upperDigits) : (ofHash16String u).flatMap hexChars = u := by
  induction u using ofHash16String.induct with
  | case1 hi lo rest ih =>
      have hrest := ih (by simp only [List.length_cons] at hlen; omega)
        fun c hc => hu c (by simp [hc])
      rw [ofHash16String, List.flatMap_cons, hexChars_digitValue (hu hi (by simp)) (hu lo (by simp)),
        hrest]
      simp
  | case2 u hshort =>
      match u, hlen with
      | [], _ => simp [ofHash16String]
      | hi :: lo :: rest, _ => exact absurd rfl (hshort hi lo rest)

/-- **The key is a lossless codec.**  What `out` holds is kept and two digits
are appended for each byte, whatever it holds.  Reading the digits back gives
the bytes, and writing what an even number of digits stands for gives the
digits.  So bytes have the same key only if they are the same, and the key of
bytes put together is their keys put together. -/
theorem getHash16String_codec :
    (∀ s out, getHash16String s out = out ++ getHash16String s []) ∧
    (∀ s, (getHash16String s []).length = 2 * s.length ∧
      (∀ c ∈ getHash16String s [], c ∈ upperDigits) ∧ ofHash16String (getHash16String s []) = s) ∧
    (∀ u : Bytes, u.length % 2 = 0 → (∀ c ∈ u, c ∈ upperDigits) →
      getHash16String (ofHash16String u) [] = u) ∧
    (∀ s t, getHash16String s [] = getHash16String t [] ↔ s = t) ∧
    ∀ s t out, getHash16String (s ++ t) out = getHash16String s out ++ getHash16String t [] := by
  refine ⟨fun s out => ?_, fun s => ⟨?_, fun c hc => ?_, ofHash16String_getHash16String s⟩,
    fun u hlen hu => ?_, fun s t => getHash16String_injective.eq_iff, fun s t out => ?_⟩
  · rw [getHash16String_eq, getHash16String_eq, List.nil_append]
  · rw [getHash16String_eq, List.nil_append, length_flatMap_hexChars]
  · rw [getHash16String_eq, List.nil_append] at hc
    obtain ⟨i, -, hi⟩ := List.mem_flatMap.mp hc
    exact mem_upperDigits_of_mem_hexChars hi
  · rw [getHash16String_eq, List.nil_append, flatMap_hexChars_ofHash16String hlen hu]
  · simp only [getHash16String_eq, List.nil_append, List.flatMap_append, List.append_assoc]

end BtDht.BtFunc
