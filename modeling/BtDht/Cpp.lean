import Mathlib.Algebra.Group.Int.Defs
import Mathlib.Algebra.Group.Nat.Defs
import Mathlib.Data.Int.Order.Basic
import Mathlib.Data.List.Basic
import Mathlib.Data.List.TakeWhile

/-!
# BtDht.Cpp

The parts of C++ the program relies on: byte strings, the conversions between
integer types of different width and sign, numbers as text, the steady clock,
and the kinds of undefined behaviour a call can run into.

Conversions are written on unbounded integers with the reduction they perform:
`sizeT`, `int32` and `int64` are the `static_cast`s of a 64-bit target.
-/

namespace BtDht

/-- `std::string`, `std::vector<char>` and `span<char const>`. -/
abbrev Bytes := List UInt8

/-! ## integer conversions -/

/-- `static_cast<std::size_t>` of a signed value. -/
def sizeT (i : Int) : Nat := (i % 2 ^ 64).toNat

/-- `static_cast<std::int32_t>`, also `static_cast<int>`. -/
def int32 (i : Int) : Int := i.bmod (2 ^ 32)

/-- `(int64_t)`. -/
def int64 (i : Int) : Int := i.bmod (2 ^ 64)

/-- A setting that is not negative keeps its value as a `size_t`. -/
theorem sizeT_toInt {n : Int32} (h : 0 ≤ n.toInt) : sizeT n.toInt = n.toInt.toNat := by
  have hlt := n.toInt_lt
  unfold sizeT
  rw [Int.emod_eq_of_lt h (by omega)]

/-- Small values survive the narrowing to `int32_t`. -/
theorem int32_eq_self {i : Int} (h0 : 0 ≤ i) (h : i < 2 ^ 31) : int32 i = i := by
  unfold int32
  rw [Int.bmod_def]
  split <;> omega

/-- Small values survive the cast to `int64_t`. -/
theorem int64_eq_self {i : Int} (h0 : 0 ≤ i) (h : i < 2 ^ 63) : int64 i = i := by
  unfold int64
  rw [Int.bmod_def]
  split <;> omega

/-! ## characters -/

/-- `std::to_chars` of a value that is not negative: its digits without
leading zeros, the letters in lower case. -/
def toChars (value base : Nat) : Bytes :=
  (Nat.toDigits base value).map fun c => c.toNat.toUInt8

/-- `std::from_chars` into a `size_t`, base ten: whether it succeeds and what
the value is then.  It takes the digits the text begins with; a text without
any, and a number that does not fit, leave the value as it was. -/
def fromChars (s : Bytes) (value : Nat) : Bool × Nat :=
  let digits := s.takeWhile fun c => 48 ≤ c ∧ c ≤ 57
  let n := digits.foldl (fun n c => 10 * n + (c.toNat - 48)) 0
  if digits = [] ∨ n ≥ 2 ^ 64 then (false, value) else (true, n)

theorem toNat_of_mem_toDigits {n : Nat} {d : Char} (h : d ∈ Nat.toDigits 10 n) :
    48 ≤ d.toNat ∧ d.toNat ≤ 57 :=
  Char.isDigit_iff_toNat.mp (Nat.isDigit_of_mem_toDigits (by omega) (by omega) h)

/-- Every character of a number fits a byte. -/
theorem toNat_toUInt8_of_mem_toDigits {n : Nat} {d : Char} (h : d ∈ Nat.toDigits 10 n) :
    d.toNat.toUInt8.toNat = d.toNat := by
  obtain ⟨-, hle⟩ := toNat_of_mem_toDigits h
  have hlt : d.toNat < UInt8.size := by
    show d.toNat < 256
    omega
  exact UInt8.toNat_ofNat_of_lt' hlt

/-- A number is written with the digits `0`-`9` alone. -/
theorem digit_of_mem_toChars {n : Nat} {c : UInt8} (h : c ∈ toChars n 10) : 48 ≤ c ∧ c ≤ 57 := by
  obtain ⟨d, hd, rfl⟩ := List.mem_map.mp h
  rw [UInt8.le_iff_toNat_le, UInt8.le_iff_toNat_le, toNat_toUInt8_of_mem_toDigits hd]
  exact toNat_of_mem_toDigits hd

theorem notMem_toChars {c : UInt8} (n : Nat) (h : ¬ (48 ≤ c ∧ c ≤ 57)) : c ∉ toChars n 10 :=
  fun hc => h (digit_of_mem_toChars hc)

/-- Its digits give the number back. -/
theorem foldl_toChars (n : Nat) :
    (toChars n 10).foldl (fun n c => 10 * n + (c.toNat - 48)) 0 = n := by
  have hdigits : (Nat.toDigits 10 n).foldl (fun n d => 10 * n + (d.toNat.toUInt8.toNat - 48)) 0 =
      Nat.ofDigitChars 10 (Nat.toDigits 10 n) 0 := by
    apply List.foldl_ext
    intro m d hd
    rw [toNat_toUInt8_of_mem_toDigits hd]
    rfl
  rw [toChars, List.foldl_map, hdigits, Nat.ofDigitChars_ten_toDigits]

/-- `from_chars` reads what `to_chars` has written, if it fits. -/
theorem fromChars_toChars {n : Nat} (h : n < 2 ^ 64) (value : Nat) :
    fromChars (toChars n 10) value = (true, n) := by
  have hall : (toChars n 10).takeWhile (fun c => 48 ≤ c ∧ c ≤ 57) = toChars n 10 :=
    List.takeWhile_eq_self_iff.mpr fun c hc => decide_eq_true (digit_of_mem_toChars hc)
  have hne : toChars n 10 ≠ [] := by simp [toChars]
  have hfits : ¬ (toChars n 10 = [] ∨ n ≥ 2 ^ 64) := by
    rw [not_or]
    exact ⟨hne, by omega⟩
  rw [fromChars]
  simp only [hall, foldl_toChars, if_neg hfits]

theorem toChars_injective : Function.Injective fun n => toChars n 10 := by
  intro n m h
  rw [← foldl_toChars n, ← foldl_toChars m]
  exact congrArg _ h

/-- `::toupper` in the `"C"` locale. -/
def toupper (c : UInt8) : UInt8 :=
  if 97 ≤ c ∧ c ≤ 122 then c - 32 else c

/-! ## the clock -/

/-- `clock_type::time_point`: nanoseconds on the steady clock. -/
abbrev TimePoint := Int

/-- `std::chrono::minutes(n)`, in nanoseconds. -/
def minutes (n : Int) : Int := n * (60 * 1000000000)

/-- `std::chrono::hours(n)`, in nanoseconds. -/
def hours (n : Int) : Int := minutes (n * 60)

/-! ## undefined behaviour -/

/-- What a call can do that C++ gives no meaning to. -/
inductive UndefinedBehavior
  /-- writing through a reference whose element has been erased -/
  | danglingReference
  /-- `erase(begin())` of an empty container -/
  | eraseEnd
  deriving DecidableEq, Repr

end BtDht
