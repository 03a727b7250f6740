import Mathlib.Data.List.Induction

/-!
# BtDht.Data.Utf8

Byte sequences in the pattern of UTF-8: a first byte that announces how many
bytes follow, and these bytes, of the form `10xxxxxx`.  Every such sequence
stands for a number (`number`), but not every one is the encoding of a
character: the number may have a shorter form, or be no Unicode scalar value.

`exists_utf8EncodeChar_iff` says that nothing else can go wrong.
-/

namespace BtDht.Utf8

/-! ## numbers -/

/-- What a first byte announces: how many bytes follow, and the bits it has
itself. -/
def lead (b : UInt8) : Option (Nat × Nat) :=
  if b.toNat < 0x80 then some (0, b.toNat)
  else if b.toNat < 0xC0 then none
  else if b.toNat < 0xE0 then some (1, b.toNat - 0xC0)
  else if b.toNat < 0xF0 then some (2, b.toNat - 0xE0)
  else if b.toNat < 0xF8 then some (3, b.toNat - 0xF0)
  else none

/-- A byte `10xxxxxx`. -/
def IsTail (b : UInt8) : Prop := 0x80 ≤ b.toNat ∧ b.toNat < 0xC0

instance (b : UInt8) : Decidable (IsTail b) := inferInstanceAs (Decidable (_ ∧ _))

/-- The number after six more bits. -/
def push (v : Nat) (b : UInt8) : Nat := v * 64 + (b.toNat - 0x80)

/-- The number that a sequence in the pattern of UTF-8 stands for. -/
def number : List UInt8 → Option Nat
  | [] => none
  | first :: rest =>
      match lead first with
      | none => none
      | some (n, bits) =>
          if rest.length = n ∧ rest.all (IsTail ·) then some (rest.foldl push bits) else none

theorem number_cons_eq_some {first : UInt8} {rest : List UInt8} {v : Nat} :
    number (first :: rest) = some v ↔ ∃ bits, lead first = some (rest.length, bits) ∧
      (∀ b ∈ rest, IsTail b) ∧ rest.foldl push bits = v := by
  rw [number]
  cases hl : lead first with
  | none => simp
  | some nb =>
      obtain ⟨n, bits⟩ := nb
      grind

theorem lead_injective {a b : UInt8} {n bits : Nat} (ha : lead a = some (n, bits))
    (hb : lead b = some (n, bits)) : a = b := by
  rw [← UInt8.toNat_inj]
  grind [lead]

theorem push_injective {v v' : Nat} {b b' : UInt8} (hb : IsTail b) (hb' : IsTail b')
    (h : push v b = push v' b') : v = v' ∧ b = b' := by
  obtain ⟨hle, hlt⟩ := hb
  obtain ⟨hle', hlt'⟩ := hb'
  unfold push at h
  rw [← UInt8.toNat_inj]
  omega

/-- By induction on the rows of tails from their ends. -/
theorem foldl_push_injective {l l' : List UInt8} {v v' : Nat} (hl : ∀ b ∈ l, IsTail b)
    (hl' : ∀ b ∈ l', IsTail b) (hlen : l.length = l'.length)
    (h : l.foldl push v = l'.foldl push v') : v = v' ∧ l = l' := by
  induction l using List.reverseRecOn generalizing l' with
  | nil =>
      obtain rfl := List.length_eq_zero_iff.mp hlen.symm
      exact ⟨h, rfl⟩
  | append_singleton l b ih =>
      cases l' using List.reverseRecOn with
      | nil => simp at hlen
      | append_singleton l' b' =>
          simp only [List.foldl_append, List.foldl_cons, List.foldl_nil] at h
          obtain ⟨hfold, rfl⟩ := push_injective (hl b (by simp)) (hl' b' (by simp)) h
          obtain ⟨rfl, rfl⟩ := ih (fun b hb => hl b (by simp [hb])) (fun b hb => hl' b (by simp [hb]))
            (by simpa using hlen) hfold
          exact ⟨rfl, rfl⟩

/-- A sequence is given by its length and its number. -/
theorem number_injective {p q : List UInt8} {v : Nat} (hp : number p = some v)
    (hq : number q = some v) (hlen : p.length = q.length) : p = q := by
  cases p with
  | nil => cases hp
  | cons a p =>
      cases q with
      | nil => cases hq
      | cons b q =>
          obtain ⟨bits, ha, hpt, hpv⟩ := number_cons_eq_some.mp hp
          obtain ⟨bits', hb, hqt, hqv⟩ := number_cons_eq_some.mp hq
          have hlen' : p.length = q.length := by simpa using hlen
          obtain ⟨rfl, rfl⟩ := foldl_push_injective hpt hqt hlen' (hpv.trans hqv.symm)
          rw [lead_injective ha hb]

/-! ## encodings -/

/-- How many bytes the shortest form of a number has. -/
def shortest (v : Nat) : Nat :=
  if v < 0x80 then 1 else if v < 0x800 then 2 else if v < 0x10000 then 3 else 4

theorem toNat_ofNat {n : Nat} (h : n < 256) : (UInt8.ofNat n).toNat = n := by
  rw [UInt8.toNat_ofNat', Nat.mod_eq_of_lt h]

theorem isTail_ofNat (n : Nat) : IsTail (UInt8.ofNat (n % 0x40 + 0x80)) := by
  rw [IsTail, toNat_ofNat (by omega)]
  omega

theorem push_ofNat (v n : Nat) : push v (UInt8.ofNat (n % 0x40 + 0x80)) = v * 64 + n % 64 := by
  have hlt : n % 0x40 + 0x80 < 256 := by omega
  unfold push
  rw [toNat_ofNat hlt, Nat.add_sub_cancel]

theorem lead_ofNat (n : Nat) :
    (n < 0x80 → lead (UInt8.ofNat n) = some (0, n)) ∧
    lead (UInt8.ofNat (n % 0x20 + 0xC0)) = some (1, n % 0x20) ∧
    lead (UInt8.ofNat (n % 0x10 + 0xE0)) = some (2, n % 0x10) ∧
    lead (UInt8.ofNat (n % 0x08 + 0xF0)) = some (3, n % 0x08) := by
  refine ⟨fun h => ?_, ?_, ?_, ?_⟩
  · rw [lead, toNat_ofNat (by omega), if_pos h]
  all_goals
    rw [lead, toNat_ofNat (by omega)]
    grind

/-- A character's encoding is as short as it can be. -/
theorem length_utf8EncodeChar (c : Char) : (String.utf8EncodeChar c).length = shortest c.toNat := by
  rw [String.length_utf8EncodeChar]
  unfold Char.utf8Size shortest Char.toNat
  simp only [UInt32.le_iff_toNat_le]
  grind

/-- A character's encoding stands for it. -/
theorem number_utf8EncodeChar (c : Char) : number (String.utf8EncodeChar c) = some c.toNat := by
  have hv : c.val.toNat < 0x110000 := by
    have hvalid := c.valid
    simp only [UInt32.isValidChar, Nat.isValidChar] at hvalid
    omega
  rw [Char.toNat]
  fun_cases String.utf8EncodeChar c with
  | case1 v h => exact number_cons_eq_some.mpr ⟨_, (lead_ofNat v).1 (by omega), by simp, rfl⟩
  | case2 v h1 h2 =>
      refine number_cons_eq_some.mpr ⟨_, (lead_ofNat _).2.1, by grind [isTail_ofNat], ?_⟩
      simp only [List.foldl_cons, List.foldl_nil, push_ofNat]
      omega
  | case3 v h1 h2 h3 =>
      refine number_cons_eq_some.mpr ⟨_, (lead_ofNat _).2.2.1, by grind [isTail_ofNat], ?_⟩
      simp only [List.foldl_cons, List.foldl_nil, push_ofNat]
      omega
  | case4 v h1 h2 h3 =>
      refine number_cons_eq_some.mpr ⟨_, (lead_ofNat _).2.2.2, by grind [isTail_ofNat], ?_⟩
      simp only [List.foldl_cons, List.foldl_nil, push_ofNat]
      omega

/-- The encodings are the sequences that stand for a scalar value in its
shortest form. -/
theorem exists_utf8EncodeChar_iff {p : List UInt8} : (∃ c, String.utf8EncodeChar c = p) ↔
    ∃ v, number p = some v ∧ v.isValidChar ∧ p.length = shortest v := by
  constructor
  · intro h
    obtain ⟨c, rfl⟩ := h
    exact ⟨c.toNat, number_utf8EncodeChar c, c.valid, length_utf8EncodeChar c⟩
  · intro h
    obtain ⟨v, hnumber, hvalid, hlen⟩ := h
    have hv : (Char.ofNatAux v hvalid).toNat = v := rfl
    have hnumber' := number_utf8EncodeChar (Char.ofNatAux v hvalid)
    have hlen' := length_utf8EncodeChar (Char.ofNatAux v hvalid)
    rw [hv] at hnumber' hlen'
    exact ⟨_, number_injective hnumber' hnumber (hlen'.trans hlen.symm)⟩

end BtDht.Utf8
