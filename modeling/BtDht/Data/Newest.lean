import Mathlib.Data.List.Induction
import Mathlib.Data.List.Nodup
import Mathlib.Order.Lattice

/-!
# BtDht.Data.Newest

A cell that keeps the newest record it is given: a record is taken only if its
key is larger than that of the record in the cell.

`content` replays the records given so far.  It is one of them and none has a
larger key (`newest_of_content`); so when keys tell the records apart, the
order in which they came does not matter (`content_perm`).
-/

namespace BtDht.Newest

universe u v

variable {ρ : Type u} {κ : Type v} [LinearOrder κ] (key : ρ → κ)

/-- The cell after one more record. -/
def write (c : Option ρ) (r : ρ) : Option ρ :=
  match c with
  | none => some r
  | some r₀ => if key r ≤ key r₀ then some r₀ else some r

/-- The cell after the records `l`, first one first. -/
def content (l : List ρ) : Option ρ := l.foldl (write key) none

theorem content_snoc (l : List ρ) (r : ρ) :
    content key (l ++ [r]) = write key (content key l) r := by
  simp [content]

variable {key} {l l' : List ρ} {r r' : ρ}

theorem isSome_write (c : Option ρ) (r : ρ) : (write key c r).isSome := by
  cases c with
  | none => rfl
  | some r₀ =>
      show (if key r ≤ key r₀ then some r₀ else some r).isSome
      split <;> rfl

/-- The cell is empty as long as it has been given nothing. -/
theorem content_eq_none_iff : content key l = none ↔ l = [] := by
  cases l using List.reverseRecOn with
  | nil => exact iff_of_true rfl rfl
  | append_singleton l r =>
      have hsome : (write key (content key l) r).isSome := isSome_write _ r
      rw [content_snoc]
      exact iff_of_false (fun h => by simp [h] at hsome) (by simp)

/-- What the cell holds was given to it, and nothing newer was. -/
theorem newest_of_content (h : content key l = some r) : r ∈ l ∧ ∀ r' ∈ l, key r' ≤ key r := by
  induction l using List.reverseRecOn generalizing r with
  | nil => cases h
  | append_singleton l r₁ ih =>
      rw [content_snoc] at h
      cases hc : content key l with
      | none =>
          rw [hc] at h
          obtain rfl : r₁ = r := Option.some.inj h
          simp [content_eq_none_iff.mp hc]
      | some r₀ =>
          obtain ⟨hmem, hmax⟩ := ih hc
          rw [hc] at h
          simp only [write] at h
          split at h
          · next hle =>
              obtain rfl := Option.some.inj h
              exact ⟨by simp [hmem], by simpa [or_imp, forall_and, hle] using hmax⟩
          · next hlt =>
              obtain rfl := Option.some.inj h
              have hmax' : ∀ r' ∈ l, key r' ≤ key r₁ :=
                fun r' hr' => le_trans (hmax r' hr') (le_of_not_ge hlt)
              exact ⟨by simp, by simpa [or_imp, forall_and] using hmax'⟩

/-- Among records with different keys, the cell holds the one with the largest. -/
theorem content_eq_some_iff (hd : (l.map key).Nodup) :
    content key l = some r ↔ r ∈ l ∧ ∀ r' ∈ l, key r' ≤ key r := by
  constructor
  · exact newest_of_content
  · intro h
    cases hc : content key l with
    | none =>
        rw [content_eq_none_iff.mp hc] at h
        cases h.1
    | some r₀ =>
        obtain ⟨hmem, hmax⟩ := newest_of_content hc
        have hkey : key r₀ = key r := le_antisymm (h.2 r₀ hmem) (hmax r h.1)
        rw [List.inj_on_of_nodup_map hd hmem h.1 hkey]

/-- The order in which the records came does not matter. -/
theorem content_perm (hd : (l.map key).Nodup) (hp : l.Perm l') : content key l = content key l' := by
  have hd' : (l'.map key).Nodup := (hp.map key).nodup_iff.mp hd
  apply Option.ext
  intro r
  rw [content_eq_some_iff hd, content_eq_some_iff hd']
  simp only [hp.mem_iff]

/-- The key in the cell never decreases. -/
theorem key_le_of_content_append (h : content key l = some r)
    (h' : content key (l ++ l') = some r') : key r ≤ key r' :=
  (newest_of_content h').2 r (List.mem_append_left l' (newest_of_content h).1)

end BtDht.Newest
