import BtDht.Data.Lists
import Mathlib.Data.List.TakeDrop

/-!
# BtDht.Data.Lease

A cell whose content is leased: some events write a record into it, and other
events sweep it, which drops the record when it has become too old.  A soft
state such as a cache entry with a time to live is a family of such cells.

`content` replays a history; `content_eq_some_iff` says what the replay
computes without replaying it: the last write, unless a later sweep dropped it.
`StayBegan` marks the event at which the record came into the cell and has not
left it since.
-/

namespace BtDht

universe u v

/-- What each event writes into the cell, and which records it sweeps out. -/
structure Lease (ε : Type u) (ρ : Type v) where
  write : ε → Option ρ
  sweeps : ε → ρ → Bool

namespace Lease

variable {ε : Type u} {ρ : Type v} (L : Lease ε ρ)

/-- The cell after one event. -/
def step (c : Option ρ) (e : ε) : Option ρ :=
  match L.write e with
  | some r => some r
  | none => c.filter fun r => !L.sweeps e r

/-- The cell after a history, oldest event first. -/
def content (h : List ε) : Option ρ := h.foldl L.step none

@[simp] theorem content_nil : L.content [] = none := rfl

theorem content_snoc (h : List ε) (e : ε) : L.content (h ++ [e]) = L.step (L.content h) e := by
  simp [content]

theorem content_snoc_of_write {e : ε} {r : ρ} (hw : L.write e = some r) (h : List ε) :
    L.content (h ++ [e]) = some r := by
  rw [content_snoc, step, hw]

theorem content_snoc_of_not_write {e : ε} (hw : L.write e = none) (h : List ε) :
    L.content (h ++ [e]) = (L.content h).filter fun r => !L.sweeps e r := by
  rw [content_snoc, step, hw]

/-- The cell holds the last record written, and holds it as long as no later
event sweeps it out. -/
theorem content_eq_some_iff {h : List ε} {r : ρ} :
    L.content h = some r ↔
      ∃ pre e post, h = pre ++ e :: post ∧ L.write e = some r ∧
        ∀ e' ∈ post, L.write e' = none ∧ L.sweeps e' r = false := by
  induction h using List.reverseRecOn with
  | nil => simp
  | append_singleton h e ih =>
      cases hw : L.write e with
      | some r' =>
          rw [L.content_snoc_of_write hw]
          constructor
          · intro heq
            exact ⟨h, e, [], rfl, by rw [hw, heq], by simp⟩
          · rintro ⟨pre, e', post, hh, hwe, hpost⟩
            rcases append_singleton_eq_append_cons.mp hh with ⟨-, rfl, -⟩ | ⟨post', rfl, -⟩
            · rw [← hw, hwe]
            · -- a write at the end contradicts that nothing was written later
              have hlast := (hpost e (by simp)).1
              rw [hw] at hlast
              contradiction
      | none =>
          rw [L.content_snoc_of_not_write hw, Option.filter_eq_some_iff, ih]
          constructor
          · rintro ⟨⟨pre, e', post, rfl, hwe, hpost⟩, hsw⟩
            refine ⟨pre, e', post ++ [e], by simp, hwe, ?_⟩
            intro x hx
            rcases List.mem_append.mp hx with hx' | hx'
            · exact hpost x hx'
            · rw [List.mem_singleton.mp hx']
              exact ⟨hw, by simpa using hsw⟩
          · rintro ⟨pre, e', post, hh, hwe, hpost⟩
            rcases append_singleton_eq_append_cons.mp hh with ⟨-, rfl, -⟩ | ⟨post', rfl, rfl⟩
            · rw [hw] at hwe
              contradiction
            · refine ⟨⟨pre, e', post', rfl, hwe, fun x hx => hpost x (by simp [hx])⟩, ?_⟩
              simpa using (hpost e (by simp)).2

/-! ## stays -/

/-- The cell is empty before the `i`-th event and occupied from there to the
end: the current stay of its record began with that event. -/
def StayBegan (h : List ε) (i : Nat) : Prop :=
  i < h.length ∧ L.content (h.take i) = none ∧
    ∀ j, i < j → j ≤ h.length → (L.content (h.take j)).isSome

variable {L}

/-- An event that leaves the cell occupied does not begin a new stay when the
cell was occupied before. -/
theorem stayBegan_snoc_of_isSome {h : List ε} {e : ε} (hb : (L.content h).isSome)
    (ha : (L.content (h ++ [e])).isSome) (i : Nat) :
    L.StayBegan (h ++ [e]) i ↔ L.StayBegan h i := by
  have htake : ∀ j, j ≤ h.length → (h ++ [e]).take j = h.take j := by
    intro j hj
    rw [List.take_append_of_le_length hj]
  have hfull : (h ++ [e]).take (h.length + 1) = h ++ [e] := List.take_of_length_le (by simp)
  constructor
  · rintro ⟨hi, hnone, hsome⟩
    rw [List.length_append, List.length_singleton] at hi hsome
    have hlt : i < h.length := by
      by_contra hge
      have hih : i = h.length := by omega
      rw [hih, htake _ (Nat.le_refl _), List.take_length] at hnone
      rw [hnone] at hb
      contradiction
    refine ⟨hlt, by rwa [htake i (by omega)] at hnone, fun j hij hj => ?_⟩
    have hj' := hsome j hij (by omega)
    rwa [htake j hj] at hj'
  · rintro ⟨hi, hnone, hsome⟩
    refine ⟨by simp; omega, by rwa [htake i (by omega)], fun j hij hj => ?_⟩
    rw [List.length_append, List.length_singleton] at hj
    rcases Nat.lt_or_ge h.length j with hlt | hle
    · have hj1 : j = h.length + 1 := by omega
      rwa [hj1, hfull]
    · rw [htake j hle]
      exact hsome j hij hle

/-- An event that fills an empty cell begins the stay. -/
theorem stayBegan_snoc_of_none {h : List ε} {e : ε} (hb : L.content h = none)
    (ha : (L.content (h ++ [e])).isSome) (i : Nat) :
    L.StayBegan (h ++ [e]) i ↔ i = h.length := by
  have hlen : (h ++ [e]).take h.length = h := by simp
  constructor
  · rintro ⟨hi, -, hsome⟩
    rw [List.length_append, List.length_singleton] at hi hsome
    by_contra hne
    have hj := hsome h.length (by omega) (by omega)
    rw [hlen, hb] at hj
    contradiction
  · rintro rfl
    refine ⟨by simp, by rw [hlen, hb], fun j hij hj => ?_⟩
    rw [List.length_append, List.length_singleton] at hj
    have hj1 : j = h.length + 1 := by omega
    rwa [hj1, List.take_of_length_le (by simp)]

/-- An occupied cell has a current stay. -/
theorem exists_stayBegan {h : List ε} (hs : (L.content h).isSome) : ∃ i, L.StayBegan h i := by
  induction h using List.reverseRecOn with
  | nil => simp at hs
  | append_singleton h e ih =>
      cases hb : L.content h with
      | none => exact ⟨h.length, (stayBegan_snoc_of_none hb hs h.length).mpr rfl⟩
      | some r =>
          have hb' : (L.content h).isSome := by rw [hb]; rfl
          obtain ⟨i, hi⟩ := ih hb'
          exact ⟨i, (stayBegan_snoc_of_isSome hb' hs i).mpr hi⟩

/-- The event that begins a stay is a write. -/
theorem StayBegan.write {h : List ε} {i : Nat} (hs : L.StayBegan h i) :
    ∃ e, h[i]? = some e ∧ (L.write e).isSome := by
  obtain ⟨hi, hnone, hsome⟩ := hs
  refine ⟨h[i], List.getElem?_eq_getElem hi, ?_⟩
  have hnext := hsome (i + 1) (by omega) (by omega)
  rw [← List.take_concat_get' h i hi, content_snoc, step, hnone] at hnext
  cases hw : L.write h[i] with
  | none => simp [hw] at hnext
  | some r => rfl

end Lease

end BtDht
