import Mathlib.Data.List.Infix

/-!
# BtDht.Data.Paging

Reading in pages a list that grows at its front.  Each page is cut from the list
as it is by then, so what has been added in the meantime pushes the rest down.
A reader may meet an element twice, but none that stays within the pages is
skipped (`mem_some_page`).
-/

namespace BtDht.Paging

variable {α : Type*} {c n k : Nat}

/-- What moves down a list, and is within the first `n` pages when the last one
is read, is in the page that is read at some moment. -/
theorem exists_page {j : Nat → Nat} (hmono : ∀ i, i + 1 < n → j i ≤ j (i + 1))
    (hlast : k + j (n - 1) < c * n) : ∃ i < n, c * i ≤ k + j i ∧ k + j i < c * i + c := by
  induction n with
  | zero => omega
  | succ m ih =>
      rw [Nat.add_sub_cancel, Nat.mul_add, Nat.mul_one] at hlast
      by_cases hin : c * m ≤ k + j m
      · exact ⟨m, by omega, hin, hlast⟩
      · have hm : m ≠ 0 := by
          intro hzero
          simp [hzero] at hin
        have hprev := hmono (m - 1) (by omega)
        rw [Nat.sub_add_cancel (by omega)] at hprev
        obtain ⟨i, hi, hpage⟩ := ih (fun i hi => hmono i (by omega)) (by omega)
        exact ⟨i, by omega, hpage⟩

/-- The elements of a list that has grown at its front are where the growth has
pushed them. -/
theorem getElem?_of_suffix {l l' : List α} (h : l <:+ l') (k : Nat) :
    l'[k + (l'.length - l.length)]? = l[k]? := by
  obtain ⟨new, rfl⟩ := h
  rw [List.length_append, Nat.add_sub_cancel, List.getElem?_append_right (by omega),
    Nat.add_sub_cancel]

/-- Nothing is skipped. -/
theorem mem_some_page {l : Nat → List α} (hgrows : ∀ i, i + 1 < n → l i <:+ l (i + 1)) {x : α}
    (hx : (l 0)[k]? = some x) (hlast : k + ((l (n - 1)).length - (l 0).length) < c * n) :
    ∃ i < n, x ∈ ((l i).drop (c * i)).take c := by
  have hsuffix : ∀ i, i < n → l 0 <:+ l i := by
    intro i
    induction i with
    | zero => exact fun _ => List.suffix_rfl
    | succ i ih => exact fun hi => (ih (by omega)).trans (hgrows i hi)
  obtain ⟨i, hi, hlow, hhigh⟩ := exists_page (k := k) (j := fun i => (l i).length - (l 0).length)
    (fun i hi => by
      have hle := (hgrows i hi).length_le
      omega) hlast
  refine ⟨i, hi, List.mem_of_getElem? (i := k + ((l i).length - (l 0).length) - c * i) ?_⟩
  rw [List.getElem?_take_of_lt (by omega), List.getElem?_drop, Nat.add_sub_cancel' hlow,
    getElem?_of_suffix (hsuffix i hi), hx]

end BtDht.Paging
