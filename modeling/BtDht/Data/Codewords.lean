import Mathlib.Data.List.Infix
import Mathlib.Data.Option.Basic

/-!
# BtDht.Data.Codewords

Codes whose words can be found again in the middle of a text.  A *code* tells
of every letter whether it begins a word and how long that word is then; a word
begins with such a letter and goes on with letters that begin none.

A text made of words is cut in one way only, wherever one starts to read, so
one such text stands inside another exactly where its words do
(`flatten_infix_flatten_iff`).
-/

namespace BtDht.Codewords

universe u

variable {α : Type u} {size : α → Option Nat}

/-- A word of the code `size`: the first letter tells its length, and no other
letter of it begins a word. -/
inductive IsWord (size : α → Option Nat) : List α → Prop
  | mk {a : α} {l : List α} (hsize : size a = some (l.length + 1)) (hrest : ∀ b ∈ l, size b = none) :
      IsWord size (a :: l)

/-- A letter that begins a word stands, in a text of words, where a word
begins. -/
theorem exists_split_flatten {words : List (List α)} (h : ∀ w ∈ words, IsWord size w)
    {pre post : List α} {a : α} (ha : size a ≠ none) (heq : words.flatten = pre ++ a :: post) :
    ∃ words₁ words₂, words = words₁ ++ words₂ ∧ pre = words₁.flatten ∧
      a :: post = words₂.flatten := by
  induction words generalizing pre with
  | nil => simp at heq
  | cons w words ih =>
      have hw := h w List.mem_cons_self
      have hwords : ∀ w' ∈ words, IsWord size w' := fun w' hw' => h w' (List.mem_cons_of_mem w hw')
      rw [List.flatten_cons] at heq
      cases pre with
      | nil => exact ⟨[], w :: words, rfl, rfl, heq.symm⟩
      | cons b pre =>
          cases hw with
          | @mk b' l hsize hrest =>
              have htail : l ++ words.flatten = pre ++ a :: post := (List.cons.inj heq).2
              have hfirst : b' = b := (List.cons.inj heq).1
              -- the letter cannot stand inside the first word
              obtain ⟨rest, hpre, hflat⟩ | ⟨rest, hl, hflat⟩ := List.append_eq_append_iff.mp htail
              · obtain ⟨words₁, words₂, rfl, rfl, hpost⟩ := ih hwords hflat
                exact ⟨(b' :: l) :: words₁, words₂, rfl, by simp [hpre, hfirst], hpost⟩
              · cases rest with
                | nil =>
                    obtain ⟨words₁, words₂, rfl, hnil, hpost⟩ := ih hwords
                      (show words.flatten = [] ++ a :: post from hflat.symm)
                    exact ⟨(b' :: l) :: words₁, words₂, rfl, by simp [hl, hfirst, ← hnil], hpost⟩
                | cons c rest =>
                    obtain ⟨rfl, -⟩ := List.cons.inj hflat
                    exact absurd (hrest a (by simp [hl])) ha

/-- A text of words at the front of another is a row of words at its front. -/
theorem prefix_of_flatten_prefix {words words' : List (List α)} (h : ∀ w ∈ words, IsWord size w)
    (h' : ∀ w ∈ words', IsWord size w) (hp : words.flatten <+: words'.flatten) :
    words <+: words' := by
  induction words generalizing words' with
  | nil => exact List.nil_prefix
  | cons w words ih =>
      obtain ⟨post, heq⟩ := hp
      cases words' with
      | nil =>
          cases h w List.mem_cons_self with
          | mk => simp at heq
      | cons w' words' =>
          rw [List.flatten_cons, List.flatten_cons, List.append_assoc] at heq
          -- words with the same first letter are equally long
          have hlen : w.length = w'.length := by
            cases h w List.mem_cons_self with
            | mk hsize _ =>
                cases h' w' List.mem_cons_self with
                | mk hsize' _ =>
                    rw [List.cons_append, List.cons_append] at heq
                    rw [(List.cons.inj heq).1, hsize'] at hsize
                    simpa using hsize.symm
          obtain ⟨rfl, hrest⟩ := List.append_inj heq hlen
          rw [List.prefix_cons_inj]
          exact ih (fun v hv => h v (List.mem_cons_of_mem w hv))
            (fun v hv => h' v (List.mem_cons_of_mem w hv)) ⟨post, hrest⟩

/-- One text of words stands inside another exactly where its words do. -/
theorem flatten_infix_flatten_iff {words words' : List (List α)} (h : ∀ w ∈ words, IsWord size w)
    (h' : ∀ w ∈ words', IsWord size w) :
    words.flatten <:+: words'.flatten ↔ words <:+: words' := by
  constructor
  · intro hi
    cases words with
    | nil => exact List.nil_infix
    | cons w words =>
        obtain ⟨pre, post, heq⟩ := hi
        have hw := h w List.mem_cons_self
        cases hw with
        | @mk a l hsize _ =>
            have hsome : size a ≠ none := by simp [hsize]
            have hsplit : words'.flatten = pre ++ a :: (l ++ words.flatten ++ post) := by
              simpa using heq.symm
            obtain ⟨words₁, words₂, rfl, rfl, hpost⟩ := exists_split_flatten h' hsome hsplit
            have hp : ((a :: l) :: words).flatten <+: words₂.flatten := ⟨post, by simp [← hpost]⟩
            have hwords := prefix_of_flatten_prefix h
              (fun v hv => h' v (List.mem_append_right words₁ hv)) hp
            exact hwords.isInfix.trans (List.suffix_append words₁ words₂).isInfix
  · intro hi
    obtain ⟨pre, post, rfl⟩ := hi
    exact ⟨pre.flatten, post.flatten, by simp⟩

end BtDht.Codewords
