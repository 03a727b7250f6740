import Mathlib.Data.List.Forall2
import Mathlib.Data.List.Induction

/-!
# BtDht.Data.Lists

List facts the developments rest on: how a list extended by one element
splits and what it has without its repetitions, what two lists related element
by element have in common, lookups in a list of records with distinct keys, and
texts cut at their last separator or into blocks of one size.
-/

namespace BtDht

/-- An element of `l ++ [a]` with what precedes and follows it: the last
element, or an element of `l` with `a` at the end of what follows. -/
theorem append_singleton_eq_append_cons {α : Type*} {l pre post : List α} {a b : α} :
    l ++ [a] = pre ++ b :: post ↔
      (pre = l ∧ b = a ∧ post = []) ∨ ∃ post', post = post' ++ [a] ∧ l = pre ++ b :: post' := by
  constructor
  · intro h
    rcases List.eq_nil_or_concat post with rfl | ⟨post', c, rfl⟩
    · obtain ⟨rfl, hb⟩ := List.append_inj' h rfl
      exact Or.inl ⟨rfl, (List.cons.inj hb).1.symm, rfl⟩
    · rw [List.concat_eq_append, ← List.cons_append, ← List.append_assoc] at h
      obtain ⟨rfl, hc⟩ := List.append_inj' h rfl
      rw [← (List.cons.inj hc).1]
      exact Or.inr ⟨post', List.concat_eq_append, rfl⟩
  · rintro (⟨rfl, rfl, rfl⟩ | ⟨post', rfl, rfl⟩)
    · rfl
    · simp

/-- Related lists relate every element of the first to one of the second. -/
theorem exists_mem_of_forall₂ {α β : Type*} {R : α → β → Prop} {l : List α} {u : List β} {a : α}
    (h : List.Forall₂ R l u) (ha : a ∈ l) : ∃ b ∈ u, R a b := by
  induction h with
  | nil => simp at ha
  | cons hr _ ih =>
      rcases List.mem_cons.mp ha with rfl | ha
      · exact ⟨_, List.mem_cons_self, hr⟩
      · obtain ⟨b, hb, hab⟩ := ih ha
        exact ⟨b, List.mem_cons_of_mem _ hb, hab⟩

/-- Lists related element by element end in related elements. -/
theorem exists_forall₂ {α β : Type*} {R : α → β → Prop} {l : List α} (h : ∀ a ∈ l, ∃ b, R a b) :
    ∃ u, List.Forall₂ R l u := by
  induction l with
  | nil => exact ⟨[], .nil⟩
  | cons a l ih =>
      obtain ⟨b, hb⟩ := h a List.mem_cons_self
      obtain ⟨u, hu⟩ := ih fun a' ha' => h a' (List.mem_cons_of_mem a ha')
      exact ⟨b :: u, .cons hb hu⟩

theorem exists_snoc_of_forall₂ {α β : Type*} {R : α → β → Prop} {l : List α} {a : α} {u : List β}
    (h : List.Forall₂ R (l ++ [a]) u) : ∃ v b, u = v ++ [b] ∧ List.Forall₂ R l v ∧ R a b := by
  induction l generalizing u with
  | nil =>
      cases h with
      | cons hr hnil =>
          cases hnil
          exact ⟨[], _, rfl, .nil, hr⟩
  | cons c l ih =>
      cases h with
      | cons hr hl =>
          obtain ⟨v, b, rfl, hv, hb⟩ := ih hl
          exact ⟨_ :: v, b, rfl, .cons hr hv, hb⟩

/-- Among records with distinct keys, looking up a record's key finds it. -/
theorem find?_key_eq_some {α κ : Type*} [DecidableEq κ] {key : α → κ} {l : List α} {a : α}
    (hnd : (l.map key).Nodup) (ha : a ∈ l) : l.find? (fun b => key b = key a) = some a := by
  induction l with
  | nil => simp at ha
  | cons b l ih =>
      rw [List.map_cons, List.nodup_cons] at hnd
      rcases List.mem_cons.mp ha with rfl | ha
      · simp
      · have hne : key b ≠ key a := fun heq => hnd.1 (heq ▸ List.mem_map_of_mem ha)
        simpa [hne] using ih hnd.2 ha

/-- Among records with distinct keys, a record is the only one with its key. -/
theorem filter_key_eq_singleton {α κ : Type*} [DecidableEq κ] {key : α → κ} {l : List α} {a : α}
    (hnd : (l.map key).Nodup) (ha : a ∈ l) : l.filter (fun b => key b = key a) = [a] := by
  induction l with
  | nil => simp at ha
  | cons b l ih =>
      rw [List.map_cons, List.nodup_cons] at hnd
      rcases List.mem_cons.mp ha with rfl | ha
      · have hnil : l.filter (fun b => key b = key a) = [] := by
          rw [List.filter_eq_nil_iff]
          intro b hb heq
          exact hnd.1 (of_decide_eq_true heq ▸ List.mem_map_of_mem hb)
        simp [hnil]
      · have hne : key b ≠ key a := fun heq => hnd.1 (heq ▸ List.mem_map_of_mem ha)
        simpa [hne] using ih hnd.2 ha

/-- A further element is kept if it is new. -/
theorem eraseDups_append_singleton {α : Type*} [DecidableEq α] (l : List α) (a : α) :
    (l ++ [a]).eraseDups = if a ∈ l then l.eraseDups else l.eraseDups ++ [a] := by
  rw [List.eraseDups_append, List.removeAll, List.filter_singleton]
  by_cases h : a ∈ l
  · simp [h]
  · simp [h, List.eraseDups_cons]

/-- A list ordered by a key has the elements of its smallest key in front. -/
theorem filter_append_filter {α : Type*} {f : α → Int} {l : List α} {k : Int}
    (hl : l.Pairwise fun a b => f a ≤ f b) (hk : ∀ a ∈ l, k ≤ f a) :
    l.filter (fun a => f a = k) ++ l.filter (fun a => f a ≠ k) = l := by
  induction l with
  | nil => rfl
  | cons a l ih =>
      obtain ⟨ha, hl⟩ := List.pairwise_cons.mp hl
      obtain ⟨hka, hk⟩ := List.forall_mem_cons.mp hk
      by_cases hak : f a = k
      · simpa [hak] using ih hl hk
      · -- all keys are larger from here on
        have hne : ∀ b ∈ a :: l, f b ≠ k := by
          intro b hb
          cases List.mem_cons.mp hb with
          | inl heq => rwa [heq]
          | inr hb =>
              have := ha b hb
              omega
        rw [List.filter_eq_nil_iff.mpr fun b hb => by simpa using hne b hb,
          List.filter_eq_self.mpr fun b hb => by simpa using hne b hb, List.nil_append]

/-- A list ordered by a key consists of its groups, in the order of the keys. -/
theorem flatMap_filter_eq {α : Type*} {f : α → Int} {l : List α} {ks : List Int}
    (hl : l.Pairwise fun a b => f a ≤ f b) (hks : ks.Pairwise (· < ·)) (hmem : ∀ a ∈ l, f a ∈ ks) :
    (ks.flatMap fun k => l.filter fun a => f a = k) = l := by
  induction ks generalizing l with
  | nil =>
      rw [List.eq_nil_iff_forall_not_mem.mpr fun a ha => List.not_mem_nil (hmem a ha)]
      rfl
  | cons k ks ih =>
      obtain ⟨hk, hks⟩ := List.pairwise_cons.mp hks
      have hle : ∀ a ∈ l, k ≤ f a := by
        intro a ha
        cases List.mem_cons.mp (hmem a ha) with
        | inl heq => omega
        | inr hin => exact Int.le_of_lt (hk _ hin)
      have hrest : ∀ a ∈ l.filter fun a => f a ≠ k, f a ∈ ks := by
        intro a ha
        obtain ⟨hin, hne⟩ := List.mem_filter.mp ha
        exact (List.mem_cons.mp (hmem a hin)).resolve_left (of_decide_eq_true hne)
      have hgroups : ∀ k' ∈ ks, ((l.filter fun a => f a ≠ k).filter fun a => f a = k') =
          l.filter fun a => f a = k' := by
        intro k' hk'
        rw [List.filter_filter]
        apply List.filter_congr
        intro a _
        have := hk k' hk'
        simp only [ne_eq, decide_not, Bool.and_eq_left_iff_imp, decide_eq_true_eq,
          Bool.not_eq_true', decide_eq_false_iff_not]
        omega
      rw [List.flatMap_cons, ← List.flatMap_congr hgroups, ih (hl.filter _) hks hrest]
      exact filter_append_filter hl hle

/-- What precedes and what follows the last `sep`.  A list without one is all
before it. -/
def splitLast {α : Type*} [DecidableEq α] (sep : α) : List α → List α × List α
  | [] => ([], [])
  | a :: l => if a = sep ∧ sep ∉ l then ([], l) else (a :: (splitLast sep l).1, (splitLast sep l).2)

/-- Whatever comes before, the last separator is the one with none after it. -/
theorem splitLast_append {α : Type*} [DecidableEq α] {sep : α} {l l' : List α} (h : sep ∉ l') :
    splitLast sep (l ++ sep :: l') = (l, l') := by
  induction l with
  | nil => rw [List.nil_append, splitLast, if_pos ⟨rfl, h⟩]
  | cons a l ih =>
      have hsep : sep ∈ l ++ sep :: l' := by simp
      rw [List.cons_append, splitLast, if_neg (fun hlast => hlast.2 hsep), ih]

/-- Lists that agree agree on both sides of their last separators. -/
theorem append_sep_inj {α : Type*} [DecidableEq α] {sep : α} {l l' m m' : List α} (h : sep ∉ l')
    (h' : sep ∉ m') (heq : l ++ sep :: l' = m ++ sep :: m') : l = m ∧ l' = m' := by
  have hsplit := congrArg (splitLast sep) heq
  rwa [splitLast_append h, splitLast_append h', Prod.mk.injEq] at hsplit

/-- The list in blocks of `n` elements; what is left over at the end is dropped. -/
def blocks {α : Type*} (n : Nat) (l : List α) : List (List α) :=
  (List.range (l.length / n)).map fun i => (l.drop (n * i)).take n

/-- Blocks of one size that have been put together are cut out again. -/
theorem blocks_flatten {α : Type*} {n : Nat} (hn : 0 < n) {bs : List (List α)}
    (h : ∀ b ∈ bs, b.length = n) : blocks n bs.flatten = bs := by
  induction bs with
  | nil => simp [blocks]
  | cons b bs ih =>
      obtain ⟨hb, hbs⟩ := List.forall_mem_cons.mp h
      subst hb
      have hcount : (b ++ bs.flatten).length / b.length = bs.flatten.length / b.length + 1 := by
        rw [List.length_append, Nat.add_comm, Nat.add_div_right _ hn]
      have hshift : ∀ i, (b ++ bs.flatten).drop (b.length * (i + 1)) =
          bs.flatten.drop (b.length * i) := by
        intro i
        rw [Nat.mul_succ, Nat.add_comm, ← List.drop_drop, List.drop_left]
      have hrest := ih hbs
      rw [blocks] at hrest
      simp only [blocks, List.flatten_cons, hcount, List.range_succ_eq_map, List.map_cons,
        List.map_map, Function.comp_def, Nat.succ_eq_add_one, hshift, hrest, Nat.mul_zero,
        List.drop_zero, List.take_left]

/-- Every call of a loop over a list succeeds if the loop does. -/
theorem isOk_mapM_iff {ε α β : Type*} {f : α → Except ε β} {l : List α} :
    (l.mapM f).isOk ↔ ∀ a ∈ l, (f a).isOk := by
  induction l with
  | nil => simp [Except.isOk, Except.toBool, pure, Except.pure]
  | cons a l ih =>
      rw [List.forall_mem_cons, ← ih, List.mapM_cons]
      cases hf : f a with
      | error e => simp [Except.isOk, Except.toBool, bind, Except.bind]
      | ok b =>
          cases hl : l.mapM f with
          | error e => simp [Except.isOk, Except.toBool, bind, Except.bind]
          | ok bs => simp [Except.isOk, Except.toBool, bind, Except.bind, pure, Except.pure]

end BtDht
