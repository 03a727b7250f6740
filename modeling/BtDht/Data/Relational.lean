import BtDht.Data.Lists
import Mathlib.Data.List.Nodup
import Mathlib.Order.Bounds.Basic
import Mathlib.Order.MinMax

/-!
# BtDht.Data.Relational

The meaning of the part of SQL the queries use: inner join, `GROUP BY`,
`ORDER BY` and `LIMIT … OFFSET`.  Tables are lists of rows.

SQL leaves much open.  The rows of a join and of a group stand in any order,
and a bare column of a grouped query, one that is neither aggregated nor
grouped by, is taken from an arbitrary row of the group.  So a grouping is a
relation `IsGroupBy` between a table and the groups it may yield, and a group
carries the row its bare columns come from.
-/

namespace BtDht.Relational

variable {α β κ ι : Type*}

/-! ## join -/

/-- `l JOIN r ON p` -/
def join (p : α → β → Bool) (l : List α) (r : List β) : List (α × β) :=
  l.flatMap fun a => (r.filter (p a)).map (a, ·)

theorem mem_join {p : α → β → Bool} {l : List α} {r : List β} {a : α} {b : β} :
    (a, b) ∈ join p l r ↔ a ∈ l ∧ b ∈ r ∧ p a b := by
  simp [join]

theorem nodup_join {p : α → β → Bool} {l : List α} {r : List β} (hl : l.Nodup) (hr : r.Nodup) :
    (join p l r).Nodup := by
  rw [join, List.nodup_flatMap]
  refine ⟨fun a _ => (hr.filter _).map fun b b' h => (Prod.mk.inj h).2, ?_⟩
  refine hl.imp fun {a a'} hne => ?_
  show List.Disjoint _ _
  rw [List.disjoint_left]
  intro x hx hx'
  obtain ⟨_, -, rfl⟩ := List.mem_map.mp hx
  obtain ⟨_, -, heq⟩ := List.mem_map.mp hx'
  exact hne (Prod.mk.inj heq).1.symm

/-- Left rows with one common partner are paired with it. -/
theorem join_eq_map {p : α → β → Bool} {l : List α} {r : List β} {b : β}
    (h : ∀ a ∈ l, r.filter (p a) = [b]) : join p l r = l.map (·, b) := by
  induction l with
  | nil => rfl
  | cons a l ih =>
      have hl := ih fun a ha => h a (List.mem_cons_of_mem _ ha)
      rw [join, List.flatMap_cons, h a List.mem_cons_self, ← join, hl]
      rfl

/-- A condition on the left rows can be applied before the join. -/
theorem filter_join {p : α → β → Bool} {l : List α} {r : List β} (q : α → Bool) :
    (join p l r).filter (fun x => q x.1) = join p (l.filter q) r := by
  induction l with
  | nil => rfl
  | cons a l ih =>
      have hcons : ∀ a l, join p (a :: l) r = (r.filter (p a)).map (a, ·) ++ join p l r :=
        fun _ _ => rfl
      rw [hcons, List.filter_append, ih, List.filter_map]
      by_cases ha : q a
      · simp [ha, hcons, Function.comp_def]
      · simp [ha, Function.comp_def]

/-! ## groups -/

/-- A group of rows, with the row its bare columns are taken from. -/
structure RowGroup (α : Type*) where
  rows : List α
  bare : α
  bare_mem : bare ∈ rows

/-- The loop of `min` finds the least of the values. -/
theorem isLeast_foldl_min [LinearOrder ι] (i : ι) (l : List ι) :
    IsLeast {j | j ∈ i :: l} (l.foldl min i) := by
  induction l generalizing i with
  | nil => simp [IsLeast, lowerBounds]
  | cons j l ih =>
      obtain ⟨hmem, hle⟩ := ih (min i j)
      have hmin : l.foldl min (min i j) ≤ min i j := hle List.mem_cons_self
      constructor
      · show l.foldl min (min i j) ∈ i :: j :: l
        rcases List.mem_cons.mp hmem with heq | hin
        · rw [heq]
          rcases min_choice i j with hi | hj
          · simp [hi]
          · simp [hj]
        · simp [hin]
      · intro j' hj'
        rcases List.mem_cons.mp hj' with rfl | hj'
        · exact hmin.trans (min_le_left j' j)
        · rcases List.mem_cons.mp hj' with rfl | hj'
          · exact hmin.trans (min_le_right i j')
          · exact hle (List.mem_cons_of_mem _ hj')

/-- `min(col)` over a group -/
def RowGroup.min [LinearOrder ι] (g : RowGroup α) (col : α → ι) : ι :=
  (g.rows.map col).foldl Min.min (col g.bare)

theorem RowGroup.isLeast_min [LinearOrder ι] (g : RowGroup α) (col : α → ι) :
    IsLeast {i | ∃ a ∈ g.rows, col a = i} (g.min col) := by
  obtain ⟨hmem, hle⟩ := isLeast_foldl_min (col g.bare) (g.rows.map col)
  constructor
  · rcases List.mem_cons.mp hmem with heq | hin
    · exact ⟨g.bare, g.bare_mem, heq.symm⟩
    · exact List.mem_map.mp hin
  · intro i hi
    obtain ⟨a, ha, rfl⟩ := hi
    exact hle (List.mem_cons_of_mem _ (List.mem_map_of_mem ha))

/-- The groups that `table GROUP BY key` may yield, in any order. -/
structure IsGroupBy (key : α → κ) (table : List α) (groups : List (RowGroup α)) : Prop where
  perm : (groups.flatMap RowGroup.rows).Perm table
  same : ∀ g ∈ groups, ∀ a ∈ g.rows, key a = key g.bare
  distinct : (groups.map fun g => key g.bare).Nodup

variable {key : α → κ} {table : List α} {groups : List (RowGroup α)}

namespace IsGroupBy

/-- Every row is in some group. -/
theorem exists_group (h : IsGroupBy key table groups) {a : α} (ha : a ∈ table) :
    ∃ g ∈ groups, a ∈ g.rows :=
  List.mem_flatMap.mp (h.perm.mem_iff.mpr ha)

theorem bare_mem_table (h : IsGroupBy key table groups) {g : RowGroup α} (hg : g ∈ groups) :
    g.bare ∈ table :=
  h.perm.mem_iff.mp (List.mem_flatMap.mpr ⟨g, hg, g.bare_mem⟩)

/-- A group has the rows with its key. -/
theorem mem_rows (h : IsGroupBy key table groups) {g : RowGroup α} (hg : g ∈ groups) {a : α} :
    a ∈ g.rows ↔ a ∈ table ∧ key a = key g.bare := by
  constructor
  · intro ha
    exact ⟨h.perm.mem_iff.mp (List.mem_flatMap.mpr ⟨g, hg, ha⟩), h.same g hg a ha⟩
  · rintro ⟨ha, hkey⟩
    obtain ⟨g', hg', ha'⟩ := h.exists_group ha
    have heq : key g'.bare = key g.bare := (h.same g' hg' a ha').symm.trans hkey
    rwa [← List.inj_on_of_nodup_map h.distinct hg' hg heq]

/-- A group is all the rows with its key, each of them once. -/
theorem rows_perm [DecidableEq κ] (h : IsGroupBy key table groups) {g : RowGroup α}
    (hg : g ∈ groups) : g.rows.Perm (table.filter fun a => key a = key g.bare) := by
  obtain ⟨pre, post, rfl⟩ := List.append_of_mem hg
  have hself : g.rows.filter (fun a => key a = key g.bare) = g.rows := by
    rw [List.filter_eq_self]
    exact fun a ha => decide_eq_true (h.same g hg a ha)
  have hother : ∀ g' ∈ pre ++ post, g'.rows.filter (fun a => key a = key g.bare) = [] := by
    intro g' hg'
    have hin : g' ∈ pre ++ g :: post := by
      rcases List.mem_append.mp hg' with hpre | hpost
      · exact List.mem_append_left _ hpre
      · exact List.mem_append_right _ (List.mem_cons_of_mem _ hpost)
    rw [List.filter_eq_nil_iff]
    intro a ha heq
    have hkey : key g'.bare = key g.bare := (h.same g' hin a ha).symm.trans (of_decide_eq_true heq)
    have hnd := h.distinct
    rw [List.map_append, List.map_cons, List.nodup_middle, List.nodup_cons, ← List.map_append] at hnd
    exact hnd.1 (hkey ▸ List.mem_map_of_mem hg')
  have hpre : pre.flatMap (fun g' => g'.rows.filter fun a => key a = key g.bare) = [] :=
    List.flatMap_eq_nil_iff.mpr fun g' hg' => hother g' (List.mem_append_left _ hg')
  have hpost : post.flatMap (fun g' => g'.rows.filter fun a => key a = key g.bare) = [] :=
    List.flatMap_eq_nil_iff.mpr fun g' hg' => hother g' (List.mem_append_right _ hg')
  have hperm := h.perm.filter fun a => key a = key g.bare
  rwa [List.filter_flatMap, List.flatMap_append, List.flatMap_cons, hpre, hself, hpost,
    List.nil_append, List.append_nil] at hperm

/-! ### joins grouped by a key of their left rows -/

section left

variable {p : α → β → Bool} {l : List α} {r : List β} {k : α → κ}
  {groups : List (RowGroup (α × β))}

/-- A group has one left row, with its partners. -/
theorem join_rows_perm [DecidableEq κ] (h : IsGroupBy (fun x => k x.1) (join p l r) groups)
    (hl : (l.map k).Nodup) {g : RowGroup (α × β)} (hg : g ∈ groups) :
    g.rows.Perm ((r.filter (p g.bare.1)).map (g.bare.1, ·)) := by
  have ha : g.bare.1 ∈ l := (mem_join.mp (h.bare_mem_table hg)).1
  have hrows := h.rows_perm hg
  rwa [filter_join (fun a => k a = k g.bare.1), filter_key_eq_singleton hl ha, join,
    List.flatMap_singleton] at hrows

/-- The right rows of a group are the partners of its left row. -/
theorem join_snd_perm [DecidableEq κ] (h : IsGroupBy (fun x => k x.1) (join p l r) groups)
    (hl : (l.map k).Nodup) {g : RowGroup (α × β)} (hg : g ∈ groups) :
    (g.rows.map Prod.snd).Perm (r.filter (p g.bare.1)) := by
  have hrows := (h.join_rows_perm hl hg).map Prod.snd
  rwa [List.map_map, List.map_id''] at hrows
  exact fun _ => rfl

/-- There is one group for each left row that has a partner. -/
theorem join_bare_perm (h : IsGroupBy (fun x => k x.1) (join p l r) groups)
    (hl : (l.map k).Nodup) :
    (groups.map fun g => g.bare.1).Perm (l.filter fun a => r.any (p a)) := by
  have hbare : ∀ g ∈ groups, g.bare.1 ∈ l ∧ g.bare.2 ∈ r ∧ p g.bare.1 g.bare.2 :=
    fun g hg => mem_join.mp (h.bare_mem_table hg)
  have hnd : (groups.map fun g => g.bare.1).Nodup := by
    apply List.Nodup.of_map k
    rw [List.map_map]
    exact h.distinct
  rw [List.perm_ext_iff_of_nodup hnd ((List.Nodup.of_map k hl).filter _)]
  intro a
  constructor
  · intro ha
    obtain ⟨g, hg, rfl⟩ := List.mem_map.mp ha
    obtain ⟨hleft, hright, hp⟩ := hbare g hg
    exact List.mem_filter.mpr ⟨hleft, List.any_eq_true.mpr ⟨_, hright, hp⟩⟩
  · intro ha
    obtain ⟨hleft, hany⟩ := List.mem_filter.mp ha
    obtain ⟨b, hright, hp⟩ := List.any_eq_true.mp hany
    obtain ⟨g, hg, hmem⟩ := h.exists_group (mem_join.mpr ⟨hleft, hright, hp⟩)
    have hkey : k a = k g.bare.1 := h.same g hg _ hmem
    have heq : a = g.bare.1 := List.inj_on_of_nodup_map hl hleft (hbare g hg).1 hkey
    exact List.mem_map.mpr ⟨g, hg, heq.symm⟩

end left

end IsGroupBy

/-- Every table can be grouped.  By induction on its size: the rows with the
first row's key are one group, the others are grouped already. -/
theorem exists_isGroupBy [DecidableEq κ] (key : α → κ) (table : List α) :
    ∃ groups, IsGroupBy key table groups := by
  induction hn : table.length using Nat.strongRecOn generalizing table with
  | ind n ih =>
      cases table with
      | nil => exact ⟨[], .refl _, by simp, by simp⟩
      | cons a table =>
          let mine := fun b => decide (key b = key a)
          have hlen : ((a :: table).filter (!mine ·)).length < n := by
            have hle := List.length_filter_le (!mine ·) table
            rw [List.length_cons] at hn
            simp [mine] at hle ⊢
            omega
          obtain ⟨groups, h⟩ := ih _ hlen _ rfl
          have ha : a ∈ (a :: table).filter mine := by simp [mine]
          refine ⟨⟨(a :: table).filter mine, a, ha⟩ :: groups, ?_, ?_, ?_⟩
          · exact (h.perm.append_left _).trans (List.filter_append_perm mine (a :: table))
          · intro g hg b hb
            rcases List.mem_cons.mp hg with rfl | hg
            · simpa [mine] using (List.mem_filter.mp hb).2
            · exact h.same g hg b hb
          · rw [List.map_cons, List.nodup_cons]
            refine ⟨fun hin => ?_, h.distinct⟩
            obtain ⟨g, hg, heq⟩ := List.mem_map.mp hin
            have hbare := (List.mem_filter.mp (h.bare_mem_table hg)).2
            simp [mine] at hbare
            exact hbare heq

/-- Grouping says nothing about the order of the groups. -/
theorem IsGroupBy.of_perm {groups' : List (RowGroup α)} (h : IsGroupBy key table groups)
    (hp : groups'.Perm groups) : IsGroupBy key table groups' where
  perm := (hp.flatMap_right _).trans h.perm
  same := fun g hg => h.same g (hp.mem_iff.mp hg)
  distinct := (hp.map _).nodup_iff.mpr h.distinct

/-! ## order and pages -/

/-- `ORDER BY key` -/
def IsOrdered [LE ι] (key : α → ι) (rows : List α) : Prop :=
  rows.Pairwise fun a a' => key a ≤ key a'

/-- `ORDER BY key DESC` -/
def IsOrderedDesc [LE ι] (key : α → ι) (rows : List α) : Prop :=
  rows.Pairwise fun a a' => key a' ≤ key a

theorem exists_isOrdered [LinearOrder ι] (key : α → ι) (rows : List α) :
    ∃ rows' : List α, rows'.Perm rows ∧ IsOrdered key rows' := by
  have hsorted : (rows.mergeSort fun a a' => key a ≤ key a').Pairwise
      fun a a' => decide (key a ≤ key a') := by
    apply List.pairwise_mergeSort
    · simp only [decide_eq_true_eq]
      exact fun a b c => le_trans
    · simp only [Bool.or_eq_true, decide_eq_true_eq]
      exact fun a b => le_total _ _
  exact ⟨_, List.mergeSort_perm rows _, hsorted.imp fun hle => of_decide_eq_true hle⟩

/-- Every table can be grouped, and the groups listed in the order of a column. -/
theorem exists_isGroupBy_isOrdered [DecidableEq κ] [LinearOrder ι] (key : α → κ)
    (col : RowGroup α → ι) (table : List α) :
    ∃ groups, IsGroupBy key table groups ∧ IsOrdered col groups := by
  obtain ⟨groups, hgrouped⟩ := exists_isGroupBy key table
  obtain ⟨groups', hperm, hordered⟩ := exists_isOrdered col groups
  exact ⟨groups', hgrouped.of_perm hperm, hordered⟩

theorem exists_isGroupBy_isOrderedDesc [DecidableEq κ] [LinearOrder ι] (key : α → κ)
    (col : RowGroup α → ι) (table : List α) :
    ∃ groups, IsGroupBy key table groups ∧ IsOrderedDesc col groups :=
  exists_isGroupBy_isOrdered key (fun g => OrderDual.toDual (col g)) table

/-- `LIMIT limit OFFSET offset`; a negative limit is no limit and a negative
offset is 0. -/
def limitOffset (limit offset : Int) (rows : List α) : List α :=
  if limit < 0 then rows.drop offset.toNat else (rows.drop offset.toNat).take limit.toNat

/-- A row of a window stands at one of its places. -/
theorem mem_limitOffset {limit offset : Nat} {rows : List α} {a : α}
    (h : a ∈ limitOffset limit offset rows) :
    ∃ k, offset ≤ k ∧ k < offset + limit ∧ rows[k]? = some a := by
  have hlimit : ¬ (limit : Int) < 0 := by omega
  rw [limitOffset, if_neg hlimit, Int.toNat_natCast, Int.toNat_natCast] at h
  obtain ⟨i, hi⟩ := List.getElem?_of_mem h
  rw [List.getElem?_take] at hi
  split at hi
  · next hlt =>
      rw [List.getElem?_drop] at hi
      exact ⟨offset + i, by omega, by omega, hi⟩
  · cases hi

/-- Different pages of distinct rows have no row in common. -/
theorem disjoint_limitOffset {rows : List α} (h : rows.Nodup) {size page page' : Nat}
    (hne : page ≠ page') : List.Disjoint (limitOffset size (size * page : Nat) rows)
      (limitOffset size (size * page' : Nat) rows) := by
  intro a ha ha'
  obtain ⟨k, hlo, hhi, hk⟩ := mem_limitOffset ha
  obtain ⟨k', hlo', hhi', hk'⟩ := mem_limitOffset ha'
  have hin : k < rows.length := (List.getElem?_eq_some_iff.mp hk).1
  obtain rfl : k = k' := (List.getElem?_inj hin h).mp (hk.trans hk'.symm)
  have hpage : k / size = page := Nat.div_eq_of_lt_le (by rwa [Nat.mul_comm]) (by
    rw [Nat.succ_mul, Nat.mul_comm]
    exact hhi)
  have hpage' : k / size = page' := Nat.div_eq_of_lt_le (by rwa [Nat.mul_comm]) (by
    rw [Nat.succ_mul, Nat.mul_comm]
    exact hhi')
  exact hne (hpage.symm.trans hpage')

/-- Pages of one size, put together, are the beginning of the list. -/
theorem forall₂_pages {R : α → β → Prop} {size : Nat} {target : List β} {pages : Nat → List α}
    (n : Nat) (h : ∀ p < n, List.Forall₂ R (pages p) ((target.drop (size * p)).take size)) :
    List.Forall₂ R ((List.range n).flatMap pages) (target.take (size * n)) := by
  induction n with
  | zero => simp
  | succ n ih =>
      have hinit := ih fun p hp => h p (by omega)
      rw [List.range_succ, List.flatMap_append, List.flatMap_singleton, Nat.mul_succ,
        List.take_add]
      exact List.rel_append hinit (h n (by omega))

end BtDht.Relational
