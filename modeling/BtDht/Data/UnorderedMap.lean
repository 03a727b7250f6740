import Mathlib.Data.List.AList

/-!
# BtDht.Data.UnorderedMap

Hash tables as finite maps: `std::unordered_map` is Mathlib's `AList` (a list
of entries with pairwise distinct keys) read *up to the order of its entries*.
The order in which a hash table is traversed is unspecified, so no operation
here consults it; whatever does (an element taken with `begin()`, a reply that
lists the keys) receives the key or the order as an argument.

Two operations are added to Mathlib's `lookup` / `insert` / `erase`:

* `emplace` — insert unless the key is present, which is also what
  `operator[]` does before it hands out its reference;
* `sweep` — the erase-while-iterating loop, which visits every key once and
  either replaces the value there or erases the entry.
-/

namespace BtDht

universe u v

/-- A finite map from keys to values, as `std::unordered_map` holds it. -/
abbrev UnorderedMap (κ : Type u) (ν : Type v) := AList (fun _ : κ => ν)

namespace UnorderedMap

section
variable {κ : Type u} {ν : Type v}

/-- The number of entries. -/
def size (m : UnorderedMap κ ν) : Nat := m.keys.length

/-- A table whose keys are all in a list has no more entries than the list. -/
theorem size_le_of_forall_mem {m : UnorderedMap κ ν} {l : List κ} (h : ∀ k ∈ m, k ∈ l) :
    size m ≤ l.length :=
  (List.subperm_of_subset m.keys_nodup h).length_le

/-- With a further key in the list it has fewer. -/
theorem size_lt_of_forall_mem {m : UnorderedMap κ ν} {l : List κ} {k : κ} (h : ∀ k ∈ m, k ∈ l)
    (hk : k ∈ l) (hnew : k ∉ m) : size m < l.length := by
  have hsub : k :: m.keys ⊆ l := List.cons_subset.mpr ⟨hk, h⟩
  have hlen := (List.subperm_of_subset (List.nodup_cons.mpr ⟨hnew, m.keys_nodup⟩) hsub).length_le
  rwa [List.length_cons] at hlen

/-- Inclusion of key sets bounds the sizes. -/
theorem size_le_of_keys_subset {μ : Type v} {m : UnorderedMap κ ν} {m' : UnorderedMap κ μ}
    (h : ∀ k, k ∈ m → k ∈ m') : size m ≤ size m' :=
  size_le_of_forall_mem h
end

variable {κ : Type u} {ν : Type v} [DecidableEq κ]

theorem lookup_eq_some_iff {m : UnorderedMap κ ν} {k : κ} {v : ν} :
    m.lookup k = some v ↔ (⟨k, v⟩ : Sigma fun _ : κ => ν) ∈ m.entries :=
  AList.mem_lookup_iff (s := m)

theorem mem_iff_lookup {m : UnorderedMap κ ν} {k : κ} :
    k ∈ m ↔ ∃ v, m.lookup k = some v := by
  rw [← AList.lookup_isSome, Option.isSome_iff_exists]

theorem mem_of_lookup {m : UnorderedMap κ ν} {k : κ} {v : ν} (h : m.lookup k = some v) :
    k ∈ m :=
  mem_iff_lookup.mpr ⟨v, h⟩

theorem lookup_erase_eq {m : UnorderedMap κ ν} (k k' : κ) :
    (m.erase k).lookup k' = if k' = k then none else m.lookup k' := by
  by_cases h : k' = k
  · subst h
    rw [if_pos rfl, AList.lookup_erase]
  · rw [if_neg h, AList.lookup_erase_ne h]

/-! ## sizes -/

theorem size_erase_of_mem {m : UnorderedMap κ ν} {k : κ} (h : k ∈ m) :
    size (m.erase k) + 1 = size m := by
  have hpos : 0 < m.keys.length := List.length_pos_of_mem (AList.mem_keys.mp h)
  rw [size, size, AList.keys_erase, List.length_erase_of_mem (AList.mem_keys.mp h)]
  omega

theorem size_insert_of_mem {m : UnorderedMap κ ν} {k : κ} (v : ν) (h : k ∈ m) :
    size (m.insert k v) = size m := by
  rw [← size_erase_of_mem h, size, size, AList.keys_insert, AList.keys_erase, List.length_cons]

theorem size_insert_of_notMem {m : UnorderedMap κ ν} {k : κ} (v : ν) (h : k ∉ m) :
    size (m.insert k v) = size m + 1 := by
  rw [size, size, AList.keys_insert, List.length_cons, List.erase_of_not_mem]
  exact h

/-- Making room before an insertion keeps the number of entries. -/
theorem size_insert_erase {m : UnorderedMap κ ν} {k k' : κ} (v : ν) (h : k ∈ m) (h' : k' ∉ m) :
    size ((m.erase k).insert k' v) = size m := by
  have hout : k' ∉ m.erase k := fun hin => h' (AList.mem_erase.mp hin).2
  rw [size_insert_of_notMem v hout, size_erase_of_mem h]

/-! ## emplace -/

/-- Insert `v` at `k` unless `k` is present already. -/
def emplace (m : UnorderedMap κ ν) (k : κ) (v : ν) : UnorderedMap κ ν :=
  if k ∈ m then m else m.insert k v

theorem emplace_of_mem {m : UnorderedMap κ ν} {k : κ} (v : ν) (h : k ∈ m) :
    emplace m k v = m :=
  if_pos h

theorem emplace_of_notMem {m : UnorderedMap κ ν} {k : κ} (v : ν) (h : k ∉ m) :
    emplace m k v = m.insert k v :=
  if_neg h

@[simp] theorem mem_emplace {m : UnorderedMap κ ν} {k k' : κ} {v : ν} :
    k' ∈ emplace m k v ↔ k' = k ∨ k' ∈ m := by
  unfold emplace
  split
  · next h =>
      constructor
      · exact Or.inr
      · rintro (rfl | h')
        · exact h
        · exact h'
  · exact AList.mem_insert m

theorem lookup_emplace_ne {m : UnorderedMap κ ν} {k k' : κ} (v : ν) (h : k' ≠ k) :
    (emplace m k v).lookup k' = m.lookup k' := by
  unfold emplace
  split
  · rfl
  · exact AList.lookup_insert_ne h

/-- What `operator[]` reads: the value present, or the one just emplaced. -/
theorem lookup_emplace_self (m : UnorderedMap κ ν) (k : κ) (v : ν) :
    (emplace m k v).lookup k = some ((m.lookup k).getD v) := by
  by_cases h : k ∈ m
  · obtain ⟨w, hw⟩ := mem_iff_lookup.mp h
    rw [emplace_of_mem v h, hw, Option.getD_some]
  · rw [emplace_of_notMem v h, AList.lookup_insert, AList.lookup_eq_none.mpr h, Option.getD_none]

/-! ## sweep -/

/-- One iteration of an erase-while-iterating loop, at key `k`: the entry
there is replaced by what `f` makes of it, or erased when `f` gives nothing. -/
def sweepStep (f : κ → ν → Option ν) (m : UnorderedMap κ ν) (k : κ) : UnorderedMap κ ν :=
  match m.lookup k with
  | none => m
  | some v => match f k v with
    | none => m.erase k
    | some v' => m.insert k v'

/-- The loop over the keys `order`, one iteration each. -/
def sweepOver (f : κ → ν → Option ν) (order : List κ) (m : UnorderedMap κ ν) :
    UnorderedMap κ ν :=
  order.foldl (sweepStep f) m

/-- The loop over the whole table. -/
def sweep (f : κ → ν → Option ν) (m : UnorderedMap κ ν) : UnorderedMap κ ν :=
  sweepOver f m.keys m

theorem lookup_sweepStep (f : κ → ν → Option ν) (m : UnorderedMap κ ν) (k k' : κ) :
    (sweepStep f m k).lookup k' =
      if k' = k then (m.lookup k').bind (f k') else m.lookup k' := by
  by_cases h : k' = k
  · subst h
    rw [if_pos rfl, sweepStep]
    cases hl : m.lookup k' with
    | none => simp only [hl, Option.bind_none]
    | some v =>
        simp only [Option.bind_some]
        cases hf : f k' v with
        | none => simp only [AList.lookup_erase]
        | some v' => simp only [AList.lookup_insert]
  · rw [if_neg h, sweepStep]
    cases m.lookup k with
    | none => rfl
    | some v =>
        simp only []
        cases f k v with
        | none => exact AList.lookup_erase_ne h
        | some v' => exact AList.lookup_insert_ne h

/-- A loop that visits distinct keys treats each of them exactly once and
leaves the other entries alone. -/
theorem lookup_sweepOver (f : κ → ν → Option ν) {order : List κ} (hnd : order.Nodup)
    (m : UnorderedMap κ ν) (k : κ) :
    (sweepOver f order m).lookup k =
      if k ∈ order then (m.lookup k).bind (f k) else m.lookup k := by
  induction order generalizing m with
  | nil => simp [sweepOver]
  | cons k' order ih =>
      obtain ⟨hk', hnd'⟩ := List.nodup_cons.mp hnd
      change (sweepOver f order (sweepStep f m k')).lookup k = _
      rw [ih hnd', lookup_sweepStep]
      by_cases h : k = k'
      · subst h
        simp [hk']
      · simp [h]

/-- The whole-table loop visits every entry once. -/
theorem lookup_sweep (f : κ → ν → Option ν) (m : UnorderedMap κ ν) (k : κ) :
    (sweep f m).lookup k = (m.lookup k).bind (f k) := by
  rw [sweep, lookup_sweepOver f m.keys_nodup]
  by_cases h : k ∈ m
  · rw [if_pos (AList.mem_keys.mp h)]
  · rw [if_neg (fun hk => h (AList.mem_keys.mpr hk)), AList.lookup_eq_none.mpr h, Option.bind_none]

/-- `operator==`: the same entries, in whatever order. -/
def Same (m m' : UnorderedMap κ ν) : Prop := ∀ k, m.lookup k = m'.lookup k

/-- The order of the traversal does not show in the result. -/
theorem same_sweepOver (f : κ → ν → Option ν) {m : UnorderedMap κ ν} {order : List κ}
    (h : order.Perm m.keys) : Same (sweepOver f order m) (sweep f m) := by
  intro k
  rw [sweep, lookup_sweepOver f (h.nodup_iff.mpr m.keys_nodup), lookup_sweepOver f m.keys_nodup]
  simp [h.mem_iff]

/-- A loop that does nothing a later one would not do as well can be left out. -/
theorem same_sweep_sweep {f g : κ → ν → Option ν} (h : ∀ k v, (f k v).bind (g k) = g k v)
    (m : UnorderedMap κ ν) : Same (sweep g (sweep f m)) (sweep g m) := by
  intro k
  rw [lookup_sweep, lookup_sweep, lookup_sweep, Option.bind_assoc]
  exact Option.bind_congr fun v _ => h k v

theorem mem_of_mem_sweep {f : κ → ν → Option ν} {m : UnorderedMap κ ν} {k : κ}
    (h : k ∈ sweep f m) : k ∈ m := by
  obtain ⟨v, hv⟩ := mem_iff_lookup.mp h
  rw [lookup_sweep] at hv
  obtain ⟨w, hw, _⟩ := Option.bind_eq_some_iff.mp hv
  exact mem_of_lookup hw

theorem size_sweep_le (f : κ → ν → Option ν) (m : UnorderedMap κ ν) :
    size (sweep f m) ≤ size m :=
  size_le_of_keys_subset fun _ => mem_of_mem_sweep

/-! ## sweeping two tables -/

variable {μ : Type v}

/-- One iteration of a loop that walks one table and erases what is dead there
from a second table as well. -/
def sweepBothStep (dead : ν → Bool) (ms : UnorderedMap κ ν × UnorderedMap κ μ) (k : κ) :
    UnorderedMap κ ν × UnorderedMap κ μ :=
  match ms.1.lookup k with
  | none => ms
  | some v => if dead v then (ms.1.erase k, ms.2.erase k) else ms

/-- The loop over the keys `order`. -/
def sweepBothOver (dead : ν → Bool) (order : List κ) (m : UnorderedMap κ ν)
    (m' : UnorderedMap κ μ) : UnorderedMap κ ν × UnorderedMap κ μ :=
  order.foldl (sweepBothStep dead) (m, m')

/-- The loop over the whole first table. -/
def sweepBoth (dead : ν → Bool) (m : UnorderedMap κ ν) (m' : UnorderedMap κ μ) :
    UnorderedMap κ ν × UnorderedMap κ μ :=
  sweepBothOver dead m.keys m m'

theorem lookup_sweepBothStep (dead : ν → Bool) (ms : UnorderedMap κ ν × UnorderedMap κ μ)
    (k k' : κ) :
    (sweepBothStep dead ms k).1.lookup k' =
        (if k' = k then (ms.1.lookup k').filter (fun v => !dead v) else ms.1.lookup k') ∧
      (sweepBothStep dead ms k).2.lookup k' =
        if k' = k ∧ (ms.1.lookup k').any dead then none else ms.2.lookup k' := by
  unfold sweepBothStep
  by_cases h : k' = k
  · subst h
    cases hl : ms.1.lookup k' with
    | none => simp [hl]
    | some v => by_cases hd : dead v <;> simp [hd, hl, Option.filter_some]
  · cases ms.1.lookup k with
    | none => simp [h]
    | some v => by_cases hd : dead v <;> simp [hd, h, AList.lookup_erase_ne h]

theorem lookup_foldl_sweepBothStep (dead : ν → Bool) {order : List κ} (hnd : order.Nodup)
    (ms : UnorderedMap κ ν × UnorderedMap κ μ) (k : κ) :
    (order.foldl (sweepBothStep dead) ms).1.lookup k =
        (if k ∈ order then (ms.1.lookup k).filter (fun v => !dead v) else ms.1.lookup k) ∧
      (order.foldl (sweepBothStep dead) ms).2.lookup k =
        if k ∈ order ∧ (ms.1.lookup k).any dead then none else ms.2.lookup k := by
  induction order generalizing ms with
  | nil => simp
  | cons k' order ih =>
      obtain ⟨hk', hnd'⟩ := List.nodup_cons.mp hnd
      obtain ⟨h1, h2⟩ := lookup_sweepBothStep dead ms k' k
      rw [List.foldl_cons, (ih hnd' _).1, (ih hnd' _).2, h1, h2]
      by_cases h : k = k'
      · subst h
        simp [hk']
      · simp [h]

/-- The first table keeps what is not dead. -/
theorem lookup_sweepBoth_fst (dead : ν → Bool) (m : UnorderedMap κ ν) (m' : UnorderedMap κ μ)
    (k : κ) : (sweepBoth dead m m').1.lookup k = (m.lookup k).filter fun v => !dead v := by
  rw [sweepBoth, sweepBothOver, (lookup_foldl_sweepBothStep dead m.keys_nodup (m, m') k).1]
  by_cases h : k ∈ m
  · rw [if_pos (AList.mem_keys.mp h)]
  · rw [if_neg (fun hk => h (AList.mem_keys.mpr hk))]
    simp [AList.lookup_eq_none.mpr h]

/-- The second table loses the keys that are dead in the first. -/
theorem lookup_sweepBoth_snd (dead : ν → Bool) (m : UnorderedMap κ ν) (m' : UnorderedMap κ μ)
    (k : κ) :
    (sweepBoth dead m m').2.lookup k = if (m.lookup k).any dead then none else m'.lookup k := by
  rw [sweepBoth, sweepBothOver, (lookup_foldl_sweepBothStep dead m.keys_nodup (m, m') k).2]
  by_cases h : k ∈ m
  · simp [AList.mem_keys.mp h]
  · simp [AList.lookup_eq_none.mpr h]

/-- The order of the traversal does not show in either table. -/
theorem same_sweepBothOver (dead : ν → Bool) {m : UnorderedMap κ ν} (m' : UnorderedMap κ μ)
    {order : List κ} (h : order.Perm m.keys) :
    Same (sweepBothOver dead order m m').1 (sweepBoth dead m m').1 ∧
      Same (sweepBothOver dead order m m').2 (sweepBoth dead m m').2 := by
  have horder := lookup_foldl_sweepBothStep dead (h.nodup_iff.mpr m.keys_nodup) (m, m')
  have hkeys := lookup_foldl_sweepBothStep dead m.keys_nodup (m, m')
  constructor
  · intro k
    rw [sweepBoth, sweepBothOver, sweepBothOver, (horder k).1, (hkeys k).1]
    simp [h.mem_iff]
  · intro k
    rw [sweepBoth, sweepBothOver, sweepBothOver, (horder k).2, (hkeys k).2]
    simp [h.mem_iff]

/-- What is dead in one loop and in a later one need not go in the first. -/
theorem same_sweepBoth_sweepBoth {dead dead' : ν → Bool} (h : ∀ v, dead v → dead' v)
    (m : UnorderedMap κ ν) (m' : UnorderedMap κ μ) :
    Same (sweepBoth dead' (sweepBoth dead m m').1 (sweepBoth dead m m').2).1
        (sweepBoth dead' m m').1 ∧
      Same (sweepBoth dead' (sweepBoth dead m m').1 (sweepBoth dead m m').2).2
        (sweepBoth dead' m m').2 := by
  constructor
  · intro k
    simp only [lookup_sweepBoth_fst]
    cases m.lookup k with
    | none => rfl
    | some v => by_cases hd : dead v <;> simp [Option.filter_some, hd, h]
  · intro k
    simp only [lookup_sweepBoth_snd, lookup_sweepBoth_fst]
    cases m.lookup k with
    | none => simp
    | some v => by_cases hd : dead v <;> simp [Option.filter_some, hd, h]

end UnorderedMap

end BtDht
