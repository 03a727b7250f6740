import BtDht.MyDhtStorage

/-!
# BtDht.MyDhtStorage.Immutable

The two tables of the immutable store.  `put_immutable_item` enters the target
into both and `tick` erases expired targets from both, but the eviction erases
from `m_immutable_items` alone: the arrival time of the evicted target stays
behind.  So the key sets agree along a run exactly as long as no put evicts.
-/

namespace BtDht.MyDhtStorage

open MemoryDhtStorage

/-- The two immutable tables have the same keys. -/
def SameKeys (s : MemoryDhtStorage) : Prop :=
  ∀ k, k ∈ s.mImmutableItems ↔ k ∈ s.mImmutableSeen

/-- The call puts an absent target into a store that already holds
`dht_max_dht_items` immutable items. -/
def EvictsImmutable (s : MemoryDhtStorage) (ev : Event) : Prop :=
  ∃ target buf, ev.call = .putImmutableItem target buf ∧ target ∉ s.mImmutableItems ∧
    s.maxItems ≤ UnorderedMap.size s.mImmutableItems

/-! ## one put -/

section put

variable {s : MemoryDhtStorage} {target : Sha1Hash} {buf : Bytes} {now : TimePoint}

/-- An insertion without eviction enters the target into both tables. -/
theorem sameKeys_insert (hs : SameKeys s) :
    SameKeys { s with
      mImmutableItems := UnorderedMap.emplace s.mImmutableItems target buf
      mImmutableSeen := s.mImmutableSeen.insert target now } := by
  intro k
  have hk := hs k
  simp [UnorderedMap.mem_emplace, AList.mem_insert, hk]

/-- After an insertion with eviction the evicted key has an arrival time and
no item. -/
theorem not_sameKeys_evict {first : Sha1Hash} (hs : SameKeys s) (hnew : target ∉ s.mImmutableItems)
    (hf : first ∈ s.mImmutableItems) :
    ¬ SameKeys { s with
      mImmutableItems := UnorderedMap.emplace (s.mImmutableItems.erase first) target buf
      mImmutableSeen := s.mImmutableSeen.insert target now } := by
  intro hafter
  have hne : first ≠ target := fun he => hnew (he ▸ hf)
  have hseen : first ∈ s.mImmutableSeen.insert target now :=
    (AList.mem_insert _).mpr (Or.inr ((hs first).mp hf))
  have hitem := (hafter first).mpr hseen
  simp [UnorderedMap.mem_emplace, AList.mem_erase, hne] at hitem

end put

/-! ## one tick -/

/-- The items whose arrival time has not expired stay. -/
theorem lookup_items_tick (s : MemoryDhtStorage) (now : TimePoint) (k : Sha1Hash) :
    (s.tick now).mImmutableItems.lookup k =
      if (s.mImmutableSeen.lookup k).any (seenExpired now) then none
      else s.mImmutableItems.lookup k :=
  UnorderedMap.lookup_sweepBoth_snd (seenExpired now) s.mImmutableSeen s.mImmutableItems k

/-- The arrival times that have not expired stay. -/
theorem lookup_seen_tick (s : MemoryDhtStorage) (now : TimePoint) (k : Sha1Hash) :
    (s.tick now).mImmutableSeen.lookup k =
      (s.mImmutableSeen.lookup k).filter fun t => !seenExpired now t :=
  UnorderedMap.lookup_sweepBoth_fst (seenExpired now) s.mImmutableSeen s.mImmutableItems k

theorem mem_immutable_tick {s : MemoryDhtStorage} (now : TimePoint) (k : Sha1Hash) :
    (k ∈ (s.tick now).mImmutableItems ↔
      k ∈ s.mImmutableItems ∧ (s.mImmutableSeen.lookup k).any (seenExpired now) = false) ∧
    (k ∈ (s.tick now).mImmutableSeen ↔
      k ∈ s.mImmutableSeen ∧ (s.mImmutableSeen.lookup k).any (seenExpired now) = false) := by
  constructor
  · rw [← AList.lookup_isSome, lookup_items_tick, ← AList.lookup_isSome]
    split
    · next hdead => simp [hdead]
    · next hlive => simp [hlive]
  · rw [← AList.lookup_isSome, lookup_seen_tick, ← AList.lookup_isSome]
    cases s.mImmutableSeen.lookup k with
    | none => simp
    | some t => by_cases hd : seenExpired now t <;> simp [hd, Option.filter_some]

theorem sameKeys_tick {s : MemoryDhtStorage} (now : TimePoint) (hs : SameKeys s) :
    SameKeys (s.tick now) := by
  intro k
  rw [(mem_immutable_tick now k).1, (mem_immutable_tick now k).2, hs k]

/-! ## along a run -/

theorem maxItems_of_reachable {settings : Settings} {s : MemoryDhtStorage}
    (hr : (system settings).Reachable s) : s.maxItems = sizeT settings.dhtMaxDhtItems.toInt :=
  hr.invariant (fun s => s.maxItems = sizeT settings.dhtMaxDhtItems.toInt) rfl
    fun s ev s' hi _ hstep => by
      have hmax := (call_immutable_cases hstep).1
      rw [maxItems, hmax]
      exact hi

/-- The key sets agree and the arrival times are within the capacity. -/
def InStep (settings : Settings) (s : MemoryDhtStorage) : Prop :=
  SameKeys s ∧ UnorderedMap.size s.mImmutableSeen ≤ settings.dhtMaxDhtItems.toInt.toNat

theorem InStep.size_eq {settings : Settings} {s : MemoryDhtStorage} (hs : InStep settings s) :
    UnorderedMap.size s.mImmutableItems = UnorderedMap.size s.mImmutableSeen :=
  Nat.le_antisymm (UnorderedMap.size_le_of_keys_subset fun k => (hs.1 k).mp)
    (UnorderedMap.size_le_of_keys_subset fun k => (hs.1 k).mpr)

/-- Only puts evict. -/
theorem not_evictsImmutable {s : MemoryDhtStorage} {ev : Event}
    (hc : ∀ target buf, ev.call ≠ .putImmutableItem target buf) : ¬ EvictsImmutable s ev :=
  fun ⟨target, buf, heq, _⟩ => hc target buf heq

/-- Ticks keep the tables in step. -/
theorem InStep.tick {settings : Settings} {s : MemoryDhtStorage} (hs : InStep settings s)
    (now : TimePoint) : InStep settings (s.tick now) := by
  have hle : UnorderedMap.size (s.tick now).mImmutableSeen ≤ UnorderedMap.size s.mImmutableSeen :=
    UnorderedMap.size_le_of_keys_subset fun k hk => ((mem_immutable_tick now k).2.mp hk).1
  exact ⟨sameKeys_tick now hs.1, Nat.le_trans hle hs.2⟩

/-- From a state in step, a call leaves the tables in step exactly when it
does not evict. -/
theorem inStep_call_iff {settings : Settings} (hmax : 1 ≤ settings.dhtMaxDhtItems.toInt)
    {s s' : MemoryDhtStorage} {ev : Event} (hr : (system settings).Reachable s)
    (hs : InStep settings s) (ha : s.Admits ev) (h : s.call ev = .ok s') :
    InStep settings s' ↔ ¬ EvictsImmutable s ev := by
  have hcap := maxItems_of_reachable hr
  have hsame := hs.size_eq
  rw [sizeT_toInt (by omega)] at hcap
  obtain ⟨-, ⟨target, buf, hc, hput⟩ | ⟨hc, rfl⟩ | ⟨hc, -, hitems, hseen⟩⟩ :=
    call_immutable_cases h
  · obtain ⟨hin, heq⟩ | ⟨hnew, hroom, rfl⟩ | ⟨hnew, hfull, hne, rfl⟩ := putImmutableItem_cases hput
    · have hnot : ¬ EvictsImmutable s ev := by
        rintro ⟨target', buf', hc', hnew, -⟩
        rw [hc] at hc'
        injection hc' with ht
        exact hnew (ht ▸ hin)
      exact iff_of_true (heq ▸ hs) hnot
    · have hnot : ¬ EvictsImmutable s ev := by
        rintro ⟨_, _, -, -, hfull⟩
        omega
      have hnew' : target ∉ s.mImmutableSeen := fun hin => hnew ((hs.1 target).mpr hin)
      have hsize := UnorderedMap.size_insert_of_notMem ev.now hnew'
      have hle : UnorderedMap.size (s.mImmutableSeen.insert target ev.now) ≤
          settings.dhtMaxDhtItems.toInt.toNat := by
        omega
      exact iff_of_true ⟨sameKeys_insert hs.1, hle⟩ hnot
    · have hf : ev.first ∈ s.mImmutableItems := by
        simp only [Admits, hc] at ha
        exact ha.resolve_left hne
      have hevicts : EvictsImmutable s ev := ⟨target, buf, hc, hnew, hfull⟩
      exact iff_of_false (fun hafter => not_sameKeys_evict hs.1 hnew hf hafter.1)
        (not_not_intro hevicts)
  · exact iff_of_true (hs.tick ev.now) (not_evictsImmutable (by simp [hc]))
  · have hkept : InStep settings s' := by
      rw [InStep, SameKeys, hitems, hseen]
      exact hs
    exact iff_of_true hkept (not_evictsImmutable hc)

/-- **The immutable tables stay in step until an eviction.**  Along a run the
two tables have the same keys (and the arrival times stay within
`dht_max_dht_items`) in every state reached, if and only if no put of an
absent target finds the store full. -/
theorem immutable_tables_inStep_iff (settings : Settings)
    (hmax : 1 ≤ settings.dhtMaxDhtItems.toInt) {hist : List Event} {s : MemoryDhtStorage}
    (ht : (system settings).Trace hist s) :
    (∀ pre s', pre <+: hist → (system settings).Trace pre s' →
      (∀ k, k ∈ s'.mImmutableItems ↔ k ∈ s'.mImmutableSeen) ∧
        UnorderedMap.size s'.mImmutableSeen ≤ settings.dhtMaxDhtItems.toInt.toNat) ↔
      (system settings).Along (fun s' ev => ¬ EvictsImmutable s' ev) hist := by
  have hinit : InStep settings (MemoryDhtStorage.ofSettings settings) :=
    ⟨fun k => Iff.rfl, Nat.zero_le _⟩
  exact ht.always_iff (InStep settings) (fun s' ev => ¬ EvictsImmutable s' ev) hinit
    fun s ev s' hr hs ha h => inStep_call_iff hmax hr hs ha h

/-- The target that an event puts. -/
def putTarget (ev : Event) : Option Sha1Hash :=
  match ev.call with
  | .putImmutableItem target _ => some target
  | _ => none

/-- What is stored has been put. -/
theorem mem_putTargets_of_trace {settings : Settings} {hist : List Event} {s : MemoryDhtStorage}
    (ht : (system settings).Trace hist s) :
    ∀ k ∈ s.mImmutableItems, k ∈ hist.filterMap putTarget := by
  apply ht.history (fun hist s => ∀ k ∈ s.mImmutableItems, k ∈ hist.filterMap putTarget)
  · exact fun k hk => absurd hk (AList.notMem_empty k)
  intro hist s ev s' _ ih _ h k hk
  rw [List.filterMap_append, List.mem_append]
  obtain ⟨-, ⟨target, buf, hc, hput⟩ | ⟨-, rfl⟩ | ⟨-, -, hitems, -⟩⟩ := call_immutable_cases h
  · cases mem_putImmutableItem hput hk with
    | inl heq => exact .inr (by simp [putTarget, hc, heq])
    | inr hold => exact .inl (ih k hold)
  · exact .inl (ih k ((mem_immutable_tick ev.now k).1.mp hk).1)
  · rw [hitems] at hk
    exact .inl (ih k hk)

/-- A run that puts no more than `dht_max_dht_items` different targets never
evicts. -/
theorem along_of_fewTargets {settings : Settings} {hist : List Event}
    (hfew : (hist.filterMap putTarget).eraseDups.length ≤ sizeT settings.dhtMaxDhtItems.toInt) :
    (system settings).Along (fun s ev => ¬ EvictsImmutable s ev) hist := by
  intro pre ev post s hhist ht hevicts
  obtain ⟨target, buf, hc, hnew, hfull⟩ := hevicts
  have hkeys : ∀ k ∈ s.mImmutableItems, k ∈ (hist.filterMap putTarget).eraseDups := by
    intro k hk
    simp [hhist, List.filterMap_append, mem_putTargets_of_trace ht k hk]
  have hput : target ∈ (hist.filterMap putTarget).eraseDups := by
    simp [hhist, putTarget, hc]
  have hlt := UnorderedMap.size_lt_of_forall_mem hkeys hput hnew
  rw [maxItems_of_reachable ⟨pre, ht⟩] at hfull
  omega

/-- Two targets are put, the first a second time; a tick takes the first, which
is then put again. -/
def fiveCalls : List Event :=
  [⟨0, .fill 20 1, .putImmutableItem (.fill 20 1) [105, 49, 101]⟩,
    ⟨1, .fill 20 1, .putImmutableItem (.fill 20 2) [105, 50, 101]⟩,
    ⟨hours 1, .fill 20 1, .putImmutableItem (.fill 20 1) [105, 51, 101]⟩,
    ⟨hours 2 + 1, .fill 20 1, .tick⟩,
    ⟨hours 3, .fill 20 2, .putImmutableItem (.fill 20 1) [105, 52, 101]⟩]

/-- The store after the five calls. -/
def afterFive : MemoryDhtStorage :=
  { MemoryDhtStorage.ofSettings twoItems with
    mImmutableItems := UnorderedMap.emplace (AList.singleton (.fill 20 2) [105, 50, 101])
      (.fill 20 1) [105, 52, 101]
    mImmutableSeen := (AList.singleton (.fill 20 2) 1).insert (.fill 20 1) (hours 3) }

/-- The third call finds the store full, with its target in it, and the fifth
one finds room again: the tables stay in step throughout. -/
theorem immutable_tables_inStep_fiveCalls :
    (system twoItems).Trace fiveCalls afterFive ∧
    ∀ pre s', pre <+: fiveCalls → (system twoItems).Trace pre s' →
      (∀ k, k ∈ s'.mImmutableItems ↔ k ∈ s'.mImmutableSeen) ∧
        UnorderedMap.size s'.mImmutableSeen ≤ 2 := by
  have ht : (system twoItems).Trace fiveCalls afterFive := System.trace_of_run rfl
  have halong : (system twoItems).Along (fun s ev => ¬ EvictsImmutable s ev) fiveCalls :=
    along_of_fewTargets (by decide)
  exact ⟨ht, (immutable_tables_inStep_iff twoItems (by decide) ht).mpr halong⟩

/-- The first put, of target `01…01`. -/
def firstPut : Event := ⟨0, .fill 20 1, .putImmutableItem (.fill 20 1) [105, 49, 101]⟩

/-- The second put, of target `02…02`: it evicts the first. -/
def secondPut : Event := ⟨1, .fill 20 1, .putImmutableItem (.fill 20 2) [105, 50, 101]⟩

/-- The store after both puts. -/
def oneItemEvicted : MemoryDhtStorage :=
  { MemoryDhtStorage.ofSettings oneItem with
    mImmutableItems := AList.singleton (.fill 20 2) [105, 50, 101]
    mImmutableSeen := (AList.singleton (.fill 20 1) 0).insert (.fill 20 2) 1 }

/-- The first target is gone and its arrival time is not. -/
theorem immutable_tables_out_of_step :
    1 ≤ oneItem.dhtMaxDhtItems.toInt ∧ (system oneItem).Trace [firstPut, secondPut] oneItemEvicted ∧
    (.fill 20 1) ∈ oneItemEvicted.mImmutableSeen ∧
    (.fill 20 1) ∉ oneItemEvicted.mImmutableItems ∧
    oneItem.dhtMaxDhtItems.toInt.toNat < UnorderedMap.size oneItemEvicted.mImmutableSeen :=
  ⟨by decide, System.trace_of_run rfl, by decide, by decide, by decide⟩

end BtDht.MyDhtStorage
