import BtDht.MyDhtStorage.Immutable

/-!
# BtDht.MyDhtStorage.Capacity

How many items the store holds.  Both puts make room before they insert, so
neither table ever exceeds `dht_max_dht_items` (`withinCapacity_of_reachable`),
and the target that has just been put is not the one that goes.

A store for no items at all has nothing to make room with: its first put
erases the `begin()` of an empty table.  `item_capacity_iff` says that this is
all that can go wrong.
-/

namespace BtDht.MyDhtStorage

open MemoryDhtStorage

/-- Both tables are within `dht_max_dht_items`. -/
def WithinCapacity (settings : Settings) (s : MemoryDhtStorage) : Prop :=
  UnorderedMap.size s.mImmutableItems ≤ settings.dhtMaxDhtItems.toInt.toNat ∧
    UnorderedMap.size s.mMutableItems ≤ settings.dhtMaxDhtItems.toInt.toNat

/-- The call puts an item. -/
def putsItem : Call → Bool
  | .putImmutableItem .. | .putMutableItem .. => true
  | _ => false

/-- What a call that has left `s'` is to keep. -/
structure KeepsCapacity (settings : Settings) (s : MemoryDhtStorage) (ev : Event)
    (s' : MemoryDhtStorage) : Prop where
  before : WithinCapacity settings s
  after : WithinCapacity settings s'
  /-- an immutable item that is accepted is there afterwards -/
  immutable_kept : ∀ target buf, ev.call = .putImmutableItem target buf →
    target ∉ s.mImmutableItems → s'.mImmutableItems.lookup target = some buf
  /-- a mutable item that is accepted is there afterwards -/
  mutable_kept : ∀ target buf sig seq pk salt, ev.call = .putMutableItem target buf sig seq pk salt →
    ¬ s.stale target seq → s'.mMutableItems.lookup target = some ⟨buf, sig, seq, pk, salt, ev.now⟩
  /-- a put on a present mutable target evicts nothing -/
  present_kept : ∀ target buf sig seq pk salt, ev.call = .putMutableItem target buf sig seq pk salt →
    target ∈ s.mMutableItems → ∀ k, k ∈ s'.mMutableItems ↔ k ∈ s.mMutableItems

/-- The call is defined and keeps the capacity, whatever key `begin()` yields. -/
def RespectsCapacity (settings : Settings) (s : MemoryDhtStorage) (ev : Event) : Prop :=
  s.Admits ev → ∃ s', s.call ev = .ok s' ∧ KeepsCapacity settings s ev s'

variable {settings : Settings} {s s' : MemoryDhtStorage} {ev : Event}

/-! ## the sizes -/

/-- No call takes the immutable items over the capacity. -/
theorem size_immutableItems_call_le (hi : UnorderedMap.size s.mImmutableItems ≤ s.maxItems)
    (ha : s.Admits ev) (h : s.call ev = .ok s') :
    UnorderedMap.size s'.mImmutableItems ≤ s.maxItems := by
  obtain ⟨-, ⟨target, buf, hc, hput⟩ | ⟨-, rfl⟩ | ⟨-, -, hitems, -⟩⟩ := call_immutable_cases h
  · obtain ⟨-, rfl⟩ | ⟨hnew, hroom, rfl⟩ | ⟨hnew, -, hne, rfl⟩ := putImmutableItem_cases hput
    · exact hi
    · show UnorderedMap.size (UnorderedMap.emplace s.mImmutableItems target buf) ≤ _
      rw [UnorderedMap.emplace_of_notMem buf hnew, UnorderedMap.size_insert_of_notMem buf hnew]
      omega
    · have hf : ev.first ∈ s.mImmutableItems := by
        simp only [Admits, hc] at ha
        exact ha.resolve_left hne
      have hout : target ∉ s.mImmutableItems.erase ev.first :=
        fun hin => hnew (AList.mem_erase.mp hin).2
      show UnorderedMap.size (UnorderedMap.emplace (s.mImmutableItems.erase ev.first) target buf) ≤ _
      rw [UnorderedMap.emplace_of_notMem buf hout, UnorderedMap.size_insert_erase buf hf hnew]
      exact hi
  · have hle : UnorderedMap.size (s.tick ev.now).mImmutableItems ≤
        UnorderedMap.size s.mImmutableItems :=
      UnorderedMap.size_le_of_keys_subset fun k hk => ((mem_immutable_tick ev.now k).1.mp hk).1
    omega
  · rw [hitems]
    exact hi

/-- Nor the mutable ones. -/
theorem size_mutableItems_call_le (hm : UnorderedMap.size s.mMutableItems ≤ s.maxItems)
    (ha : s.Admits ev) (h : s.call ev = .ok s') :
    UnorderedMap.size s'.mMutableItems ≤ s.maxItems := by
  obtain ⟨target, buf, sig, seq, pk, salt, hc, hput⟩ | ⟨-, rfl⟩ | ⟨-, -, hitems⟩ :=
    call_mutable_cases h
  · obtain ⟨-, rfl⟩ | ⟨-, hroom, rfl⟩ | ⟨-, hnew, -, hne, rfl⟩ := putMutableItem_cases hput
    · exact hm
    · show UnorderedMap.size (s.mMutableItems.insert target _) ≤ _
      by_cases hin : target ∈ s.mMutableItems
      · rw [UnorderedMap.size_insert_of_mem _ hin]
        exact hm
      · have hlt := hroom.resolve_left hin
        rw [UnorderedMap.size_insert_of_notMem _ hin]
        omega
    · have hf : ev.first ∈ s.mMutableItems := by
        simp only [Admits, hc] at ha
        exact ha.resolve_left hne
      show UnorderedMap.size ((s.mMutableItems.erase ev.first).insert target _) ≤ _
      rw [UnorderedMap.size_insert_erase _ hf hnew]
      exact hm
  · exact Nat.le_trans (UnorderedMap.size_sweep_le _ s.mMutableItems) hm
  · rw [hitems]
    exact hm

theorem WithinCapacity.call (hmax : s.maxItems = settings.dhtMaxDhtItems.toInt.toNat)
    (hw : WithinCapacity settings s) (ha : s.Admits ev) (h : s.call ev = .ok s') :
    WithinCapacity settings s' := by
  unfold WithinCapacity at hw ⊢
  rw [← hmax] at hw ⊢
  exact ⟨size_immutableItems_call_le hw.1 ha h, size_mutableItems_call_le hw.2 ha h⟩

theorem maxItems_eq_of_reachable (hmax : 0 ≤ settings.dhtMaxDhtItems.toInt)
    (hr : (system settings).Reachable s) : s.maxItems = settings.dhtMaxDhtItems.toInt.toNat := by
  rw [maxItems_of_reachable hr, sizeT_toInt hmax]

/-- Between calls the tables are within the capacity, in any run that goes on. -/
theorem withinCapacity_of_reachable (hmax : 0 ≤ settings.dhtMaxDhtItems.toInt)
    (hr : (system settings).Reachable s) : WithinCapacity settings s := by
  obtain ⟨hist, ht⟩ := hr
  refine ht.history (fun _ => WithinCapacity settings) ⟨Nat.zero_le _, Nat.zero_le _⟩ ?_
  intro hist s ev s' ht hw ha hs
  exact hw.call (maxItems_eq_of_reachable hmax ⟨hist, ht⟩) ha hs

/-! ## the puts -/

/-- With room for an item, or something to evict, both puts are defined. -/
theorem exists_put (hpos : 1 ≤ s.maxItems) (hc : putsItem ev.call) : ∃ s', s.call ev = .ok s' := by
  rw [call]
  cases hcall : ev.call with
  | putImmutableItem target buf =>
      simp only [putImmutableItem]
      by_cases hin : target ∈ s.mImmutableItems
      · exact ⟨s, if_pos hin⟩
      · by_cases hfull : UnorderedMap.size s.mImmutableItems ≥ s.maxItems
        · have hne : UnorderedMap.size s.mImmutableItems ≠ 0 := by omega
          rw [if_neg hin, if_pos hfull, eraseBegin, if_neg hne]
          exact ⟨_, rfl⟩
        · rw [if_neg hin, if_neg hfull]
          exact ⟨_, rfl⟩
  | putMutableItem target buf sig seq pk salt =>
      simp only [putMutableItem]
      by_cases hold : s.stale target seq = true
      · exact ⟨s, if_pos hold⟩
      · by_cases hfull : UnorderedMap.size s.mMutableItems ≥ s.maxItems ∧ target ∉ s.mMutableItems
        · have hne : UnorderedMap.size s.mMutableItems ≠ 0 := by omega
          rw [if_neg hold, if_pos hfull, eraseBegin, if_neg hne]
          exact ⟨_, rfl⟩
        · rw [if_neg hold, if_neg hfull]
          exact ⟨_, rfl⟩
  | _ => simp [putsItem, hcall] at hc

/-- On an empty store for no items both puts erase the `begin()` of an empty
table. -/
theorem put_eq_eraseEnd (hmax : s.maxItems = 0) (hi : UnorderedMap.size s.mImmutableItems = 0)
    (hm : UnorderedMap.size s.mMutableItems = 0) (hc : putsItem ev.call) :
    s.call ev = .error .eraseEnd := by
  have hempty : ∀ {ν : Type} {m : UnorderedMap Sha1Hash ν} (k : Sha1Hash),
      UnorderedMap.size m = 0 → k ∉ m := by
    intro ν m k hz hin
    have hpos : 0 < m.keys.length := List.length_pos_of_mem (AList.mem_keys.mp hin)
    rw [UnorderedMap.size] at hz
    omega
  rw [call]
  cases hcall : ev.call with
  | putImmutableItem target buf =>
      have hfull : UnorderedMap.size s.mImmutableItems ≥ s.maxItems := by omega
      simp only [putImmutableItem]
      rw [if_neg (hempty target hi), if_pos hfull, eraseBegin, if_pos hi]
      rfl
  | putMutableItem target buf sig seq pk salt =>
      have hout := hempty target hm
      have hfull : UnorderedMap.size s.mMutableItems ≥ s.maxItems ∧ target ∉ s.mMutableItems :=
        ⟨by omega, hout⟩
      have hfresh : ¬ s.stale target seq = true := by
        rw [stale, AList.lookup_eq_none.mpr hout]
        exact Bool.false_ne_true
      simp only [putMutableItem]
      rw [if_neg hfresh, if_pos hfull, eraseBegin, if_pos hm]
      rfl
  | _ => simp [putsItem, hcall] at hc

/-- A call that returns keeps the capacity and what it has put. -/
theorem keepsCapacity_of_ok (hmax : 0 ≤ settings.dhtMaxDhtItems.toInt)
    (hr : (system settings).Reachable s) (ha : s.Admits ev) (h : s.call ev = .ok s') :
    KeepsCapacity settings s ev s' where
  before := withinCapacity_of_reachable hmax hr
  after := withinCapacity_of_reachable hmax (hr.step ha h)
  immutable_kept := by
    intro target buf hc hnew
    rw [call, hc] at h
    exact (lookup_putImmutableItem hnew h).1
  mutable_kept := by
    intro target buf sig seq pk salt hc hfresh
    rw [call, hc] at h
    obtain ⟨hstale, -⟩ | ⟨-, -, rfl⟩ | ⟨-, -, -, -, rfl⟩ := putMutableItem_cases h
    · exact absurd hstale hfresh
    · exact AList.lookup_insert _
    · exact AList.lookup_insert _
  present_kept := by
    intro target buf sig seq pk salt hc hin k
    rw [call, hc] at h
    obtain ⟨-, rfl⟩ | ⟨-, -, rfl⟩ | ⟨-, hnew, -, -, rfl⟩ := putMutableItem_cases h
    · exact Iff.rfl
    · have hiff : k = target ∨ k ∈ s.mMutableItems ↔ k ∈ s.mMutableItems := by
        constructor
        · intro hk
          exact hk.elim (fun heq => heq ▸ hin) id
        · exact Or.inr
      exact (AList.mem_insert _).trans hiff
    · exact absurd hin hnew

/-! ## whole runs -/

/-- Ticks alone can always run, and no table has anything then. -/
theorem exists_trace_ticks {hist : List Event} (hticks : ∀ ev ∈ hist, ev.call = .tick) :
    ∃ s, (system settings).Trace hist s := by
  induction hist using List.reverseRecOn with
  | nil => exact ⟨_, .nil⟩
  | append_singleton hist ev ih =>
      obtain ⟨s, ht⟩ := ih fun e he => hticks e (List.mem_append_left [ev] he)
      have hc : ev.call = .tick := hticks ev (by simp)
      have ha : s.Admits ev := by
        rw [Admits, hc]
        exact trivial
      have hs : s.call ev = .ok (s.tick ev.now) := by rw [call, hc]
      exact ⟨_, ht.snoc ha hs⟩

/-- The first put of a run of puts and ticks: only ticks precede it. -/
theorem exists_first_put {hist : List Event}
    (hcalls : ∀ ev ∈ hist, putsItem ev.call ∨ ev.call = .tick) (hev : ev ∈ hist)
    (hput : putsItem ev.call) : ∃ pre ev' post, hist = pre ++ ev' :: post ∧ putsItem ev'.call ∧
      ∀ e ∈ pre, e.call = .tick := by
  have hsome : (hist.find? fun ev => putsItem ev.call).isSome :=
    List.find?_isSome.mpr ⟨ev, hev, hput⟩
  obtain ⟨ev', hfind⟩ := Option.isSome_iff_exists.mp hsome
  obtain ⟨hput', pre, post, rfl, hpre⟩ := List.find?_eq_some_iff_append.mp hfind
  refine ⟨pre, ev', post, rfl, hput', ?_⟩
  intro e he
  exact (hcalls e (by simp [he])).resolve_left (by simpa using hpre e he)

/-- **The item capacity is respected unless it is zero.**  In a run of puts and
ticks, every call is defined, leaves both tables within `dht_max_dht_items` and
keeps what it has put, whatever `begin()` yields, if and only if the setting is
positive or the run puts no item. -/
theorem item_capacity_iff (settings : Settings) (hmax : 0 ≤ settings.dhtMaxDhtItems.toInt)
    (hist : List Event) (hcalls : ∀ ev ∈ hist, putsItem ev.call ∨ ev.call = .tick) :
    (system settings).Along (RespectsCapacity settings) hist ↔
      1 ≤ settings.dhtMaxDhtItems.toInt ∨ ∀ ev ∈ hist, ¬ putsItem ev.call := by
  constructor
  · intro halong
    by_contra hcond
    rw [not_or, not_forall] at hcond
    obtain ⟨hzero, ev₀, hev₀⟩ := hcond
    rw [Classical.not_imp, not_not] at hev₀
    obtain ⟨pre, ev, post, hh, hput, hticks⟩ := exists_first_put hcalls hev₀.1 hev₀.2
    obtain ⟨s, ht⟩ : ∃ s, (system settings).Trace pre s := exists_trace_ticks hticks
    have hw := withinCapacity_of_reachable hmax ⟨pre, ht⟩
    have hcap := maxItems_eq_of_reachable hmax ⟨pre, ht⟩
    have hi : UnorderedMap.size s.mImmutableItems = 0 := by
      have := hw.1
      omega
    have hm : UnorderedMap.size s.mMutableItems = 0 := by
      have := hw.2
      omega
    have ha : s.Admits ev := by
      rw [Admits]
      cases hc : ev.call with
      | putImmutableItem target buf => exact Or.inl hi
      | putMutableItem target buf sig seq pk salt => exact Or.inl hm
      | _ => simp [putsItem, hc] at hput
    obtain ⟨s', hs', -⟩ := halong pre ev post s hh ht ha
    rw [put_eq_eraseEnd (by omega) hi hm hput] at hs'
    cases hs'
  · intro hcond pre ev post s hh ht ha
    have hr : (system settings).Reachable s := ⟨pre, ht⟩
    have hev : ev ∈ hist := by simp [hh]
    have hdefined : ∃ s', s.call ev = .ok s' := by
      by_cases hput : putsItem ev.call
      · cases hcond with
        | inl hpos =>
            have hcap := maxItems_eq_of_reachable hmax hr
            exact exists_put (by omega) hput
        | inr hnone => exact absurd hput (hnone ev hev)
      · have hc := (hcalls ev hev).resolve_left hput
        exact ⟨s.tick ev.now, by rw [call, hc]⟩
    obtain ⟨s', hs'⟩ := hdefined
    exact ⟨s', hs', keepsCapacity_of_ok hmax hr ha hs'⟩

theorem item_capacity_oneItem :
    (system oneItem).Along (RespectsCapacity oneItem) [firstPut, secondPut] :=
  (item_capacity_iff oneItem (by decide) [firstPut, secondPut] (by decide)).mpr (Or.inl (by decide))

/-- A store for no items. -/
def noItems : Settings := ⟨20, 2000, 0⟩

/-- Its first put is admitted and undefined. -/
theorem item_capacity_noItems :
    0 ≤ noItems.dhtMaxDhtItems.toInt ∧ (MemoryDhtStorage.ofSettings noItems).Admits firstPut ∧
      (MemoryDhtStorage.ofSettings noItems).call firstPut = .error .eraseEnd ∧
      ¬ (system noItems).Along (RespectsCapacity noItems) [firstPut] := by
  have ha : (MemoryDhtStorage.ofSettings noItems).Admits firstPut := Or.inl rfl
  have hfail : (MemoryDhtStorage.ofSettings noItems).call firstPut = .error .eraseEnd := rfl
  refine ⟨by decide, ha, hfail, fun halong => ?_⟩
  obtain ⟨s', hs', -⟩ := halong [] firstPut [] _ rfl .nil ha
  rw [show (system noItems).init = .ofSettings noItems from rfl, hfail] at hs'
  cases hs'

end BtDht.MyDhtStorage
