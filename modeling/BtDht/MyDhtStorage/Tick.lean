import BtDht.MyDhtStorage.Immutable
import BtDht.MyDhtStorage.Polling

/-!
# BtDht.MyDhtStorage.Tick

What `tick` keeps.  Its three loops walk the peers, the arrival times of the
immutable items and the mutable items, and each entry is kept or not by its own
age (`tick_exact`).  What is too old stays too old, so a tick undoes nothing an
earlier one has done and does again what it did (`tick_absorbs`): how often the
session ticks does not show in the store.  Nor does the order in which the
loops come to the entries (`sameTables_tickIn`).
-/

namespace BtDht.MyDhtStorage

open PeerTable MemoryDhtStorage UnorderedMap

variable {s : MemoryDhtStorage} {now earlier later : TimePoint}

/-! ## one tick -/

/-- `s'` holds what of `s` is not too old at `now`, and nothing else.  Every
immutable item goes by its arrival time. -/
structure KeepsRecent (now : TimePoint) (s s' : MemoryDhtStorage) : Prop where
  peers : ∀ infoHash list', s'.mPeers.lookup infoHash = some list' ↔
    ∃ list, s.mPeers.lookup infoHash = some list ∧ list' ≠ [] ∧
      list' = list.filter fun p => now - p.seenAt ≤ minutes 30
  immutableItems : ∀ target buf, s'.mImmutableItems.lookup target = some buf ↔
    s.mImmutableItems.lookup target = some buf ∧
      ∃ seenAt, s.mImmutableSeen.lookup target = some seenAt ∧ now - seenAt ≤ hours 2
  immutableSeen : ∀ target seenAt, s'.mImmutableSeen.lookup target = some seenAt ↔
    s.mImmutableSeen.lookup target = some seenAt ∧ now - seenAt ≤ hours 2
  mutableItems : ∀ target rec, s'.mMutableItems.lookup target = some rec ↔
    s.mMutableItems.lookup target = some rec ∧ now - rec.seenAt ≤ hours 2

theorem not_expired_eq (now : TimePoint) (p : PeerRecord) :
    (!expired now p) = decide (now - p.seenAt ≤ minutes 30) := by
  simp [expired, kPeerTtl, ← decide_not]

theorem not_seenExpired_eq (now seenAt : TimePoint) :
    (!seenExpired now seenAt) = decide (now - seenAt ≤ hours 2) := by
  simp [seenExpired, kItemTtl, ← decide_not]

/-- An item with an arrival time is kept by that time. -/
theorem lookup_items_tick_eq_some_iff {target : Sha1Hash} {buf : Bytes}
    (hseen : target ∈ s.mImmutableItems → target ∈ s.mImmutableSeen) :
    (s.tick now).mImmutableItems.lookup target = some buf ↔
      s.mImmutableItems.lookup target = some buf ∧
        ∃ seenAt, s.mImmutableSeen.lookup target = some seenAt ∧ now - seenAt ≤ hours 2 := by
  rw [lookup_items_tick]
  cases hs : s.mImmutableSeen.lookup target with
  | none =>
      have hout : s.mImmutableItems.lookup target = none :=
        AList.lookup_eq_none.mpr fun hin => AList.lookup_eq_none.mp hs (hseen hin)
      simp [hout]
  | some seenAt =>
      have hkept := not_seenExpired_eq now seenAt
      have hown : (∃ t, some seenAt = some t ∧ now - t ≤ hours 2) ↔ now - seenAt ≤ hours 2 := by
        simp only [Option.some.injEq, exists_eq_left']
      rw [hown, Option.any_some]
      cases hdead : seenExpired now seenAt with
      | false =>
          rw [hdead] at hkept
          have hage := of_decide_eq_true hkept.symm
          simp only [Bool.false_eq_true, if_false, hage, and_true]
      | true =>
          rw [hdead] at hkept
          have hage := of_decide_eq_false hkept.symm
          simp only [if_true, hage, and_false, reduceCtorEq]

/-- A tick goes by age alone. -/
theorem tick_exact (hseen : ∀ target, target ∈ s.mImmutableItems → target ∈ s.mImmutableSeen)
    (now : TimePoint) : KeepsRecent now s (s.tick now) where
  peers infoHash list' := by
    simp only [← not_expired_eq]
    exact lookup_tick_eq_some_iff
  immutableItems target buf := lookup_items_tick_eq_some_iff (hseen target)
  immutableSeen target seenAt := by
    rw [lookup_seen_tick, Option.filter_eq_some_iff, not_seenExpired_eq, decide_eq_true_iff]
  mutableItems target rec := lookup_mutable_tick_eq_some_iff

/-! ## the order of the loops -/

/-- The four tables are the same. -/
structure SameTables (s s' : MemoryDhtStorage) : Prop where
  peers : Same s.mPeers s'.mPeers
  immutableItems : Same s.mImmutableItems s'.mImmutableItems
  immutableSeen : Same s.mImmutableSeen s'.mImmutableSeen
  mutableItems : Same s.mMutableItems s'.mMutableItems

/-- `tick` with the orders in which its loops walk the three tables. -/
def tickIn (now : TimePoint) (peers seen mutableItems : List Sha1Hash) (s : MemoryDhtStorage) :
    MemoryDhtStorage :=
  let immutable := sweepBothOver (seenExpired now) seen s.mImmutableSeen s.mImmutableItems
  { s with
    mPeers := sweepOver (fun _ => tickList now) peers s.mPeers
    mImmutableItems := immutable.2
    mImmutableSeen := immutable.1
    mMutableItems := sweepOver
      (fun _ rec => if now - rec.seenAt > kItemTtl then none else some rec) mutableItems
      s.mMutableItems }

/-- The tables are unordered: in whatever order a tick comes to their entries,
it leaves the same ones. -/
theorem sameTables_tickIn {peers seen mutableItems : List Sha1Hash} (hpeers : peers.Perm s.mPeers.keys)
    (hseen : seen.Perm s.mImmutableSeen.keys) (hmutable : mutableItems.Perm s.mMutableItems.keys)
    (now : TimePoint) : SameTables (tickIn now peers seen mutableItems s) (s.tick now) := by
  obtain ⟨hseen, hitems⟩ := same_sweepBothOver (seenExpired now) s.mImmutableItems hseen
  exact ⟨same_sweepOver _ hpeers, hitems, hseen, same_sweepOver _ hmutable⟩

/-! ## two ticks -/

/-- A record that has expired stays expired. -/
theorem expired_of_le (hle : earlier ≤ later) {p : PeerRecord} (h : expired earlier p) :
    expired later p := by
  simp only [expired, decide_eq_true_iff] at h ⊢
  exact lt_of_lt_of_le h (Int.sub_le_sub_right hle p.seenAt)

theorem seenExpired_of_le (hle : earlier ≤ later) {seenAt : TimePoint}
    (h : seenExpired earlier seenAt) : seenExpired later seenAt := by
  simp only [seenExpired, decide_eq_true_iff] at h ⊢
  exact lt_of_lt_of_le h (Int.sub_le_sub_right hle seenAt)

theorem filter_expired_of_le (hle : earlier ≤ later) (list : List PeerRecord) :
    ((list.filter fun p => !expired earlier p).filter fun p => !expired later p) =
      list.filter fun p => !expired later p := by
  rw [List.filter_filter]
  apply List.filter_congr
  intro p _
  cases h : expired earlier p with
  | false => simp
  | true => simp [expired_of_le hle h]

theorem tickList_bind_tickList (hle : earlier ≤ later) (list : List PeerRecord) :
    (tickList earlier list).bind (tickList later) = tickList later list := by
  have hfilter := filter_expired_of_le hle list
  by_cases hnil : (list.filter fun p => !expired earlier p) = []
  · rw [hnil] at hfilter
    simp [tickList, hnil, ← hfilter]
  · have hsome : tickList earlier list = some (list.filter fun p => !expired earlier p) :=
      if_neg (by simpa using hnil)
    rw [hsome, Option.bind_some, tickList, hfilter, tickList]

/-- A tick makes up for those left out before it. -/
theorem tick_absorbs (s : MemoryDhtStorage) (hle : earlier ≤ later) :
    SameTables ((s.tick earlier).tick later) (s.tick later) := by
  obtain ⟨hseen, hitems⟩ := same_sweepBoth_sweepBoth
    (fun _ => seenExpired_of_le hle) s.mImmutableSeen s.mImmutableItems
  refine ⟨same_sweep_sweep (fun _ => tickList_bind_tickList hle) s.mPeers, hitems, hseen,
    same_sweep_sweep (fun _ rec => ?_) s.mMutableItems⟩
  by_cases hold : earlier - rec.seenAt > kItemTtl
  · have hlate : later - rec.seenAt > kItemTtl :=
      lt_of_lt_of_le hold (Int.sub_le_sub_right hle rec.seenAt)
    simp [hold, hlate]
  · simp [hold]

/-- **A tick removes what is too old, and earlier ticks do not matter.**  If
every immutable item has an arrival time, a tick keeps exactly the peers seen
in the last 30 minutes, in their order, with no list left empty, and the items
not older than two hours.  A tick before it, at an earlier time or at the same
time, changes nothing in what it leaves. -/
theorem tick_exact_and_absorbing
    (hseen : ∀ target, target ∈ s.mImmutableItems → target ∈ s.mImmutableSeen)
    (hle : earlier ≤ later) :
    KeepsRecent earlier s (s.tick earlier) ∧
      SameTables ((s.tick earlier).tick later) (s.tick later) :=
  ⟨tick_exact hseen earlier, tick_absorbs s hle⟩

/-- One peer and one item of time 0, and a peer of one hour later. -/
def twoPeers : MemoryDhtStorage :=
  { MemoryDhtStorage.ofSettings oneItem with
    mPeers := AList.singleton (.fill 20 1)
      [⟨⟨.v4 1, 6881⟩, false, [], 0⟩, ⟨⟨.v4 2, 6881⟩, true, [97], hours 1⟩]
    mImmutableItems := AList.singleton (.fill 20 1) [105, 49, 101]
    mImmutableSeen := AList.singleton (.fill 20 1) 0 }

theorem tick_exact_and_absorbing_twoPeers :
    KeepsRecent (hours 1) twoPeers (twoPeers.tick (hours 1)) ∧
      SameTables ((twoPeers.tick (hours 1)).tick (hours 3)) (twoPeers.tick (hours 3)) := by
  apply tick_exact_and_absorbing _ (by decide)
  intro target hin
  exact hin

end BtDht.MyDhtStorage
