import BtDht.Data.Product
import BtDht.MyDhtStorage2.Refines

/-!
# BtDht.MyDhtStorage.Components

The store is four stores in one: the node's ids, the peers, the immutable
items with their times, and the mutable items.  Each call is for one of them,
except `tick`, which goes through three; and no eviction or expiry in one of
them depends on another (`store_is_product`).
-/

namespace BtDht.MyDhtStorage

open PeerTable MemoryDhtStorage

/-! ## the components -/

/-- The settings and `m_node_ids`. -/
abbrev Header := (Int32 × Int32 × Int32) × List Sha1Hash

def headers (settings : Settings) : System Header Event UndefinedBehavior where
  init := ((settings.dhtMaxPeersReply, settings.dhtMaxTorrents, settings.dhtMaxDhtItems), [])
  allowed _ _ := True
  step t ev :=
    match ev.call with
    | .updateNodeIds ids => .ok (t.1, ids)
    | _ => .ok t

/-- `m_peers` -/
def peers (settings : Settings) : System PeerTable Event UndefinedBehavior where
  init := ∅
  allowed t ev :=
    match ev.call with
    | .announcePeer infoHash _ _ _ => MayBegin t infoHash ev.first
    | _ => True
  step t ev := MyDhtStorage2.peersCall (sizeT settings.dhtMaxTorrents.toInt) ev t

/-- `m_immutable_items` and `m_immutable_seen` -/
abbrev ImmutableTables := UnorderedMap Sha1Hash Bytes × UnorderedMap Sha1Hash TimePoint

def immutables (settings : Settings) : System ImmutableTables Event UndefinedBehavior where
  init := (∅, ∅)
  allowed t ev :=
    match ev.call with
    | .putImmutableItem _ _ => UnorderedMap.size t.1 = 0 ∨ ev.first ∈ t.1
    | _ => True
  step t ev :=
    match ev.call with
    | .putImmutableItem target buf =>
        if target ∈ t.1 then .ok t
        else
          (if UnorderedMap.size t.1 ≥ sizeT settings.dhtMaxDhtItems.toInt then
            eraseBegin t.1 ev.first
          else .ok t.1).map fun items => (UnorderedMap.emplace items target buf, t.2.insert target ev.now)
    | .tick =>
        let immutable := UnorderedMap.sweepBoth (seenExpired ev.now) t.2 t.1
        .ok (immutable.2, immutable.1)
    | _ => .ok t

/-- `m_mutable_items` -/
abbrev MutableTable := UnorderedMap Sha1Hash MutableItemRecord

def mutables (settings : Settings) : System MutableTable Event UndefinedBehavior where
  init := ∅
  allowed t ev :=
    match ev.call with
    | .putMutableItem .. => UnorderedMap.size t = 0 ∨ ev.first ∈ t
    | _ => True
  step t ev :=
    match ev.call with
    | .putMutableItem target buf sig seq pk salt =>
        if (t.lookup target).any fun found => seq ≤ found.sequence then .ok t
        else
          (if UnorderedMap.size t ≥ sizeT settings.dhtMaxDhtItems.toInt ∧ target ∉ t then
            eraseBegin t ev.first
          else .ok t).map fun items => items.insert target ⟨buf, sig, seq, pk, salt, ev.now⟩
    | .tick => .ok (UnorderedMap.sweep
        (fun _ rec => if ev.now - rec.seenAt > kItemTtl then none else some rec) t)
    | _ => .ok t

/-! ## the store taken apart -/

def components (settings : Settings) :
    System (Header × PeerTable × ImmutableTables × MutableTable) Event UndefinedBehavior :=
  (headers settings).prod ((peers settings).prod ((immutables settings).prod (mutables settings)))

def split (s : MemoryDhtStorage) : Header × PeerTable × ImmutableTables × MutableTable :=
  (((s.mMaxPeersReply, s.mMaxTorrents, s.mMaxItems), s.mNodeIds), s.mPeers,
    (s.mImmutableItems, s.mImmutableSeen), s.mMutableItems)

theorem split_injective : Function.Injective split := by
  intro s s' h
  obtain ⟨⟩ := s
  obtain ⟨⟩ := s'
  simp only [split, Prod.mk.injEq] at h
  grind

variable {settings : Settings} {s : MemoryDhtStorage} {ev : Event}

theorem admits_iff_components :
    s.Admits ev ↔ (components settings).allowed (split s) ev := by
  obtain ⟨now, first, call⟩ := ev
  cases call with
  | announcePeer infoHash endp name seed =>
      exact ⟨fun h => ⟨trivial, h, trivial, trivial⟩, fun h => h.2.1⟩
  | putImmutableItem target buf =>
      exact ⟨fun h => ⟨trivial, trivial, h, trivial⟩, fun h => h.2.2.1⟩
  | putMutableItem target buf sig seq pk salt =>
      exact ⟨fun h => ⟨trivial, trivial, trivial, h⟩, fun h => h.2.2.2⟩
  | _ => exact ⟨fun _ => ⟨trivial, trivial, trivial, trivial⟩, fun _ => trivial⟩

theorem mMaxTorrents_of_reachable (hr : (system settings).Reachable s) :
    s.mMaxTorrents = settings.dhtMaxTorrents := by
  refine hr.invariant (fun s => s.mMaxTorrents = settings.dhtMaxTorrents) rfl ?_
  exact fun s ev s' h _ hs => (MyDhtStorage2.peersCall_of_call hs).2.2.trans h

/-- On a reachable state, a call is a call of the components. -/
theorem call_eq_components (hr : (system settings).Reachable s) :
    (s.call ev).map split = (components settings).step (split s) ev := by
  have htorrents := mMaxTorrents_of_reachable hr
  have hitems := maxItems_of_reachable hr
  obtain ⟨now, first, call⟩ := ev
  cases call with
  | announcePeer infoHash endp name seed =>
      simp only [MemoryDhtStorage.call, MemoryDhtStorage.announcePeer, components, System.prod,
        headers, peers, immutables, mutables, split, MyDhtStorage2.peersCall, htorrents]
      cases PeerTable.announcePeer (sizeT settings.dhtMaxTorrents.toInt) now first infoHash endp name
        seed s.mPeers <;> rfl
  | putImmutableItem target buf =>
      simp only [MemoryDhtStorage.call, MemoryDhtStorage.putImmutableItem, components, System.prod,
        headers, peers, immutables, mutables, split, MyDhtStorage2.peersCall, hitems]
      by_cases hin : target ∈ s.mImmutableItems
      · rw [if_pos hin, if_pos hin]
        rfl
      · rw [if_neg hin, if_neg hin]
        by_cases hfull : UnorderedMap.size s.mImmutableItems ≥ sizeT settings.dhtMaxDhtItems.toInt
        · rw [if_pos hfull, if_pos hfull]
          cases eraseBegin s.mImmutableItems first <;> rfl
        · rw [if_neg hfull, if_neg hfull]
          rfl
  | putMutableItem target buf sig seq pk salt =>
      have hstale : (s.mMutableItems.lookup target).any (fun found => seq ≤ found.sequence) =
          s.stale target seq := by
        rw [stale]
        cases s.mMutableItems.lookup target <;> rfl
      simp only [MemoryDhtStorage.call, MemoryDhtStorage.putMutableItem, components, System.prod,
        headers, peers, immutables, mutables, split, MyDhtStorage2.peersCall, hitems, hstale]
      by_cases hin : s.stale target seq
      · rw [if_pos hin, if_pos hin]
        rfl
      · rw [if_neg hin, if_neg hin]
        by_cases hfull : UnorderedMap.size s.mMutableItems ≥
            sizeT settings.dhtMaxDhtItems.toInt ∧ target ∉ s.mMutableItems
        · rw [if_pos hfull, if_pos hfull]
          cases eraseBegin s.mMutableItems first <;> rfl
        · rw [if_neg hfull, if_neg hfull]
          rfl
  | _ => rfl

/-! ## what concerns which component -/

def setsIds (ev : Event) : Bool :=
  match ev.call with
  | .updateNodeIds _ => true
  | _ => false

def concernsPeers (ev : Event) : Bool :=
  match ev.call with
  | .announcePeer .. | .tick => true
  | _ => false

def concernsImmutable (ev : Event) : Bool :=
  match ev.call with
  | .putImmutableItem .. | .tick => true
  | _ => false

def concernsMutable (ev : Event) : Bool :=
  match ev.call with
  | .putMutableItem .. | .tick => true
  | _ => false

theorem headers_ignores (settings : Settings) : (headers settings).Ignores setsIds := by
  rintro t ⟨now, first, call⟩ h
  cases call <;> simp_all [headers, setsIds]

theorem peers_ignores (settings : Settings) : (peers settings).Ignores concernsPeers := by
  rintro t ⟨now, first, call⟩ h
  cases call <;> simp_all [peers, concernsPeers, MyDhtStorage2.peersCall]

theorem immutables_ignores (settings : Settings) :
    (immutables settings).Ignores concernsImmutable := by
  rintro t ⟨now, first, call⟩ h
  cases call <;> simp_all [immutables, concernsImmutable]

theorem mutables_ignores (settings : Settings) : (mutables settings).Ignores concernsMutable := by
  rintro t ⟨now, first, call⟩ h
  cases call <;> simp_all [mutables, concernsMutable]

/-- **The tables do not interfere.**  Some calls bring the store to a state
exactly if its ids, its peers, its immutable and its mutable items each get
there by the calls that concern them.  So how announcements and puts of either
kind interleave makes no difference, and neither do the reads. -/
theorem store_is_product (settings : Settings) (hist : List Event) (s : MemoryDhtStorage) :
    (system settings).Trace hist s ↔
      (headers settings).Trace (hist.filter setsIds)
        ((s.mMaxPeersReply, s.mMaxTorrents, s.mMaxItems), s.mNodeIds) ∧
      (peers settings).Trace (hist.filter concernsPeers) s.mPeers ∧
      (immutables settings).Trace (hist.filter concernsImmutable)
        (s.mImmutableItems, s.mImmutableSeen) ∧
      (mutables settings).Trace (hist.filter concernsMutable) s.mMutableItems := by
  rw [System.trace_iff_of_split (T := components settings) split_injective rfl
    (fun _ _ _ => admits_iff_components) fun _ _ hr => call_eq_components hr]
  rw [split, components, System.trace_prod_iff, System.trace_prod_iff, System.trace_prod_iff,
    (headers_ignores settings).trace_filter_iff, (peers_ignores settings).trace_filter_iff,
    (immutables_ignores settings).trace_filter_iff, (mutables_ignores settings).trace_filter_iff]

end BtDht.MyDhtStorage
