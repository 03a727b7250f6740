import BtDht.MyDhtStorage2.Refines
import Mathlib.Data.Set.Card

/-!
# BtDht.MyDhtStorage.Counters

The numbers the store reports.  `counters` counts in `int32_t` and
`num_torrents` and `num_peers` in `std::size_t`, each by its own loop.  In the
states of a run they agree and are the sizes of what is stored
(`counters_of_reachable`): the limits of the settings keep three of the four
numbers within `int32_t`, but nothing limits the peers of a torrent.
-/

namespace BtDht.MyDhtStorage

open PeerTable MemoryDhtStorage

namespace MemoryDhtStorage

def numTorrents (s : MemoryDhtStorage) : Nat := UnorderedMap.size s.mPeers

def numPeers (s : MemoryDhtStorage) : Nat :=
  s.mPeers.entries.foldl (fun total e => sizeT (total + e.2.length : Nat)) 0

end MemoryDhtStorage

/-- The stored (info-hash, endpoint) pairs. -/
def storedPairs (s : MemoryDhtStorage) : Set (Sha1Hash × Endpoint) :=
  {p | p.2 ∈ (peersOf s.mPeers p.1).map PeerRecord.endpoint}

variable {settings : Settings} {s : MemoryDhtStorage}

/-- The full store keeps its peers as the slim one does. -/
theorem peers_of_reachable (hr : (system settings).Reachable s) :
    s.mPeers.WellFormed ∧ UnorderedMap.size s.mPeers ≤ sizeT settings.dhtMaxTorrents.toInt := by
  obtain ⟨hist, ht⟩ := hr
  obtain ⟨hist', t, -, ht', hst⟩ :=
    System.Trace.simulated (S := MyDhtStorage2.system settings)
      (fun t s => MyDhtStorage2.Agree s t) (fun ev ev' => ev = ev') (MyDhtStorage2.agree_init settings)
      (fun t s ev s' _ hst ha hs => by
        obtain ⟨t', ha', ht', hst'⟩ := hst.exists_slim_step ha hs
        exact ⟨ev, t', rfl, ha', ht', hst'⟩) ht
  have hi := MyDhtStorage2.Invariant.of_reachable ⟨hist', ht'⟩
  rw [hst.peers_eq]
  exact ⟨hi.wellFormed, hi.size_le⟩

theorem ncard_storedPairs (hwf : s.mPeers.WellFormed) :
    (storedPairs s).ncard = (pairs s.mPeers).length := by
  have hset : storedPairs s = ((pairs s.mPeers).toFinset : Set (Sha1Hash × Endpoint)) := by
    ext ⟨h, e⟩
    rw [List.coe_toFinset, Set.mem_ofPred_eq, mem_pairs]
    rfl
  rw [hset, Set.ncard_coe_finset, List.toFinset_card_of_nodup hwf.nodup_pairs]

/-- While the total fits a `std::size_t`, the loop counts the pairs. -/
theorem numPeers_eq (h : (pairs s.mPeers).length < 2 ^ 64) :
    s.numPeers = (pairs s.mPeers).length := by
  have hloop : ∀ (entries : List (Sigma fun _ : Sha1Hash => List PeerRecord)) (total : Nat),
      total + (entries.flatMap fun e => e.2.map fun p => (e.1, p.endpoint)).length < 2 ^ 64 →
      entries.foldl (fun total e => sizeT (total + e.2.length : Nat)) total =
        total + (entries.flatMap fun e => e.2.map fun p => (e.1, p.endpoint)).length := by
    intro entries
    induction entries with
    | nil => simp
    | cons e entries ih =>
        intro total hlt
        rw [List.flatMap_cons, List.length_append, List.length_map] at hlt ⊢
        have hstep : sizeT (total + e.2.length : Nat) = total + e.2.length := by
          rw [sizeT]
          omega
        rw [List.foldl_cons, hstep, ih (total + e.2.length) (by omega), Nat.add_assoc]
  have h0 := hloop s.mPeers.entries 0 (by rw [Nat.zero_add]; exact h)
  rwa [Nat.zero_add] at h0

/-- Every torrent has a peer. -/
theorem size_le_length_pairs {mPeers : PeerTable} (hwf : mPeers.WellFormed) :
    UnorderedMap.size mPeers ≤ (pairs mPeers).length := by
  have hkeys : ∀ h ∈ mPeers, h ∈ (pairs mPeers).map Prod.fst := by
    intro h hk
    obtain ⟨r, hr⟩ := List.exists_mem_of_ne_nil _ (hwf.mem_iff.mp hk)
    exact List.mem_map.mpr ⟨(h, r.endpoint), mem_pairs.mpr (List.mem_map_of_mem hr), rfl⟩
  have hle := UnorderedMap.size_le_of_forall_mem hkeys
  rwa [List.length_map] at hle

/-- A size within a limit of the settings survives the narrowing. -/
theorem int32_of_le_limit {n : Nat} {limit : Int32} (h0 : 0 ≤ limit.toInt)
    (hn : n ≤ limit.toInt.toNat) : int32 n = n ∧ (n : Int) ≤ limit.toInt := by
  have hlt := limit.toInt_lt
  exact ⟨int32_eq_self (by omega) (by omega), by omega⟩

/-- What the store reports is what it holds, within its limits. -/
structure ReportsHeld (settings : Settings) (s : MemoryDhtStorage) : Prop where
  torrents : s.counters.torrents = s.numTorrents ∧ s.numTorrents ≤ settings.dhtMaxTorrents.toInt
  immutableData : s.counters.immutableData = UnorderedMap.size s.mImmutableItems ∧
    s.counters.immutableData ≤ settings.dhtMaxDhtItems.toInt
  mutableData : s.counters.mutableData = UnorderedMap.size s.mMutableItems ∧
    s.counters.mutableData ≤ settings.dhtMaxDhtItems.toInt
  /-- no torrent is without peers -/
  hasPeer : ∀ infoHash list, s.mPeers.lookup infoHash = some list → list ≠ []
  numPeers : (storedPairs s).ncard < 2 ^ 64 →
    s.numPeers = (storedPairs s).ncard ∧ s.numTorrents ≤ s.numPeers
  peers : (storedPairs s).ncard < 2 ^ 31 → s.counters.peers = s.numPeers

/-- **The counters.**  In every state a run reaches, with whatever evictions and
ticks, `counters`, `num_torrents` and `num_peers` report what is stored, as long
as the peers can be counted in the type at all. -/
theorem counters_of_reachable (settings : Settings) (hmax : 0 ≤ settings.dhtMaxTorrents.toInt)
    (hitems : 0 ≤ settings.dhtMaxDhtItems.toInt) (hr : (system settings).Reachable s) :
    ReportsHeld settings s := by
  obtain ⟨hwf, hsize⟩ := peers_of_reachable hr
  obtain ⟨himmutable, hmutable⟩ := withinCapacity_of_reachable hitems hr
  rw [sizeT_toInt hmax] at hsize
  obtain ⟨htorrents, htorrents_le⟩ := int32_of_le_limit hmax hsize
  obtain ⟨hi, hi_le⟩ := int32_of_le_limit hitems himmutable
  obtain ⟨hm, hm_le⟩ := int32_of_le_limit hitems hmutable
  constructor
  · simp only [counters, PeerTable.torrents, numTorrents, htorrents, htorrents_le, and_self]
  · simp only [counters, hi, hi_le, and_self]
  · simp only [counters, hm, hm_le, and_self]
  · exact hwf.ne_nil
  · rw [ncard_storedPairs hwf]
    intro h
    rw [numPeers_eq h]
    exact ⟨rfl, size_le_length_pairs hwf⟩
  · rw [ncard_storedPairs hwf]
    intro h
    rw [numPeers_eq (by omega)]
    exact totalPeers_eq h

/-- The store for one item after an announcement and a put. -/
def oneItemOnePeer : MemoryDhtStorage :=
  { MemoryDhtStorage.ofSettings oneItem with
    mPeers := AList.singleton (.fill 20 1) [⟨⟨.v4 1, 6881⟩, false, [], 0⟩]
    mImmutableItems := AList.singleton (.fill 20 1) [105, 49, 101]
    mImmutableSeen := AList.singleton (.fill 20 1) 0 }

theorem counters_oneItemOnePeer : ReportsHeld oneItem oneItemOnePeer := by
  have ht : (system oneItem).Trace [MyDhtStorage2.firstAnnouncement, firstPut] oneItemOnePeer :=
    System.trace_of_run rfl
  exact counters_of_reachable oneItem (by decide) (by decide) ⟨_, ht⟩

end BtDht.MyDhtStorage
