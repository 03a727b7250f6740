import BtDht.Data.System
import BtDht.Storage.Replies

/-!
# BtDht.MyDhtStorage2

`mydhtstorage2.cpp`: the `MemoryDhtStorage` the program installs.  It keeps
peers only; every put of an item is ignored and every read of one is refused.

The store as a `System`: any run of calls, with any clock readings and any
choice `begin()` leaves open.  The main results:

* `announcePeer_kept_iff` — an announcement survives its own call exactly
  when the eviction it may cause does not hit the announced hash itself;
* `peers_wellFormed` — the representation invariant of `m_peers`, and that
  announcing to a known hash touches no other list.
-/

namespace BtDht.MyDhtStorage2

open PeerTable

/-! ## the store -/

/-- `class MemoryDhtStorage` -/
structure MemoryDhtStorage where
  mMaxPeersReply : Int32
  mMaxTorrents : Int32
  mMaxItems : Int32
  mPeers : PeerTable

/-- The constructor. -/
def MemoryDhtStorage.ofSettings (settings : Settings) : MemoryDhtStorage :=
  ⟨settings.dhtMaxPeersReply, settings.dhtMaxTorrents, settings.dhtMaxDhtItems, ∅⟩

namespace MemoryDhtStorage

def updateNodeIds (_ids : List Sha1Hash) (s : MemoryDhtStorage) : MemoryDhtStorage := s

def announcePeer (s : MemoryDhtStorage) (now : TimePoint) (first infoHash : Sha1Hash)
    (endp : Endpoint) (name : Bytes) (seed : Bool) :
    Except UndefinedBehavior MemoryDhtStorage :=
  (PeerTable.announcePeer (sizeT s.mMaxTorrents.toInt) now first infoHash endp name seed
    s.mPeers).map fun mPeers => { s with mPeers := mPeers }

def putImmutableItem (_target : Sha1Hash) (_buf : Bytes) (s : MemoryDhtStorage) :
    MemoryDhtStorage := s

def putMutableItem (_target : Sha1Hash) (_buf : Bytes) (_sig : Signature) (_seq : SequenceNumber)
    (_pk : PublicKey) (_salt : Bytes) (s : MemoryDhtStorage) : MemoryDhtStorage := s

def tick (now : TimePoint) (s : MemoryDhtStorage) : MemoryDhtStorage :=
  { s with mPeers := PeerTable.tick now s.mPeers }

def counters (s : MemoryDhtStorage) : DhtStorageCounters :=
  ⟨s.mPeers.torrents, s.mPeers.totalPeers, 0, 0⟩

/-! ### reads -/

/-- `get_peers`; a scrape writes nothing. -/
def getPeers (toString : Address → Bytes) (s : MemoryDhtStorage) (infoHash : Sha1Hash)
    (noseed scrape : Bool) (peers : Item) : Bool × Item :=
  match s.mPeers.lookup infoHash with
  | none => (false, peers)
  | some found =>
      if scrape then (false, peers)
      else replyPeers toString s.mMaxPeersReply noseed found peers

def getImmutableItem (_s : MemoryDhtStorage) (_target : Sha1Hash) (item : Item) : Bool × Item :=
  (false, item)

def getMutableItemSeq (_s : MemoryDhtStorage) (_target : Sha1Hash) (seq : SequenceNumber) :
    Bool × SequenceNumber :=
  (false, seq)

def getMutableItem (_s : MemoryDhtStorage) (_target : Sha1Hash) (_seq : SequenceNumber)
    (_forceFill : Bool) (item : Item) : Bool × Item :=
  (false, item)

/-- `get_infohashes_sample`, with the order in which `m_peers` is traversed. -/
def getInfohashesSample (s : MemoryDhtStorage) (order : List Sha1Hash) (item : Item) : Int × Item :=
  infohashesSample order s.mPeers item

/-! ### calls -/

/-- The state a call leaves; the reads leave it alone. -/
def call (s : MemoryDhtStorage) (ev : Event) : Except UndefinedBehavior MemoryDhtStorage :=
  match ev.call with
  | .updateNodeIds ids => .ok (s.updateNodeIds ids)
  | .announcePeer infoHash endp name seed =>
      s.announcePeer ev.now ev.first infoHash endp name seed
  | .putImmutableItem target buf => .ok (s.putImmutableItem target buf)
  | .putMutableItem target buf sig seq pk salt => .ok (s.putMutableItem target buf sig seq pk salt)
  | .tick => .ok (s.tick ev.now)
  | .getPeers .. | .getImmutableItem .. | .getMutableItemSeq .. | .getMutableItem ..
  | .getInfohashesSample | .counters => .ok s

/-- Only `announce_peer` consults `begin()`. -/
def Admits (s : MemoryDhtStorage) (ev : Event) : Prop :=
  match ev.call with
  | .announcePeer infoHash _ _ _ => MayBegin s.mPeers infoHash ev.first
  | _ => True

instance (s : MemoryDhtStorage) : (ev : Event) → Decidable (s.Admits ev)
  | ⟨_, first, .announcePeer infoHash _ _ _⟩ =>
      inferInstanceAs (Decidable (MayBegin s.mPeers infoHash first))
  | ⟨_, _, .updateNodeIds _⟩ | ⟨_, _, .getPeers ..⟩ | ⟨_, _, .getImmutableItem _⟩
  | ⟨_, _, .putImmutableItem ..⟩ | ⟨_, _, .getMutableItemSeq _⟩ | ⟨_, _, .getMutableItem ..⟩
  | ⟨_, _, .putMutableItem ..⟩ | ⟨_, _, .getInfohashesSample⟩ | ⟨_, _, .tick⟩
  | ⟨_, _, .counters⟩ => inferInstanceAs (Decidable True)

end MemoryDhtStorage

/-- The store over any run of calls. -/
def system (settings : Settings) : System MemoryDhtStorage Event UndefinedBehavior where
  init := .ofSettings settings
  allowed := MemoryDhtStorage.Admits
  step := MemoryDhtStorage.call

instance (settings : Settings) (s : MemoryDhtStorage) (ev : Event) :
    Decidable ((system settings).allowed s ev) :=
  inferInstanceAs (Decidable (s.Admits ev))

/-! ## what a call can do -/

/-- A call announces, or ticks, or leaves the store alone. -/
theorem call_cases {s s' : MemoryDhtStorage} {ev : Event} (h : s.call ev = .ok s') :
    (∃ infoHash endp name seed mPeers, ev.call = .announcePeer infoHash endp name seed ∧
      PeerTable.announcePeer (sizeT s.mMaxTorrents.toInt) ev.now ev.first infoHash endp name seed
        s.mPeers = .ok mPeers ∧ s' = { s with mPeers := mPeers }) ∨
    (ev.call = .tick ∧ s' = s.tick ev.now) ∨
    ((∀ infoHash endp name seed, ev.call ≠ .announcePeer infoHash endp name seed) ∧
      ev.call ≠ .tick ∧ s' = s) := by
  unfold MemoryDhtStorage.call at h
  cases hc : ev.call with
  | announcePeer infoHash endp name seed =>
      simp only [hc, MemoryDhtStorage.announcePeer] at h
      obtain ⟨mPeers, ha, rfl⟩ := map_eq_ok_iff.mp h
      exact Or.inl ⟨infoHash, endp, name, seed, mPeers, rfl, ha, rfl⟩
  | tick =>
      simp only [hc] at h
      exact Or.inr (Or.inl ⟨rfl, (Except.ok.inj h).symm⟩)
  | _ =>
      simp only [hc] at h
      exact Or.inr (Or.inr ⟨by simp, by simp, (Except.ok.inj h).symm⟩)

/-! ## the invariant -/

/-- Between calls the table is well formed and within the capacity the store
was built with. -/
structure Invariant (settings : Settings) (s : MemoryDhtStorage) : Prop where
  maxTorrents_eq : s.mMaxTorrents = settings.dhtMaxTorrents
  wellFormed : s.mPeers.WellFormed
  size_le : UnorderedMap.size s.mPeers ≤ sizeT settings.dhtMaxTorrents.toInt

theorem invariant_init (settings : Settings) : Invariant settings (.ofSettings settings) :=
  ⟨rfl, wellFormed_empty, Nat.zero_le _⟩

theorem Invariant.step {settings : Settings} {s s' : MemoryDhtStorage} {ev : Event}
    (hi : Invariant settings s) (ha : s.Admits ev) (h : s.call ev = .ok s') :
    Invariant settings s' := by
  obtain ⟨infoHash, endp, name, seed, mPeers, hc, hm, rfl⟩ | ⟨hc, rfl⟩ | ⟨-, -, rfl⟩ :=
    call_cases h
  · have hb : MayBegin s.mPeers infoHash ev.first := by
      simpa only [MemoryDhtStorage.Admits, hc] using ha
    rw [hi.maxTorrents_eq] at hm
    exact ⟨hi.maxTorrents_eq, hi.wellFormed.announcePeer hm, size_announcePeer_le hb hm hi.size_le⟩
  · exact ⟨hi.maxTorrents_eq, hi.wellFormed.tick ev.now,
      Nat.le_trans (UnorderedMap.size_sweep_le _ _) hi.size_le⟩
  · exact hi

theorem Invariant.of_reachable {settings : Settings} {s : MemoryDhtStorage}
    (hr : (system settings).Reachable s) : Invariant settings s :=
  hr.invariant (Invariant settings) (invariant_init settings) fun _ _ _ hi ha h => hi.step ha h

/-- A store for one torrent. -/
def oneTorrent : Settings := ⟨20, 1, 500⟩

/-- The first announcement, of hash `01…01`. -/
def firstAnnouncement : Event :=
  ⟨0, .fill 20 1, .announcePeer (.fill 20 1) ⟨.v4 1, 6881⟩ [] false⟩

/-- The store after it. -/
def oneTorrentFull : MemoryDhtStorage :=
  ⟨20, 1, 500, AList.singleton (.fill 20 1) [⟨⟨.v4 1, 6881⟩, false, [], 0⟩]⟩

theorem oneTorrentFull_reachable : (system oneTorrent).Reachable oneTorrentFull :=
  ⟨[firstAnnouncement], System.trace_of_run rfl⟩

/-- A store for three torrents. -/
def threeTorrents : Settings := ⟨20, 3, 500⟩

/-- Three hashes are announced, the first of them by three endpoints and twice
by one of these; then a tick comes. -/
def sevenEvents : List Event :=
  [⟨0, .fill 20 1, .announcePeer (.fill 20 1) ⟨.v4 1, 6881⟩ [97] false⟩,
    ⟨minutes 1, .fill 20 1, .announcePeer (.fill 20 1) ⟨.v4 2, 6882⟩ [] true⟩,
    ⟨minutes 1, .fill 20 1, .announcePeer (.fill 20 3) ⟨.v4 2, 6882⟩ [] false⟩,
    ⟨minutes 2, .fill 20 1, .announcePeer (.fill 20 2) ⟨.v4 1, 6881⟩ [] false⟩,
    ⟨minutes 3, .fill 20 1, .announcePeer (.fill 20 1) ⟨.v4 3, 6881⟩ [] false⟩,
    ⟨minutes 20, .fill 20 1, .announcePeer (.fill 20 1) ⟨.v4 1, 6881⟩ [98] true⟩,
    ⟨minutes 32, .fill 20 1, .tick⟩]

/-- The peers that are left of the first hash, and of the second. -/
def twoPeers : List PeerRecord :=
  [⟨⟨.v4 1, 6881⟩, true, [98], minutes 20⟩, ⟨⟨.v4 3, 6881⟩, false, [], minutes 3⟩]

def otherPeer : List PeerRecord := [⟨⟨.v4 1, 6881⟩, false, [], minutes 2⟩]

/-- The store after them. -/
def afterSeven : MemoryDhtStorage :=
  ⟨20, 3, 500, AList.insert (.fill 20 2) otherPeer (AList.singleton (.fill 20 1) twoPeers)⟩

theorem trace_sevenEvents : (system threeTorrents).Trace sevenEvents afterSeven :=
  System.trace_of_run rfl

/-- Within the capacity, announcing to a known hash never evicts. -/
theorem not_evicts_of_mem {maxTorrents : Nat} {infoHash : Sha1Hash} {mPeers : PeerTable}
    (endp : Endpoint) (hin : infoHash ∈ mPeers) (hsize : UnorderedMap.size mPeers ≤ maxTorrents) :
    ¬ Evicts maxTorrents infoHash endp mPeers := by
  intro hev
  have hlt := hev.2
  rw [UnorderedMap.emplace_of_mem [] hin] at hlt
  omega

/-- **Representation invariant.**  In every state a run reaches the table
holds at most `dht_max_torrents` hashes, its lists are non-empty with distinct
endpoints and cut names, and announcing to a hash that is present is defined,
keeps the set of hashes and leaves every other hash's list as it was. -/
theorem peers_wellFormed (settings : Settings) (hmax : 0 ≤ settings.dhtMaxTorrents.toInt)
    {s : MemoryDhtStorage} (hr : (system settings).Reachable s) :
    UnorderedMap.size s.mPeers ≤ settings.dhtMaxTorrents.toInt.toNat ∧
    (∀ h list, s.mPeers.lookup h = some list → list ≠ [] ∧
      (list.map PeerRecord.endpoint).Nodup ∧ ∀ p ∈ list, p.name.length ≤ 50) ∧
    ∀ now first infoHash endp name seed, infoHash ∈ s.mPeers →
      ∃ s', s.announcePeer now first infoHash endp name seed = .ok s' ∧
        (∀ k, k ∈ s'.mPeers ↔ k ∈ s.mPeers) ∧
        ∀ k, k ≠ infoHash → s'.mPeers.lookup k = s.mPeers.lookup k := by
  have hi := Invariant.of_reachable hr
  have hsize := hi.size_le
  refine ⟨by rwa [sizeT_toInt hmax] at hsize, fun h list hl => ⟨hi.wellFormed.ne_nil h list hl,
    hi.wellFormed.distinct h list hl, hi.wellFormed.name_le h list hl⟩, ?_⟩
  intro now first infoHash endp name seed hin
  rw [← hi.maxTorrents_eq] at hsize
  have hne := not_evicts_of_mem endp hin hsize
  cases hm : PeerTable.announcePeer (sizeT s.mMaxTorrents.toInt) now first infoHash endp name seed
      s.mPeers with
  | error ub => exact absurd (announcePeer_eq_error_iff.mp hm).2.1 hne
  | ok mPeers =>
      have hother : ∀ k, k ≠ infoHash → mPeers.lookup k = s.mPeers.lookup k := by
        intro k hk
        rw [lookup_announcePeer hm, if_neg hk, if_neg (fun hev => hne hev.1)]
      refine ⟨{ s with mPeers := mPeers }, by rw [MemoryDhtStorage.announcePeer, hm]; rfl, ?_,
        hother⟩
      intro k
      by_cases hk : k = infoHash
      · subst hk
        have hnew := lookup_announcePeer hm k
        rw [if_pos rfl] at hnew
        exact ⟨fun _ => hin, fun _ => UnorderedMap.mem_of_lookup hnew⟩
      · rw [← AList.lookup_isSome, ← AList.lookup_isSome, hother k hk]

theorem peers_wellFormed_oneTorrentFull :
    UnorderedMap.size oneTorrentFull.mPeers ≤ 1 ∧
    ∃ s', oneTorrentFull.announcePeer 5 (.fill 20 1) (.fill 20 1) ⟨.v4 2, 6881⟩ [] true = .ok s' ∧
      (∀ k, k ∈ s'.mPeers ↔ k ∈ oneTorrentFull.mPeers) ∧
      ∀ k, k ≠ .fill 20 1 → s'.mPeers.lookup k = oneTorrentFull.mPeers.lookup k := by
  have h := peers_wellFormed oneTorrent (by decide) oneTorrentFull_reachable
  exact ⟨h.1, h.2.2 5 (.fill 20 1) (.fill 20 1) ⟨.v4 2, 6881⟩ [] true (by decide)⟩

/-! ## announcements are kept -/

/-- What an announcement promises: the call is defined, the announced hash is
present afterwards with exactly one record for the endpoint, which carries
the flag and the cut name, and at most one other hash has disappeared. -/
def AnnounceKept (s : MemoryDhtStorage) (infoHash : Sha1Hash) (endp : Endpoint) (name : Bytes)
    (seed : Bool) (result : Except UndefinedBehavior MemoryDhtStorage) : Prop :=
  ∃ s', result = .ok s' ∧
    (∃ list r, s'.mPeers.lookup infoHash = some list ∧
      list.filter (fun p => p.endpoint = endp) = [r] ∧ r.seed = seed ∧ r.name = name.take 50) ∧
    (s.mPeers.keys.filter fun k => k ≠ infoHash ∧ k ∉ s'.mPeers).length ≤ 1

/-- In a reachable state the eviction is reached by a new hash on a full
table, and by nothing else. -/
theorem evicts_iff {settings : Settings} {s : MemoryDhtStorage} (hi : Invariant settings s)
    (infoHash : Sha1Hash) (endp : Endpoint) :
    Evicts (sizeT s.mMaxTorrents.toInt) infoHash endp s.mPeers ↔
      infoHash ∉ s.mPeers ∧ sizeT settings.dhtMaxTorrents.toInt ≤ UnorderedMap.size s.mPeers := by
  have hsize := hi.size_le
  rw [hi.maxTorrents_eq]
  by_cases hin : infoHash ∈ s.mPeers
  · simp [hin, not_evicts_of_mem endp hin hsize]
  · have hnil : peersOf s.mPeers infoHash = [] := by
      rw [peersOf, AList.lookup_eq_none.mpr hin, Option.getD_none]
    rw [Evicts, hnil, UnorderedMap.emplace_of_notMem [] hin,
      UnorderedMap.size_insert_of_notMem [] hin]
    simp only [List.map_nil, List.not_mem_nil, not_false_eq_true, true_and, hin]
    omega

/-- What an announcement that returns takes from the other hashes is the key
the eviction took. -/
theorem lost_subset {maxTorrents : Nat} {now : TimePoint} {first infoHash : Sha1Hash}
    {endp : Endpoint} {name : Bytes} {seed : Bool} {mPeers mPeers' : PeerTable}
    (hm : PeerTable.announcePeer maxTorrents now first infoHash endp name seed mPeers =
      .ok mPeers') : (mPeers.keys.filter fun k => k ≠ infoHash ∧ k ∉ mPeers') ⊆ [first] := by
  intro k hk
  rw [List.mem_filter, decide_eq_true_iff] at hk
  obtain ⟨hkin, hkne, hkout⟩ := hk
  rw [List.mem_singleton]
  by_contra hkf
  apply hkout
  rw [← AList.lookup_isSome]
  rw [← AList.mem_keys, ← AList.lookup_isSome] at hkin
  rwa [lookup_announcePeer hm, if_neg hkne, if_neg (fun hx => hkf hx.2)]

/-- An announcement that returns is kept. -/
theorem announceKept_of_ok {settings : Settings} {s : MemoryDhtStorage} {now : TimePoint}
    {first infoHash : Sha1Hash} {endp : Endpoint} {name : Bytes} {seed : Bool} {mPeers : PeerTable}
    (hi : Invariant settings s)
    (hm : PeerTable.announcePeer (sizeT s.mMaxTorrents.toInt) now first infoHash endp name seed
      s.mPeers = .ok mPeers) :
    AnnounceKept s infoHash endp name seed
      (s.announcePeer now first infoHash endp name seed) := by
  have hwf' := hi.wellFormed.announcePeer hm
  have hnew := lookup_announcePeer hm infoHash
  rw [if_pos rfl] at hnew
  have hmem : announced now endp name seed ∈
      upsert (announced now endp name seed) (peersOf s.mPeers infoHash) := by
    rw [mem_upsert (hi.wellFormed.distinct_peersOf infoHash), if_pos rfl]
  have hone := filter_key_eq_singleton (hwf'.distinct infoHash _ hnew) hmem
  have hret : s.announcePeer now first infoHash endp name seed = .ok { s with mPeers := mPeers } := by
    rw [MemoryDhtStorage.announcePeer, hm]
    rfl
  have hlost := List.subperm_of_subset (s.mPeers.keys_nodup.filter _) (lost_subset hm)
  exact ⟨_, hret, ⟨_, _, hnew, hone, rfl, nameCopy_eq_take name⟩, hlost.length_le⟩

/-- **Announcements are kept, except by self-eviction.**  In every state a run
reaches and for every key `begin()` yields, the announcement is kept if and
only if its hash was present, or the table was not full, or `begin()` yields
another hash. -/
theorem announcePeer_kept_iff (settings : Settings) {s : MemoryDhtStorage}
    (hr : (system settings).Reachable s) (now : TimePoint) (first infoHash : Sha1Hash)
    (endp : Endpoint) (name : Bytes) (seed : Bool) :
    AnnounceKept s infoHash endp name seed
        (s.announcePeer now first infoHash endp name seed) ↔
      infoHash ∈ s.mPeers ∨ UnorderedMap.size s.mPeers < sizeT settings.dhtMaxTorrents.toInt ∨
        first ≠ infoHash := by
  have hi := Invariant.of_reachable hr
  have hev := evicts_iff hi infoHash endp
  cases hm : PeerTable.announcePeer (sizeT s.mMaxTorrents.toInt) now first infoHash endp name
      seed s.mPeers with
  | error ub =>
      obtain ⟨-, he, hf⟩ := announcePeer_eq_error_iff.mp hm
      obtain ⟨hnew, hfull⟩ := hev.mp he
      have hlost : ¬ AnnounceKept s infoHash endp name seed
          (s.announcePeer now first infoHash endp name seed) := by
        rintro ⟨s', hs', -⟩
        rw [MemoryDhtStorage.announcePeer, hm] at hs'
        cases hs'
      have hcond : ¬ (infoHash ∈ s.mPeers ∨
          UnorderedMap.size s.mPeers < sizeT settings.dhtMaxTorrents.toInt ∨ first ≠ infoHash) := by
        simp [hnew, hfull, hf]
      exact iff_of_false hlost hcond
  | ok mPeers =>
      have hcond : infoHash ∈ s.mPeers ∨
          UnorderedMap.size s.mPeers < sizeT settings.dhtMaxTorrents.toInt ∨ first ≠ infoHash := by
        by_contra hcond
        obtain ⟨hnew, hfull, hf⟩ : infoHash ∉ s.mPeers ∧
            sizeT settings.dhtMaxTorrents.toInt ≤ UnorderedMap.size s.mPeers ∧
              first = infoHash := by
          simpa only [not_or, not_lt, not_not] using hcond
        have herr : PeerTable.announcePeer (sizeT s.mMaxTorrents.toInt) now first infoHash endp
            name seed s.mPeers = .error .danglingReference :=
          announcePeer_eq_error_iff.mpr ⟨rfl, hev.mpr ⟨hnew, hfull⟩, hf⟩
        rw [hm] at herr
        cases herr
      exact iff_of_true (announceKept_of_ok hi hm) hcond

theorem announcePeer_kept_oneTorrentFull :
    AnnounceKept oneTorrentFull (.fill 20 2) ⟨.v4 2, 6881⟩ [] false
      (oneTorrentFull.announcePeer 1 (.fill 20 1) (.fill 20 2) ⟨.v4 2, 6881⟩ [] false) := by
  have h := announcePeer_kept_iff oneTorrent oneTorrentFull_reachable 1 (.fill 20 1) (.fill 20 2)
    ⟨.v4 2, 6881⟩ [] false
  exact h.mpr (Or.inr (Or.inr (by decide)))

/-- A second hash is announced to the full store, and `begin()` yields that
hash, which `m_peers[info_hash]` has just inserted. -/
theorem announcePeer_evicts_itself :
    1 ≤ oneTorrent.dhtMaxTorrents.toInt ∧ (system oneTorrent).Reachable oneTorrentFull ∧
    MayBegin oneTorrentFull.mPeers (.fill 20 2) (.fill 20 2) ∧
    oneTorrentFull.announcePeer 1 (.fill 20 2) (.fill 20 2) ⟨.v4 2, 6881⟩ [] false =
      .error .danglingReference ∧
    ¬ AnnounceKept oneTorrentFull (.fill 20 2) ⟨.v4 2, 6881⟩ [] false
      (oneTorrentFull.announcePeer 1 (.fill 20 2) (.fill 20 2) ⟨.v4 2, 6881⟩ [] false) := by
  have herr : oneTorrentFull.announcePeer 1 (.fill 20 2) (.fill 20 2) ⟨.v4 2, 6881⟩ [] false =
      .error .danglingReference := rfl
  refine ⟨by decide, oneTorrentFull_reachable, by decide, herr, ?_⟩
  rintro ⟨s', hs', -⟩
  rw [herr] at hs'
  cases hs'

end BtDht.MyDhtStorage2
