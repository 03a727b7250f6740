import BtDht.MyDhtStorage2.History

/-!
# BtDht.MyDhtStorage2.Evictions

The peers of any run, with its evictions.  `BtDht.MyDhtStorage2.History` reads
the peers off the calls alone, as long as the table has room for all torrents;
when it has not, an announcement may take away another torrent with all its
peers, and which one depends on `begin()`.

The calls still determine a peer up to that: its record comes with an
announcement of its pair, and stays until the next one, or a tick half an hour
later, or the eviction of its torrent (`peer_found_iff`).
-/

namespace BtDht.MyDhtStorage2

open PeerTable

variable {settings : Settings} {s s' : MemoryDhtStorage} {ev : Event} {infoHash : Sha1Hash}
  {r : PeerRecord}

/-- The call is the announcement that leaves the record `r`. -/
def AnnouncesAs (infoHash : Sha1Hash) (r : PeerRecord) (ev : Event) : Prop :=
  ∃ name seed, ev.call = .announcePeer infoHash r.endpoint name seed ∧
    r = ⟨r.endpoint, seed, name.take 50, ev.now⟩

/-- The call announces a torrent the full table has no room for. -/
def EvictsTorrent (s : MemoryDhtStorage) (ev : Event) : Prop :=
  ∃ infoHash endp name seed, ev.call = .announcePeer infoHash endp name seed ∧
    infoHash ∉ s.mPeers ∧ sizeT s.mMaxTorrents.toInt ≤ UnorderedMap.size s.mPeers

/-- The call leaves the record where it is. -/
structure Spares (infoHash : Sha1Hash) (r : PeerRecord) (s : MemoryDhtStorage) (ev : Event) :
    Prop where
  not_announced : ¬ Announces infoHash r.endpoint ev
  not_old : ev.call = .tick → ev.now - r.seenAt ≤ minutes 30
  not_evicted : EvictsTorrent s ev → ev.first ≠ infoHash

/-! ## one call -/

section announce

variable {infoHash' : Sha1Hash} {endp : Endpoint} {name : Bytes} {seed : Bool}

theorem announcesAs_iff (hc : ev.call = .announcePeer infoHash' endp name seed) :
    AnnouncesAs infoHash r ev ↔ infoHash' = infoHash ∧ r = announced ev.now endp name seed := by
  rw [AnnouncesAs, hc, announced, nameCopy_eq_take]
  constructor
  · rintro ⟨name', seed', hcall, hr⟩
    simp only [Call.announcePeer.injEq] at hcall
    obtain ⟨rfl, rfl, rfl, rfl⟩ := hcall
    exact ⟨rfl, hr⟩
  · rintro ⟨rfl, rfl⟩
    exact ⟨name, seed, rfl, rfl⟩

theorem announces_iff (hc : ev.call = .announcePeer infoHash' endp name seed) :
    Announces infoHash r.endpoint ev ↔ infoHash' = infoHash ∧ endp = r.endpoint := by
  simp [Announces, hc]

theorem evictsTorrent_iff (hi : Invariant settings s)
    (hc : ev.call = .announcePeer infoHash' endp name seed) :
    EvictsTorrent s ev ↔ Evicts (sizeT s.mMaxTorrents.toInt) infoHash' endp s.mPeers := by
  rw [evicts_iff hi, ← hi.maxTorrents_eq]
  simp [EvictsTorrent, hc]

theorem spares_announce_iff (hc : ev.call = .announcePeer infoHash' endp name seed) :
    Spares infoHash r s ev ↔
      ¬ (infoHash' = infoHash ∧ endp = r.endpoint) ∧ (EvictsTorrent s ev → ev.first ≠ infoHash) := by
  rw [← announces_iff hc]
  constructor
  · intro h
    exact ⟨h.not_announced, h.not_evicted⟩
  · intro h
    refine ⟨h.1, fun htick => ?_, h.2⟩
    rw [hc] at htick
    contradiction

/-- An announcement writes the record of its pair, and takes the torrent it
evicts. -/
theorem mem_announce_iff (hi : Invariant settings s)
    (hc : ev.call = .announcePeer infoHash' endp name seed) {mPeers : PeerTable}
    (h : PeerTable.announcePeer (sizeT s.mMaxTorrents.toInt) ev.now ev.first infoHash' endp name seed
      s.mPeers = .ok mPeers) :
    r ∈ peersOf mPeers infoHash ↔
      AnnouncesAs infoHash r ev ∨ r ∈ peersOf s.mPeers infoHash ∧ Spares infoHash r s ev := by
  rw [announcesAs_iff hc, spares_announce_iff hc, evictsTorrent_iff hi hc, peersOf,
    lookup_announcePeer h]
  by_cases hh : infoHash = infoHash'
  · subst hh
    have hspared : Evicts (sizeT s.mMaxTorrents.toInt) infoHash endp s.mPeers →
        ev.first ≠ infoHash := by
      intro hev hfirst
      rw [announcePeer_eq_error_iff.mpr ⟨rfl, hev, hfirst⟩] at h
      contradiction
    rw [if_pos rfl, Option.getD_some, mem_upsert (hi.wellFormed.distinct_peersOf infoHash),
      announced_endpoint]
    grind [announced_endpoint]
  · rw [if_neg hh]
    by_cases hev : Evicts (sizeT s.mMaxTorrents.toInt) infoHash' endp s.mPeers ∧ infoHash = ev.first
    · rw [if_pos hev]
      simp [Ne.symm hh, hev.1, hev.2.symm]
    · rw [if_neg hev, ← peersOf]
      grind

end announce

/-- The step lemma. -/
theorem mem_call_iff (hi : Invariant settings s) (h : s.call ev = .ok s') :
    r ∈ peersOf s'.mPeers infoHash ↔
      AnnouncesAs infoHash r ev ∨ r ∈ peersOf s.mPeers infoHash ∧ Spares infoHash r s ev := by
  obtain ⟨infoHash', endp, name, seed, mPeers, hc, hm, rfl⟩ | ⟨hc, rfl⟩ | ⟨hna, hnt, rfl⟩ :=
    call_cases h
  · exact mem_announce_iff hi hc hm
  · have hnot : ¬ AnnouncesAs infoHash r ev := by simp [AnnouncesAs, hc]
    have hspares : Spares infoHash r s ev ↔ ev.now - r.seenAt ≤ minutes 30 := by
      refine ⟨fun h => h.not_old hc, fun h => ⟨?_, fun _ => h, ?_⟩⟩
      · simp [Announces, hc]
      · simp [EvictsTorrent, hc]
    rw [MemoryDhtStorage.tick, peersOf_tick, List.mem_filter, hspares]
    simp [hnot, expired, kPeerTtl]
  · have hnot : ¬ AnnouncesAs infoHash r ev := by simp [AnnouncesAs, hna]
    have hspares : Spares infoHash r s' ev := by
      refine ⟨?_, fun hc => absurd hc hnt, ?_⟩
      · simp [Announces, hna]
      · simp [EvictsTorrent, hna]
    simp [hnot, hspares]

/-! ## whole runs -/

/-- **What is stored of a peer.**  After any run, a record is stored under an
info-hash if and only if some call of the run is the announcement that leaves
it, and no call since then has announced the same pair, been a tick more than 30
minutes later, or evicted the info-hash. -/
theorem peer_found_iff (settings : Settings) {hist : List Event} {s : MemoryDhtStorage}
    (ht : (system settings).Trace hist s) (infoHash : Sha1Hash) (r : PeerRecord) :
    r ∈ peersOf s.mPeers infoHash ↔
      ∃ pre ev post, hist = pre ++ ev :: post ∧ AnnouncesAs infoHash r ev ∧
        ∀ mid ev' rest s₁, post = mid ++ ev' :: rest →
          (system settings).Trace (pre ++ ev :: mid) s₁ → Spares infoHash r s₁ ev' := by
  have hinit : r ∉ peersOf (system settings).init.mPeers infoHash := by
    rw [show (system settings).init.mPeers = ∅ from rfl, peersOf, AList.lookup_empty]
    simp
  rw [ht.since_iff (fun s => r ∈ peersOf s.mPeers infoHash) (fun _ ev => AnnouncesAs infoHash r ev)
    (Spares infoHash r) hinit fun s ev s' hr _ hs => mem_call_iff (Invariant.of_reachable hr) hs]
  constructor
  · rintro ⟨pre, ev, post, rfl, hw, hkeep⟩
    obtain ⟨s₀, -, ht₀, -⟩ := ht.split
    exact ⟨pre, ev, post, rfl, hw s₀ ht₀, hkeep⟩
  · rintro ⟨pre, ev, post, rfl, hw, hkeep⟩
    exact ⟨pre, ev, post, rfl, fun _ _ => hw, hkeep⟩

/-- A second torrent, which evicts the first one. -/
def evictingAnnouncement : Event :=
  ⟨5, .fill 20 1, .announcePeer (.fill 20 2) ⟨.v4 2, 6881⟩ [] true⟩

def secondTorrentFull : MemoryDhtStorage :=
  { oneTorrentFull with mPeers := AList.singleton (.fill 20 2) [⟨⟨.v4 2, 6881⟩, true, [], 5⟩] }

/-- The first torrent's peer has been announced last and has not expired, but
is gone. -/
theorem peer_found_secondTorrentFull :
    ¬ ∃ pre ev post, [firstAnnouncement, evictingAnnouncement] = pre ++ ev :: post ∧
      AnnouncesAs (.fill 20 1) ⟨⟨.v4 1, 6881⟩, false, [], 0⟩ ev ∧
      ∀ mid ev' rest s₁, post = mid ++ ev' :: rest →
        (system oneTorrent).Trace (pre ++ ev :: mid) s₁ →
          Spares (.fill 20 1) ⟨⟨.v4 1, 6881⟩, false, [], 0⟩ s₁ ev' := by
  have ht : (system oneTorrent).Trace [firstAnnouncement, evictingAnnouncement] secondTorrentFull :=
    System.trace_of_run rfl
  rw [← peer_found_iff oneTorrent ht]
  decide

end BtDht.MyDhtStorage2
