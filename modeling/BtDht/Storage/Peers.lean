import BtDht.Data.UnorderedMap
import BtDht.Storage.Interface

/-!
# BtDht.Storage.Peers

The peer table `m_peers` and the code on it, which `mydhtstorage.cpp` and
`mydhtstorage2.cpp` have in common: `announce_peer` and the peer loop of
`tick`, both as functions of the table.

`announce_peer` takes the reference `list` into the table before it makes
room, so the eviction may erase the very list it is about to extend; that run
is `UndefinedBehavior.danglingReference`.
-/

namespace BtDht

/-- `struct PeerRecord` -/
structure PeerRecord where
  endpoint : Endpoint
  seed : Bool
  name : Bytes
  seenAt : TimePoint
  deriving DecidableEq

def kMaxTorrentNameLength : Nat := 50

def kPeerTtl : Int := minutes 30

/-- `m_peers` -/
abbrev PeerTable := UnorderedMap Sha1Hash (List PeerRecord)

namespace PeerTable

/-! ## announce_peer -/

/-- `name_copy`: the name, resized to `kMaxTorrentNameLength` when longer. -/
def nameCopy (name : Bytes) : Bytes :=
  if name.length > kMaxTorrentNameLength then name.take kMaxTorrentNameLength else name

/-- `existing`: the position of the first record for `endp`. -/
def existing (list : List PeerRecord) (endp : Endpoint) : Option Nat :=
  list.findIdx? fun p => p.endpoint = endp

/-- `announce_peer` on the table.  `maxTorrents` is `m_max_torrents` as a
`size_t`, `first` the key of `m_peers.begin()`. -/
def announcePeer (maxTorrents : Nat) (now : TimePoint) (first infoHash : Sha1Hash)
    (endp : Endpoint) (name : Bytes) (seed : Bool) (mPeers : PeerTable) :
    Except UndefinedBehavior PeerTable :=
  let mPeers := UnorderedMap.emplace mPeers infoHash []
  let list := (mPeers.lookup infoHash).getD []
  match existing list endp with
  | some i =>
      .ok (mPeers.insert infoHash
        (list.modify i fun p => { p with seed := seed, name := nameCopy name, seenAt := now }))
  | none =>
      if UnorderedMap.size mPeers > maxTorrents then
        if first = infoHash then
          .error .danglingReference
        else
          .ok ((mPeers.erase first).insert infoHash (list ++ [⟨endp, seed, nameCopy name, now⟩]))
      else
        .ok (mPeers.insert infoHash (list ++ [⟨endp, seed, nameCopy name, now⟩]))

/-- The keys `begin()` may yield to `announce_peer`: any key of the table once
`m_peers[info_hash]` has run, the new key included. -/
def MayBegin (mPeers : PeerTable) (infoHash first : Sha1Hash) : Prop :=
  first ∈ UnorderedMap.emplace mPeers infoHash []

instance (mPeers : PeerTable) (infoHash first : Sha1Hash) :
    Decidable (MayBegin mPeers infoHash first) :=
  inferInstanceAs (Decidable (_ ∈ _))

/-! ## tick -/

/-- The predicate `tick` hands to `std::remove_if`. -/
def expired (now : TimePoint) (p : PeerRecord) : Bool := now - p.seenAt > kPeerTtl

/-- One list under `tick`: the expired records go, and the entry with them
when none is left. -/
def tickList (now : TimePoint) (list : List PeerRecord) : Option (List PeerRecord) :=
  let list := list.filter fun p => !expired now p
  if list.isEmpty then none else some list

/-- The peer loop of `tick`. -/
def tick (now : TimePoint) (mPeers : PeerTable) : PeerTable :=
  UnorderedMap.sweep (fun _ => tickList now) mPeers

/-! ## counters -/

/-- `c.torrents` -/
def torrents (mPeers : PeerTable) : Int := int32 (UnorderedMap.size mPeers)

/-- `total_peers`: the loop over the table, in `int32_t`.  (Where the sum
leaves the type the addition is undefined in C++; here it wraps.) -/
def totalPeers (mPeers : PeerTable) : Int :=
  mPeers.entries.foldl (fun total e => int32 (total + int32 e.2.length)) 0

/-! ## what announce_peer does to a list -/

/-- The records under `m_peers[info_hash]`: none when the hash is absent. -/
def peersOf (mPeers : PeerTable) (infoHash : Sha1Hash) : List PeerRecord :=
  (mPeers.lookup infoHash).getD []

/-- The record an announcement leaves. -/
def announced (now : TimePoint) (endp : Endpoint) (name : Bytes) (seed : Bool) : PeerRecord :=
  ⟨endp, seed, nameCopy name, now⟩

@[simp] theorem announced_endpoint (now : TimePoint) (endp : Endpoint) (name : Bytes) (seed : Bool) :
    (announced now endp name seed).endpoint = endp := rfl

/-- The list of the announced hash after the call: the first record for
`endp` is refreshed where it stands, or a new record goes to the end. -/
def upsert (r : PeerRecord) : List PeerRecord → List PeerRecord
  | [] => [r]
  | p :: list => if p.endpoint = r.endpoint then r :: list else p :: upsert r list

/-- The in-place update and the `push_back` of `announce_peer` are `upsert`. -/
theorem upsert_eq (r : PeerRecord) (list : List PeerRecord) :
    upsert r list = match existing list r.endpoint with
      | some i => list.modify i fun p => { p with seed := r.seed, name := r.name, seenAt := r.seenAt }
      | none => list ++ [r] := by
  induction list with
  | nil => simp [upsert, existing]
  | cons p list ih =>
      by_cases h : p.endpoint = r.endpoint
      · simp [upsert, existing, h, List.findIdx?_cons]
      · have hex : existing (p :: list) r.endpoint = (existing list r.endpoint).map (· + 1) := by
          simp [existing, List.findIdx?_cons, h]
        rw [upsert, if_neg h, hex, ih]
        cases existing list r.endpoint with
        | none => simp
        | some i => simp [List.modify_succ_cons]

theorem existing_eq_none_iff {list : List PeerRecord} {endp : Endpoint} :
    existing list endp = none ↔ endp ∉ list.map PeerRecord.endpoint := by
  simp [existing, List.findIdx?_eq_none_iff]

@[simp] theorem upsert_ne_nil (r : PeerRecord) (list : List PeerRecord) : upsert r list ≠ [] := by
  cases list with
  | nil => simp [upsert]
  | cons p list => rw [upsert]; split <;> simp

/-- The endpoints keep their order; a new one comes last. -/
theorem map_endpoint_upsert (r : PeerRecord) (list : List PeerRecord) :
    (upsert r list).map PeerRecord.endpoint =
      if r.endpoint ∈ list.map PeerRecord.endpoint then list.map PeerRecord.endpoint
      else list.map PeerRecord.endpoint ++ [r.endpoint] := by
  induction list with
  | nil => simp [upsert]
  | cons p list ih =>
      by_cases h : p.endpoint = r.endpoint
      · simp [upsert, h]
      · have h' : r.endpoint ≠ p.endpoint := fun he => h he.symm
        rw [upsert, if_neg h, List.map_cons, ih]
        by_cases hm : r.endpoint ∈ list.map PeerRecord.endpoint
        · simp [hm]
        · rw [if_neg hm, if_neg (by simp [h', hm])]
          simp

theorem nodup_upsert {r : PeerRecord} {list : List PeerRecord}
    (h : (list.map PeerRecord.endpoint).Nodup) :
    ((upsert r list).map PeerRecord.endpoint).Nodup := by
  rw [map_endpoint_upsert]
  split
  · exact h
  · next hm => simpa [List.nodup_append, h] using fun p hp he => hm (by simp [← he]; exact ⟨p, hp, rfl⟩)

/-- With distinct endpoints, the records after the call are the announced one
and every other endpoint's. -/
theorem mem_upsert {r p : PeerRecord} {list : List PeerRecord}
    (h : (list.map PeerRecord.endpoint).Nodup) :
    p ∈ upsert r list ↔ if p.endpoint = r.endpoint then p = r else p ∈ list := by
  induction list with
  | nil =>
      by_cases hp : p.endpoint = r.endpoint
      · simp [upsert, hp]
      · have hpr : p ≠ r := fun he => hp (by rw [he])
        simp [upsert, hp, hpr]
  | cons q list ih =>
      obtain ⟨hq, hnd⟩ := List.nodup_cons.mp h
      by_cases hqr : q.endpoint = r.endpoint
      · have hnot : ∀ x ∈ list, x.endpoint ≠ r.endpoint := by
          intro x hx he
          exact hq (by rw [hqr, ← he]; exact List.mem_map_of_mem hx)
        rw [upsert, if_pos hqr, List.mem_cons, List.mem_cons]
        by_cases hp : p.endpoint = r.endpoint
        · simp only [if_pos hp]
          exact ⟨fun hm => hm.elim id fun hx => absurd hp (hnot p hx), Or.inl⟩
        · have hpr : p ≠ r := fun he => hp (by rw [he])
          have hpq : p ≠ q := fun he => hp (by rw [he, hqr])
          simp [hp, hpr, hpq]
      · rw [upsert, if_neg hqr, List.mem_cons, List.mem_cons, ih hnd]
        by_cases hp : p.endpoint = r.endpoint
        · have hpq : p ≠ q := fun he => hqr (by rw [← he, hp])
          simp [hp, hpq]
        · simp [hp]

/-! ## what announce_peer does to the table -/

/-- The call reaches `m_peers.erase(m_peers.begin())`. -/
def Evicts (maxTorrents : Nat) (infoHash : Sha1Hash) (endp : Endpoint) (mPeers : PeerTable) : Prop :=
  endp ∉ (peersOf mPeers infoHash).map PeerRecord.endpoint ∧
    maxTorrents < UnorderedMap.size (UnorderedMap.emplace mPeers infoHash [])

instance (maxTorrents : Nat) (infoHash : Sha1Hash) (endp : Endpoint) (mPeers : PeerTable) :
    Decidable (Evicts maxTorrents infoHash endp mPeers) :=
  inferInstanceAs (Decidable (_ ∧ _))

section announce

variable {maxTorrents : Nat} {now : TimePoint} {first infoHash : Sha1Hash} {endp : Endpoint}
  {name : Bytes} {seed : Bool} {mPeers mPeers' : PeerTable}

/-- The call in one equation: it evicts or not, and either way `upsert` is
written back, unless the evicted list is the one it writes to. -/
theorem announcePeer_eq :
    announcePeer maxTorrents now first infoHash endp name seed mPeers =
      if Evicts maxTorrents infoHash endp mPeers then
        if first = infoHash then .error .danglingReference
        else .ok (((UnorderedMap.emplace mPeers infoHash []).erase first).insert infoHash
          (upsert (announced now endp name seed) (peersOf mPeers infoHash)))
      else .ok ((UnorderedMap.emplace mPeers infoHash []).insert infoHash
        (upsert (announced now endp name seed) (peersOf mPeers infoHash))) := by
  have hlist : ((UnorderedMap.emplace mPeers infoHash []).lookup infoHash).getD [] =
      peersOf mPeers infoHash := by
    rw [UnorderedMap.lookup_emplace_self, Option.getD_some, peersOf]
  have hup := upsert_eq (announced now endp name seed) (peersOf mPeers infoHash)
  simp only [announced] at hup
  rw [announcePeer, hlist]
  cases hex : existing (peersOf mPeers infoHash) endp with
  | some i =>
      have hin : ¬ Evicts maxTorrents infoHash endp mPeers := by
        intro hev
        rw [existing_eq_none_iff.mpr hev.1] at hex
        contradiction
      simp only [hex] at hup
      simp only [if_neg hin, announced, hup]
  | none =>
      simp only [hex] at hup
      have hnot := existing_eq_none_iff.mp hex
      simp only [announced, hup, Evicts, hnot, not_false_eq_true, true_and, gt_iff_lt]

/-- The undefined run is exactly the eviction of the announced hash itself. -/
theorem announcePeer_eq_error_iff {ub : UndefinedBehavior} :
    announcePeer maxTorrents now first infoHash endp name seed mPeers = .error ub ↔
      ub = .danglingReference ∧ Evicts maxTorrents infoHash endp mPeers ∧ first = infoHash := by
  rw [announcePeer_eq]
  by_cases hev : Evicts maxTorrents infoHash endp mPeers
  · by_cases hf : first = infoHash
    · simp [hev, hf, eq_comm]
    · simp [hev, hf]
  · simp [hev]

/-- The table after a call that is defined: the announced hash holds the
updated list, every other one its old list, the evicted one nothing. -/
theorem lookup_announcePeer
    (h : announcePeer maxTorrents now first infoHash endp name seed mPeers = .ok mPeers')
    (k : Sha1Hash) :
    mPeers'.lookup k =
      if k = infoHash then some (upsert (announced now endp name seed) (peersOf mPeers infoHash))
      else if Evicts maxTorrents infoHash endp mPeers ∧ k = first then none
      else mPeers.lookup k := by
  rw [announcePeer_eq] at h
  by_cases hk : k = infoHash
  · subst hk
    rw [if_pos rfl]
    split at h
    · split at h
      · contradiction
      · rw [← Except.ok.inj h, AList.lookup_insert]
    · rw [← Except.ok.inj h, AList.lookup_insert]
  · rw [if_neg hk]
    split at h
    · next hev =>
        split at h
        · contradiction
        · rw [← Except.ok.inj h, AList.lookup_insert_ne hk, UnorderedMap.lookup_erase_eq,
            UnorderedMap.lookup_emplace_ne [] hk]
          simp [hev]
    · next hev =>
        rw [← Except.ok.inj h, AList.lookup_insert_ne hk, UnorderedMap.lookup_emplace_ne [] hk]
        simp [hev]

theorem peersOf_announcePeer
    (h : announcePeer maxTorrents now first infoHash endp name seed mPeers = .ok mPeers')
    (hne : ¬ Evicts maxTorrents infoHash endp mPeers) (k : Sha1Hash) :
    peersOf mPeers' k =
      if k = infoHash then upsert (announced now endp name seed) (peersOf mPeers infoHash)
      else peersOf mPeers k := by
  rw [peersOf, lookup_announcePeer h]
  by_cases hk : k = infoHash
  · simp [hk]
  · simp [hk, hne, peersOf]

/-- An announcement adds its endpoint at the end if it is new. -/
theorem map_endpoint_announcePeer
    (h : announcePeer maxTorrents now first infoHash endp name seed mPeers = .ok mPeers')
    (hne : ¬ Evicts maxTorrents infoHash endp mPeers) (k : Sha1Hash) :
    (peersOf mPeers' k).map PeerRecord.endpoint =
      if k = infoHash ∧ endp ∉ (peersOf mPeers k).map PeerRecord.endpoint then
        (peersOf mPeers k).map PeerRecord.endpoint ++ [endp]
      else (peersOf mPeers k).map PeerRecord.endpoint := by
  rw [peersOf_announcePeer h hne]
  by_cases hk : k = infoHash
  · rw [if_pos hk, map_endpoint_upsert, announced_endpoint, ← hk]
    by_cases hin : endp ∈ (peersOf mPeers k).map PeerRecord.endpoint
    · simp [hin]
    · simp [hin]
  · simp [hk]

/-- The eviction makes up for the insertion: a table within its capacity stays
within it. -/
theorem size_announcePeer_le (hb : MayBegin mPeers infoHash first)
    (h : announcePeer maxTorrents now first infoHash endp name seed mPeers = .ok mPeers')
    (hsize : UnorderedMap.size mPeers ≤ maxTorrents) :
    UnorderedMap.size mPeers' ≤ maxTorrents := by
  have hmem : infoHash ∈ UnorderedMap.emplace mPeers infoHash [] :=
    UnorderedMap.mem_emplace.mpr (Or.inl rfl)
  rw [announcePeer_eq] at h
  split at h
  · next hev =>
      split at h
      · contradiction
      · next hf =>
          have hnew : infoHash ∉ mPeers := by
            intro hin
            have hlt := hev.2
            rw [UnorderedMap.emplace_of_mem [] hin] at hlt
            omega
          have hkeep : infoHash ∈ (UnorderedMap.emplace mPeers infoHash []).erase first :=
            AList.mem_erase.mpr ⟨fun he => hf he.symm, hmem⟩
          have herase := UnorderedMap.size_erase_of_mem hb
          rw [← Except.ok.inj h, UnorderedMap.size_insert_of_mem _ hkeep]
          rw [UnorderedMap.emplace_of_notMem [] hnew] at herase ⊢
          rw [UnorderedMap.size_insert_of_notMem [] hnew] at herase
          omega
  · next hev =>
      rw [← Except.ok.inj h, UnorderedMap.size_insert_of_mem _ hmem]
      by_cases hin : infoHash ∈ mPeers
      · rwa [UnorderedMap.emplace_of_mem [] hin]
      · have hnil : peersOf mPeers infoHash = [] := by
          rw [peersOf, AList.lookup_eq_none.mpr hin, Option.getD_none]
        by_contra hlt
        exact hev ⟨by simp [hnil], by omega⟩

end announce

/-! ## the invariant of the table -/

/-- What holds of the table between calls: no list is empty, no endpoint
occurs twice in a list, and names are cut. -/
structure WellFormed (mPeers : PeerTable) : Prop where
  ne_nil : ∀ h list, mPeers.lookup h = some list → list ≠ []
  distinct : ∀ h list, mPeers.lookup h = some list → (list.map PeerRecord.endpoint).Nodup
  name_le : ∀ h list, mPeers.lookup h = some list →
    ∀ p ∈ list, p.name.length ≤ kMaxTorrentNameLength

theorem wellFormed_empty : WellFormed ∅ := by
  constructor <;> intro h list hl <;> simp at hl

theorem WellFormed.distinct_peersOf {mPeers : PeerTable} (hwf : WellFormed mPeers) (h : Sha1Hash) :
    ((peersOf mPeers h).map PeerRecord.endpoint).Nodup := by
  rw [peersOf]
  cases hl : mPeers.lookup h with
  | none => simp
  | some list => exact hwf.distinct h list hl

theorem WellFormed.name_le_peersOf {mPeers : PeerTable} (hwf : WellFormed mPeers) {h : Sha1Hash}
    {p : PeerRecord} (hp : p ∈ peersOf mPeers h) : p.name.length ≤ kMaxTorrentNameLength := by
  rw [peersOf] at hp
  cases hl : mPeers.lookup h with
  | none => simp [hl] at hp
  | some list =>
      rw [hl, Option.getD_some] at hp
      exact hwf.name_le h list hl p hp

/-- A hash is a key exactly when it has a record. -/
theorem WellFormed.mem_iff {mPeers : PeerTable} (hwf : WellFormed mPeers) {h : Sha1Hash} :
    h ∈ mPeers ↔ peersOf mPeers h ≠ [] := by
  rw [UnorderedMap.mem_iff_lookup, peersOf]
  cases hl : mPeers.lookup h with
  | none => simp
  | some list => simpa using hwf.ne_nil h list hl

theorem length_nameCopy_le (name : Bytes) : (nameCopy name).length ≤ kMaxTorrentNameLength := by
  unfold nameCopy
  split
  · rw [List.length_take]
    omega
  · omega

/-- `name_copy` is the name cut to 50 bytes. -/
theorem nameCopy_eq_take (name : Bytes) : nameCopy name = name.take 50 := by
  unfold nameCopy kMaxTorrentNameLength
  split
  · rfl
  · exact (List.take_of_length_le (by omega)).symm

theorem WellFormed.announcePeer {maxTorrents : Nat} {now : TimePoint} {first infoHash : Sha1Hash}
    {endp : Endpoint} {name : Bytes} {seed : Bool} {mPeers mPeers' : PeerTable}
    (hwf : WellFormed mPeers)
    (h : announcePeer maxTorrents now first infoHash endp name seed mPeers = .ok mPeers') :
    WellFormed mPeers' := by
  have hlookup := lookup_announcePeer h
  have hnd := hwf.distinct_peersOf infoHash
  -- every list of the new table is the updated one or one of the old table
  have hcase : ∀ k list, mPeers'.lookup k = some list →
      list = upsert (announced now endp name seed) (peersOf mPeers infoHash) ∨
        mPeers.lookup k = some list := by
    intro k list hl
    rw [hlookup] at hl
    split at hl
    · exact Or.inl (Option.some.inj hl).symm
    · split at hl
      · contradiction
      · exact Or.inr hl
  constructor
  · intro k list hl
    rcases hcase k list hl with rfl | hold
    · exact upsert_ne_nil _ _
    · exact hwf.ne_nil k list hold
  · intro k list hl
    rcases hcase k list hl with rfl | hold
    · exact nodup_upsert hnd
    · exact hwf.distinct k list hold
  · intro k list hl p hp
    rcases hcase k list hl with rfl | hold
    · rw [mem_upsert hnd] at hp
      split at hp
      · rw [hp]
        exact length_nameCopy_le name
      · exact hwf.name_le_peersOf hp
    · exact hwf.name_le k list hold p hp

/-! ## what tick does to the table -/

theorem lookup_tick (now : TimePoint) (mPeers : PeerTable) (h : Sha1Hash) :
    (tick now mPeers).lookup h = (mPeers.lookup h).bind (tickList now) :=
  UnorderedMap.lookup_sweep _ mPeers h

/-- `tick` keeps of every list the records that have not expired. -/
theorem peersOf_tick (now : TimePoint) (mPeers : PeerTable) (h : Sha1Hash) :
    peersOf (tick now mPeers) h = (peersOf mPeers h).filter fun p => !expired now p := by
  rw [peersOf, lookup_tick, peersOf]
  cases mPeers.lookup h with
  | none => simp
  | some list =>
      rw [Option.bind_some, tickList, Option.getD_some]
      split
      · next hnil => rw [Option.getD_none, List.isEmpty_iff.mp hnil]
      · rw [Option.getD_some]

theorem tickList_eq_some_iff {now : TimePoint} {list list' : List PeerRecord} :
    tickList now list = some list' ↔
      list' ≠ [] ∧ list' = list.filter fun p => !expired now p := by
  simp only [tickList, List.isEmpty_iff]
  constructor
  · intro h
    split at h
    · contradiction
    · next hne =>
        obtain rfl := Option.some.inj h
        exact ⟨hne, rfl⟩
  · rintro ⟨hne, rfl⟩
    exact if_neg hne

theorem lookup_tick_eq_some_iff {now : TimePoint} {mPeers : PeerTable} {h : Sha1Hash}
    {list' : List PeerRecord} :
    (tick now mPeers).lookup h = some list' ↔ ∃ list, mPeers.lookup h = some list ∧
      list' ≠ [] ∧ list' = list.filter fun p => !expired now p := by
  simp only [lookup_tick, Option.bind_eq_some_iff, tickList_eq_some_iff]

theorem WellFormed.tick {mPeers : PeerTable} (hwf : WellFormed mPeers) (now : TimePoint) :
    WellFormed (tick now mPeers) := by
  constructor
  · intro k list' hl
    obtain ⟨list, -, hne, -⟩ := lookup_tick_eq_some_iff.mp hl
    exact hne
  · intro k list' hl
    obtain ⟨list, hlist, -, rfl⟩ := lookup_tick_eq_some_iff.mp hl
    exact (hwf.distinct k list hlist).sublist (List.filter_sublist.map _)
  · intro k list' hl p hp
    obtain ⟨list, hlist, -, rfl⟩ := lookup_tick_eq_some_iff.mp hl
    exact hwf.name_le k list hlist p (List.mem_of_mem_filter hp)

/-! ## what the counters count -/

/-- The stored (info-hash, endpoint) pairs. -/
def pairs (mPeers : PeerTable) : List (Sha1Hash × Endpoint) :=
  mPeers.entries.flatMap fun e => e.2.map fun p => (e.1, p.endpoint)

theorem mem_pairs {mPeers : PeerTable} {h : Sha1Hash} {endp : Endpoint} :
    (h, endp) ∈ pairs mPeers ↔ endp ∈ (peersOf mPeers h).map PeerRecord.endpoint := by
  simp only [pairs, List.mem_flatMap, List.mem_map, Prod.mk.injEq]
  constructor
  · rintro ⟨⟨k, list⟩, he, p, hp, rfl, rfl⟩
    refine ⟨p, ?_, rfl⟩
    rw [peersOf, UnorderedMap.lookup_eq_some_iff.mpr he]
    exact hp
  · rintro ⟨p, hp, rfl⟩
    rw [peersOf] at hp
    cases hl : mPeers.lookup h with
    | none => simp [hl] at hp
    | some list =>
        rw [hl, Option.getD_some] at hp
        exact ⟨⟨h, list⟩, UnorderedMap.lookup_eq_some_iff.mp hl, p, hp, rfl, rfl⟩

theorem WellFormed.nodup_pairs {mPeers : PeerTable} (hwf : WellFormed mPeers) :
    (pairs mPeers).Nodup := by
  rw [pairs, List.nodup_flatMap]
  constructor
  · rintro ⟨h, list⟩ he
    have hnd := hwf.distinct h list (UnorderedMap.lookup_eq_some_iff.mpr he)
    have hpair : Function.Injective (Prod.mk h : Endpoint → Sha1Hash × Endpoint) :=
      fun _ _ heq => (Prod.mk.inj heq).2
    have hmap := hnd.map hpair
    rwa [List.map_map] at hmap
  · -- pairs of different entries differ in the hash
    have hkeys : mPeers.entries.Pairwise fun e e' => e.1 ≠ e'.1 :=
      List.pairwise_map.mp mPeers.nodupKeys
    refine hkeys.imp fun {e e'} hne x hx hx' => ?_
    obtain ⟨p, -, rfl⟩ := List.mem_map.mp hx
    obtain ⟨p', -, heq⟩ := List.mem_map.mp hx'
    exact hne (Prod.mk.inj heq).1.symm

/-- While the total fits an `int32_t`, the loop counts the pairs. -/
theorem totalPeers_eq {mPeers : PeerTable} (h : (pairs mPeers).length < 2 ^ 31) :
    totalPeers mPeers = (pairs mPeers).length := by
  have hloop : ∀ (entries : List (Sigma fun _ : Sha1Hash => List PeerRecord)) (total : Nat),
      total + (entries.flatMap fun e => e.2.map fun p => (e.1, p.endpoint)).length < 2 ^ 31 →
      entries.foldl (fun total e => int32 (total + int32 e.2.length)) (total : Int) =
        (total + (entries.flatMap fun e => e.2.map fun p => (e.1, p.endpoint)).length : Nat) := by
    intro entries
    induction entries with
    | nil => simp
    | cons e entries ih =>
        intro total hlt
        rw [List.flatMap_cons, List.length_append, List.length_map] at hlt ⊢
        have hstep : int32 (total + int32 e.2.length) = ((total + e.2.length : Nat) : Int) := by
          rw [int32_eq_self (i := e.2.length) (by omega) (by omega),
            int32_eq_self (by omega) (by omega)]
          omega
        rw [List.foldl_cons, hstep, ih (total + e.2.length) (by omega), Nat.add_assoc]
  have h0 := hloop mPeers.entries 0 (by rw [Nat.zero_add]; exact h)
  rw [Nat.zero_add] at h0
  exact h0

end PeerTable

end BtDht
