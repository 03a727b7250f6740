import BtDht.Data.Lease
import BtDht.MyDhtStorage2
import Mathlib.Data.Set.Card

/-!
# BtDht.MyDhtStorage2.History

What the peer store answers is a function of the announcements it has seen.
The specification is stated on the history alone: `Remembered hist h e r` says
that `r` is what the last announcement of `(h, e)` left and that no later
`tick` found it older than 30 minutes.  In any run that never finds the table
too full, the store holds exactly the remembered records, in the order in
which their current stay began, and counts them.

Each pair `(h, e)` is a leased cell (`BtDht.Data.Lease`): announcements of the
pair write it and ticks sweep it.  The run invariant `Tracks` relates all cells
to the table at once.
-/

namespace BtDht.MyDhtStorage2

open PeerTable

/-! ## the specification, on the history -/

/-- `ev` announces the endpoint `endp` under `infoHash`. -/
def Announces (infoHash : Sha1Hash) (endp : Endpoint) (ev : Event) : Prop :=
  ∃ name seed, ev.call = .announcePeer infoHash endp name seed

/-- The last announcement of the pair left `r`, and every tick after it ran at
most 30 minutes later. -/
def Remembered (hist : List Event) (infoHash : Sha1Hash) (endp : Endpoint) (r : PeerRecord) : Prop :=
  ∃ pre ev post name seed, hist = pre ++ ev :: post ∧
    ev.call = .announcePeer infoHash endp name seed ∧ r = ⟨endp, seed, name.take 50, ev.now⟩ ∧
    (∀ ev' ∈ post, ¬ Announces infoHash endp ev') ∧
    ∀ ev' ∈ post, ev'.call = .tick → ev'.now - ev.now ≤ minutes 30

/-- The current stay of the pair began with the `i`-th event: before it the
pair was absent, and after it the pair has never been. -/
def StayBegan (hist : List Event) (infoHash : Sha1Hash) (endp : Endpoint) (i : Nat) : Prop :=
  i < hist.length ∧ (¬ ∃ r, Remembered (hist.take i) infoHash endp r) ∧
    ∀ j, i < j → j ≤ hist.length → ∃ r, Remembered (hist.take j) infoHash endp r

/-- An announcement that finds more than `dht_max_torrents` hashes in the
table once its own has been entered. -/
def FindsTooMany (s : MemoryDhtStorage) (ev : Event) : Prop :=
  ∃ infoHash endp name seed, ev.call = .announcePeer infoHash endp name seed ∧
    sizeT s.mMaxTorrents.toInt < UnorderedMap.size (UnorderedMap.emplace s.mPeers infoHash [])

/-- The store answers as the history says. -/
structure AnswersHistory (hist : List Event) (s : MemoryDhtStorage) : Prop where
  /-- an endpoint is stored exactly when its pair is remembered -/
  stored : ∀ h e, (∃ p ∈ peersOf s.mPeers h, p.endpoint = e) ↔ ∃ r, Remembered hist h e r
  /-- it is stored once, with what the last announcement left -/
  once : ∀ h e r, Remembered hist h e r →
    (peersOf s.mPeers h).filter (fun p => p.endpoint = e) = [r]
  /-- records stand in the order in which their stays began -/
  ordered : ∀ h, (peersOf s.mPeers h).Pairwise fun p q =>
    ∃ i j, StayBegan hist h p.endpoint i ∧ StayBegan hist h q.endpoint j ∧ i < j
  /-- a hash is a key exactly when it has a remembered endpoint -/
  keys : ∀ h, h ∈ s.mPeers ↔ ∃ e r, Remembered hist h e r
  torrents : {h | ∃ e r, Remembered hist h e r}.ncard < 2 ^ 31 →
    s.counters.torrents = {h | ∃ e r, Remembered hist h e r}.ncard
  peers : {p : Sha1Hash × Endpoint | ∃ r, Remembered hist p.1 p.2 r}.ncard < 2 ^ 31 →
    s.counters.peers = {p : Sha1Hash × Endpoint | ∃ r, Remembered hist p.1 p.2 r}.ncard

/-! ## pairs as leased cells -/

/-- The cell of the pair `(infoHash, endp)`. -/
def peerLease (infoHash : Sha1Hash) (endp : Endpoint) : Lease Event PeerRecord where
  write ev := match ev.call with
    | .announcePeer h e name seed =>
        if h = infoHash ∧ e = endp then some (announced ev.now endp name seed) else none
    | _ => none
  sweeps ev r := match ev.call with
    | .tick => expired ev.now r
    | _ => false

theorem write_eq_some_iff {infoHash : Sha1Hash} {endp : Endpoint} {ev : Event} {r : PeerRecord} :
    (peerLease infoHash endp).write ev = some r ↔
      ∃ name seed, ev.call = .announcePeer infoHash endp name seed ∧
        r = ⟨endp, seed, name.take 50, ev.now⟩ := by
  simp only [peerLease]
  cases hc : ev.call with
  | announcePeer h e name seed =>
      by_cases hhe : h = infoHash ∧ e = endp
      · obtain ⟨rfl, rfl⟩ := hhe
        simp only [and_self, if_true, announced, nameCopy_eq_take, Option.some.injEq]
        constructor
        · intro hr
          exact ⟨name, seed, rfl, hr.symm⟩
        · rintro ⟨name', seed', heq, rfl⟩
          injection heq with _ _ hname hseed
          rw [hname, hseed]
      · have hne : ∀ n s, Call.announcePeer h e name seed ≠ .announcePeer infoHash endp n s := by
          intro n s heq
          injection heq with h1 h2
          exact hhe ⟨h1, h2⟩
        simp [hhe, hne]
  | _ => simp

theorem write_eq_none_iff {infoHash : Sha1Hash} {endp : Endpoint} {ev : Event} :
    (peerLease infoHash endp).write ev = none ↔ ¬ Announces infoHash endp ev := by
  rw [← not_iff_not, not_not, ← ne_eq, Option.ne_none_iff_exists']
  constructor
  · rintro ⟨r, hr⟩
    obtain ⟨name, seed, hc, -⟩ := write_eq_some_iff.mp hr
    exact ⟨name, seed, hc⟩
  · rintro ⟨name, seed, hc⟩
    exact ⟨_, write_eq_some_iff.mpr ⟨name, seed, hc, rfl⟩⟩

theorem sweeps_eq_false_iff {infoHash : Sha1Hash} {endp : Endpoint} {ev : Event} {r : PeerRecord} :
    (peerLease infoHash endp).sweeps ev r = false ↔
      (ev.call = .tick → ev.now - r.seenAt ≤ minutes 30) := by
  simp only [peerLease]
  cases hc : ev.call with
  | tick => simp [expired, kPeerTtl]
  | _ => simp

/-- The replayed cell holds what the specification says is remembered. -/
theorem content_eq_some_iff_remembered {hist : List Event} {infoHash : Sha1Hash} {endp : Endpoint}
    {r : PeerRecord} :
    (peerLease infoHash endp).content hist = some r ↔ Remembered hist infoHash endp r := by
  rw [Lease.content_eq_some_iff]
  constructor
  · rintro ⟨pre, ev, post, rfl, hw, hpost⟩
    obtain ⟨name, seed, hc, rfl⟩ := write_eq_some_iff.mp hw
    refine ⟨pre, ev, post, name, seed, rfl, hc, rfl, fun ev' hm => ?_, fun ev' hm => ?_⟩
    · exact write_eq_none_iff.mp (hpost ev' hm).1
    · exact sweeps_eq_false_iff.mp (hpost ev' hm).2
  · rintro ⟨pre, ev, post, name, seed, rfl, hc, rfl, hlast, hfresh⟩
    refine ⟨pre, ev, post, rfl, write_eq_some_iff.mpr ⟨name, seed, hc, rfl⟩, fun ev' hm => ?_⟩
    exact ⟨write_eq_none_iff.mpr (hlast ev' hm), sweeps_eq_false_iff.mpr (hfresh ev' hm)⟩

theorem isSome_content_iff {hist : List Event} {infoHash : Sha1Hash} {endp : Endpoint} :
    ((peerLease infoHash endp).content hist).isSome ↔ ∃ r, Remembered hist infoHash endp r := by
  simp only [Option.isSome_iff_exists, content_eq_some_iff_remembered]

theorem stayBegan_iff {hist : List Event} {infoHash : Sha1Hash} {endp : Endpoint} {i : Nat} :
    (peerLease infoHash endp).StayBegan hist i ↔ StayBegan hist infoHash endp i := by
  simp only [Lease.StayBegan, StayBegan, ← isSome_content_iff, Option.not_isSome_iff_eq_none]

/-! ## the run invariant -/

/-- The table tracks the cells: its records are their contents, and within a
list the stays began in list order. -/
structure Tracks (hist : List Event) (mPeers : PeerTable) : Prop where
  mem : ∀ h p, p ∈ peersOf mPeers h ↔ (peerLease h p.endpoint).content hist = some p
  ordered : ∀ h, ((peersOf mPeers h).map PeerRecord.endpoint).Pairwise fun a b =>
    ∀ i j, (peerLease h a).StayBegan hist i → (peerLease h b).StayBegan hist j → i < j

theorem tracks_empty : Tracks [] ∅ := by
  constructor
  · intro h p
    simp [peersOf]
  · intro h
    simp [peersOf]

/-- The cell of a stored endpoint is held. -/
theorem isSome_of_mem {hist : List Event} {mPeers : PeerTable}
    (hmem : ∀ h p, p ∈ peersOf mPeers h ↔ (peerLease h p.endpoint).content hist = some p)
    {h : Sha1Hash} {e : Endpoint} (he : e ∈ (peersOf mPeers h).map PeerRecord.endpoint) :
    ((peerLease h e).content hist).isSome := by
  obtain ⟨p, hp, rfl⟩ := List.mem_map.mp he
  rw [(hmem h p).mp hp]
  rfl

/-- The cell of an endpoint that is not stored is free. -/
theorem Tracks.content_eq_none {hist : List Event} {mPeers : PeerTable} (ht : Tracks hist mPeers)
    {h : Sha1Hash} {e : Endpoint} (he : e ∉ (peersOf mPeers h).map PeerRecord.endpoint) :
    (peerLease h e).content hist = none := by
  cases hcn : (peerLease h e).content hist with
  | none => rfl
  | some r =>
      have hr : r.endpoint = e := by
        obtain ⟨_, _, _, _, _, _, _, rfl, _⟩ := content_eq_some_iff_remembered.mp hcn
        rfl
      have hrm := (ht.mem h r).mpr (by rw [hr, hcn])
      exact absurd (List.mem_map.mpr ⟨r, hrm, hr⟩) he

/-- A list whose endpoints were all stored before and still are keeps its
order. -/
theorem Tracks.ordered_of_sublist {hist : List Event} {mPeers : PeerTable}
    (ht : Tracks hist mPeers) (ev : Event) {h : Sha1Hash} {endpoints : List Endpoint}
    (hsub : endpoints.Sublist ((peersOf mPeers h).map PeerRecord.endpoint))
    (hnew : ∀ e ∈ endpoints, ((peerLease h e).content (hist ++ [ev])).isSome) :
    endpoints.Pairwise fun a b => ∀ i j, (peerLease h a).StayBegan (hist ++ [ev]) i →
      (peerLease h b).StayBegan (hist ++ [ev]) j → i < j := by
  refine ((ht.ordered h).sublist hsub).imp_of_mem fun {a b} ha hb hab i j hi hj => ?_
  have hiff : ∀ e ∈ endpoints, ∀ k, (peerLease h e).StayBegan (hist ++ [ev]) k →
      (peerLease h e).StayBegan hist k := by
    intro e he k hk
    exact (Lease.stayBegan_snoc_of_isSome (isSome_of_mem ht.mem (hsub.subset he)) (hnew e he) k).mp hk
  exact hab i j (hiff a ha i hi) (hiff b hb j hj)

/-- A list that gets one new endpoint at its end keeps its order: the new
endpoint's stay begins with this event, every other began earlier. -/
theorem Tracks.ordered_append {hist : List Event} {mPeers : PeerTable} (ht : Tracks hist mPeers)
    (ev : Event) {h : Sha1Hash} {endp : Endpoint}
    (hnew : endp ∉ (peersOf mPeers h).map PeerRecord.endpoint)
    (hsome : ∀ e ∈ (peersOf mPeers h).map PeerRecord.endpoint ++ [endp],
      ((peerLease h e).content (hist ++ [ev])).isSome) :
    ((peersOf mPeers h).map PeerRecord.endpoint ++ [endp]).Pairwise fun a b => ∀ i j,
      (peerLease h a).StayBegan (hist ++ [ev]) i →
      (peerLease h b).StayBegan (hist ++ [ev]) j → i < j := by
  have hold := ht.ordered_of_sublist ev (List.Sublist.refl _)
    fun e he => hsome e (List.mem_append_left _ he)
  have hlast : ∀ a ∈ (peersOf mPeers h).map PeerRecord.endpoint, ∀ i j,
      (peerLease h a).StayBegan (hist ++ [ev]) i →
      (peerLease h endp).StayBegan (hist ++ [ev]) j → i < j := by
    intro a ha i j hi hj
    have hendp := hsome endp (List.mem_append_right _ (List.mem_singleton_self endp))
    have hjl := (Lease.stayBegan_snoc_of_none (ht.content_eq_none hnew) hendp j).mp hj
    have hil := (Lease.stayBegan_snoc_of_isSome (isSome_of_mem ht.mem ha)
      (hsome a (List.mem_append_left _ ha)) i).mp hi
    rw [hjl]
    exact hil.1
  rw [List.pairwise_append]
  exact ⟨hold, List.pairwise_singleton _ _, by simpa using hlast⟩

section announce

variable {hist : List Event} {mPeers mPeers' : PeerTable} {maxTorrents : Nat} {ev : Event}
  {infoHash : Sha1Hash} {endp : Endpoint} {name : Bytes} {seed : Bool}

/-- An announcement that evicts nothing writes its cell and no other. -/
theorem Tracks.mem_announce (ht : Tracks hist mPeers) (hwf : mPeers.WellFormed)
    (hc : ev.call = .announcePeer infoHash endp name seed)
    (hm : PeerTable.announcePeer maxTorrents ev.now ev.first infoHash endp name seed mPeers =
      .ok mPeers')
    (hne : ¬ Evicts maxTorrents infoHash endp mPeers) (h : Sha1Hash) (p : PeerRecord) :
    p ∈ peersOf mPeers' h ↔ (peerLease h p.endpoint).content (hist ++ [ev]) = some p := by
  rw [peersOf_announcePeer hm hne]
  by_cases hh : h = infoHash
  · subst hh
    rw [if_pos rfl, mem_upsert (hwf.distinct_peersOf h), announced_endpoint]
    by_cases hp : p.endpoint = endp
    · have hw : (peerLease h endp).write ev = some (announced ev.now endp name seed) := by
        simp [peerLease, hc]
      rw [if_pos hp, hp, Lease.content_snoc_of_write _ hw, Option.some.injEq, eq_comm]
    · have hw : (peerLease h p.endpoint).write ev = none := by
        simp [peerLease, hc, Ne.symm hp]
      rw [if_neg hp, ht.mem h p, Lease.content_snoc_of_not_write _ hw]
      simp [peerLease, hc]
  · have hw : (peerLease h p.endpoint).write ev = none := by
      simp [peerLease, hc, Ne.symm hh]
    rw [if_neg hh, ht.mem h p, Lease.content_snoc_of_not_write _ hw]
    simp [peerLease, hc]

/-- An announcement that evicts nothing. -/
theorem Tracks.announce (ht : Tracks hist mPeers) (hwf : mPeers.WellFormed)
    (hc : ev.call = .announcePeer infoHash endp name seed)
    (hm : PeerTable.announcePeer maxTorrents ev.now ev.first infoHash endp name seed mPeers =
      .ok mPeers')
    (hne : ¬ Evicts maxTorrents infoHash endp mPeers) : Tracks (hist ++ [ev]) mPeers' := by
  have hmem := ht.mem_announce hwf hc hm hne
  refine ⟨hmem, fun h => ?_⟩
  have hsome : ∀ e ∈ (peersOf mPeers' h).map PeerRecord.endpoint,
      ((peerLease h e).content (hist ++ [ev])).isSome := fun e he => isSome_of_mem hmem he
  rw [map_endpoint_announcePeer hm hne] at hsome ⊢
  by_cases hnew : h = infoHash ∧ endp ∉ (peersOf mPeers h).map PeerRecord.endpoint
  · rw [if_pos hnew] at hsome ⊢
    exact ht.ordered_append ev hnew.2 hsome
  · rw [if_neg hnew] at hsome ⊢
    exact ht.ordered_of_sublist ev (List.Sublist.refl _) hsome

end announce

theorem Tracks.tick {hist : List Event} {mPeers : PeerTable} {ev : Event}
    (ht : Tracks hist mPeers) (hc : ev.call = .tick) :
    Tracks (hist ++ [ev]) (PeerTable.tick ev.now mPeers) := by
  have hw : ∀ h e, (peerLease h e).write ev = none := by
    intro h e
    simp [peerLease, hc]
  have hmem : ∀ h p, p ∈ peersOf (PeerTable.tick ev.now mPeers) h ↔
      (peerLease h p.endpoint).content (hist ++ [ev]) = some p := by
    intro h p
    rw [peersOf_tick, List.mem_filter, ht.mem h p, Lease.content_snoc_of_not_write _ (hw _ _),
      Option.filter_eq_some_iff]
    simp [peerLease, hc]
  refine ⟨hmem, fun h => ?_⟩
  have hsub : ((peersOf (PeerTable.tick ev.now mPeers) h).map PeerRecord.endpoint).Sublist
      ((peersOf mPeers h).map PeerRecord.endpoint) := by
    rw [peersOf_tick]
    exact List.filter_sublist.map _
  exact ht.ordered_of_sublist ev hsub fun e he => isSome_of_mem hmem he

/-- A call that neither announces nor ticks touches no cell. -/
theorem Tracks.other {hist : List Event} {mPeers : PeerTable} {ev : Event} (ht : Tracks hist mPeers)
    (hna : ∀ h e name seed, ev.call ≠ .announcePeer h e name seed) (hnt : ev.call ≠ .tick) :
    Tracks (hist ++ [ev]) mPeers := by
  have hcontent : ∀ h e, (peerLease h e).content (hist ++ [ev]) = (peerLease h e).content hist := by
    intro h e
    have hw : (peerLease h e).write ev = none :=
      write_eq_none_iff.mpr fun ⟨name, seed, hc⟩ => hna h e name seed hc
    have hs : ∀ r, (peerLease h e).sweeps ev r = false := fun r =>
      sweeps_eq_false_iff.mpr fun hc => absurd hc hnt
    rw [Lease.content_snoc_of_not_write _ hw]
    cases (peerLease h e).content hist with
    | none => rfl
    | some r => simp [hs]
  refine ⟨fun h p => by rw [hcontent, ht.mem h p], fun h => ?_⟩
  refine ht.ordered_of_sublist ev (List.Sublist.refl _) fun e he => ?_
  rw [hcontent]
  exact isSome_of_mem ht.mem he

/-- The run lemma: a run that never finds the table too full tracks its
history. -/
theorem tracks_of_trace {settings : Settings} {hist : List Event} {s : MemoryDhtStorage}
    (ht : (system settings).Trace hist s)
    (hfew : (system settings).Along (fun s ev => ¬ FindsTooMany s ev) hist) :
    Tracks hist s.mPeers := by
  induction ht with
  | nil => exact tracks_empty
  | @snoc hist s s' ev ht _ hs ih =>
      obtain ⟨hprev, hev⟩ := (System.along_snoc ht).mp hfew
      have htr := ih hprev
      have hi := Invariant.of_reachable ⟨hist, ht⟩
      obtain ⟨infoHash, endp, name, seed, mPeers, hc, hm, rfl⟩ | ⟨hc, rfl⟩ | ⟨hna, hnt, rfl⟩ :=
        call_cases hs
      · refine htr.announce hi.wellFormed hc hm fun hevicts => hev ?_
        exact ⟨infoHash, endp, name, seed, hc, hevicts.2⟩
      · exact htr.tick hc
      · exact htr.other hna hnt

/-! ## the store answers as the history says -/

section answers

variable {hist : List Event} {s : MemoryDhtStorage}

theorem Tracks.mem_iff_remembered (ht : Tracks hist s.mPeers) {h : Sha1Hash} {e : Endpoint}
    {r : PeerRecord} : Remembered hist h e r ↔ r ∈ peersOf s.mPeers h ∧ r.endpoint = e := by
  constructor
  · intro hr
    obtain ⟨_, _, _, _, _, _, _, rfl, _⟩ := id hr
    exact ⟨(ht.mem h _).mpr (content_eq_some_iff_remembered.mpr hr), rfl⟩
  · rintro ⟨hr, rfl⟩
    exact content_eq_some_iff_remembered.mp ((ht.mem h r).mp hr)

theorem Tracks.ordered_stays (ht : Tracks hist s.mPeers) (h : Sha1Hash) :
    (peersOf s.mPeers h).Pairwise fun p q =>
      ∃ i j, StayBegan hist h p.endpoint i ∧ StayBegan hist h q.endpoint j ∧ i < j := by
  refine (List.pairwise_map.mp (ht.ordered h)).imp_of_mem fun {p q} hp hq hpq => ?_
  obtain ⟨i, hi⟩ := Lease.exists_stayBegan (isSome_of_mem ht.mem (List.mem_map_of_mem hp))
  obtain ⟨j, hj⟩ := Lease.exists_stayBegan (isSome_of_mem ht.mem (List.mem_map_of_mem hq))
  exact ⟨i, j, stayBegan_iff.mp hi, stayBegan_iff.mp hj, hpq i j hi hj⟩

theorem Tracks.mem_keys_iff (ht : Tracks hist s.mPeers) (hwf : s.mPeers.WellFormed) (h : Sha1Hash) :
    h ∈ s.mPeers ↔ ∃ e r, Remembered hist h e r := by
  rw [hwf.mem_iff, List.ne_nil_iff_exists_cons]
  constructor
  · rintro ⟨r, list, hl⟩
    exact ⟨r.endpoint, r, ht.mem_iff_remembered.mpr ⟨by simp [hl], rfl⟩⟩
  · rintro ⟨e, r, hr⟩
    have hmem := (ht.mem_iff_remembered.mp hr).1
    cases hl : peersOf s.mPeers h with
    | nil => simp [hl] at hmem
    | cons p list => exact ⟨p, list, rfl⟩

theorem Tracks.ncard_torrents (ht : Tracks hist s.mPeers) (hwf : s.mPeers.WellFormed) :
    {h | ∃ e r, Remembered hist h e r}.ncard = UnorderedMap.size s.mPeers := by
  have hset : {h | ∃ e r, Remembered hist h e r} = (s.mPeers.keys.toFinset : Set Sha1Hash) := by
    ext h
    rw [List.coe_toFinset, Set.mem_ofPred_eq, Set.mem_ofPred_eq, ← AList.mem_keys,
      ht.mem_keys_iff hwf]
  rw [hset, Set.ncard_coe_finset, List.toFinset_card_of_nodup s.mPeers.keys_nodup,
    UnorderedMap.size]

theorem Tracks.ncard_peers (ht : Tracks hist s.mPeers) (hwf : s.mPeers.WellFormed) :
    {p : Sha1Hash × Endpoint | ∃ r, Remembered hist p.1 p.2 r}.ncard =
      (pairs s.mPeers).length := by
  have hset : {p : Sha1Hash × Endpoint | ∃ r, Remembered hist p.1 p.2 r} =
      ((pairs s.mPeers).toFinset : Set (Sha1Hash × Endpoint)) := by
    ext ⟨h, e⟩
    rw [List.coe_toFinset, Set.mem_ofPred_eq, Set.mem_ofPred_eq, mem_pairs, List.mem_map]
    simp only [ht.mem_iff_remembered]
  rw [hset, Set.ncard_coe_finset, List.toFinset_card_of_nodup hwf.nodup_pairs]

/-- **The history determines the answers.**  After every run in which no
announcement finds more than `dht_max_torrents` hashes, the store holds,
orders and counts exactly what the history says is remembered, whatever the
clock readings were. -/
theorem peers_determined_by_history (settings : Settings)
    (ht : (system settings).Trace hist s)
    (hfew : (system settings).Along (fun s ev => ¬ FindsTooMany s ev) hist) :
    AnswersHistory hist s := by
  have htr := tracks_of_trace ht hfew
  have hwf := (Invariant.of_reachable ⟨hist, ht⟩).wellFormed
  constructor
  · intro h e
    constructor
    · rintro ⟨p, hp, rfl⟩
      exact ⟨p, htr.mem_iff_remembered.mpr ⟨hp, rfl⟩⟩
    · rintro ⟨r, hr⟩
      exact ⟨r, htr.mem_iff_remembered.mp hr⟩
  · intro h e r hr
    obtain ⟨hmem, rfl⟩ := htr.mem_iff_remembered.mp hr
    exact filter_key_eq_singleton (hwf.distinct_peersOf h) hmem
  · exact htr.ordered_stays
  · exact htr.mem_keys_iff hwf
  · intro hlt
    rw [htr.ncard_torrents hwf] at hlt ⊢
    simp only [MemoryDhtStorage.counters, PeerTable.torrents]
    rw [int32_eq_self (by omega) (by omega)]
  · intro hlt
    rw [htr.ncard_peers hwf] at hlt ⊢
    exact totalPeers_eq hlt

end answers

/-- The hash an event announces. -/
def announcedHash (ev : Event) : Option Sha1Hash :=
  match ev.call with
  | .announcePeer infoHash _ _ _ => some infoHash
  | _ => none

/-- What is stored has been announced. -/
theorem mem_announced_of_trace {settings : Settings} (ht : (system settings).Trace hist s) :
    ∀ k ∈ s.mPeers, k ∈ hist.filterMap announcedHash := by
  refine ht.history (fun hist s => ∀ k ∈ s.mPeers, k ∈ hist.filterMap announcedHash) ?_ ?_
  · exact fun k hk => absurd hk (AList.notMem_empty k)
  intro hist s ev s' _ ih _ hs k hk
  rw [List.filterMap_append, List.mem_append]
  obtain ⟨infoHash, endp, name, seed, mPeers, hc, hm, rfl⟩ | ⟨hc, rfl⟩ | ⟨-, -, rfl⟩ := call_cases hs
  · by_cases hnew : k = infoHash
    · exact .inr (by simp [announcedHash, hc, hnew])
    · refine .inl (ih k ?_)
      rw [← AList.lookup_isSome, lookup_announcePeer hm, if_neg hnew] at hk
      split at hk
      · cases hk
      · exact AList.lookup_isSome.mp hk
  · exact .inl (ih k (UnorderedMap.mem_of_mem_sweep hk))
  · exact .inl (ih k hk)

/-- A run that announces no more than `dht_max_torrents` different hashes never
finds too many. -/
theorem along_of_few {settings : Settings}
    (hfew : (hist.filterMap announcedHash).eraseDups.length ≤ sizeT settings.dhtMaxTorrents.toInt) :
    (system settings).Along (fun s ev => ¬ FindsTooMany s ev) hist := by
  intro pre ev post s hhist ht hmany
  obtain ⟨infoHash, endp, name, seed, hc, hlt⟩ := hmany
  have hkeys : ∀ k ∈ UnorderedMap.emplace s.mPeers infoHash [],
      k ∈ (hist.filterMap announcedHash).eraseDups := by
    intro k hk
    rw [List.mem_eraseDups, hhist, List.filterMap_append, List.mem_append]
    cases UnorderedMap.mem_emplace.mp hk with
    | inl hnew => exact .inr (by simp [announcedHash, hc, hnew])
    | inr hold => exact .inl (mem_announced_of_trace ht k hold)
  have hle := UnorderedMap.size_le_of_forall_mem hkeys
  rw [(Invariant.of_reachable ⟨pre, ht⟩).maxTorrents_eq] at hlt
  omega

theorem answersHistory_afterSeven : AnswersHistory sevenEvents afterSeven :=
  peers_determined_by_history threeTorrents trace_sevenEvents (along_of_few (by decide))

end BtDht.MyDhtStorage2
