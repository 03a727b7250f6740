import BtDht.MyDhtStorage.Capacity
import BtDht.MyDhtStorage2

/-!
# BtDht.MyDhtStorage2.Refines

The store the program installs is the full store without its items.  What a
call does to `m_peers` is one function of the table, `peersCall`, in both of
them: the slim store is that function (`call_eq_peersCall`), and whatever the
full store does with its items leaves it alone
(`peersCall_of_call`, `exists_call_of_peersCall`).

From there runs of the two stores match (`slim_refines_full`).
-/

namespace BtDht.MyDhtStorage2

open PeerTable

/-! ## the peers of either store -/

/-- What a call does to `m_peers`. -/
def peersCall (maxTorrents : Nat) (ev : Event) (mPeers : PeerTable) :
    Except UndefinedBehavior PeerTable :=
  match ev.call with
  | .announcePeer infoHash endp name seed =>
      PeerTable.announcePeer maxTorrents ev.now ev.first infoHash endp name seed mPeers
  | .tick => .ok (PeerTable.tick ev.now mPeers)
  | _ => .ok mPeers

/-- `begin()` does not yield the list being announced to, should the call evict. -/
def SparesAnnounced (maxTorrents : Nat) (ev : Event) (mPeers : PeerTable) : Prop :=
  ∀ infoHash endp name seed, ev.call = .announcePeer infoHash endp name seed →
    Evicts maxTorrents infoHash endp mPeers → ev.first ≠ infoHash

variable {maxTorrents : Nat} {ev ev' : Event} {mPeers mPeers' : PeerTable}

theorem exists_peersCall (h : SparesAnnounced maxTorrents ev mPeers) :
    ∃ mPeers', peersCall maxTorrents ev mPeers = .ok mPeers' := by
  unfold peersCall
  cases hc : ev.call with
  | announcePeer infoHash endp name seed =>
      cases hm : PeerTable.announcePeer maxTorrents ev.now ev.first infoHash endp name seed mPeers with
      | ok mPeers' => exact ⟨mPeers', hm⟩
      | error ub =>
          obtain ⟨-, hev, hfirst⟩ := announcePeer_eq_error_iff.mp hm
          exact absurd hfirst (h infoHash endp name seed hc hev)
  | tick => exact ⟨_, rfl⟩
  | _ => exact ⟨mPeers, rfl⟩

/-- The call announces a peer. -/
def announces : Call → Bool
  | .announcePeer .. => true
  | _ => false

/-- Two stores get the same call at the same time, and `begin()` yields the
same list to both when it announces. -/
structure SameCall (ev ev' : Event) : Prop where
  now_eq : ev.now = ev'.now
  call_eq : ev.call = ev'.call
  first_eq : announces ev.call → ev.first = ev'.first

theorem SameCall.refl (ev : Event) : SameCall ev ev := ⟨rfl, rfl, fun _ => rfl⟩

theorem SameCall.peersCall_eq (h : SameCall ev ev') :
    peersCall maxTorrents ev mPeers = peersCall maxTorrents ev' mPeers := by
  obtain ⟨now, first, call⟩ := ev
  obtain ⟨now', first', call'⟩ := ev'
  obtain ⟨rfl, rfl, hfirst⟩ := h
  cases call with
  | announcePeer infoHash endp name seed =>
      obtain rfl : first = first' := hfirst rfl
      rfl
  | _ => rfl

/-! ## the slim store -/

section slim

variable {t t' : MemoryDhtStorage}

theorem call_eq_peersCall (t : MemoryDhtStorage) (ev : Event) :
    t.call ev = (peersCall (sizeT t.mMaxTorrents.toInt) ev t.mPeers).map
      fun mPeers => { t with mPeers := mPeers } := by
  unfold MemoryDhtStorage.call peersCall
  cases ev.call <;> rfl

theorem peersCall_of_slim_call (h : t.call ev = .ok t') :
    peersCall (sizeT t.mMaxTorrents.toInt) ev t.mPeers = .ok t'.mPeers ∧
      t' = { t with mPeers := t'.mPeers } := by
  rw [call_eq_peersCall] at h
  obtain ⟨mPeers, hm, rfl⟩ := map_eq_ok_iff.mp h
  exact ⟨hm, rfl⟩

end slim

/-! ## the full store -/

section full

variable {s s' : MyDhtStorage.MemoryDhtStorage}

/-- Item puts, their evictions and the item loops of `tick` leave the peers alone. -/
theorem peersCall_of_call (h : s.call ev = .ok s') :
    peersCall (sizeT s.mMaxTorrents.toInt) ev s.mPeers = .ok s'.mPeers ∧
      s'.mMaxPeersReply = s.mMaxPeersReply ∧ s'.mMaxTorrents = s.mMaxTorrents := by
  unfold MyDhtStorage.MemoryDhtStorage.call at h
  unfold peersCall
  cases hc : ev.call with
  | announcePeer infoHash endp name seed =>
      simp only [hc] at h
      obtain ⟨mPeers, hm, rfl⟩ := MyDhtStorage.announcePeer_frame h
      exact ⟨hm, rfl, rfl⟩
  | putImmutableItem target buf =>
      simp only [hc] at h
      obtain ⟨-, rfl⟩ | ⟨-, -, rfl⟩ | ⟨-, -, -, rfl⟩ := MyDhtStorage.putImmutableItem_cases h <;>
        exact ⟨rfl, rfl, rfl⟩
  | putMutableItem target buf sig seq pk salt =>
      simp only [hc] at h
      obtain ⟨items, rfl⟩ := MyDhtStorage.putMutableItem_frame h
      exact ⟨rfl, rfl, rfl⟩
  | _ =>
      simp only [hc] at h
      obtain rfl := Except.ok.inj h
      exact ⟨rfl, rfl, rfl⟩

/-- With room for an item the full store is defined wherever the peers are. -/
theorem exists_call_of_peersCall (hpos : 1 ≤ s.maxItems)
    (h : peersCall (sizeT s.mMaxTorrents.toInt) ev s.mPeers = .ok mPeers) :
    ∃ s', s.call ev = .ok s' := by
  by_cases hput : MyDhtStorage.putsItem ev.call
  · exact MyDhtStorage.exists_put hpos hput
  · unfold MyDhtStorage.MemoryDhtStorage.call
    cases hc : ev.call with
    | announcePeer infoHash endp name seed =>
        have hm : PeerTable.announcePeer (sizeT s.mMaxTorrents.toInt) ev.now ev.first infoHash endp
            name seed s.mPeers = .ok mPeers := by simpa only [peersCall, hc] using h
        simp only [MyDhtStorage.MemoryDhtStorage.announcePeer, hm]
        exact ⟨_, rfl⟩
    | putImmutableItem target buf => exact absurd (by rw [hc]; rfl) hput
    | putMutableItem target buf sig seq pk salt => exact absurd (by rw [hc]; rfl) hput
    | _ => exact ⟨_, rfl⟩

/-- A hash table has something for `begin()` to yield, or is empty. -/
theorem exists_begin {ν : Type} (m : UnorderedMap Sha1Hash ν) :
    ∃ first, UnorderedMap.size m = 0 ∨ first ∈ m := by
  cases hk : m.keys with
  | nil => exact ⟨.fill 20 0, Or.inl (by rw [UnorderedMap.size, hk]; rfl)⟩
  | cons k keys => exact ⟨k, Or.inr (AList.mem_keys.mpr (by simp [hk]))⟩

/-- Whatever is put, `begin()` can yield something to the full store; for a
call about peers it yields what it yields to the slim store. -/
theorem exists_admits (s : MyDhtStorage.MemoryDhtStorage) {t : MemoryDhtStorage}
    (hp : s.mPeers = t.mPeers) (ha : t.Admits ev) : ∃ ev₀, SameCall ev₀ ev ∧ s.Admits ev₀ := by
  obtain ⟨now, first, call⟩ := ev
  cases call with
  | announcePeer infoHash endp name seed =>
      have hb : MayBegin s.mPeers infoHash first := by
        rw [hp]
        exact ha
      exact ⟨_, .refl _, hb⟩
  | putImmutableItem target buf =>
      obtain ⟨k, hk⟩ := exists_begin s.mImmutableItems
      exact ⟨⟨now, k, _⟩, ⟨rfl, rfl, fun h => by cases h⟩, hk⟩
  | putMutableItem target buf sig seq pk salt =>
      obtain ⟨k, hk⟩ := exists_begin s.mMutableItems
      exact ⟨⟨now, k, _⟩, ⟨rfl, rfl, fun h => by cases h⟩, hk⟩
  | _ => exact ⟨_, .refl _, trivial⟩

/-- The slim store admits what the full store admits. -/
theorem admits_of_full {t : MemoryDhtStorage} (hp : s.mPeers = t.mPeers) (ha : s.Admits ev) :
    t.Admits ev := by
  obtain ⟨now, first, call⟩ := ev
  cases call with
  | announcePeer infoHash endp name seed =>
      have hb : MayBegin s.mPeers infoHash first := ha
      rw [hp] at hb
      exact hb
  | _ => trivial

end full

/-! ## side by side -/

/-- The two stores hold the same peers under the same limits. -/
structure Agree (s : MyDhtStorage.MemoryDhtStorage) (t : MemoryDhtStorage) : Prop where
  peers_eq : s.mPeers = t.mPeers
  maxPeersReply_eq : s.mMaxPeersReply = t.mMaxPeersReply
  maxTorrents_eq : s.mMaxTorrents = t.mMaxTorrents

variable {s s' : MyDhtStorage.MemoryDhtStorage} {t t' : MemoryDhtStorage}

theorem agree_init (settings : Settings) :
    Agree (.ofSettings settings) (MemoryDhtStorage.ofSettings settings) :=
  ⟨rfl, rfl, rfl⟩

/-- One call to both. -/
theorem Agree.call (hst : Agree s t) (hev : SameCall ev ev') (hs : s.call ev = .ok s')
    (ht : t.call ev' = .ok t') : Agree s' t' := by
  obtain ⟨hpeers, hreply, htorrents⟩ := peersCall_of_call hs
  obtain ⟨hpeers', ht'⟩ := peersCall_of_slim_call ht
  rw [hev.peersCall_eq, hst.peers_eq, hst.maxTorrents_eq, hpeers'] at hpeers
  have heq : s'.mPeers = t'.mPeers := (Except.ok.inj hpeers).symm
  rw [ht']
  exact ⟨heq, hreply.trans hst.maxPeersReply_eq, htorrents.trans hst.maxTorrents_eq⟩

/-- What a caller of the two stores can see. -/
structure ShowSamePeers (s : MyDhtStorage.MemoryDhtStorage) (t : MemoryDhtStorage) : Prop where
  peers_eq : s.mPeers = t.mPeers
  getPeers_eq : ∀ toString infoHash noseed peers,
    s.getPeers toString infoHash noseed false peers = t.getPeers toString infoHash noseed false peers
  scrape_eq : ∀ toString infoHash noseed peers,
    (s.getPeers toString infoHash noseed true peers).1 =
      (t.getPeers toString infoHash noseed true peers).1
  getInfohashesSample_eq : ∀ order item,
    s.getInfohashesSample order item = t.getInfohashesSample order item
  counters_eq : s.counters.torrents = t.counters.torrents ∧ s.counters.peers = t.counters.peers
  noItems : t.counters.immutableData = 0 ∧ t.counters.mutableData = 0
  getImmutableItem_eq : ∀ target item, t.getImmutableItem target item = (false, item)
  getMutableItemSeq_eq : ∀ target seq, t.getMutableItemSeq target seq = (false, seq)
  getMutableItem_eq : ∀ target seq forceFill item,
    t.getMutableItem target seq forceFill item = (false, item)

theorem Agree.showSamePeers (hst : Agree s t) : ShowSamePeers s t where
  peers_eq := hst.peers_eq
  getPeers_eq toString infoHash noseed peers := by
    unfold MyDhtStorage.MemoryDhtStorage.getPeers MemoryDhtStorage.getPeers
    rw [hst.peers_eq, hst.maxPeersReply_eq]
    cases t.mPeers.lookup infoHash with
    | none => rfl
    | some found => simp only [Bool.false_eq_true, if_false]
  scrape_eq toString infoHash noseed peers := by
    unfold MyDhtStorage.MemoryDhtStorage.getPeers MemoryDhtStorage.getPeers
    rw [hst.peers_eq]
    cases t.mPeers.lookup infoHash with
    | none => rfl
    | some found => simp only [if_true]
  getInfohashesSample_eq order item := by
    unfold MyDhtStorage.MemoryDhtStorage.getInfohashesSample MemoryDhtStorage.getInfohashesSample
    rw [hst.peers_eq]
  counters_eq := by
    unfold MyDhtStorage.MemoryDhtStorage.counters MemoryDhtStorage.counters
    rw [hst.peers_eq]
    exact ⟨rfl, rfl⟩
  noItems := ⟨rfl, rfl⟩
  getImmutableItem_eq _ _ := rfl
  getMutableItemSeq_eq _ _ := rfl
  getMutableItem_eq _ _ _ _ := rfl

/-! ## whole runs -/

section

variable {settings : Settings}

theorem maxItems_pos (hmax : 1 ≤ settings.dhtMaxDhtItems.toInt)
    (hr : (MyDhtStorage.system settings).Reachable s) : 1 ≤ s.maxItems := by
  rw [MyDhtStorage.maxItems_eq_of_reachable (by omega) hr]
  omega

/-- A call the slim store goes on from is one the full store goes on from, for
some choice of `begin()` among its items. -/
theorem Agree.exists_full_step (hmax : 1 ≤ settings.dhtMaxDhtItems.toInt)
    (hr : (MyDhtStorage.system settings).Reachable s) (hst : Agree s t) (ha : t.Admits ev)
    (ht : t.call ev = .ok t') :
    ∃ ev₀ s', SameCall ev₀ ev ∧ s.Admits ev₀ ∧ s.call ev₀ = .ok s' ∧ Agree s' t' := by
  obtain ⟨ev₀, hev, ha₀⟩ := exists_admits s hst.peers_eq ha
  have hp : peersCall (sizeT s.mMaxTorrents.toInt) ev₀ s.mPeers = .ok t'.mPeers := by
    rw [hev.peersCall_eq, hst.peers_eq, hst.maxTorrents_eq]
    exact (peersCall_of_slim_call ht).1
  obtain ⟨s', hs'⟩ := exists_call_of_peersCall (maxItems_pos hmax hr) hp
  exact ⟨ev₀, s', hev, ha₀, hs', hst.call hev hs' ht⟩

/-- A call the full store goes on from is one the slim store goes on from. -/
theorem Agree.exists_slim_step (hst : Agree s t) (ha : s.Admits ev) (hs : s.call ev = .ok s') :
    ∃ t', t.Admits ev ∧ t.call ev = .ok t' ∧ Agree s' t' := by
  have hp : peersCall (sizeT t.mMaxTorrents.toInt) ev t.mPeers = .ok s'.mPeers := by
    rw [← hst.peers_eq, ← hst.maxTorrents_eq]
    exact (peersCall_of_call hs).1
  have ht : t.call ev = .ok { t with mPeers := s'.mPeers } := by
    rw [call_eq_peersCall, hp]
    rfl
  exact ⟨_, admits_of_full hst.peers_eq ha, ht, hst.call (.refl ev) hs ht⟩

end

/-- **The slim store refines the full one on peers.**  With room for at least
one item, two runs of the same calls show the same peers wherever they have
come; the next call is defined in both unless it evicts the list it announces
to; and every run of either store is matched by a run of the other. -/
theorem slim_refines_full (settings : Settings) (hmax : 1 ≤ settings.dhtMaxDhtItems.toInt) :
    (∀ h h' s t, List.Forall₂ SameCall h h' → (MyDhtStorage.system settings).Trace h s →
      (system settings).Trace h' t → ShowSamePeers s t ∧
        ∀ ev, SparesAnnounced (sizeT settings.dhtMaxTorrents.toInt) ev t.mPeers →
          (∃ s', s.call ev = .ok s') ∧ ∃ t', t.call ev = .ok t') ∧
    (∀ h s, (MyDhtStorage.system settings).Trace h s →
      ∃ h' t, List.Forall₂ SameCall h h' ∧ (system settings).Trace h' t) ∧
    ∀ h' t, (system settings).Trace h' t →
      ∃ h s, List.Forall₂ SameCall h h' ∧ (MyDhtStorage.system settings).Trace h s := by
  have hinit : Agree (MyDhtStorage.system settings).init (system settings).init :=
    agree_init settings
  refine ⟨?_, ?_, ?_⟩
  · intro h h' s t hm hs ht
    have hst : Agree s t :=
      System.Trace.related Agree SameCall hinit
        (fun s t e d s' t' hst hev hs ht => hst.call hev hs ht) hm hs ht
    refine ⟨hst.showSamePeers, fun ev hspares => ?_⟩
    have htorrents : t.mMaxTorrents = settings.dhtMaxTorrents :=
      (Invariant.of_reachable ⟨h', ht⟩).maxTorrents_eq
    obtain ⟨mPeers, hp⟩ := exists_peersCall hspares
    rw [← htorrents] at hp
    have hp' : peersCall (sizeT s.mMaxTorrents.toInt) ev s.mPeers = .ok mPeers := by
      rw [hst.peers_eq, hst.maxTorrents_eq, hp]
    exact ⟨exists_call_of_peersCall (maxItems_pos hmax ⟨h, hs⟩) hp', _, by rw [call_eq_peersCall, hp]; rfl⟩
  · intro h s hs
    obtain ⟨h', t, hm, ht, -⟩ :=
      System.Trace.simulated (fun t s => Agree s t) (flip SameCall) hinit
        (fun t s ev s' _ hst ha hs => by
          obtain ⟨t', ha', ht', hst'⟩ := hst.exists_slim_step ha hs
          exact ⟨ev, t', .refl ev, ha', ht', hst'⟩) hs
    exact ⟨h', t, hm.flip, ht⟩
  · intro h' t ht
    obtain ⟨h, s, hm, hs, -⟩ :=
      System.Trace.simulated Agree SameCall hinit
        (fun s t ev t' hr hst ha ht => hst.exists_full_step hmax hr ha ht) ht
    exact ⟨h, s, hm, hs⟩

theorem slim_refines_full_afterSeven :
    ∃ h s, List.Forall₂ SameCall h sevenEvents ∧
      (MyDhtStorage.system threeTorrents).Trace h s ∧ ShowSamePeers s afterSeven := by
  obtain ⟨hsame, -, hmatch⟩ := slim_refines_full threeTorrents (by decide)
  obtain ⟨h, s, hm, hs⟩ := hmatch _ _ trace_sevenEvents
  exact ⟨h, s, hm, hs, (hsame h _ s _ hm hs trace_sevenEvents).1⟩

end BtDht.MyDhtStorage2
