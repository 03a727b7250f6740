import BtDht.MyDhtStorage2.Refines

/-!
# BtDht.MyDhtStorage2.Answers

What the reads answer in the states a run reaches.

* `getPeers_answersPrefix_iff` — `get_peers` of either store lists the first
  eligible peers within `dht_max_peers_reply`, unless the limit is 0: it is
  compared after a peer has been added.
* `peer_texts_unambiguous` — each text in the list names one stored peer,
  although the text of an IPv6 address is not bracketed.
* `infohashes_sample_faithful` — the sample holds stored hashes, none of them
  twice, and all of them while there are few.
-/

namespace BtDht.MyDhtStorage2

open PeerTable

/-! ## the limit of get_peers -/

/-- The reply lists the first eligible peers, as many as the limit allows. -/
def AnswersPrefix (toString : Address → Bytes) (maxPeersReply : Int32) (noseed : Bool)
    (found : List PeerRecord) (reply : Item) : Prop :=
  ∃ values : List Bytes, reply.lookup "values" = some (.list (values.map .string)) ∧
    values = ((eligible noseed found).take maxPeersReply.toInt.toNat).map
      (fun p => endpointText toString p.endpoint) ∧
    values.length ≤ maxPeersReply.toInt.toNat

section limit

variable {toString : Address → Bytes} {maxPeersReply : Int32} {noseed : Bool}
  {found : List PeerRecord}

/-- The list is the prefix unless it is too long for a limit of 0. -/
theorem answersPrefix_replyPeers_iff (hmax : 0 ≤ maxPeersReply.toInt) {peers : Item} :
    AnswersPrefix toString maxPeersReply noseed found
        (replyPeers toString maxPeersReply noseed found peers).2 ↔
      1 ≤ maxPeersReply.toInt ∨ eligible noseed found = [] := by
  have hlookup := lookup_replyPeers toString maxPeersReply noseed found peers
  have hvalues := peerValues_eq toString maxPeersReply noseed found 0
  rw [Int.natCast_zero, Int.sub_zero] at hvalues
  constructor
  · rintro ⟨values, hlist, -, hlength⟩
    rw [hlookup, Option.some.injEq, Entry.list.injEq] at hlist
    have hcount := congrArg List.length hlist
    rw [List.length_map, List.length_map, hvalues, List.length_map, List.length_take] at hcount
    by_cases hpos : 1 ≤ maxPeersReply.toInt
    · exact Or.inl hpos
    · exact Or.inr (List.eq_nil_of_length_eq_zero (by omega))
  · intro h
    refine ⟨_, hlookup, ?_, ?_⟩
    · rw [hvalues]
      cases h with
      | inl hpos =>
          rw [max_eq_right (by omega)]
      | inr hnil => simp [hnil]
    · rw [hvalues, List.length_map, List.length_take]
      cases h with
      | inl hpos => omega
      | inr hnil => simp [hnil]

end limit

/-! ### in the states of a run -/

theorem maxPeersReply_of_reachable {settings : Settings} {s : MemoryDhtStorage}
    (hr : (system settings).Reachable s) : s.mMaxPeersReply = settings.dhtMaxPeersReply :=
  hr.invariant (fun s => s.mMaxPeersReply = settings.dhtMaxPeersReply) rfl
    fun _ _ _ hi _ hstep => by
      rw [(peersCall_of_slim_call hstep).2]
      exact hi

theorem maxPeersReply_of_full_reachable {settings : Settings} {s : MyDhtStorage.MemoryDhtStorage}
    (hr : (MyDhtStorage.system settings).Reachable s) :
    s.mMaxPeersReply = settings.dhtMaxPeersReply :=
  hr.invariant (fun s => s.mMaxPeersReply = settings.dhtMaxPeersReply) rfl
    fun _ _ _ hi _ hstep => (peersCall_of_call hstep).2.1.trans hi

theorem getPeers_eq_replyPeers {toString : Address → Bytes} {s : MemoryDhtStorage}
    {infoHash : Sha1Hash} {noseed : Bool} {found : List PeerRecord} {peers : Item}
    (h : s.mPeers.lookup infoHash = some found) :
    s.getPeers toString infoHash noseed false peers =
      replyPeers toString s.mMaxPeersReply noseed found peers := by
  simp [MemoryDhtStorage.getPeers, h]

/-- **The limit of `get_peers`.**  In every state either store reaches and for
every stored hash, the reply lists the first eligible peers in their order, as
many as `dht_max_peers_reply` allows, if and only if the limit is at least 1 or
no peer is eligible. -/
theorem getPeers_answersPrefix_iff (settings : Settings)
    (hmax : 0 ≤ settings.dhtMaxPeersReply.toInt) (toString : Address → Bytes) :
    (∀ s, (system settings).Reachable s → ∀ infoHash found,
      s.mPeers.lookup infoHash = some found → ∀ noseed peers,
        (AnswersPrefix toString settings.dhtMaxPeersReply noseed found
            (s.getPeers toString infoHash noseed false peers).2 ↔
          1 ≤ settings.dhtMaxPeersReply.toInt ∨ eligible noseed found = [])) ∧
    ∀ s, (MyDhtStorage.system settings).Reachable s → ∀ infoHash found,
      s.mPeers.lookup infoHash = some found → ∀ noseed peers,
        (AnswersPrefix toString settings.dhtMaxPeersReply noseed found
            (s.getPeers toString infoHash noseed false peers).2 ↔
          1 ≤ settings.dhtMaxPeersReply.toInt ∨ eligible noseed found = []) := by
  constructor
  · intro s hr infoHash found hfound noseed peers
    rw [getPeers_eq_replyPeers hfound, maxPeersReply_of_reachable hr]
    exact answersPrefix_replyPeers_iff hmax
  · intro s hr infoHash found hfound noseed peers
    have hreply : s.getPeers toString infoHash noseed false peers =
        replyPeers toString s.mMaxPeersReply noseed found peers := by
      simp [MyDhtStorage.MemoryDhtStorage.getPeers, hfound]
    rw [hreply, maxPeersReply_of_full_reachable hr]
    exact answersPrefix_replyPeers_iff hmax

/-- A text for every address, of IPv4 as boost writes it. -/
def dotted : Address → Bytes
  | .v4 addr =>
      let octet := fun i => toChars (addr.toNat / 256 ^ i % 256) 10
      octet 3 ++ 46 :: octet 2 ++ 46 :: octet 1 ++ 46 :: octet 0
  | .v6 addr scopeId => 58 :: toChars addr.toNat 10 ++ 37 :: toChars scopeId.toNat 10

/-- The texts of `twoPeers`. -/
def twoTexts : List Bytes :=
  ["0.0.0.1:6881".toUTF8.data.toList, "0.0.0.3:6881".toUTF8.data.toList]

theorem values_afterSeven :
    (afterSeven.getPeers dotted (.fill 20 1) false false ∅).2.lookup "values" =
      some (.list (twoTexts.map .string)) := by
  rfl

theorem getPeers_answersPrefix_afterSeven :
    AnswersPrefix dotted 20 false twoPeers
        (afterSeven.getPeers dotted (.fill 20 1) false false ∅).2 ∧
      (afterSeven.getPeers dotted (.fill 20 1) false false ∅).2.lookup "values" =
        some (.list (twoTexts.map .string)) := by
  have h := (getPeers_answersPrefix_iff threeTorrents (by decide) dotted).1 afterSeven
    ⟨_, trace_sevenEvents⟩ (.fill 20 1) twoPeers rfl false ∅
  exact ⟨h.mpr (Or.inl (by decide)), values_afterSeven⟩

/-- The peer of `oneTorrentFull`. -/
def onePeer : List PeerRecord := [⟨⟨.v4 1, 6881⟩, false, [], 0⟩]

/-- One torrent, and no peer in a reply. -/
def noPeersReply : Settings := ⟨0, 1, 500⟩

/-- The store after the first announcement, with a limit of 0. -/
def noPeersReplyFull : MemoryDhtStorage := { oneTorrentFull with mMaxPeersReply := 0 }

/-- The reply has one value and should have none. -/
theorem getPeers_exceeds_limit :
    0 ≤ noPeersReply.dhtMaxPeersReply.toInt ∧ (system noPeersReply).Reachable noPeersReplyFull ∧
    noPeersReplyFull.mPeers.lookup (.fill 20 1) = some onePeer ∧
    (noPeersReplyFull.getPeers dotted (.fill 20 1) false false ∅).2.lookup "values" =
      some (.list [.string "0.0.0.1:6881".toUTF8.data.toList]) ∧
    ¬ AnswersPrefix dotted noPeersReply.dhtMaxPeersReply false onePeer
      (noPeersReplyFull.getPeers dotted (.fill 20 1) false false ∅).2 := by
  have hone : (noPeersReplyFull.getPeers dotted (.fill 20 1) false false ∅).2.lookup "values" =
      some (.list [.string "0.0.0.1:6881".toUTF8.data.toList]) := by
    rfl
  refine ⟨by decide, ⟨[firstAnnouncement], System.trace_of_run rfl⟩, rfl, hone, ?_⟩
  rintro ⟨values, hlist, -, hlength⟩
  rw [hone, Option.some.injEq, Entry.list.injEq] at hlist
  have hcount := congrArg List.length hlist
  have hzero : noPeersReply.dhtMaxPeersReply.toInt.toNat = 0 := by decide
  rw [List.length_map] at hcount
  rw [hzero] at hlength
  simp at hcount
  omega

/-! ## the texts of the peers -/

/-- The values of a reply are texts of stored peers, each of them once. -/
theorem nodup_peerValues {toString : Address → Bytes} (h : Function.Injective toString)
    (maxPeersReply : Int32) (noseed : Bool) {found : List PeerRecord}
    (hnd : (found.map PeerRecord.endpoint).Nodup) :
    (peerValues toString maxPeersReply noseed found 0).Nodup ∧
      peerValues toString maxPeersReply noseed found 0 ⊆
        (found.map PeerRecord.endpoint).map (endpointText toString) := by
  have hsub : ((eligible noseed found).take
      (max 1 (maxPeersReply.toInt - (0 : Nat)).toNat)).Sublist found :=
    (List.take_sublist _ _).trans List.filter_sublist
  have hsub' := (hsub.map PeerRecord.endpoint).map (endpointText toString)
  rw [List.map_map] at hsub'
  rw [peerValues_eq]
  exact ⟨(hnd.map (endpointText_injective h)).sublist hsub', hsub'.subset⟩

/-- **The text of a peer names it.**  If addresses have texts of their own,
endpoints have.  In every state a run reaches, the values of a reply differ
from each other, and what stands before and after the last colon of a value is
the text of the address and the port of exactly one stored endpoint. -/
theorem peer_texts_unambiguous {toString : Address → Bytes} (h : Function.Injective toString) :
    (∀ e e', endpointText toString e = endpointText toString e' ↔ e = e') ∧
    ∀ settings s, (system settings).Reachable s → ∀ infoHash found,
      s.mPeers.lookup infoHash = some found → ∀ noseed peers, ∃ values : List Bytes,
        (s.getPeers toString infoHash noseed false peers).2.lookup "values" =
          some (.list (values.map .string)) ∧ values.Nodup ∧
        ∀ v ∈ values, ∃! e, e ∈ found.map PeerRecord.endpoint ∧
          splitLast 58 v = (toString e.address, toChars e.port.toNat 10) := by
  refine ⟨fun e e' => (endpointText_injective h).eq_iff, ?_⟩
  intro settings s hr infoHash found hfound noseed peers
  have hnd := (Invariant.of_reachable hr).wellFormed.distinct infoHash found hfound
  obtain ⟨hvalues, hstored⟩ := nodup_peerValues h s.mMaxPeersReply noseed hnd
  rw [getPeers_eq_replyPeers hfound]
  refine ⟨_, lookup_replyPeers toString _ noseed found peers, hvalues, fun v hv => ?_⟩
  obtain ⟨e, he, rfl⟩ := List.mem_map.mp (hstored hv)
  refine ⟨e, ⟨he, splitLast_endpointText e⟩, ?_⟩
  rintro e' ⟨-, hsplit⟩
  obtain ⟨haddress, hport⟩ := Prod.mk.inj ((splitLast_endpointText e).symm.trans hsplit)
  apply endpointText_injective h
  rw [endpointText, endpointText, haddress, hport]

theorem dotted_v4_ne_v6 (addr : UInt32) (addr' : BitVec 128) (scopeId : UInt32) :
    dotted (.v4 addr) ≠ dotted (.v6 addr' scopeId) := by
  have hcolon : ∀ n, (58 : UInt8) ∉ toChars n 10 := fun n => notMem_toChars n (by decide)
  intro h
  have hin : (58 : UInt8) ∈ dotted (.v4 addr) := by
    rw [h]
    simp [dotted]
  simp [dotted, hcolon] at hin

theorem dotted_injective : Function.Injective dotted := by
  have hdot : ∀ n, (46 : UInt8) ∉ toChars n 10 := fun n => notMem_toChars n (by decide)
  have hpercent : ∀ n, (37 : UInt8) ∉ toChars n 10 := fun n => notMem_toChars n (by decide)
  intro a a' h
  cases a with
  | v4 addr =>
      cases a' with
      | v4 addr' =>
          -- the octets, from the last to the first
          obtain ⟨h, h0⟩ := append_sep_inj (hdot _) (hdot _) h
          obtain ⟨h, h1⟩ := append_sep_inj (hdot _) (hdot _) h
          obtain ⟨h3, h2⟩ := append_sep_inj (hdot _) (hdot _) h
          have h0 := toChars_injective h0
          have h1 := toChars_injective h1
          have h2 := toChars_injective h2
          have h3 := toChars_injective h3
          have hlt := addr.toNat_lt
          have hlt' := addr'.toNat_lt
          have heq : addr.toNat = addr'.toNat := by omega
          rw [UInt32.toNat_inj.mp heq]
      | v6 addr' scopeId' => exact absurd h (dotted_v4_ne_v6 addr addr' scopeId')
  | v6 addr scopeId =>
      cases a' with
      | v4 addr' => exact absurd h.symm (dotted_v4_ne_v6 addr' addr scopeId)
      | v6 addr' scopeId' =>
          obtain ⟨haddr, hscope⟩ := append_sep_inj (hpercent _) (hpercent _) h
          have haddr := toChars_injective (List.cons.inj haddr).2
          have hscope := toChars_injective hscope
          rw [BitVec.eq_of_toNat_eq haddr, UInt32.toNat_inj.mp hscope]

theorem peer_texts_unambiguous_afterSeven :
    (afterSeven.getPeers dotted (.fill 20 1) false false ∅).2.lookup "values" =
        some (.list (twoTexts.map .string)) ∧ twoTexts.Nodup ∧
      ∀ v ∈ twoTexts, ∃! e, e ∈ twoPeers.map PeerRecord.endpoint ∧
        splitLast 58 v = (dotted e.address, toChars e.port.toNat 10) := by
  obtain ⟨values, hlookup, h⟩ := (peer_texts_unambiguous dotted_injective).2 threeTorrents afterSeven
    ⟨_, trace_sevenEvents⟩ (.fill 20 1) twoPeers rfl false ∅
  rw [values_afterSeven, Option.some.injEq, Entry.list.injEq] at hlookup
  obtain rfl := List.map_injective_iff.mpr (fun _ _ => Entry.string.inj) hlookup
  exact ⟨values_afterSeven, h⟩

/-! ## the sample of info-hashes -/

/-- The reply samples `hashes`: at most 20 of those that are stored, each once,
and all of them when there are no more than 20. -/
structure FaithfulSample (mPeers : PeerTable) (hashes : List Sha1Hash) (reply : Int × Item) :
    Prop where
  count : reply.1 = min 20 (UnorderedMap.size mPeers)
  length_hashes : (hashes.length : Int) = reply.1
  /-- 20 bytes for each hash, which can be cut again -/
  samples : ∃ samples : Bytes, reply.2.lookup "samples" = some (.string samples) ∧
    (samples.length : Int) = 20 * reply.1 ∧ blocks 20 samples = hashes.map ByteBlock.bytes
  num : reply.2.lookup "num" = some (.integer (.ofNat (UnorderedMap.size mPeers)))
  distinct : hashes.Nodup
  stored : ∀ h ∈ hashes, ∃ list, mPeers.lookup h = some list ∧ list ≠ []
  complete : UnorderedMap.size mPeers ≤ 20 → ∀ h, h ∈ mPeers → h ∈ hashes

theorem blocks_flatMap_bytes (hashes : List Sha1Hash) :
    blocks 20 (hashes.flatMap ByteBlock.bytes) = hashes.map ByteBlock.bytes := by
  apply blocks_flatten (by omega)
  intro b hb
  obtain ⟨h, -, rfl⟩ := List.mem_map.mp hb
  exact h.size_eq

theorem length_flatMap_bytes (hashes : List Sha1Hash) :
    (hashes.flatMap ByteBlock.bytes).length = 20 * hashes.length := by
  induction hashes with
  | nil => simp
  | cons h hashes ih =>
      rw [List.flatMap_cons, List.length_append, ih, h.size_eq, List.length_cons]
      omega

/-- A reply samples the first 20 hashes of the traversal. -/
theorem faithfulSample_of_wellFormed {mPeers : PeerTable} (hwf : mPeers.WellFormed)
    {order : List Sha1Hash} (horder : order.Perm mPeers.keys) (item : Item) :
    FaithfulSample mPeers (order.take 20) (infohashesSample order mPeers item) := by
  have hloop := sampleLoop_eq order [] (Nat.zero_le 20)
  have hsize : order.length = UnorderedMap.size mPeers := horder.length_eq
  have hlength : (order.take 20).length = min 20 order.length := List.length_take
  have hstored : ∀ h ∈ order, h ∈ mPeers := fun h hh => AList.mem_keys.mpr (horder.mem_iff.mp hh)
  simp only [Nat.sub_zero, List.nil_append, Nat.zero_add, hsize] at hloop
  rw [hsize] at hlength
  simp only [infohashesSample, hloop]
  constructor
  · simp
  · simp [hlength]
  · refine ⟨(order.take 20).flatMap ByteBlock.bytes, ?_, ?_, blocks_flatMap_bytes _⟩
    · rw [AList.lookup_insert_ne (by decide), AList.lookup_insert_ne (by decide),
        AList.lookup_insert]
    · rw [length_flatMap_bytes, hlength]
      simp
  · exact AList.lookup_insert _
  · exact (horder.nodup_iff.mpr mPeers.keys_nodup).sublist (List.take_sublist 20 order)
  · intro h hh
    obtain ⟨list, hlist⟩ := UnorderedMap.mem_iff_lookup.mp (hstored h (List.mem_of_mem_take hh))
    exact ⟨list, hlist, hwf.ne_nil h list hlist⟩
  · intro hfew h hh
    rw [List.take_of_length_le (by omega)]
    exact horder.mem_iff.mpr (AList.mem_keys.mp hh)

/-- **The sample is faithful.**  In every state a run reaches and for every
order in which the table is traversed, `get_infohashes_sample` returns the
smaller of 20 and the number of stored hashes, and writes that many of them,
20 bytes each: none twice, none without a peer, and none left out while there
are no more than 20. -/
theorem infohashes_sample_faithful (settings : Settings) {s : MemoryDhtStorage}
    (hr : (system settings).Reachable s) {order : List Sha1Hash}
    (horder : order.Perm s.mPeers.keys) (item : Item) :
    ∃ hashes, FaithfulSample s.mPeers hashes (s.getInfohashesSample order item) :=
  ⟨_, faithfulSample_of_wellFormed (Invariant.of_reachable hr).wellFormed horder item⟩

theorem infohashes_sample_faithful_afterSeven :
    (afterSeven.getInfohashesSample [.fill 20 1, .fill 20 2] ∅).1 = 2 ∧
      ∃ hashes, FaithfulSample afterSeven.mPeers hashes
        (afterSeven.getInfohashesSample [.fill 20 1, .fill 20 2] ∅) :=
  ⟨rfl, infohashes_sample_faithful threeTorrents ⟨_, trace_sevenEvents⟩ (.swap _ _ _) ∅⟩

end BtDht.MyDhtStorage2
