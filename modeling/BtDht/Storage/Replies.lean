import BtDht.Data.Lists
import BtDht.Storage.Peers

/-!
# BtDht.Storage.Replies

What the read functions of a store write into the `lt::entry` they are given.
The loops of `get_peers` and `get_infohashes_sample` are the same in both
stores and read the peer table only, so they are functions of the table.

The text of an address is boost's: `toString` is `address::to_string`.  What
`lt::bdecode` makes of a buffer is a function `bdecode` of its bytes, with
`none` for an error.
-/

namespace BtDht

/-! ## entries -/

/-- `lt::entry` -/
inductive Entry
  | undefined
  | integer (i : Int64)
  | string (s : Bytes)
  | list (l : List Entry)
  | dictionary (d : List (Bytes × Entry))

/-- The entry a read fills in, by its keys: `item[key] = e` is `insert`.  An
entry that is undefined becomes a dictionary with its first key. -/
abbrev Item := UnorderedMap String Entry

namespace PeerTable

/-! ## get_peers -/

/-- `address().to_string() + ":" + std::to_string(port())` -/
def endpointText (toString : Address → Bytes) (endpoint : Endpoint) : Bytes :=
  toString endpoint.address ++ 58 :: toChars endpoint.port.toNat 10

/-- The loop of `get_peers`, which has `added` values already. -/
def peerValues (toString : Address → Bytes) (maxPeersReply : Int32) (noseed : Bool) :
    List PeerRecord → Nat → List Bytes
  | [], _ => []
  | p :: list, added =>
      if noseed ∧ p.seed then peerValues toString maxPeersReply noseed list added
      else
        let added := added + 1
        endpointText toString p.endpoint ::
          if (added : Int) ≥ maxPeersReply.toInt then []
          else peerValues toString maxPeersReply noseed list added

/-- `get_peers` for a hash it has `found`, when it is not asked to scrape. -/
def replyPeers (toString : Address → Bytes) (maxPeersReply : Int32) (noseed : Bool)
    (found : List PeerRecord) (peers : Item) : Bool × Item :=
  let values := peerValues toString maxPeersReply noseed found 0
  (int32 found.length ≥ maxPeersReply.toInt, peers.insert "values" (.list (values.map .string)))

/-! ## get_infohashes_sample -/

/-- The loop of `get_infohashes_sample` over the keys, in the order in which
the table is traversed. -/
def sampleLoop : List Sha1Hash → Bytes → Nat → Bytes × Nat
  | [], samples, count => (samples, count)
  | hash :: order, samples, count =>
      if count ≥ 20 then (samples, count) else sampleLoop order (samples ++ hash.bytes) (count + 1)

/-- `get_infohashes_sample` on the table: what it returns and what it writes. -/
def infohashesSample (order : List Sha1Hash) (mPeers : PeerTable) (item : Item) : Int × Item :=
  let (samples, count) := sampleLoop order [] 0
  let item := item.insert "samples" (.string samples)
  let item := item.insert "interval" (.integer 300)
  (count, item.insert "num" (.integer (.ofNat (UnorderedMap.size mPeers))))

/-! ## what get_peers writes -/

/-- The peers that may be listed: all of them, or those that are not seeds. -/
def eligible (noseed : Bool) (list : List PeerRecord) : List PeerRecord :=
  list.filter fun p => !(noseed && p.seed)

/-- The loop lists eligible peers from the first, and compares with the limit
when it has added one.  So a limit with no room left still lets one in. -/
theorem peerValues_eq (toString : Address → Bytes) (maxPeersReply : Int32) (noseed : Bool)
    (list : List PeerRecord) (added : Nat) :
    peerValues toString maxPeersReply noseed list added =
      ((eligible noseed list).take (max 1 (maxPeersReply.toInt - added).toNat)).map
        fun p => endpointText toString p.endpoint := by
  induction list generalizing added with
  | nil => simp [peerValues, eligible]
  | cons p list ih =>
      by_cases hskip : noseed ∧ p.seed
      · have hdrop : eligible noseed (p :: list) = eligible noseed list := by
          simp [eligible, hskip.1, hskip.2]
        rw [peerValues, if_pos hskip, ih, hdrop]
      · have hkeep : eligible noseed (p :: list) = p :: eligible noseed list := by
          simpa [eligible, List.filter_cons] using hskip
        rw [peerValues, if_neg hskip, hkeep]
        by_cases hfull : ((added + 1 : Nat) : Int) ≥ maxPeersReply.toInt
        · have hone : max 1 (maxPeersReply.toInt - added).toNat = 1 := by omega
          simp only [if_pos hfull, hone, List.take_succ_cons, List.take_zero, List.map_cons,
            List.map_nil]
        · have hmore : max 1 (maxPeersReply.toInt - added).toNat =
              max 1 (maxPeersReply.toInt - (added + 1 : Nat)).toNat + 1 := by omega
          simp only [if_neg hfull, ih, hmore, List.take_succ_cons, List.map_cons]

theorem lookup_replyPeers (toString : Address → Bytes) (maxPeersReply : Int32) (noseed : Bool)
    (found : List PeerRecord) (peers : Item) :
    (replyPeers toString maxPeersReply noseed found peers).2.lookup "values" =
      some (.list ((peerValues toString maxPeersReply noseed found 0).map .string)) :=
  AList.lookup_insert peers

/-! ## the text of an endpoint -/

section text

variable {toString : Address → Bytes}

/-- The text of an address may contain colons and is not bracketed.  The last
colon is the one before the port. -/
theorem splitLast_endpointText (endpoint : Endpoint) :
    splitLast 58 (endpointText toString endpoint) =
      (toString endpoint.address, toChars endpoint.port.toNat 10) :=
  splitLast_append (notMem_toChars _ (by decide))

/-- Where addresses have texts of their own, so do endpoints. -/
theorem endpointText_injective (h : Function.Injective toString) :
    Function.Injective (endpointText toString) := by
  intro e e' htext
  obtain ⟨haddress, hport⟩ :=
    append_sep_inj (notMem_toChars _ (by decide)) (notMem_toChars _ (by decide)) htext
  have hport' : e.port = e'.port := UInt16.toNat_inj.mp (toChars_injective hport)
  cases e
  cases e'
  simp only at haddress hport'
  rw [h haddress, hport']

end text

/-! ## what get_infohashes_sample writes -/

/-- The loop appends hashes until there are 20. -/
theorem sampleLoop_eq (order : List Sha1Hash) (samples : Bytes) {count : Nat} (h : count ≤ 20) :
    sampleLoop order samples count =
      (samples ++ (order.take (20 - count)).flatMap ByteBlock.bytes,
        count + min (20 - count) order.length) := by
  induction order generalizing samples count with
  | nil => simp [sampleLoop]
  | cons hash order ih =>
      by_cases hfull : count ≥ 20
      · have hzero : 20 - count = 0 := by omega
        simp [sampleLoop, hfull, hzero]
      · obtain ⟨room, hroom⟩ : ∃ room, 20 - count = room + 1 := ⟨19 - count, by omega⟩
        have hless : 20 - (count + 1) = room := by omega
        rw [sampleLoop, if_neg hfull, ih _ (by omega), hless, hroom, List.take_succ_cons,
          List.flatMap_cons, List.append_assoc, List.length_cons, Nat.succ_min_succ]
        simp only [Prod.mk.injEq, true_and]
        omega

end PeerTable

end BtDht
