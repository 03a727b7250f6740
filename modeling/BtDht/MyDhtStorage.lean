import BtDht.Data.System
import BtDht.Storage.Replies

/-!
# BtDht.MyDhtStorage

`mydhtstorage.cpp`: the `MemoryDhtStorage` that keeps peers, immutable items
and mutable items.  The peer table is the one of `BtDht.Storage.Peers`; an
immutable item lives in two tables at once, its bytes in `m_immutable_items`
and the time it arrived in `m_immutable_seen`.

Both item stores make room by `erase(begin())`, which takes an arbitrary
element, or is undefined on an empty table.
-/

namespace BtDht.MyDhtStorage

open PeerTable

/-! ## the store -/

/-- `struct MutableItemRecord` -/
structure MutableItemRecord where
  value : Bytes
  signature : Signature
  sequence : SequenceNumber
  publicKey : PublicKey
  salt : Bytes
  seenAt : TimePoint
  deriving DecidableEq

def kItemTtl : Int := hours 2

/-- `class MemoryDhtStorage` -/
structure MemoryDhtStorage where
  mMaxPeersReply : Int32
  mMaxTorrents : Int32
  mMaxItems : Int32
  mNodeIds : List Sha1Hash
  mPeers : PeerTable
  mImmutableItems : UnorderedMap Sha1Hash Bytes
  mImmutableSeen : UnorderedMap Sha1Hash TimePoint
  mMutableItems : UnorderedMap Sha1Hash MutableItemRecord

/-- The constructor. -/
def MemoryDhtStorage.ofSettings (settings : Settings) : MemoryDhtStorage where
  mMaxPeersReply := settings.dhtMaxPeersReply
  mMaxTorrents := settings.dhtMaxTorrents
  mMaxItems := settings.dhtMaxDhtItems
  mNodeIds := []
  mPeers := ∅
  mImmutableItems := ∅
  mImmutableSeen := ∅
  mMutableItems := ∅

/-- `m.erase(m.begin())`, where `begin()` yields the entry of `first`. -/
def eraseBegin {ν : Type} (m : UnorderedMap Sha1Hash ν) (first : Sha1Hash) :
    Except UndefinedBehavior (UnorderedMap Sha1Hash ν) :=
  if UnorderedMap.size m = 0 then .error .eraseEnd else .ok (m.erase first)

namespace MemoryDhtStorage

/-- `static_cast<std::size_t>(m_max_items)` -/
def maxItems (s : MemoryDhtStorage) : Nat := sizeT s.mMaxItems.toInt

def updateNodeIds (ids : List Sha1Hash) (s : MemoryDhtStorage) : MemoryDhtStorage :=
  { s with mNodeIds := ids }

def announcePeer (s : MemoryDhtStorage) (now : TimePoint) (first infoHash : Sha1Hash)
    (endp : Endpoint) (name : Bytes) (seed : Bool) :
    Except UndefinedBehavior MemoryDhtStorage :=
  (PeerTable.announcePeer (sizeT s.mMaxTorrents.toInt) now first infoHash endp name seed
    s.mPeers).map fun mPeers => { s with mPeers := mPeers }

def putImmutableItem (s : MemoryDhtStorage) (now : TimePoint) (first target : Sha1Hash)
    (buf : Bytes) : Except UndefinedBehavior MemoryDhtStorage :=
  if target ∈ s.mImmutableItems then
    .ok s
  else do
    let items ←
      if UnorderedMap.size s.mImmutableItems ≥ s.maxItems then eraseBegin s.mImmutableItems first
      else .ok s.mImmutableItems
    .ok { s with
      mImmutableItems := UnorderedMap.emplace items target buf
      mImmutableSeen := s.mImmutableSeen.insert target now }

/-- `found != end() && seq <= found->second.sequence`: the put is stale. -/
def stale (s : MemoryDhtStorage) (target : Sha1Hash) (seq : SequenceNumber) : Bool :=
  match s.mMutableItems.lookup target with
  | some found => seq ≤ found.sequence
  | none => false

def putMutableItem (s : MemoryDhtStorage) (now : TimePoint) (first target : Sha1Hash)
    (buf : Bytes) (sig : Signature) (seq : SequenceNumber) (pk : PublicKey) (salt : Bytes) :
    Except UndefinedBehavior MemoryDhtStorage :=
  if s.stale target seq then
    .ok s
  else do
    let items ←
      if UnorderedMap.size s.mMutableItems ≥ s.maxItems ∧ target ∉ s.mMutableItems then
        eraseBegin s.mMutableItems first
      else .ok s.mMutableItems
    .ok { s with mMutableItems := items.insert target ⟨buf, sig, seq, pk, salt, now⟩ }

/-- An immutable item whose arrival time is too old. -/
def seenExpired (now : TimePoint) (seenAt : TimePoint) : Bool := now - seenAt > kItemTtl

/-- The three loops of `tick`: peers, immutable items by their arrival times,
mutable items. -/
def tick (now : TimePoint) (s : MemoryDhtStorage) : MemoryDhtStorage :=
  let immutable := UnorderedMap.sweepBoth (seenExpired now) s.mImmutableSeen s.mImmutableItems
  { s with
    mPeers := PeerTable.tick now s.mPeers
    mImmutableItems := immutable.2
    mImmutableSeen := immutable.1
    mMutableItems := UnorderedMap.sweep
      (fun _ rec => if now - rec.seenAt > kItemTtl then none else some rec) s.mMutableItems }

def counters (s : MemoryDhtStorage) : DhtStorageCounters :=
  ⟨s.mPeers.torrents, s.mPeers.totalPeers, int32 (UnorderedMap.size s.mImmutableItems),
    int32 (UnorderedMap.size s.mMutableItems)⟩

/-! ### reads -/

def getPeers (toString : Address → Bytes) (s : MemoryDhtStorage) (infoHash : Sha1Hash)
    (noseed scrape : Bool) (peers : Item) : Bool × Item :=
  match s.mPeers.lookup infoHash with
  | none => (false, peers)
  | some found =>
      if scrape then
        let peers := peers.insert "BFpe" (.string (List.replicate (256 / 8) 0))
        (false, peers.insert "BFsd" (.string (List.replicate (256 / 8) 0)))
      else replyPeers toString s.mMaxPeersReply noseed found peers

def getImmutableItem (bdecode : Bytes → Option Entry) (s : MemoryDhtStorage) (target : Sha1Hash)
    (item : Item) : Bool × Item :=
  match s.mImmutableItems.lookup target with
  | none => (false, item)
  | some buf => match bdecode buf with
    | none => (false, item)
    | some decoded => (true, item.insert "v" decoded)

/-- What `get_mutable_item_seq` returns, and what it leaves in `seq`. -/
def getMutableItemSeq (s : MemoryDhtStorage) (target : Sha1Hash) (seq : SequenceNumber) :
    Bool × SequenceNumber :=
  match s.mMutableItems.lookup target with
  | none => (false, seq)
  | some found => (true, found.sequence)

def sequenceToInt64 (seq : SequenceNumber) : Int64 := seq

def getMutableItem (bdecode : Bytes → Option Entry) (s : MemoryDhtStorage) (target : Sha1Hash)
    (seq : SequenceNumber) (forceFill : Bool) (item : Item) : Bool × Item :=
  match s.mMutableItems.lookup target with
  | none => (false, item)
  | some data =>
      let item := item.insert "seq" (.integer (sequenceToInt64 data.sequence))
      if forceFill ∨ seq < data.sequence then
        let item := match bdecode data.value with
          | none => item
          | some decoded => item.insert "v" decoded
        let item := item.insert "sig" (.string data.signature.bytes)
        (true, item.insert "k" (.string data.publicKey.bytes))
      else (true, item)

/-- `get_infohashes_sample`, with the order in which `m_peers` is traversed. -/
def getInfohashesSample (s : MemoryDhtStorage) (order : List Sha1Hash) (item : Item) : Int × Item :=
  infohashesSample order s.mPeers item

/-! ### calls -/

/-- The state a call leaves; the reads leave it alone. -/
def call (s : MemoryDhtStorage) (ev : Event) : Except UndefinedBehavior MemoryDhtStorage :=
  match ev.call with
  | .updateNodeIds ids => .ok (s.updateNodeIds ids)
  | .announcePeer infoHash endp name seed =>
      s.announcePeer ev.now ev.first infoHash endp name seed
  | .putImmutableItem target buf => s.putImmutableItem ev.now ev.first target buf
  | .putMutableItem target buf sig seq pk salt =>
      s.putMutableItem ev.now ev.first target buf sig seq pk salt
  | .tick => .ok (s.tick ev.now)
  | .getPeers .. | .getImmutableItem .. | .getMutableItemSeq .. | .getMutableItem ..
  | .getInfohashesSample | .counters => .ok s

/-- `begin()` yields a key of the table it is called on, unless that table is
empty. -/
def Admits (s : MemoryDhtStorage) (ev : Event) : Prop :=
  match ev.call with
  | .announcePeer infoHash _ _ _ => MayBegin s.mPeers infoHash ev.first
  | .putImmutableItem _ _ =>
      UnorderedMap.size s.mImmutableItems = 0 ∨ ev.first ∈ s.mImmutableItems
  | .putMutableItem .. => UnorderedMap.size s.mMutableItems = 0 ∨ ev.first ∈ s.mMutableItems
  | _ => True

instance (s : MemoryDhtStorage) : (ev : Event) → Decidable (s.Admits ev)
  | ⟨_, first, .announcePeer infoHash _ _ _⟩ =>
      inferInstanceAs (Decidable (MayBegin s.mPeers infoHash first))
  | ⟨_, first, .putImmutableItem _ _⟩ =>
      inferInstanceAs (Decidable (UnorderedMap.size s.mImmutableItems = 0 ∨
        first ∈ s.mImmutableItems))
  | ⟨_, first, .putMutableItem ..⟩ =>
      inferInstanceAs (Decidable (UnorderedMap.size s.mMutableItems = 0 ∨
        first ∈ s.mMutableItems))
  | ⟨_, _, .updateNodeIds _⟩ | ⟨_, _, .getPeers ..⟩ | ⟨_, _, .getImmutableItem _⟩
  | ⟨_, _, .getMutableItemSeq _⟩ | ⟨_, _, .getMutableItem ..⟩ | ⟨_, _, .getInfohashesSample⟩
  | ⟨_, _, .tick⟩ | ⟨_, _, .counters⟩ => inferInstanceAs (Decidable True)

end MemoryDhtStorage

/-- The store over any run of calls. -/
def system (settings : Settings) : System MemoryDhtStorage Event UndefinedBehavior where
  init := .ofSettings settings
  allowed := MemoryDhtStorage.Admits
  step := MemoryDhtStorage.call

instance (settings : Settings) (s : MemoryDhtStorage) (ev : Event) :
    Decidable ((system settings).allowed s ev) :=
  inferInstanceAs (Decidable (s.Admits ev))

/-! ## what the puts can do -/

/-- Both puts make room before they insert: a table that is full loses what
`begin()` yields, if it yields anything. -/
theorem makeRoom_cases {ν σ : Type} {full : Prop} [Decidable full] {m : UnorderedMap Sha1Hash ν}
    {first : Sha1Hash} {put : UnorderedMap Sha1Hash ν → σ} {s' : σ}
    (h : (if full then (eraseBegin m first).bind fun items => .ok (put items)
      else .ok (put m)) = Except.ok s') :
    (¬ full ∧ s' = put m) ∨ (full ∧ UnorderedMap.size m ≠ 0 ∧ s' = put (m.erase first)) := by
  by_cases hfull : full
  · rw [if_pos hfull, eraseBegin] at h
    by_cases hzero : UnorderedMap.size m = 0
    · rw [if_pos hzero] at h
      cases h
    · rw [if_neg hzero] at h
      exact Or.inr ⟨hfull, hzero, (Except.ok.inj h).symm⟩
  · rw [if_neg hfull] at h
    exact Or.inl ⟨hfull, (Except.ok.inj h).symm⟩

section puts

variable {s s' : MemoryDhtStorage} {now : TimePoint} {first target : Sha1Hash} {buf : Bytes}

/-- A put of an immutable item: nothing when the target is present, else an
insertion into both tables, after an eviction from the first when it is full. -/
theorem putImmutableItem_cases (h : s.putImmutableItem now first target buf = .ok s') :
    (target ∈ s.mImmutableItems ∧ s' = s) ∨
    (target ∉ s.mImmutableItems ∧ UnorderedMap.size s.mImmutableItems < s.maxItems ∧
      s' = { s with
        mImmutableItems := UnorderedMap.emplace s.mImmutableItems target buf
        mImmutableSeen := s.mImmutableSeen.insert target now }) ∨
    (target ∉ s.mImmutableItems ∧ s.maxItems ≤ UnorderedMap.size s.mImmutableItems ∧
      UnorderedMap.size s.mImmutableItems ≠ 0 ∧
      s' = { s with
        mImmutableItems := UnorderedMap.emplace (s.mImmutableItems.erase first) target buf
        mImmutableSeen := s.mImmutableSeen.insert target now }) := by
  rw [MemoryDhtStorage.putImmutableItem] at h
  by_cases hin : target ∈ s.mImmutableItems
  · rw [if_pos hin] at h
    exact Or.inl ⟨hin, (Except.ok.inj h).symm⟩
  · rw [if_neg hin] at h
    obtain ⟨hroom, rfl⟩ | ⟨hfull, hzero, rfl⟩ := makeRoom_cases h
    · exact Or.inr (Or.inl ⟨hin, by omega, rfl⟩)
    · exact Or.inr (Or.inr ⟨hin, hfull, hzero, rfl⟩)

/-- A put of an absent target stores the bytes, and the time of the put whatever
time was there. -/
theorem lookup_putImmutableItem (hnew : target ∉ s.mImmutableItems)
    (h : s.putImmutableItem now first target buf = .ok s') :
    s'.mImmutableItems.lookup target = some buf ∧
      s'.mImmutableSeen.lookup target = some now := by
  obtain ⟨hin, -⟩ | ⟨-, -, rfl⟩ | ⟨-, -, -, rfl⟩ := putImmutableItem_cases h
  · exact absurd hin hnew
  · constructor
    · show (UnorderedMap.emplace s.mImmutableItems target buf).lookup target = some buf
      rw [UnorderedMap.emplace_of_notMem buf hnew, AList.lookup_insert]
    · exact AList.lookup_insert _
  · have hgone : target ∉ s.mImmutableItems.erase first :=
      fun hmem => hnew (AList.mem_erase.mp hmem).2
    constructor
    · show (UnorderedMap.emplace (s.mImmutableItems.erase first) target buf).lookup target = some buf
      rw [UnorderedMap.emplace_of_notMem buf hgone, AList.lookup_insert]
    · exact AList.lookup_insert _

/-- A target that is there before and after a put has kept its bytes and its
time. -/
theorem lookup_putImmutableItem_of_mem {k : Sha1Hash} (hold : k ∈ s.mImmutableItems)
    (h : s.putImmutableItem now first target buf = .ok s') (hin : k ∈ s'.mImmutableItems) :
    s'.mImmutableItems.lookup k = s.mImmutableItems.lookup k ∧
      s'.mImmutableSeen.lookup k = s.mImmutableSeen.lookup k := by
  obtain ⟨-, rfl⟩ | ⟨hnew, -, rfl⟩ | ⟨hnew, -, -, rfl⟩ := putImmutableItem_cases h
  · exact ⟨rfl, rfl⟩
  · have hne : k ≠ target := fun heq => hnew (heq ▸ hold)
    exact ⟨UnorderedMap.lookup_emplace_ne buf hne, AList.lookup_insert_ne hne⟩
  · have hne : k ≠ target := fun heq => hnew (heq ▸ hold)
    have hkept : k ∈ s.mImmutableItems.erase first :=
      (UnorderedMap.mem_emplace.mp hin).resolve_left hne
    constructor
    · show (UnorderedMap.emplace (s.mImmutableItems.erase first) target buf).lookup k = _
      rw [UnorderedMap.lookup_emplace_ne buf hne, AList.lookup_erase_ne (AList.mem_erase.mp hkept).1]
    · exact AList.lookup_insert_ne hne

/-- A put brings no other target than its own. -/
theorem mem_putImmutableItem {k : Sha1Hash} (h : s.putImmutableItem now first target buf = .ok s')
    (hin : k ∈ s'.mImmutableItems) : k = target ∨ k ∈ s.mImmutableItems := by
  obtain ⟨-, rfl⟩ | ⟨-, -, rfl⟩ | ⟨-, -, -, rfl⟩ := putImmutableItem_cases h
  · exact Or.inr hin
  · exact UnorderedMap.mem_emplace.mp hin
  · exact (UnorderedMap.mem_emplace.mp hin).imp_right fun hmem => (AList.mem_erase.mp hmem).2

variable {sig : Signature} {seq : SequenceNumber} {pk : PublicKey} {salt : Bytes}

/-- A put of a mutable item: nothing when it is stale, else the record under
its target, after an eviction when the target is absent and the table full. -/
theorem putMutableItem_cases
    (h : s.putMutableItem now first target buf sig seq pk salt = .ok s') :
    (s.stale target seq ∧ s' = s) ∨
    (¬ s.stale target seq ∧
      (target ∈ s.mMutableItems ∨ UnorderedMap.size s.mMutableItems < s.maxItems) ∧
      s' = { s with mMutableItems := s.mMutableItems.insert target ⟨buf, sig, seq, pk, salt, now⟩ }) ∨
    (¬ s.stale target seq ∧ target ∉ s.mMutableItems ∧
      s.maxItems ≤ UnorderedMap.size s.mMutableItems ∧ UnorderedMap.size s.mMutableItems ≠ 0 ∧
      s' = { s with
        mMutableItems := (s.mMutableItems.erase first).insert target ⟨buf, sig, seq, pk, salt, now⟩ }) := by
  rw [MemoryDhtStorage.putMutableItem] at h
  by_cases hstale : s.stale target seq
  · rw [if_pos hstale] at h
    exact Or.inl ⟨hstale, (Except.ok.inj h).symm⟩
  · rw [if_neg hstale] at h
    obtain ⟨hroom, rfl⟩ | ⟨⟨hfull, hnew⟩, hzero, rfl⟩ := makeRoom_cases h
    · have hput : target ∈ s.mMutableItems ∨ UnorderedMap.size s.mMutableItems < s.maxItems := by
        by_contra hno
        rw [not_or] at hno
        exact hroom ⟨Nat.le_of_not_lt hno.2, hno.1⟩
      exact Or.inr (Or.inl ⟨hstale, hput, rfl⟩)
    · exact Or.inr (Or.inr ⟨hstale, hnew, hfull, hzero, rfl⟩)

/-- A put of a mutable item touches the mutable table only. -/
theorem putMutableItem_frame
    (h : s.putMutableItem now first target buf sig seq pk salt = .ok s') :
    ∃ items, s' = { s with mMutableItems := items } := by
  obtain ⟨-, rfl⟩ | ⟨-, -, rfl⟩ | ⟨-, -, -, -, rfl⟩ := putMutableItem_cases h
  · exact ⟨s'.mMutableItems, rfl⟩
  · exact ⟨_, rfl⟩
  · exact ⟨_, rfl⟩

end puts

/-- An announcement touches the peer table only. -/
theorem announcePeer_frame {s s' : MemoryDhtStorage} {now : TimePoint} {first infoHash : Sha1Hash}
    {endp : Endpoint} {name : Bytes} {seed : Bool}
    (h : s.announcePeer now first infoHash endp name seed = .ok s') :
    ∃ mPeers, PeerTable.announcePeer (sizeT s.mMaxTorrents.toInt) now first infoHash endp name seed
      s.mPeers = .ok mPeers ∧ s' = { s with mPeers := mPeers } := by
  rw [MemoryDhtStorage.announcePeer] at h
  obtain ⟨mPeers, hm, rfl⟩ := map_eq_ok_iff.mp h
  exact ⟨mPeers, hm, rfl⟩

/-- What a call can do to the immutable tables: nothing, or one put, or one
tick. -/
theorem call_immutable_cases {s s' : MemoryDhtStorage} {ev : Event} (h : s.call ev = .ok s') :
    s'.mMaxItems = s.mMaxItems ∧
    ((∃ target buf, ev.call = .putImmutableItem target buf ∧
        s.putImmutableItem ev.now ev.first target buf = .ok s') ∨
      (ev.call = .tick ∧ s' = s.tick ev.now) ∨
      ((∀ target buf, ev.call ≠ .putImmutableItem target buf) ∧ ev.call ≠ .tick ∧
        s'.mImmutableItems = s.mImmutableItems ∧ s'.mImmutableSeen = s.mImmutableSeen)) := by
  rw [MemoryDhtStorage.call] at h
  cases hc : ev.call with
  | putImmutableItem target buf =>
      simp only [hc] at h
      refine ⟨?_, Or.inl ⟨target, buf, rfl, h⟩⟩
      obtain ⟨-, rfl⟩ | ⟨-, -, rfl⟩ | ⟨-, -, -, rfl⟩ := putImmutableItem_cases h <;> rfl
  | tick =>
      simp only [hc] at h
      obtain rfl := Except.ok.inj h
      exact ⟨rfl, Or.inr (Or.inl ⟨rfl, rfl⟩)⟩
  | announcePeer infoHash endp name seed =>
      simp only [hc] at h
      obtain ⟨mPeers, -, rfl⟩ := announcePeer_frame h
      exact ⟨rfl, Or.inr (Or.inr ⟨by simp, by simp, rfl, rfl⟩)⟩
  | putMutableItem target buf sig seq pk salt =>
      simp only [hc] at h
      obtain ⟨items, rfl⟩ := putMutableItem_frame h
      exact ⟨rfl, Or.inr (Or.inr ⟨by simp, by simp, rfl, rfl⟩)⟩
  | _ =>
      simp only [hc] at h
      obtain rfl := Except.ok.inj h
      exact ⟨rfl, Or.inr (Or.inr ⟨by simp, by simp, rfl, rfl⟩)⟩

/-- What a call can do to the mutable table: nothing, or one put, or one tick. -/
theorem call_mutable_cases {s s' : MemoryDhtStorage} {ev : Event} (h : s.call ev = .ok s') :
    (∃ target buf sig seq pk salt, ev.call = .putMutableItem target buf sig seq pk salt ∧
        s.putMutableItem ev.now ev.first target buf sig seq pk salt = .ok s') ∨
      (ev.call = .tick ∧ s' = s.tick ev.now) ∨
      ((∀ target buf sig seq pk salt, ev.call ≠ .putMutableItem target buf sig seq pk salt) ∧
        ev.call ≠ .tick ∧ s'.mMutableItems = s.mMutableItems) := by
  rw [MemoryDhtStorage.call] at h
  cases hc : ev.call with
  | putMutableItem target buf sig seq pk salt =>
      simp only [hc] at h
      exact Or.inl ⟨target, buf, sig, seq, pk, salt, rfl, h⟩
  | tick =>
      simp only [hc] at h
      exact Or.inr (Or.inl ⟨rfl, (Except.ok.inj h).symm⟩)
  | announcePeer infoHash endp name seed =>
      simp only [hc] at h
      obtain ⟨mPeers, -, rfl⟩ := announcePeer_frame h
      exact Or.inr (Or.inr ⟨by simp, by simp, rfl⟩)
  | putImmutableItem target buf =>
      simp only [hc] at h
      have hkept : s'.mMutableItems = s.mMutableItems := by
        obtain ⟨-, rfl⟩ | ⟨-, -, rfl⟩ | ⟨-, -, -, rfl⟩ := putImmutableItem_cases h <;> rfl
      exact Or.inr (Or.inr ⟨by simp, by simp, hkept⟩)
  | _ =>
      simp only [hc] at h
      obtain rfl := Except.ok.inj h
      exact Or.inr (Or.inr ⟨by simp, by simp, rfl⟩)

/-! ## small stores -/

/-- A store for one item. -/
def oneItem : Settings := ⟨20, 2000, 1⟩

/-- A store for two items. -/
def twoItems : Settings := ⟨20, 2000, 2⟩

/-- `lt::bdecode` on the integers of one digit, `i0e` to `i9e`. -/
def digitDecode : Bytes → Option Entry
  | [105, c, 101] => some (.integer (.ofNat (c.toNat - 48)))
  | _ => none

end BtDht.MyDhtStorage
