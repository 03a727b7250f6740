import BtDht.Cpp

/-!
# BtDht.Storage.Interface

`lt::dht::dht_storage_interface`: the values its calls carry, the calls
themselves, and the settings a store reads when it is built.

A store is driven by `Event`s.  An event is a call together with what the call
takes from its surroundings: the reading of the steady clock, and the key that
`begin()` of a hash table yields should the call evict an element (the
iteration order of a hash table is unspecified, so this is an input).
-/

namespace BtDht

/-! ## values -/

/-- A block of exactly `n` bytes. -/
@[ext] structure ByteBlock (n : Nat) where
  bytes : Bytes
  size_eq : bytes.length = n
  deriving DecidableEq

/-- The block of `n` bytes `b`. -/
def ByteBlock.fill (n : Nat) (b : UInt8) : ByteBlock n := ⟨List.replicate n b, by simp⟩

/-- `lt::sha1_hash`, also `lt::dht::node_id`. -/
abbrev Sha1Hash := ByteBlock 20

/-- `lt::dht::signature` -/
abbrev Signature := ByteBlock 64

/-- `lt::dht::public_key` -/
abbrev PublicKey := ByteBlock 32

/-- `lt::dht::sequence_number` -/
abbrev SequenceNumber := Int64

/-- `lt::address`: an IPv4 address, or an IPv6 address with its scope. -/
inductive Address
  | v4 (addr : UInt32)
  | v6 (addr : BitVec 128) (scopeId : UInt32)
  deriving DecidableEq

/-- `lt::tcp::endpoint` -/
structure Endpoint where
  address : Address
  port : UInt16
  deriving DecidableEq

/-! ## settings -/

/-- The integers a store reads from `lt::settings_interface`. -/
structure Settings where
  dhtMaxPeersReply : Int32
  dhtMaxTorrents : Int32
  dhtMaxDhtItems : Int32

/-! ## calls -/

/-- The calls of `dht_storage_interface`.  The addresses of requesters and
putters are passed to the stores, which ignore them. -/
inductive Call
  | updateNodeIds (ids : List Sha1Hash)
  | getPeers (infoHash : Sha1Hash) (noseed scrape : Bool)
  | announcePeer (infoHash : Sha1Hash) (endp : Endpoint) (name : Bytes) (seed : Bool)
  | getImmutableItem (target : Sha1Hash)
  | putImmutableItem (target : Sha1Hash) (buf : Bytes)
  | getMutableItemSeq (target : Sha1Hash)
  | getMutableItem (target : Sha1Hash) (seq : SequenceNumber) (forceFill : Bool)
  | putMutableItem (target : Sha1Hash) (buf : Bytes) (sig : Signature) (seq : SequenceNumber)
      (pk : PublicKey) (salt : Bytes)
  | getInfohashesSample
  | tick
  | counters
  deriving DecidableEq

/-- A call, the clock reading it takes and the key `begin()` yields to it. -/
structure Event where
  now : TimePoint
  first : Sha1Hash
  call : Call

/-- `lt::dht::dht_storage_counters` -/
structure DhtStorageCounters where
  torrents : Int
  peers : Int
  immutableData : Int
  mutableData : Int
  deriving DecidableEq, Repr

end BtDht
