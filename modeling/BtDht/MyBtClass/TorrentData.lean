import BtDht.MyBtClass
import BtDht.MySqliteClass.DataInsert
import BtDht.Storage.Interface

/-!
# BtDht.MyBtClass.TorrentData

`BtMy::BtFunc::GetTorrentData`: what is taken of a torrent's metadata to be
stored.  The key is the v1 hash in hexadecimal, and the v2 hash only for a
torrent that has no v1 hash; so two torrents have one place in the library
exactly when `SameTorrent` says so.
-/

namespace BtDht

/-! ## metadata -/

/-- `lt::sha256_hash` -/
abbrev Sha256Hash := ByteBlock 32

/-- `lt::info_hash_t` -/
structure InfoHash where
  v1 : Sha1Hash
  v2 : Sha256Hash
  hasV1 : Bool

/-- What `file_path` and `file_size` give for a file of `lt::file_storage`. -/
structure FileEntry where
  filePath : Bytes
  fileSize : Int64

/-- `lt::torrent_info`; the files are those of `orig_files`, in the order of
their indices. -/
structure TorrentInfo where
  infoHashes : InfoHash
  name : Bytes
  totalSize : Int64
  origFiles : List FileEntry

namespace BtFunc

/-- `GetHashFromInfo`, with what `out` holds at the end. -/
def getHashFromInfo (info : TorrentInfo) (out : Bytes) : Bytes :=
  let hash := info.infoHashes
  if hash.hasV1 then getHash16String hash.v1.bytes out
  else getHash16String hash.v2.bytes out

/-- `GetTorrentData` -/
def getTorrentData (info : TorrentInfo) : TorrentData where
  hash := getHashFromInfo info []
  name := info.name
  size := info.totalSize
  files := info.origFiles.map fun n => (n.filePath, n.fileSize)

/-! ## the key -/

theorem length_getHash16String (s : Bytes) : (getHash16String s []).length = 2 * s.length := by
  rw [getHash16String_eq, List.nil_append, length_flatMap_hexChars]

theorem hash_of_hasV1 {info : TorrentInfo} (h : info.infoHashes.hasV1 = true) :
    (getTorrentData info).hash = getHash16String info.infoHashes.v1.bytes [] :=
  if_pos h

theorem hash_of_not_hasV1 {info : TorrentInfo} (h : info.infoHashes.hasV1 = false) :
    (getTorrentData info).hash = getHash16String info.infoHashes.v2.bytes [] := by
  simp [getTorrentData, getHashFromInfo, h]

/-- The key of a torrent with a v1 hash is shorter. -/
theorem length_hash (info : TorrentInfo) :
    (getTorrentData info).hash.length = if info.infoHashes.hasV1 then 40 else 64 := by
  cases h : info.infoHashes.hasV1 with
  | true =>
      rw [hash_of_hasV1 h, length_getHash16String, info.infoHashes.v1.size_eq]
      rfl
  | false =>
      rw [hash_of_not_hasV1 h, length_getHash16String, info.infoHashes.v2.size_eq]
      rfl

/-- Two torrents are one by the hashes that count: their v1 hashes, and the v2
hashes only if neither has a v1 hash. -/
def SameTorrent (a b : InfoHash) : Prop :=
  a.hasV1 = b.hasV1 ∧ if a.hasV1 then a.v1 = b.v1 else a.v2 = b.v2

/-- **Which torrents share a place in the library.** -/
theorem hash_eq_iff (a b : TorrentInfo) :
    (getTorrentData a).hash = (getTorrentData b).hash ↔
      SameTorrent a.infoHashes b.infoHashes := by
  unfold SameTorrent
  cases ha : a.infoHashes.hasV1 with
  | true =>
      cases hb : b.infoHashes.hasV1 with
      | true =>
          rw [hash_of_hasV1 ha, hash_of_hasV1 hb, getHash16String_injective.eq_iff,
            ← ByteBlock.ext_iff]
          simp
      | false =>
          have hlen : (getTorrentData a).hash.length ≠ (getTorrentData b).hash.length := by
            simp [length_hash, ha, hb]
          simpa using fun h => hlen (congrArg List.length h)
  | false =>
      cases hb : b.infoHashes.hasV1 with
      | true =>
          have hlen : (getTorrentData a).hash.length ≠ (getTorrentData b).hash.length := by
            simp [length_hash, ha, hb]
          simpa using fun h => hlen (congrArg List.length h)
      | false =>
          rw [hash_of_not_hasV1 ha, hash_of_not_hasV1 hb, getHash16String_injective.eq_iff,
            ← ByteBlock.ext_iff]
          simp

end BtFunc

end BtDht
