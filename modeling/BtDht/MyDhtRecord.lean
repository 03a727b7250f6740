import BtDht.Data.Lists
import BtDht.Data.UnorderedMap
import BtDht.MyBtClass
import BtDht.MySqliteClass.HashCount
import BtDht.Storage.Interface

/-!
# BtDht.MyDhtRecord

How `mydhtrecord.cpp` discovers torrents.  An alert of the DHT shows an
info-hash; the torrent is requested from the session when it is seen for the
first time.  There are two ways to know that: `isaddtorreent` counts the
sightings in `hash_count_table`, under the hash in hexadecimal, and
`addtorrent` keeps the raw hashes in an `unordered_map`.

Both make the requests `requests seen`: the different hashes seen, in the
order in which they appeared.
-/

namespace BtDht

open Sqlite

/-! ## the session -/

/-- `lt::torrent_flags_t`, the values a request has. -/
inductive TorrentFlags
  | defaultFlags
  | uploadMode
  deriving DecidableEq, Repr

/-- `lt::add_torrent_params`.  The `info_hashes` of a request hold a v1 hash. -/
structure AddTorrentParams where
  infoHashes : Sha1Hash
  flags : TorrentFlags := .defaultFlags
  savePath : String := ""
  deriving DecidableEq

/-- `lt::session`: what it has been asked to add, first request first. -/
@[ext] structure Session where
  added : List AddTorrentParams
  deriving DecidableEq

def Session.asyncAddTorrent (ses : Session) (p : AddTorrentParams) : Session :=
  ⟨ses.added ++ [p]⟩

def settorrent (p : AddTorrentParams) : AddTorrentParams :=
  { p with flags := .uploadMode, savePath := "./mybtdownload/" }

/-! ## the two paths -/

/-- What the alert loop works on. -/
structure DhtRecord where
  ses : Session
  counttable : Crawler

namespace DhtRecord

/-- `counttable.Insert` -/
def insert (key : Bytes) (n : Int) : Process DhtRecord Exit (Bool × Int) :=
  Process.within counttable (fun s c => { s with counttable := c }) (MyHashCountTable.insert key n)

end DhtRecord

/-- `isaddtorreent`.  When the insert is refused a line is printed and `n` is
looked at all the same. -/
def isaddtorreent (hash : Sha1Hash) : Process DhtRecord Exit PUnit := do
  let key := BtFunc.getHash16String hash.bytes []
  let (_, n) ← DhtRecord.insert key 0
  if n = 1 then
    let p := settorrent { infoHashes := hash }
    modify fun s => { s with ses := s.ses.asyncAddTorrent p }

/-- `addtorrent` -/
def addtorrent (s : Session × UnorderedMap Bytes Int) (hash : Sha1Hash) :
    Session × UnorderedMap Bytes Int :=
  let (ses, map) := s
  let key := hash.bytes
  if key ∉ map then
    let p := settorrent { infoHashes := hash }
    (ses.asyncAddTorrent p, UnorderedMap.emplace map key 0)
  else
    (ses, map)

/-- The alerts that show an info-hash. -/
inductive Alert
  | dhtAnnounce (infoHash : Sha1Hash)
  | dhtGetPeers (infoHash : Sha1Hash)
  deriving DecidableEq

def Alert.infoHash : Alert → Sha1Hash
  | .dhtAnnounce infoHash => infoHash
  | .dhtGetPeers infoHash => infoHash

/-- The body of the loop over the alerts in `f`. -/
def alert : Alert → Process DhtRecord Exit PUnit
  | .dhtAnnounce infoHash => isaddtorreent infoHash
  | .dhtGetPeers infoHash => isaddtorreent infoHash

/-- The loop over the alerts. -/
def alerts (as : List Alert) : Process DhtRecord Exit PUnit := as.forM alert

/-! ## what is requested -/

/-- The requests for the hashes `seen`. -/
def requests (seen : List Sha1Hash) : List AddTorrentParams :=
  seen.eraseDups.map fun hash => settorrent { infoHashes := hash }

theorem requests_append_singleton (seen : List Sha1Hash) (hash : Sha1Hash) :
    requests (seen ++ [hash]) =
      if hash ∈ seen then requests seen else requests seen ++ [settorrent { infoHashes := hash }] := by
  rw [requests, eraseDups_append_singleton]
  by_cases h : hash ∈ seen
  · simp [h, requests]
  · simp [h, requests]

/-! ### by counting -/

/-- The key a hash is counted under. -/
def hashKey (hash : Sha1Hash) : Bytes := BtFunc.getHash16String hash.bytes []

theorem hashKey_injective : Function.Injective hashKey :=
  fun _ _ h => ByteBlock.ext (BtFunc.getHash16String_injective h)

/-- Between two alerts: the hashes `seen` are counted and have been requested. -/
structure Counting (seen : List Sha1Hash) (s : DhtRecord) : Prop where
  quiet : s.counttable.Quiet
  accepting : s.counttable.mDb.Accepting
  counts : s.counttable.mDb.db.Counts (seen.map hashKey)
  requested : s.ses.added = requests seen

variable {seen : List Sha1Hash} {s : DhtRecord} {E : Exit → DhtRecord → Prop}

/-- The count that a sighting finds is the number of sightings, itself among them. -/
theorem Counting.insert (h : Counting seen s) (hash : Sha1Hash) :
    Ensures (MyHashCountTable.insert (hashKey hash) 0) s.counttable (fun r c =>
      r = (true, (seen.count hash : Int) + 1) ∧ s.counttable.Keeps c ∧
        c.mDb.db.Counts ((seen ++ [hash]).map hashKey)) fun _ _ => False := by
  have hins := MyHashCountTable.insert_ensures (E := fun _ _ => False) h.quiet h.accepting h.counts
    (hashKey hash) 0
  rw [List.count_map_of_injective _ _ hashKey_injective] at hins
  simpa using hins

/-- One alert. -/
theorem Counting.isaddtorreent (h : Counting seen s) (hash : Sha1Hash) :
    Ensures (isaddtorreent hash) s (fun _ => Counting (seen ++ [hash])) fun _ _ => False := by
  rw [BtDht.isaddtorreent, ensures_bind, DhtRecord.insert, ensures_within]
  apply (h.insert hash).mono _ fun _ _ he => he
  rintro _ c ⟨rfl, hk, hcounts⟩
  have hreq := requests_append_singleton seen hash
  by_cases hmem : hash ∈ seen
  · have hpos : 0 < seen.count hash := List.count_pos_iff.mpr hmem
    have hne : ¬ (seen.count hash : Int) + 1 = 1 := by omega
    rw [if_pos hmem] at hreq
    have hnext : Counting (seen ++ [hash]) { s with counttable := c } :=
      ⟨hk.quiet, hk.accepting h.accepting, hcounts, h.requested.trans hreq.symm⟩
    simpa [hne] using hnext
  · have hzero : seen.count hash = 0 := List.count_eq_zero.mpr hmem
    rw [if_neg hmem, ← h.requested] at hreq
    have hnext : Counting (seen ++ [hash])
        ⟨s.ses.asyncAddTorrent (settorrent { infoHashes := hash }), c⟩ :=
      ⟨hk.quiet, hk.accepting h.accepting, hcounts, hreq.symm⟩
    simpa [hzero] using hnext

/-- One alert, of either kind. -/
theorem Counting.alert (h : Counting seen s) (a : Alert) :
    Ensures (alert a) s (fun _ => Counting (seen ++ [a.infoHash])) fun _ _ => False := by
  cases a with
  | dhtAnnounce hash => exact h.isaddtorreent hash
  | dhtGetPeers hash => exact h.isaddtorreent hash

/-! ### by remembering -/

/-- The in-memory path has the hashes `seen` in its map and has requested them. -/
structure Remembering (seen : List Sha1Hash) (s : Session × UnorderedMap Bytes Int) : Prop where
  keys : ∀ hash : Sha1Hash, hash.bytes ∈ s.2 ↔ hash ∈ seen
  requested : s.1.added = requests seen

theorem Remembering.addtorrent {s : Session × UnorderedMap Bytes Int} (h : Remembering seen s)
    (hash : Sha1Hash) : Remembering (seen ++ [hash]) (addtorrent s hash) := by
  have hreq := requests_append_singleton seen hash
  by_cases hmem : hash ∈ seen
  · have hin : hash.bytes ∈ s.2 := (h.keys hash).mpr hmem
    rw [if_pos hmem] at hreq
    have heq : BtDht.addtorrent s hash = s := by simp [BtDht.addtorrent, hin]
    rw [heq]
    have hkeys : ∀ hash' : Sha1Hash, hash'.bytes ∈ s.2 ↔ hash' ∈ seen ++ [hash] := by
      grind [h.keys]
    exact ⟨hkeys, h.requested.trans hreq.symm⟩
  · have hin : hash.bytes ∉ s.2 := fun hin => hmem ((h.keys hash).mp hin)
    rw [if_neg hmem, ← h.requested] at hreq
    have heq : BtDht.addtorrent s hash =
        (s.1.asyncAddTorrent (settorrent { infoHashes := hash }),
          UnorderedMap.emplace s.2 hash.bytes 0) := by simp [BtDht.addtorrent, hin]
    rw [heq]
    have hkeys : ∀ hash' : Sha1Hash, hash'.bytes ∈ UnorderedMap.emplace s.2 hash.bytes 0 ↔
        hash' ∈ seen ++ [hash] := by
      simp [h.keys, ByteBlock.ext_iff, or_comm]
    exact ⟨hkeys, hreq.symm⟩

/-- The sightings, one after the other. -/
theorem remembering_foldl (hashes : List Sha1Hash) {s : Session × UnorderedMap Bytes Int}
    (h : Remembering seen s) : Remembering (seen ++ hashes) (hashes.foldl addtorrent s) := by
  induction hashes generalizing seen s with
  | nil => simpa using h
  | cons hash hashes ih =>
      rw [List.append_cons]
      exact ih (h.addtorrent hash)

/-! ### over whole runs -/

/-- The start: whatever `data.db` holds, `mymdb567` is a new in-memory
database.  `codes` is what the statements' `m_up_step_code` hold before their
first step. -/
def DhtRecord.init (db : Database) (codes : StmtName → ResultCode) : DhtRecord where
  ses := ⟨[]⟩
  counttable :=
    ⟨⟨{ db with hashCountTable := [] }, none, 0, fun _ => none⟩, fun stmt => .prepared (codes stmt)⟩

theorem counting_init (db : Database) (codes : StmtName → ResultCode) :
    Counting [] (DhtRecord.init db codes) where
  quiet := fun _ => rfl
  accepting := fun _ => rfl
  counts := fun _ => rfl
  requested := rfl

/-- The run lemma. -/
theorem counting_alerts (db : Database) (codes : StmtName → ResultCode) (as : List Alert) :
    Ensures (alerts as) (DhtRecord.init db codes) (fun _ => Counting (as.map Alert.infoHash))
      fun _ _ => False := by
  have hbody : ∀ (done : List Alert) (a : Alert) (s : DhtRecord),
      Counting (done.map Alert.infoHash) s →
      Ensures (alert a) s (fun _ => Counting ((done ++ [a]).map Alert.infoHash))
        fun _ _ => False := by
    intro done a s h
    simpa using h.alert a
  exact Ensures.forM hbody as [] (counting_init db codes)

theorem infoHashes_requests (seen : List Sha1Hash) :
    (requests seen).map AddTorrentParams.infoHashes = seen.eraseDups := by
  simp [requests, settorrent, Function.comp_def]

/-- **Each torrent is requested once.**  Whatever alerts come in, in whatever
order, the session has been asked for exactly the different hashes they show,
once each and in the order in which they appeared.  The in-memory path makes
the same requests on the same hashes.  And the count that each alert found is
the number of alerts with its hash up to then, itself among them. -/
theorem alerts_request_once (db : Database) (codes : StmtName → ResultCode) (as : List Alert) :
    ∃ s, (alerts as).run (DhtRecord.init db codes) = .ok .unit s ∧
      s.ses.added.map AddTorrentParams.infoHashes = (as.map Alert.infoHash).eraseDups ∧
      s.ses = ((as.map Alert.infoHash).foldl addtorrent (⟨[]⟩, ∅)).1 ∧
      ∀ pre a post, as = pre ++ a :: post →
        ∃ s₀ c, (alerts pre).run (DhtRecord.init db codes) = .ok .unit s₀ ∧
          (MyHashCountTable.insert (hashKey a.infoHash) 0).run s₀.counttable =
            .ok (true, ((pre.map Alert.infoHash).count a.infoHash : Int) + 1) c := by
  obtain ⟨_, s, hrun, h⟩ := (counting_alerts db codes as).returns
  have hinfo : s.ses.added.map AddTorrentParams.infoHashes = (as.map Alert.infoHash).eraseDups := by
    rw [h.requested, infoHashes_requests]
  have hmap : Remembering [] ((⟨[]⟩, ∅) : Session × UnorderedMap Bytes Int) :=
    ⟨fun hash => by simp, rfl⟩
  have hsame := (remembering_foldl (as.map Alert.infoHash) hmap).requested
  rw [List.nil_append, ← h.requested] at hsame
  refine ⟨s, hrun, hinfo, Session.ext hsame.symm, fun pre a _ _ => ?_⟩
  obtain ⟨_, s₀, hrun₀, h₀⟩ := (counting_alerts db codes pre).returns
  obtain ⟨_, c, hins, rfl, _⟩ := (h₀.insert a.infoHash).returns
  exact ⟨s₀, c, hrun₀, hins⟩

end BtDht
