import BtDht.MyBtClass.TorrentData
import BtDht.MyDhtRecord.Sightings
import BtDht.MySqliteClass.Search

/-!
# BtDht.MyDhtRecord.AlertLoop

The loop of `f` over everything the session reports.  An alert with an
info-hash is counted and may request the torrent, the metadata of a torrent is
stored, and every other alert is only printed.

A loop starts on whatever library the file holds.  Neither answer of the two
inserts is looked at: a torrent that is refused is gone, and so may be a
sighting.  `loop_of_trace` says what all of it comes to.
-/

namespace BtDht

open Sqlite Database Relational

/-! ## the loop -/

/-- The alerts, as far as the loop distinguishes them. -/
inductive SessionAlert
  | dhtAnnounce (infoHash : Sha1Hash)
  | dhtGetPeers (infoHash : Sha1Hash)
  | metadataReceived (torrentFile : TorrentInfo)
  | other

namespace DhtRecord

/-- `table.Insert` -/
def insertData (data : TorrentData) : Process DhtRecord Exit Bool :=
  Process.within counttable (fun s c => { s with counttable := c }) (MyDataInsertClass.insert data)

end DhtRecord

/-- The body of the loop. -/
def sessionAlert : SessionAlert → Process DhtRecord Exit PUnit
  | .dhtAnnounce infoHash => isaddtorreent infoHash
  | .dhtGetPeers infoHash => isaddtorreent infoHash
  | .metadataReceived torrentFile => do
      let data := BtFunc.getTorrentData torrentFile
      let _ ← DhtRecord.insertData data
  | .other => return

/-- An alert with what the database has in store for it. -/
structure Delivery where
  alert : SessionAlert
  busy : Nat
  refusals : Nat → Option Refusal

namespace AlertLoop

/-- The loop's state with what the next alert will meet. -/
def facing (s : DhtRecord) (d : Delivery) : DhtRecord :=
  { s with counttable := { s.counttable with
      mDb := { s.counttable.mDb with busy := d.busy, refusals := d.refusals } } }

/-- Runs of the loop in a process that starts on the content `db`. -/
def system (db : Database) (codes : StmtName → ResultCode) : System DhtRecord Delivery Exit where
  init := DhtRecord.init db codes
  allowed _ _ := True
  step s d :=
    match (sessionAlert d.alert).run (facing s d) with
    | .ok _ s' => .ok s'
    | .error exit _ => .error exit

end AlertLoop

/-! ## what a run has seen -/

/-- The hash that an alert shows. -/
def SessionAlert.infoHash? : SessionAlert → Option Sha1Hash
  | .dhtAnnounce infoHash => some infoHash
  | .dhtGetPeers infoHash => some infoHash
  | _ => none

/-- The torrent that an alert brings. -/
def SessionAlert.data? : SessionAlert → Option TorrentData
  | .metadataReceived torrentFile => some (BtFunc.getTorrentData torrentFile)
  | _ => none

namespace Delivery

/-- The hash it shows, if its count is written. -/
def counted (d : Delivery) : Option Sha1Hash :=
  if d.refusals 0 = none ∧ d.refusals 1 = none then d.alert.infoHash? else none

/-- The hash it shows, if it gets to see the count.  The count may be undone
afterwards. -/
def read (d : Delivery) : Option Sha1Hash :=
  if d.refusals 0 = none then d.alert.infoHash? else none

/-- Of the hashes that are not in `seen`, a sighting reads its own. -/
theorem filter_read {d : Delivery} {hash : Sha1Hash} (hd : d.alert.infoHash? = some hash)
    (seen : List Sha1Hash) : d.read.filter (· ∉ seen) =
      if d.refusals 0 = none ∧ hash ∉ seen then some hash else none := by
  rw [read, hd]
  by_cases hr : d.refusals 0 = none
  · by_cases hnew : hash ∈ seen
    · simp [hr, hnew]
    · simp [hr, hnew]
  · simp [hr]

end Delivery

/-- The hashes that have been requested after `hist`, when those of `seen` had
been counted before it. -/
def asked (seen : List Sha1Hash) : List Delivery → List Sha1Hash
  | [] => []
  | d :: hist => (d.read.filter (· ∉ seen)).toList ++ asked (seen ++ d.counted.toList) hist

theorem asked_snoc (seen : List Sha1Hash) (hist : List Delivery) (d : Delivery) :
    asked seen (hist ++ [d]) =
      asked seen hist ++ (d.read.filter (· ∉ seen ++ hist.filterMap Delivery.counted)).toList := by
  induction hist generalizing seen with
  | nil => simp [asked]
  | cons d' hist ih =>
      have hcounted : (d' :: hist).filterMap Delivery.counted =
          d'.counted.toList ++ hist.filterMap Delivery.counted := by
        cases h : d'.counted with
        | none => simp [h]
        | some hash => simp [h]
      rw [List.cons_append, asked, asked, ih, hcounted, List.append_assoc, List.append_assoc]

theorem Delivery.read_of_counted {d : Delivery} {hash : Sha1Hash} (h : d.counted = some hash) :
    d.read = some hash := by
  by_cases hc : d.refusals 0 = none ∧ d.refusals 1 = none
  · rw [counted, if_pos hc] at h
    rwa [read, if_pos hc.1]
  · rw [counted, if_neg hc] at h
    cases h

/-- Each hash that is read is requested, unless it had been counted. -/
theorem mem_asked_iff {hash : Sha1Hash} (seen : List Sha1Hash) (hist : List Delivery) :
    hash ∈ asked seen hist ↔ hash ∉ seen ∧ ∃ d ∈ hist, d.read = some hash := by
  induction hist generalizing seen with
  | nil => simp [asked]
  | cons d hist ih =>
      have hfirst : hash ∈ (d.read.filter (· ∉ seen)).toList ↔ d.read = some hash ∧ hash ∉ seen := by
        simp [Option.filter_eq_some_iff]
      rw [asked, List.mem_append, hfirst, ih, List.exists_mem_cons_iff]
      by_cases hc : d.counted = some hash
      · simpa [Delivery.read_of_counted hc] using fun h _ _ _ _ => h
      · have hseen : hash ∉ seen ++ d.counted.toList ↔ hash ∉ seen := by simp [hc]
        rw [hseen]
        tauto

/-- The sightings of a hash that read the count and did not write it. -/
def undone (hash : Sha1Hash) (hist : List Delivery) : Nat :=
  hist.countP fun d => d.read = some hash ∧ d.counted = none

/-- A hash is requested once more for each such sighting, at most. -/
theorem count_asked_le (hash : Sha1Hash) (seen : List Sha1Hash) (hist : List Delivery) :
    (asked seen hist).count hash ≤ undone hash hist + 1 := by
  induction hist generalizing seen with
  | nil => simp [asked]
  | cons d hist ih =>
      have hone : (d.read.filter (· ∉ seen)).toList.count hash ≤ 1 :=
        List.count_le_length.trans Option.length_toList_le
      rw [asked, List.count_append, undone, List.countP_cons]
      by_cases hread : d.read = some hash
      · cases hc : d.counted with
        | none =>
            have hrest := ih (seen ++ [])
            simp only [undone] at hrest
            simp only [hread, and_self, decide_true, if_true, Option.toList_none]
            rw [hread] at hone
            omega
        | some hash' =>
            -- the hash is counted from here on
            obtain rfl : hash' = hash :=
              Option.some.inj ((Delivery.read_of_counted hc).symm.trans hread)
            have hrest : (asked (seen ++ [hash']) hist).count hash' = 0 := by
              simp [List.count_eq_zero, mem_asked_iff]
            simp only [Option.toList_some, hrest]
            omega
      · have hzero : (d.read.filter (· ∉ seen)).toList.count hash = 0 := by
          simp [List.count_eq_zero, Option.filter_eq_some_iff, hread]
        have hrest := ih (seen ++ d.counted.toList)
        simp only [undone] at hrest
        omega

/-! ## one sighting -/

/-- An upsert that may be refused.  Refused at its first step it leaves the
number as it was; refused at its second it has read the count, but what it
wrote is undone. -/
theorem MyHashCountTable.insert_refusable {E : Exit → Crawler → Prop} {c : Crawler} (hq : c.Quiet)
    (s : Bytes) (pcount : Int) :
    Ensures (MyHashCountTable.insert s pcount) c (fun r c' => c'.Quiet ∧
      c'.mDb.saved = c.mDb.saved ∧
      if c.mDb.refusals 0 = none then ∃ db, c.mDb.db.upsertHashCount s = some (db, r.2) ∧
        c'.mDb.db = if c.mDb.refusals 1 = none then db else c.mDb.db
      else r.2 = pcount ∧ c'.mDb.db = c.mDb.db) E := by
  rw [MyHashCountTable.insert, BtDht.insertReturning, ensures_bind, MySqliteStmt.ensures_reset,
    ensures_bind]
  cases hr : c.mDb.refusals 0 with
  | some refusal =>
      rw [MySqliteStmt.ensures_stepExit_refused (by simpa using Sqlite.insertReturning_refused hr)]
      simpa [refusal.code_ne_row] using hq.stepped _ _ _
  | none =>
      obtain ⟨db, hup, -⟩ := upsertHashCount_spec s c.mDb.db
      rw [MySqliteStmt.ensures_stepExit_row (by simpa using Sqlite.insertReturning_row hr hup)]
      simp only [if_true, ensures_bind, MySqliteStmt.ensures_column,
        MySqliteConnect.update_stmts_self, MySqliteStmt.stepped_cursor]
      -- the second step finds the statement suspended at its row
      cases hr' : c.mDb.refusals 1 with
      | some refusal =>
          rw [MySqliteStmt.ensures_stepExit_refused
            (by simpa using Sqlite.insertReturning_undone hr')]
          simpa [getInt64, hup] using hq.stepped _ _ _
      | none =>
          rw [MySqliteStmt.ensures_stepExit_done (by simpa using Sqlite.insertReturning_done hr')]
          simpa [getInt64, hup] using hq.stepped _ _ _

/-- The request for a hash. -/
def request (hash : Sha1Hash) : AddTorrentParams := settorrent { infoHashes := hash }

/-- What a sighting does when those of `seen` are counted. -/
theorem isaddtorreent_refusable {s : DhtRecord} {seen : List Sha1Hash} (hq : s.counttable.Quiet)
    (htally : s.counttable.mDb.db.Tallies (seen.map hashKey)) (hash : Sha1Hash) :
    Ensures (isaddtorreent hash) s (fun _ s' => s'.counttable.Quiet ∧
      s'.counttable.mDb.saved = s.counttable.mDb.saved ∧
      s'.ses.added = s.ses.added ++
        (if s.counttable.mDb.refusals 0 = none ∧ hash ∉ seen then [request hash] else []) ∧
      if s.counttable.mDb.refusals 0 = none ∧ s.counttable.mDb.refusals 1 = none then
        ∃ n, s.counttable.mDb.db.upsertHashCount (hashKey hash) = some (s'.counttable.mDb.db, n)
      else s'.counttable.mDb.db = s.counttable.mDb.db) fun _ _ => False := by
  rw [isaddtorreent, ensures_bind, DhtRecord.insert, ensures_within]
  apply (MyHashCountTable.insert_refusable hq (hashKey hash) 0).mono _ fun _ _ he => he
  intro r c h
  obtain ⟨ok, n⟩ := r
  obtain ⟨hq', hs', h⟩ := h
  by_cases hr : s.counttable.mDb.refusals 0 = none
  · rw [if_pos hr] at h
    obtain ⟨db, hup, hdb⟩ := h
    -- the count that is read is the number of counted sightings, this one among them
    obtain ⟨db', hup', -⟩ := htally.counts.upsert (hashKey hash)
    have hn : n = (seen.count hash : Int) + 1 := by
      rw [hup', List.count_map_of_injective _ _ hashKey_injective] at hup
      exact (Prod.mk.inj (Option.some.inj hup)).2.symm
    have hone : n = 1 ↔ hash ∉ seen := by
      rw [hn, ← List.count_eq_zero]
      omega
    have hwritten : if s.counttable.mDb.refusals 1 = none then
        ∃ n, s.counttable.mDb.db.upsertHashCount (hashKey hash) = some (c.mDb.db, n)
        else c.mDb.db = s.counttable.mDb.db := by
      by_cases hr' : s.counttable.mDb.refusals 1 = none
      · rw [if_pos hr'] at hdb ⊢
        exact ⟨n, hdb ▸ hup⟩
      · rw [if_neg hr'] at hdb ⊢
        exact hdb
    by_cases hnew : hash ∉ seen
    · simpa [hone.mpr hnew, hr, hnew, hq', hs', Session.asyncAddTorrent, request] using hwritten
    · have hn1 : n ≠ 1 := fun h => hnew (hone.mp h)
      simpa [hn1, hr, not_not.mp hnew, hq', hs'] using hwritten
  · rw [if_neg hr] at h
    obtain ⟨rfl, hdb⟩ := h
    simp [hr, hq', hs', hdb]

/-! ## whole runs -/

/-- The torrents that have come in. -/
def offered (hist : List Delivery) : List TorrentData := hist.filterMap fun d => d.alert.data?

/-- No torrent with the key `v` has met a refusal. -/
def Unrefused (hist : List Delivery) (v : Bytes) : Prop :=
  ∀ d ∈ hist, ∀ data, d.alert.data? = some data → data.hash = v → ∀ n, d.refusals n = none

/-- The library `library` is the one of the start with some of the torrents
that have come in; a key whose torrents met no refusal has the first of them. -/
structure Collected (stored : List TorrentData) (hist : List Delivery)
    (library : List TorrentData) : Prop where
  grown : ∃ inserted, library = stored ++ inserted ∧ inserted.Sublist (offered hist)
  first : ∀ v, Unrefused hist v → library.find? (fun data => data.hash = v) =
    (stored ++ offered hist).find? fun data => data.hash = v

variable {stored library : List TorrentData} {hist : List Delivery} {d : Delivery}
  {data : TorrentData} {db : Database} {codes : StmtName → ResultCode} {s s' : DhtRecord}

theorem collected_nil (stored : List TorrentData) : Collected stored [] stored where
  grown := ⟨[], by simp, List.nil_sublist _⟩
  first v _ := by simp [offered]

theorem Unrefused.of_snoc {v : Bytes} (h : Unrefused (hist ++ [d]) v) : Unrefused hist v :=
  fun d' hd' => h d' (List.mem_append_left _ hd')

theorem offered_snoc (hist : List Delivery) (d : Delivery) :
    offered (hist ++ [d]) = offered hist ++ d.alert.data?.toList := by
  rw [offered, List.filterMap_append]
  cases h : d.alert.data? with
  | none => simp [offered, h]
  | some data => simp [offered, h]

theorem Collected.skip (h : Collected stored hist library) (hd : d.alert.data? = none) :
    Collected stored (hist ++ [d]) library := by
  have hsame : offered (hist ++ [d]) = offered hist := by simp [offered_snoc, hd]
  refine ⟨?_, fun v hv => ?_⟩
  · rw [hsame]
    exact h.grown
  · rw [hsame]
    exact h.first v hv.of_snoc

/-- A torrent that has been inserted. -/
theorem Collected.insert (h : Collected stored hist library) (hd : d.alert.data? = some data) :
    Collected stored (hist ++ [d]) (library ++ [data]) := by
  have hmore : offered (hist ++ [d]) = offered hist ++ [data] := by simp [offered_snoc, hd]
  refine ⟨?_, fun v hv => ?_⟩
  · obtain ⟨inserted, rfl, hsub⟩ := h.grown
    refine ⟨inserted ++ [data], by simp, ?_⟩
    rw [hmore]
    exact hsub.append (List.Sublist.refl _)
  · rw [hmore, ← List.append_assoc, List.find?_append, List.find?_append, h.first v hv.of_snoc]

/-- A torrent that has been turned away. -/
theorem Collected.refuse (h : Collected stored hist library) (hd : d.alert.data? = some data)
    (hin : (∀ n, d.refusals n = none) → data.hash ∈ library.map TorrentData.hash) :
    Collected stored (hist ++ [d]) library := by
  have hmore : offered (hist ++ [d]) = offered hist ++ [data] := by simp [offered_snoc, hd]
  refine ⟨?_, fun v hv => ?_⟩
  · obtain ⟨inserted, rfl, hsub⟩ := h.grown
    refine ⟨inserted, rfl, ?_⟩
    rw [hmore]
    exact hsub.trans (List.sublist_append_left _ _)
  · rw [hmore, ← List.append_assoc, List.find?_append, ← h.first v hv.of_snoc]
    by_cases hkey : data.hash = v
    · have hacc := hv d (List.mem_append_right _ List.mem_cons_self) data hd hkey
      obtain ⟨data', hin', heq⟩ := List.mem_map.mp (hin hacc)
      have hfound : (library.find? fun data => data.hash = v).isSome := by
        rw [List.find?_isSome]
        exact ⟨data', hin', decide_eq_true (heq.trans hkey)⟩
      rw [Option.or_of_isSome hfound]
    · simp [hkey]

namespace AlertLoop

/-- After the alerts of `hist`: nothing is open, the counts and the requests
are those of the sightings, and the library has been collected. -/
structure Looped (stored : List TorrentData) (hist : List Delivery) (s : DhtRecord) : Prop where
  quiet : s.counttable.Quiet
  closed : s.counttable.mDb.saved = none
  tallies : s.counttable.mDb.db.Tallies ((hist.filterMap Delivery.counted).map hashKey)
  requested : s.ses.added = (asked [] hist).map request
  library : ∃ library, Collected stored hist library ∧ s.counttable.mDb.db.Holds library
  indexed : s.counttable.mDb.db.Indexed

theorem looped_init (hstored : db.Holds stored) (hi : db.Indexed) :
    Looped stored [] (DhtRecord.init db codes) where
  quiet := fun _ => rfl
  closed := rfl
  tallies := ⟨List.nodup_nil, fun _ => rfl⟩
  requested := rfl
  library := ⟨stored, collected_nil stored, hstored.distinct, hstored.torrents, hstored.hashIds,
    hstored.fileIds, hstored.owner, hstored.index⟩
  indexed := hi

/-- A sighting goes on, whichever steps are refused. -/
theorem Looped.sighting (h : Looped stored hist s) {hash : Sha1Hash}
    (hd : d.alert.infoHash? = some hash) (hdata : d.alert.data? = none) :
    Ensures (isaddtorreent hash) (facing s d) (fun _ => Looped stored (hist ++ [d]))
      fun _ _ => False := by
  have hrun := isaddtorreent_refusable (s := facing s d) h.quiet h.tallies hash
  refine hrun.mono (fun _ s' hs' => ?_) fun _ _ he => he
  obtain ⟨hq, hsaved, hadded, hdb⟩ := hs'
  replace hdb : if d.refusals 0 = none ∧ d.refusals 1 = none then
      ∃ n, s.counttable.mDb.db.upsertHashCount (hashKey hash) = some (s'.counttable.mDb.db, n)
      else s'.counttable.mDb.db = s.counttable.mDb.db := hdb
  obtain ⟨library, hcol, hholds⟩ := h.library
  have hwritten : s'.counttable.mDb.db.Tallies
      (((hist ++ [d]).filterMap Delivery.counted).map hashKey) ∧
      s'.counttable.mDb.db.Holds library ∧ s'.counttable.mDb.db.Indexed := by
    by_cases hc : d.refusals 0 = none ∧ d.refusals 1 = none
    · have hcounted : [d].filterMap Delivery.counted = [hash] := by simp [Delivery.counted, hc, hd]
      rw [if_pos hc] at hdb
      obtain ⟨n, hup⟩ := hdb
      refine ⟨?_, hholds.of_upsert hup, ?_⟩
      · rw [List.filterMap_append, hcounted, List.map_append]
        exact h.tallies.upsert hup
      · rw [upsertHashCount_frame hup]
        exact h.indexed
    · have hcounted : [d].filterMap Delivery.counted = [] := by simp [Delivery.counted, hc]
      rw [if_neg hc] at hdb
      rw [hdb, List.filterMap_append, hcounted, List.append_nil]
      exact ⟨h.tallies, hholds, h.indexed⟩
  refine ⟨hq, hsaved.trans h.closed, hwritten.1, ?_, ⟨library, hcol.skip hdata, hwritten.2.1⟩,
    hwritten.2.2⟩
  replace hadded : s'.ses.added = s.ses.added ++
      if d.refusals 0 = none ∧ hash ∉ hist.filterMap Delivery.counted then [request hash]
      else [] := hadded
  rw [hadded, asked_snoc, List.nil_append, List.map_append, ← h.requested, Delivery.filter_read hd]
  split
  · rfl
  · rfl

/-- An alert that shows no hash and leaves the tables alone. -/
theorem Looped.of_tables (h : Looped stored hist s) (hd : d.alert.infoHash? = none)
    (hq : s'.counttable.Quiet) (hs : s'.counttable.mDb.saved = none) (hses : s'.ses = s.ses)
    (hcounts : s'.counttable.mDb.db.hashCountTable = s.counttable.mDb.db.hashCountTable)
    (hlib : ∃ library, Collected stored (hist ++ [d]) library ∧ s'.counttable.mDb.db.Holds library)
    (hi : s'.counttable.mDb.db.Indexed) : Looped stored (hist ++ [d]) s' := by
  have hcounted : (hist ++ [d]).filterMap Delivery.counted = hist.filterMap Delivery.counted := by
    simp [Delivery.counted, hd]
  have hread : d.read = none := by simp [Delivery.read, hd]
  refine ⟨hq, hs, ?_, ?_, hlib, hi⟩
  · rw [hcounted]
    refine ⟨?_, fun key => ?_⟩
    · rw [hcounts]
      exact h.tallies.distinct
    · rw [countOf, hcounts]
      exact h.tallies.counts key
  · rw [hses, h.requested, asked_snoc, hread]
    simp

/-- Metadata meets a lock that is held too long. -/
theorem Looped.insert_locked (h : Looped stored hist s) (hb : 1000 ≤ d.busy) :
    Ensures (MyDataInsertClass.insert data) (facing s d).counttable (fun _ _ => False)
      fun _ c => c.mDb.committed = s.counttable.mDb.db := by
  have hquiet : (facing s d).counttable.Quiet := h.quiet
  have hclosed : (facing s d).counttable.mDb.saved = none := h.closed
  have hb' : 1000 ≤ (facing s d).counttable.mDb.busy := hb
  exact (MyTransactionStmt.runOnTransaction_locked hquiet hclosed hb').mono
    (fun _ _ hf => hf) fun _ _ hc => hc.2

/-- Metadata that comes in.  The alert comes back unless the database stays
locked or a name of a new torrent cannot be tokenized. -/
theorem Looped.metadata (h : Looped stored hist s) (hd : d.alert.data? = some data)
    (hnone : d.alert.infoHash? = none) :
    Ensures (DhtRecord.insertData data) (facing s d) (fun _ => Looped stored (hist ++ [d]))
      fun _ s' => s'.counttable.mDb.committed = s.counttable.mDb.db ∧ (d.busy < 1000 →
        data.hash ∉ s.counttable.mDb.db.hashTable.map HashRow.hashValue ∧
          ∃ file ∈ data.entries, ¬ (MySqliteTokenizers.tokens file.1).isOk) := by
  rw [DhtRecord.insertData, ensures_within]
  obtain ⟨library, hcol, hholds⟩ := h.library
  have hquiet : (facing s d).counttable.Quiet := h.quiet
  have hclosed : (facing s d).counttable.mDb.saved = none := h.closed
  rcases Nat.lt_or_ge d.busy 1000 with hb | hb
  · have hb' : (facing s d).counttable.mDb.busy < 1000 := hb
    refine (MyDataInsertClass.insert_atomic data hquiet hclosed hb').mono ?_ ?_
    · intro returned c hret
      obtain ⟨hq, hs, ⟨-, hdb, hnew, htext⟩ | ⟨-, hdb, hin⟩⟩ := hret
      · replace hdb : c.mDb.db = s.counttable.mDb.db.addTorrent data := hdb
        refine h.of_tables hnone hq hs rfl ?_ ⟨library ++ [data], hcol.insert hd, ?_⟩ ?_
        · rw [hdb]
          rfl
        · rw [hdb]
          exact hholds.addTorrent (hholds.hashes ▸ hnew)
        · rw [hdb]
          exact h.indexed.addTorrent htext
      · replace hdb : c.mDb.db = s.counttable.mDb.db := hdb
        refine h.of_tables hnone hq hs rfl (by rw [hdb]) ⟨library, hcol.refuse hd ?_, ?_⟩ ?_
        · rw [← hholds.hashes]
          exact hin
        · rw [hdb]
          exact hholds
        · rw [hdb]
          exact h.indexed
    · intro exit c hexit
      obtain ⟨hc, hnew, file, hfile, htext⟩ := hexit
      refine ⟨hc, fun _ => ⟨hnew, file, hfile, ?_⟩⟩
      rw [htext]
      simp [Except.isOk, Except.toBool]
  · refine (h.insert_locked hb).mono (fun _ _ hf => hf.elim) fun exit c hc => ⟨hc, fun hlt => ?_⟩
    omega

/-- The alert that ends the process, if one does. -/
def Fatal (s : DhtRecord) (d : Delivery) : Prop :=
  ∃ data, d.alert.data? = some data ∧ (d.busy < 1000 →
    data.hash ∉ s.counttable.mDb.db.hashTable.map HashRow.hashValue ∧
      ∃ file ∈ data.entries, ¬ (MySqliteTokenizers.tokens file.1).isOk)

/-- One alert. -/
theorem Looped.sessionAlert (h : Looped stored hist s) (d : Delivery) :
    Ensures (sessionAlert d.alert) (facing s d) (fun _ => Looped stored (hist ++ [d]))
      fun _ s' => s'.counttable.mDb.committed = s.counttable.mDb.db ∧ Fatal s d := by
  obtain ⟨library, hcol, hholds⟩ := h.library
  cases hd : d.alert with
  | dhtAnnounce hash =>
      have hhash : d.alert.infoHash? = some hash := by
        rw [hd]
        rfl
      have hrun := h.sighting hhash (by rw [hd]; rfl)
      exact hrun.mono (fun _ _ h => h) fun _ _ hf => hf.elim
  | dhtGetPeers hash =>
      have hhash : d.alert.infoHash? = some hash := by
        rw [hd]
        rfl
      have hrun := h.sighting hhash (by rw [hd]; rfl)
      exact hrun.mono (fun _ _ h => h) fun _ _ hf => hf.elim
  | metadataReceived info =>
      have hdata : d.alert.data? = some (BtFunc.getTorrentData info) := by
        rw [hd]
        rfl
      rw [BtDht.sessionAlert, ensures_bind]
      refine (h.metadata hdata (by rw [hd]; rfl)).mono (fun _ s' hs' => ?_) fun _ s' hs' => ?_
      · simpa using hs'
      · exact ⟨hs'.1, _, hdata, hs'.2⟩
  | other =>
      have hdata : d.alert.data? = none := by
        rw [hd]
        rfl
      rw [BtDht.sessionAlert]
      have hsame : Looped stored (hist ++ [d]) (facing s d) :=
        h.of_tables (by rw [hd]; rfl) h.quiet h.closed rfl rfl ⟨library, hcol.skip hdata, hholds⟩
          h.indexed
      simpa using hsame

theorem Looped.step (h : Looped stored hist s) (hs : (system db codes).step s d = .ok s') :
    Looped stored (hist ++ [d]) s' := by
  simp only [system] at hs
  split at hs
  · next s₁ hrun =>
      obtain rfl := Except.ok.inj hs
      exact (h.sessionAlert d).of_ok hrun
  · cases hs

/-- The run lemma. -/
theorem loop_of_trace (hstored : db.Holds stored) (hi : db.Indexed)
    (ht : (system db codes).Trace hist s) : Looped stored hist s :=
  ht.history (Looped stored) (looped_init hstored hi) fun _ _ _ _ _ h _ hs => h.step hs

/-! ## what a run comes to -/

/-- **At least once, and how often.**  Whichever steps are refused in a run, the
session is asked for exactly the hashes of the alerts that got to read a
count, in the order of `asked`; and for a hash at most once more than a
reading of it was undone.  So with no such reading each is asked for once. -/
theorem loop_requests (hstored : db.Holds stored) (hi : db.Indexed)
    (ht : (system db codes).Trace hist s) :
    ∃ hashes, s.ses.added = hashes.map request ∧ hashes = asked [] hist ∧
      (∀ hash, hash ∈ hashes ↔ ∃ d ∈ hist, d.read = some hash) ∧
      (∀ hash, hashes.count hash ≤ undone hash hist + 1) ∧
      ((∀ d ∈ hist, d.counted = d.read) → hashes.Nodup) := by
  have h := loop_of_trace hstored hi ht
  refine ⟨asked [] hist, h.requested, rfl, fun hash => by simp [mem_asked_iff],
    fun hash => count_asked_le hash [] hist, fun hall => ?_⟩
  rw [List.nodup_iff_count_le_one]
  intro hash
  have hzero : undone hash hist = 0 := by
    rw [undone, List.countP_eq_zero]
    intro d hd
    have hread : d.read = some hash → d.read ≠ none := fun h => by simp [h]
    simpa [hall d hd] using hread
  have hle := count_asked_le hash [] hist
  omega

/-- **What a process leaves behind.**  A loop that starts on a library ends on
one, and no transaction is open between two alerts.  The library has grown by
torrents that came in, in their order; and where no torrent with a key met a
refusal, the first of them is there. -/
theorem loop_library (hstored : db.Holds stored) (hi : db.Indexed)
    (ht : (system db codes).Trace hist s) :
    ∃ library, Collected stored hist library ∧
      s.counttable.mDb.db.Consistent library ∧ s.counttable.mDb.saved = none := by
  have h := loop_of_trace hstored hi ht
  obtain ⟨library, hcol, hholds⟩ := h.library
  exact ⟨library, hcol, hholds.consistent, h.closed⟩

/-- The torrent can be stored: the database is unlocked in time, and the
torrent is known or all of its names can be tokenized. -/
def Storable (s : DhtRecord) (d : Delivery) (data : TorrentData) : Prop :=
  d.busy < 1000 ∧ (data.hash ∈ s.counttable.mDb.db.hashTable.map HashRow.hashValue ∨
    ∀ file ∈ data.entries, (MySqliteTokenizers.tokens file.1).isOk)

/-- The alert brings no torrent, or one that can be stored. -/
def Harmless (s : DhtRecord) (d : Delivery) : Prop :=
  ∀ data, d.alert.data? = some data → Storable s d data

theorem harmless_of_no_torrent (h : d.alert.data? = none) : Harmless s d := by
  intro data hdata
  rw [h] at hdata
  cases hdata

/-- A torrent that meets no refusal comes back only if it is harmless. -/
theorem Looped.insertData_accepting (h : Looped stored hist s) (hacc : ∀ n, d.refusals n = none) :
    Ensures (DhtRecord.insertData data) (facing s d) (fun _ _ => Storable s d data)
      fun _ _ => True := by
  rw [DhtRecord.insertData, ensures_within]
  have hquiet : (facing s d).counttable.Quiet := h.quiet
  have hclosed : (facing s d).counttable.mDb.saved = none := h.closed
  rcases Nat.lt_or_ge d.busy 1000 with hb | hb
  · have hb' : (facing s d).counttable.mDb.busy < 1000 := hb
    refine (MyDataInsertClass.insert_atomic data hquiet hclosed hb').mono ?_ fun _ _ _ => trivial
    intro returned c hret
    obtain ⟨-, -, ⟨-, -, -, htext⟩ | ⟨-, -, hin⟩⟩ := hret
    · exact ⟨hb, .inr htext⟩
    · exact ⟨hb, .inl (hin hacc)⟩
  · exact (h.insert_locked hb).mono (fun _ _ hf => hf.elim) fun _ _ _ => trivial

theorem Looped.harmless_of_returns (h : Looped stored hist s) (hacc : ∀ n, d.refusals n = none)
    {u : PUnit} (hrun : (BtDht.sessionAlert d.alert).run (facing s d) = .ok u s') :
    Harmless s d := by
  cases hd : d.alert with
  | metadataReceived info =>
      intro data hdata
      rw [hd] at hdata hrun
      obtain rfl := Option.some.inj hdata
      have hens : Ensures (BtDht.sessionAlert (.metadataReceived info)) (facing s d)
          (fun _ _ => Storable s d (BtFunc.getTorrentData info)) fun _ _ => True := by
        rw [BtDht.sessionAlert, ensures_bind]
        exact (h.insertData_accepting hacc).mono
          (fun _ _ hret => ensures_pure.mpr hret) fun _ _ _ => trivial
      exact hens.of_ok hrun
  | dhtAnnounce hash => exact harmless_of_no_torrent (by rw [hd]; rfl)
  | dhtGetPeers hash => exact harmless_of_no_torrent (by rw [hd]; rfl)
  | other => exact harmless_of_no_torrent (by rw [hd]; rfl)

theorem Looped.exists_step (codes : StmtName → ResultCode) (db : Database)
    (h : Looped stored hist s) (hharm : Harmless s d) :
    ∃ s', (system db codes).step s d = .ok s' := by
  have hrun := h.sessionAlert d
  unfold Ensures at hrun
  cases hres : (BtDht.sessionAlert d.alert).run (facing s d) with
  | ok u s' => exact ⟨s', by simp only [system, hres]⟩
  | error exit s' =>
      rw [hres] at hrun
      obtain ⟨-, data, hdata, hfatal⟩ := hrun
      obtain ⟨hb, hor⟩ := hharm data hdata
      obtain ⟨hnew, file, hfile, htext⟩ := hfatal hb
      cases hor with
      | inl hin => exact absurd hin hnew
      | inr hall => exact absurd (hall file hfile) htext

/-- **Which alert ends the crawler.**  At every point of a run a harmless alert
is handled, whichever steps SQLite refuses with a constraint code; one that is
not ends the process unless the torrent meets such a refusal; and however the
process ends, nothing of the torrent has been committed.  As everywhere, only
`BEGIN IMMEDIATE` meets a lock (`BtDht.Data.Sqlite`). -/
theorem loop_goes_on (hstored : db.Holds stored) (hi : db.Indexed)
    (ht : (system db codes).Trace hist s) (d : Delivery) :
    (Harmless s d → ∃ s', (system db codes).step s d = .ok s') ∧
      ((∀ n, d.refusals n = none) → (∃ s', (system db codes).step s d = .ok s') → Harmless s d) ∧
      ∀ exit s', (sessionAlert d.alert).run (facing s d) = .error exit s' →
        s'.counttable.mDb.committed = s.counttable.mDb.db := by
  have h := loop_of_trace hstored hi ht
  refine ⟨fun hharm => h.exists_step codes db hharm, fun hacc hstep => ?_, fun exit s' herr => ?_⟩
  · obtain ⟨s', hs⟩ := hstep
    simp only [system] at hs
    split at hs
    · next u s₁ hres => exact h.harmless_of_returns hacc hres
    · cases hs
  · have hrun := h.sessionAlert d
    unfold Ensures at hrun
    rw [herr] at hrun
    exact hrun.1

/-! ## one torrent -/

/-- The metadata of a torrent of one file, `a`, with the v1 hash `01…01`. -/
def oneInfo : TorrentInfo := ⟨⟨.fill 20 1, .fill 32 0, true⟩, [97], 5, [⟨[97], 5⟩]⟩

/-- It comes in, and its hash is shown twice; the first count is undone. -/
def oneHist : List Delivery :=
  [⟨.metadataReceived oneInfo, 2, fun _ => none⟩,
    ⟨.dhtGetPeers (.fill 20 1), 0, fun n => if n = 1 then some .constraint else none⟩,
    ⟨.dhtAnnounce (.fill 20 1), 0, fun _ => none⟩]

/-- Nothing is indexed in an empty database. -/
theorem indexed_empty : Database.empty.Indexed := fun _ hrow => absurd hrow List.not_mem_nil

theorem trace_oneHist : ∃ s, (system .empty fun _ => .ok).Trace oneHist s := by
  have hstart : Looped [] [] (DhtRecord.init .empty fun _ => .ok) :=
    looped_init holds_empty indexed_empty
  have hharm : Harmless (DhtRecord.init .empty fun _ => .ok) oneHist[0] := by
    intro data hdata
    obtain rfl := Option.some.inj hdata
    refine ⟨by decide, .inr ?_⟩
    simpa [BtFunc.getTorrentData, oneInfo, TorrentData.entries] using MyDataInsertClass.isOk_tokens_a
  obtain ⟨s₁, hs₁⟩ := hstart.exists_step (fun _ => .ok) .empty hharm
  have h₁ := hstart.step hs₁
  obtain ⟨s₂, hs₂⟩ := h₁.exists_step (d := oneHist[1]) (fun _ => .ok) .empty
    (harmless_of_no_torrent rfl)
  obtain ⟨s₃, hs₃⟩ := (h₁.step hs₂).exists_step (d := oneHist[2]) (fun _ => .ok) .empty
    (harmless_of_no_torrent rfl)
  exact ⟨s₃, ((System.Trace.nil.snoc trivial hs₁).snoc trivial hs₂).snoc trivial hs₃⟩

/-- The torrent is requested twice. -/
theorem loop_requests_oneHist : ∃ s, (system .empty fun _ => .ok).Trace oneHist s ∧
    s.ses.added = [request (.fill 20 1), request (.fill 20 1)] := by
  obtain ⟨s, ht⟩ := trace_oneHist
  obtain ⟨hashes, hadded, rfl, -⟩ := loop_requests holds_empty indexed_empty ht
  exact ⟨s, ht, hadded.trans (by decide)⟩

theorem loop_library_oneHist : ∃ (s : DhtRecord) (library : List TorrentData),
    Collected [] oneHist library ∧ s.counttable.mDb.db.Consistent library ∧
      s.counttable.mDb.saved = none := by
  obtain ⟨s, ht⟩ := trace_oneHist
  exact ⟨s, loop_library holds_empty indexed_empty ht⟩

theorem loop_goes_on_oneHist : ∃ s, (system .empty fun _ => .ok).Trace oneHist s ∧ ∀ d : Delivery,
    (Harmless s d → ∃ s', (system .empty fun _ => .ok).step s d = .ok s') ∧
      ((∀ n, d.refusals n = none) →
        (∃ s', (system .empty fun _ => .ok).step s d = .ok s') → Harmless s d) ∧
      ∀ exit s', (sessionAlert d.alert).run (facing s d) = .error exit s' →
        s'.counttable.mDb.committed = s.counttable.mDb.db := by
  obtain ⟨s, ht⟩ := trace_oneHist
  exact ⟨s, ht, fun d => loop_goes_on holds_empty indexed_empty ht d⟩

end AlertLoop

end BtDht
