import BtDht.Data.Lists
import BtDht.Data.System
import BtDht.MySqliteClass.DataInsert

/-!
# BtDht.MySqliteClass.Library

What the database is for: a library of torrents, in the order in which they
were stored, no two with the same hash.  `Holds stored db` says that the tables
represent the library `stored`, and every run of `Insert` calls keeps a
database that represents the torrents for which `Insert` returned `true`
(`holds_of_trace`): a call either appends its torrent to the library or changes
nothing, however it is refused on the way.
-/

namespace BtDht

open Sqlite

/-! ## the representation -/

/-- The name and size of a file. -/
def FileRow.entry (row : FileRow) : Bytes × Int64 := (row.name, row.size)

namespace Database

/-- The rows of `file_table` for one torrent. -/
def filesOf (db : Database) (hashId : Int) : List FileRow :=
  db.fileTable.filter fun row => row.hashId = hashId

/-- The tables hold exactly the library `stored`. -/
structure Holds (stored : List TorrentData) (db : Database) : Prop where
  /-- no hash is stored twice -/
  distinct : (stored.map TorrentData.hash).Nodup
  /-- each hash row stands for one torrent, and the files with its id are that torrent's -/
  torrents : List.Forall₂ (fun row data => row.hashValue = data.hash ∧
    (db.filesOf row.id).map FileRow.entry = data.entries) db.hashTable stored
  /-- hash ids increase -/
  hashIds : (db.hashTable.map HashRow.id).Pairwise (· < ·)
  /-- file ids increase, and the files of one torrent stand together -/
  fileIds : db.fileTable.Pairwise fun r r' => r.id < r'.id ∧ r.hashId ≤ r'.hashId
  /-- every file belongs to a torrent -/
  owner : ∀ row ∈ db.fileTable, row.hashId ∈ db.hashTable.map HashRow.id
  /-- the index has each file's name under the file's id -/
  index : db.fulltextTable = db.fileTable.map indexRow

theorem holds_empty : Holds [] empty := by
  constructor <;> simp [empty]

/-! ## rows of one torrent -/

theorem entry_fileRows (hashId id : Int) (entries : List (Bytes × Int64)) :
    (fileRows hashId id entries).map FileRow.entry = entries := by
  induction entries generalizing id with
  | nil => rfl
  | cons entry entries ih => simp [fileRows, FileRow.entry, ih]

theorem hashId_of_mem_fileRows {hashId id : Int} {entries : List (Bytes × Int64)} {row : FileRow}
    (h : row ∈ fileRows hashId id entries) : row.hashId = hashId ∧ id ≤ row.id := by
  induction entries generalizing id with
  | nil => simp [fileRows] at h
  | cons entry entries ih =>
      rcases List.mem_cons.mp h with rfl | h
      · simp
      · have := ih h
        exact ⟨this.1, by omega⟩

theorem pairwise_fileRows (hashId id : Int) (entries : List (Bytes × Int64)) :
    (fileRows hashId id entries).Pairwise fun r r' => r.id < r'.id ∧ r.hashId ≤ r'.hashId := by
  induction entries generalizing id with
  | nil => exact .nil
  | cons entry entries ih =>
      refine .cons (fun row hrow => ?_) (ih _)
      have := hashId_of_mem_fileRows hrow
      exact ⟨by simp; omega, by simp [this.1]⟩

/-! ## storing a torrent -/

variable {stored : List TorrentData} {db : Database} {data : TorrentData}

theorem Holds.hashes (h : Holds stored db) :
    db.hashTable.map HashRow.hashValue = stored.map TorrentData.hash := by
  have heq := List.forall₂_map_left_iff.mpr
    (List.forall₂_map_right_iff.mpr (h.torrents.imp fun _ _ hr => hr.1))
  rwa [List.forall₂_eq_eq_eq] at heq

/-- The id the next torrent gets. -/
def nextHashId (db : Database) : Int := nextRowid (db.hashTable.map HashRow.id)

/-- The rows the next torrent gets. -/
def nextFileRows (data : TorrentData) (db : Database) : List FileRow :=
  fileRows db.nextHashId (nextRowid (db.fileTable.map FileRow.id)) data.entries

theorem addTorrent_eq : db.addTorrent data =
    { db with
      hashTable := db.hashTable ++ [⟨db.nextHashId, data.hash⟩]
      fileTable := db.fileTable ++ db.nextFileRows data
      fulltextTable := db.fulltextTable ++ (db.nextFileRows data).map indexRow } := rfl

/-- The torrents there already keep their files. -/
theorem filesOf_addTorrent_of_ne (data : TorrentData) {id : Int} (hne : id ≠ db.nextHashId) :
    (db.addTorrent data).filesOf id = db.filesOf id := by
  have hnil : (db.nextFileRows data).filter (fun row => row.hashId = id) = [] := by
    rw [List.filter_eq_nil_iff]
    intro row hrow
    have := (hashId_of_mem_fileRows hrow).1
    simp [this, hne.symm]
  simp [filesOf, addTorrent_eq, hnil]

/-- The new torrent has the new rows. -/
theorem Holds.filesOf_addTorrent (h : Holds stored db) :
    (db.addTorrent data).filesOf db.nextHashId = db.nextFileRows data := by
  have hold : db.fileTable.filter (fun row => row.hashId = db.nextHashId) = [] := by
    rw [List.filter_eq_nil_iff]
    intro row hrow
    have hlt := lt_nextRowid (h.owner row hrow)
    have hne : row.hashId ≠ db.nextHashId := by
      rw [nextHashId]
      omega
    simpa using hne
  have hnew : (db.nextFileRows data).filter (fun row => row.hashId = db.nextHashId) =
      db.nextFileRows data := by
    rw [List.filter_eq_self]
    intro row hrow
    simpa using (hashId_of_mem_fileRows hrow).1
  simp [filesOf, addTorrent_eq, hold, hnew]

/-- A new torrent is appended to the library. -/
theorem Holds.addTorrent (h : Holds stored db) (hnew : data.hash ∉ stored.map TorrentData.hash) :
    Holds (stored ++ [data]) (db.addTorrent data) where
  distinct := by
    simpa using h.distinct.concat hnew
  torrents := by
    have hlt : ∀ row ∈ db.hashTable, row.id ≠ db.nextHashId := by
      intro row hrow
      have := lt_nextRowid (List.mem_map_of_mem (f := HashRow.id) hrow)
      rw [nextHashId]
      omega
    have hold := ((List.forall₂_and_left _ _).mpr ⟨hlt, h.torrents⟩).imp fun row t ht =>
      filesOf_addTorrent_of_ne data ht.1 ▸ ht.2
    have hfiles : ((db.addTorrent data).filesOf db.nextHashId).map FileRow.entry = data.entries := by
      rw [h.filesOf_addTorrent, nextFileRows, entry_fileRows]
    exact List.rel_append hold (.cons ⟨rfl, hfiles⟩ .nil)
  hashIds := by
    rw [addTorrent_eq, List.map_append, List.pairwise_append]
    refine ⟨h.hashIds, List.pairwise_singleton _ _, fun id hid id' hid' => ?_⟩
    simp at hid'
    rw [hid']
    exact lt_nextRowid hid
  fileIds := by
    rw [addTorrent_eq, List.pairwise_append]
    refine ⟨h.fileIds, pairwise_fileRows _ _ _, fun row hrow row' hrow' => ?_⟩
    have hid := lt_nextRowid (List.mem_map_of_mem (f := FileRow.id) hrow)
    have hhash := lt_nextRowid (h.owner row hrow)
    have hnext := hashId_of_mem_fileRows hrow'
    rw [nextHashId] at hnext
    omega
  owner := by
    intro row hrow
    rw [addTorrent_eq, List.map_append, List.mem_append]
    rcases List.mem_append.mp hrow with hrow | hrow
    · exact .inl (h.owner row hrow)
    · exact .inr (by simp [(hashId_of_mem_fileRows hrow).1, nextHashId])
  index := by
    rw [addTorrent_eq, h.index, List.map_append]

/-! ## what the representation says about the tables -/

/-- The files of one torrent, read by increasing id. -/
def filesById (db : Database) (hashId : Int) : List FileRow :=
  (db.filesOf hashId).mergeSort fun r r' => r.id ≤ r'.id

theorem Holds.filesById (h : Holds stored db) (hashId : Int) :
    db.filesById hashId = db.filesOf hashId := by
  refine List.mergeSort_of_pairwise ?_
  have hsorted := h.fileIds.sublist (List.filter_sublist (p := fun row => row.hashId = hashId))
  refine hsorted.imp fun {r r'} hr => ?_
  simpa using Int.le_of_lt hr.1

/-- The tables are consistent and hold, for each hash, the first torrent of
`inserted` that has it. -/
structure Consistent (inserted : List TorrentData) (db : Database) : Prop where
  /-- hash values are pairwise distinct -/
  hashes : (db.hashTable.map HashRow.hashValue).Nodup
  /-- every file has exactly one hash row -/
  hashOfFile : ∀ row ∈ db.fileTable, db.hashTable.countP (fun h => h.id = row.hashId) = 1
  /-- every hash has a file -/
  fileOfHash : ∀ h ∈ db.hashTable, ∃ row ∈ db.fileTable, row.hashId = h.id
  /-- no two files have one id -/
  fileIds : (db.fileTable.map FileRow.id).Nodup
  /-- the indexed rowids are the file ids -/
  rowids : db.fulltextTable.map FulltextRow.rowid = db.fileTable.map FileRow.id
  /-- and the text indexed under an id is that file's name -/
  texts : ∀ row ∈ db.fulltextTable, ∃ file ∈ db.fileTable, file.id = row.rowid ∧ file.name = row.text
  /-- the hashes are those of the inserted torrents -/
  stored : ∀ data ∈ inserted, data.hash ∈ db.hashTable.map HashRow.hashValue
  /-- the files of a hash are those of the first torrent inserted with it -/
  files : ∀ h ∈ db.hashTable, ∃ data, inserted.find? (fun data => data.hash = h.hashValue) = some data ∧
    (db.filesById h.id).map FileRow.entry = data.entries

theorem Holds.consistent (h : Holds stored db) : Consistent stored db where
  hashes := by
    rw [h.hashes]
    exact h.distinct
  hashOfFile := by
    intro row hrow
    have hnd : (db.hashTable.map HashRow.id).Nodup := h.hashIds.imp fun hlt => ne_of_lt hlt
    have hcount := List.count_eq_one_of_mem hnd (h.owner row hrow)
    simpa [List.count, List.countP_map, Function.comp_def, beq_eq_decide] using hcount
  fileOfHash := by
    intro hash hhash
    obtain ⟨data, -, -, hfiles⟩ := exists_mem_of_forall₂ h.torrents hhash
    cases hof : db.filesOf hash.id with
    | nil => simp [hof, TorrentData.entries] at hfiles
    | cons row rows =>
        have hrow : row ∈ db.filesOf hash.id := by simp [hof]
        have := List.mem_filter.mp hrow
        exact ⟨row, this.1, by simpa using this.2⟩
  fileIds := by
    refine List.pairwise_map.mpr (h.fileIds.imp fun hlt => ne_of_lt hlt.1)
  rowids := by
    simp [h.index, indexRow]
  texts := by
    intro row hrow
    rw [h.index] at hrow
    obtain ⟨file, hfile, rfl⟩ := List.mem_map.mp hrow
    exact ⟨file, hfile, rfl, rfl⟩
  stored := by
    intro data hdata
    rw [h.hashes]
    exact List.mem_map_of_mem hdata
  files := by
    intro hash hhash
    obtain ⟨data, hdata, heq, hfiles⟩ := exists_mem_of_forall₂ h.torrents hhash
    refine ⟨data, ?_, by rw [h.filesById, hfiles]⟩
    rw [heq]
    exact find?_key_eq_some h.distinct hdata

end Database

/-! ## runs -/

/-- One call of `Insert`, with what it meets: how often the database is locked
and which statement steps are refused. -/
structure InsertCall where
  data : TorrentData
  busy : Nat
  refusals : Nat → Option Refusal

/-- The connection with what the call will meet. -/
def Crawler.facing (c : Crawler) (call : InsertCall) : Crawler :=
  { c with mDb := { c.mDb with busy := call.busy, refusals := call.refusals } }

namespace MyDataInsertClass

/-- Where a run of `Insert` calls stands: the connection, and the torrents for
which `Insert` has returned `true`, in order. -/
structure Run where
  crawler : Crawler
  inserted : List TorrentData

/-- Runs of `Insert` calls from the empty database.  `codes` is what the
statements' `m_up_step_code` hold before their first step. -/
def system (codes : StmtName → ResultCode) : System Run InsertCall Exit where
  init := ⟨⟨⟨.empty, none, 0, fun _ => none⟩, fun stmt => .prepared (codes stmt)⟩, []⟩
  allowed _ _ := True
  step r call :=
    match (insert call.data).run (r.crawler.facing call) with
    | .ok true c => .ok ⟨c, r.inserted ++ [call.data]⟩
    | .ok false c => .ok ⟨c, r.inserted⟩
    | .error exit _ => .error exit

/-! ### single calls -/

section

variable {data : TorrentData} {c c' : Crawler} {returned : Bool}

/-- However often the database is locked, `Insert` returns only in the ways of
`InsertReturns`. -/
theorem insert_returns (hq : c.Quiet) (hs : c.mDb.saved = none)
    (hrun : (insert data).run c = .ok returned c') : InsertReturns data c returned c' := by
  rcases Nat.lt_or_ge c.mDb.busy 1000 with hb | hb
  · exact (insert_atomic data hq hs hb).of_ok hrun
  · exact ((MyTransactionStmt.runOnTransaction_locked hq hs hb).of_ok hrun).elim

/-- A torrent whose hash is stored is refused and changes nothing. -/
theorem insert_of_mem (hq : c.Quiet) (hs : c.mDb.saved = none) (hb : c.mDb.busy < 1000)
    (hmem : data.hash ∈ c.mDb.db.hashTable.map HashRow.hashValue) :
    ∃ c', (insert data).run c = .ok false c' ∧ c'.mDb.db = c.mDb.db := by
  have h := insert_atomic data hq hs hb
  unfold Ensures at h
  cases hrun : (insert data).run c with
  | ok returned c' =>
      rw [hrun] at h
      rcases h.2.2 with ⟨-, -, hnew, -⟩ | ⟨rfl, hdb, -⟩
      · exact absurd hmem hnew
      · exact ⟨c', rfl, hdb⟩
  | error exit c' =>
      rw [hrun] at h
      exact absurd hmem h.2.1

/-- A new torrent that meets no refusal is stored. -/
theorem insert_of_accepting (hq : c.Quiet) (hs : c.mDb.saved = none) (hb : c.mDb.busy < 1000)
    (ha : c.mDb.Accepting) (hnew : data.hash ∉ c.mDb.db.hashTable.map HashRow.hashValue)
    (htext : ∀ file ∈ data.entries, (MySqliteTokenizers.tokens file.1).isOk) :
    ∃ c', (insert data).run c = .ok true c' ∧ c'.mDb.db = c.mDb.db.addTorrent data := by
  have h := insert_atomic data hq hs hb
  unfold Ensures at h
  cases hrun : (insert data).run c with
  | ok returned c' =>
      rw [hrun] at h
      rcases h.2.2 with ⟨rfl, hdb, -⟩ | ⟨-, -, hmem⟩
      · exact ⟨c', rfl, hdb⟩
      · exact absurd (hmem ha) hnew
  | error exit c' =>
      rw [hrun] at h
      obtain ⟨-, -, file, hfile, hexit⟩ := h
      have hok := htext file hfile
      rw [hexit] at hok
      cases hok

/-- A torrent without a bad name that meets a refusal is not stored. -/
theorem insert_of_refused {n : Nat} (hq : c.Quiet) (hs : c.mDb.saved = none)
    (hb : c.mDb.busy < 1000)
    (htext : ∀ file ∈ data.entries, (MySqliteTokenizers.tokens file.1).isOk)
    (hn : n < 2 + 3 * data.entries.length) (hr : c.mDb.refusals n ≠ none) :
    ∃ c', (insert data).run c = .ok false c' ∧ c'.mDb.db = c.mDb.db := by
  have h := insert_ensures data hq hs hb
  unfold Ensures at h
  cases hrun : (insert data).run c with
  | ok returned c' =>
      rw [hrun] at h
      obtain ⟨⟨-, -, ⟨rfl, -⟩ | ⟨rfl, hdb, -⟩⟩, -, hacc⟩ := h
      · exact absurd (hacc rfl n hn) hr
      · exact ⟨c', rfl, hdb⟩
  | error exit c' =>
      rw [hrun] at h
      exact absurd h.2 (not_stops_of_isOk htext)

end

/-! ### all calls of a run -/

/-- Between two calls: nothing is open, and the tables hold the torrents that
were inserted. -/
structure Ready (r : Run) : Prop where
  quiet : r.crawler.Quiet
  closed : r.crawler.mDb.saved = none
  holds : r.crawler.mDb.db.Holds r.inserted

variable {codes : StmtName → ResultCode} {hist : List InsertCall} {r r' : Run}

theorem Ready.step {call : InsertCall} (h : Ready r) (hs : (system codes).step r call = .ok r') :
    Ready r' := by
  simp only [system] at hs
  split at hs
  · next c hrun =>
      obtain rfl := Except.ok.inj hs
      have hret : InsertReturns call.data (r.crawler.facing call) true c :=
        insert_returns h.quiet h.closed hrun
      obtain ⟨hq, hclosed, ⟨-, hdb, hnew, -⟩ | ⟨hf, -⟩⟩ := hret
      · refine ⟨hq, hclosed, ?_⟩
        rw [hdb]
        exact h.holds.addTorrent (h.holds.hashes ▸ hnew)
      · cases hf
  · next c hrun =>
      obtain rfl := Except.ok.inj hs
      have hret : InsertReturns call.data (r.crawler.facing call) false c :=
        insert_returns h.quiet h.closed hrun
      obtain ⟨hq, hclosed, ⟨hf, -⟩ | ⟨-, hdb, -⟩⟩ := hret
      · cases hf
      · refine ⟨hq, hclosed, ?_⟩
        rw [hdb]
        exact h.holds
  · cases hs

/-- The run lemma. -/
theorem ready_of_trace (ht : (system codes).Trace hist r) : Ready r := by
  refine ht.invariant Ready ⟨fun _ => rfl, rfl, Database.holds_empty⟩ ?_
  exact fun r call r' h _ hs => h.step hs

/-- **The library over whole runs.**  After any calls of `Insert` the tables
are consistent and hold, for each hash, the first torrent inserted with it;
and a further call with a hash that is stored returns `false` and changes
nothing. -/
theorem library_consistent (ht : (system codes).Trace hist r) :
    r.crawler.mDb.db.Consistent r.inserted ∧
      ∀ call : InsertCall, call.busy < 1000 → call.data.hash ∈ r.inserted.map TorrentData.hash →
        ∃ c, (insert call.data).run (r.crawler.facing call) = .ok false c ∧
          c.mDb.db = r.crawler.mDb.db := by
  have h := ready_of_trace ht
  refine ⟨h.holds.consistent, fun call hb hmem => ?_⟩
  rw [← h.holds.hashes] at hmem
  exact insert_of_mem h.quiet h.closed hb hmem

/-! ### one call more -/

section

variable {c : Crawler} {inserted : List TorrentData} (call : InsertCall)

/-- A new torrent that meets no refusal comes in as the last one. -/
theorem exists_trace_of_accepting (ht : (system codes).Trace hist ⟨c, inserted⟩)
    (hb : call.busy < 1000) (ha : ∀ n, call.refusals n = none)
    (hnew : call.data.hash ∉ inserted.map TorrentData.hash)
    (htext : ∀ file ∈ call.data.entries, (MySqliteTokenizers.tokens file.1).isOk) :
    ∃ c', (system codes).Trace (hist ++ [call]) ⟨c', inserted ++ [call.data]⟩ ∧
      c'.mDb.db = c.mDb.db.addTorrent call.data := by
  have h := ready_of_trace ht
  rw [← h.holds.hashes] at hnew
  obtain ⟨c', hrun, hdb⟩ :=
    insert_of_accepting (c := c.facing call) h.quiet h.closed hb ha hnew htext
  exact ⟨c', ht.snoc trivial (by simp only [system, hrun]), hdb⟩

/-- A call that returns `false` leaves the library as it is. -/
theorem exists_trace_of_false (ht : (system codes).Trace hist ⟨c, inserted⟩)
    (hrun : ∃ c', (insert call.data).run (c.facing call) = .ok false c' ∧
      c'.mDb.db = (c.facing call).mDb.db) :
    ∃ c', (system codes).Trace (hist ++ [call]) ⟨c', inserted⟩ ∧ c'.mDb.db = c.mDb.db := by
  obtain ⟨c', hrun, hdb⟩ := hrun
  exact ⟨c', ht.snoc trivial (by simp only [system, hrun]), hdb⟩

theorem exists_trace_of_refused {n : Nat} (ht : (system codes).Trace hist ⟨c, inserted⟩)
    (hb : call.busy < 1000)
    (htext : ∀ file ∈ call.data.entries, (MySqliteTokenizers.tokens file.1).isOk)
    (hn : n < 2 + 3 * call.data.entries.length) (hr : call.refusals n ≠ none) :
    ∃ c', (system codes).Trace (hist ++ [call]) ⟨c', inserted⟩ ∧ c'.mDb.db = c.mDb.db := by
  have h := ready_of_trace ht
  exact exists_trace_of_false call ht (insert_of_refused h.quiet h.closed hb htext hn hr)

theorem exists_trace_of_mem (ht : (system codes).Trace hist ⟨c, inserted⟩) (hb : call.busy < 1000)
    (hmem : call.data.hash ∈ inserted.map TorrentData.hash) :
    ∃ c', (system codes).Trace (hist ++ [call]) ⟨c', inserted⟩ ∧ c'.mDb.db = c.mDb.db := by
  have h := ready_of_trace ht
  rw [← h.holds.hashes] at hmem
  exact exists_trace_of_false call ht (insert_of_mem h.quiet h.closed hb hmem)

end

/-- A call that meets neither a lock nor a refusal. -/
def undisturbed (data : TorrentData) : InsertCall := ⟨data, 0, fun _ => none⟩

/-- Torrents with different hashes, whose names can all be tokenized, are stored
by one call each. -/
theorem exists_trace_undisturbed (codes : StmtName → ResultCode) (torrents : List TorrentData)
    (hnd : (torrents.map TorrentData.hash).Nodup)
    (htext : ∀ data ∈ torrents, ∀ file ∈ data.entries, (MySqliteTokenizers.tokens file.1).isOk) :
    ∃ c, (system codes).Trace (torrents.map undisturbed) ⟨c, torrents⟩ ∧
      c.mDb.db = torrents.foldl (fun db data => db.addTorrent data) .empty := by
  induction torrents using List.reverseRecOn with
  | nil => exact ⟨_, .nil, rfl⟩
  | append_singleton torrents data ih =>
      rw [List.map_append, List.nodup_append] at hnd
      obtain ⟨c, ht, hdb⟩ := ih hnd.1 fun data hdata => htext data (List.mem_append_left _ hdata)
      have hnew : data.hash ∉ torrents.map TorrentData.hash :=
        fun hin => hnd.2.2 _ hin _ List.mem_cons_self rfl
      rw [List.map_append, List.foldl_append, ← hdb]
      exact exists_trace_of_accepting (undisturbed data) ht (by decide : 0 < 1000) (fun _ => rfl)
        hnew (htext data (by simp))

/-- A call that stores `oneFile` after two busy answers. -/
def oneFileCall : InsertCall := ⟨oneFile, 2, fun _ => none⟩

theorem isOk_tokens_oneFile :
    ∀ file ∈ oneFile.entries, (MySqliteTokenizers.tokens file.1).isOk := by
  simpa [oneFile, TorrentData.entries] using isOk_tokens_a

theorem trace_oneFile :
    ∃ c, (system fun _ => .ok).Trace [oneFileCall] ⟨c, [oneFile]⟩ := by
  have hstart : (system fun _ => .ok).Trace [] (system fun _ => .ok).init := .nil
  obtain ⟨c, ht, -⟩ := exists_trace_of_accepting oneFileCall hstart (by decide) (fun _ => rfl)
    List.not_mem_nil isOk_tokens_oneFile
  exact ⟨c, ht⟩

/-- A torrent of two files, `a` and `ab`. -/
def twoFiles : TorrentData := ⟨[48, 50], [97, 98], 7, [([97], 3), ([97, 98], 4)]⟩

theorem isOk_tokens_twoFiles :
    ∀ file ∈ twoFiles.entries, (MySqliteTokenizers.tokens file.1).isOk := by
  simpa [twoFiles, TorrentData.entries] using ⟨isOk_tokens_ab, isOk_tokens_a, isOk_tokens_ab⟩

theorem trace_twoTorrents : ∃ c, (system fun _ => .ok).Trace ([oneFile, twoFiles].map undisturbed)
      ⟨c, [oneFile, twoFiles]⟩ ∧ c.mDb.db = (Database.empty.addTorrent oneFile).addTorrent twoFiles := by
  have htext : ∀ data ∈ [oneFile, twoFiles], ∀ file ∈ data.entries,
      (MySqliteTokenizers.tokens file.1).isOk :=
    List.forall_mem_cons.mpr ⟨isOk_tokens_oneFile, List.forall_mem_singleton.mpr isOk_tokens_twoFiles⟩
  exact exists_trace_undisturbed _ _ (by decide) htext

/-- A call that is refused a row of the second file. -/
def refusedCall : InsertCall := ⟨twoFiles, 0, fun n => if n = 9 then some .constraint else none⟩

/-- A call for another torrent with the hash of `oneFile`. -/
def knownCall : InsertCall := ⟨⟨oneFile.hash, [97, 98], 7, []⟩, 1, fun _ => none⟩

theorem library_consistent_twoFiles :
    ∃ c : Crawler, (system fun _ => .ok).Trace
        [oneFileCall, refusedCall, undisturbed twoFiles, knownCall] ⟨c, [oneFile, twoFiles]⟩ ∧
      c.mDb.db.Consistent [oneFile, twoFiles] ∧
      ∀ call : InsertCall, call.busy < 1000 →
        call.data.hash ∈ [oneFile, twoFiles].map TorrentData.hash →
        ∃ c', (insert call.data).run (c.facing call) = .ok false c' ∧ c'.mDb.db = c.mDb.db := by
  obtain ⟨c₁, ht₁⟩ := trace_oneFile
  obtain ⟨c₂, ht₂, -⟩ := exists_trace_of_refused refusedCall (n := 9) ht₁ (by decide)
    isOk_tokens_twoFiles (by decide) (by decide)
  obtain ⟨c₃, ht₃, -⟩ := exists_trace_of_accepting (undisturbed twoFiles) ht₂ (by decide)
    (fun _ => rfl) (by decide) isOk_tokens_twoFiles
  obtain ⟨c₄, ht₄, -⟩ := exists_trace_of_mem knownCall ht₃ (by decide) (by decide)
  exact ⟨c₄, ht₄, library_consistent ht₄⟩

end MyDataInsertClass

end BtDht
