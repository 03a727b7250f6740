import BtDht.MySqliteClass.Tables
import BtDht.MySqliteClass.Transaction

/-!
# BtDht.MySqliteClass.DataInsert

`SqlMy::MyDataInsertClass`: storing one torrent, in one transaction.

`insert_atomic` is its specification.  Whatever the tables hold, however often
the database is locked at first and wherever a sub-insert is refused, either
all the torrent's rows are in or none is, and the transaction is closed; or a
name that cannot be tokenized ends the process, and nothing has been committed.
`Stops` says exactly when that happens (`insert_atomic_or_stops`).
-/

namespace BtDht

/-- `BtMy::Torrent_Data` -/
structure TorrentData where
  hash : Bytes
  name : Bytes
  size : Int64
  files : List (Bytes × Int64)
  deriving DecidableEq, Repr

/-- The names and sizes that are stored: the torrent's own, then its files'. -/
def TorrentData.entries (data : TorrentData) : List (Bytes × Int64) :=
  (data.name, data.size) :: data.files

namespace MyDataInsertClass

/-- `m_transaction` -/
def mTransaction : MyTransactionStmt StmtName where
  mCommit := .commit
  mRollback := .rollback
  mBegin := .begin

/-- What `_Insert` does with the torrent's name and with each of its files. -/
def insertEntry (hashid : Int) (name : Bytes) (size : Int64) : Process Crawler Exit Bool := do
  let (res, fulltexttableid) ← MyTorrentFileTable.insert hashid name size 0
  if res ≠ true then
    return res
  let res ← MyFullTextTable.insert fulltexttableid name
  if res ≠ true then
    return res
  return true

/-- The loop of `_Insert` over the torrent's files. -/
def insertFiles (hashid : Int) : List (Bytes × Int64) → Process Crawler Exit Bool
  | [] => return true
  | item :: files => do
      let res ← insertEntry hashid item.1 item.2
      if res ≠ true then
        return res
      insertFiles hashid files

/-- `_Insert` -/
def insertData (data : TorrentData) : Process Crawler Exit Bool := do
  let (res, hashid) ← MyHashTable.insert data.hash 0
  if res ≠ true then
    return res
  let res ← insertEntry hashid data.name data.size
  if res ≠ true then
    return res
  insertFiles hashid data.files

/-- `Insert` -/
def insert (data : TorrentData) : Process Crawler Exit Bool :=
  mTransaction.runOnTransaction (insertData data)

end MyDataInsertClass

/-! ## what an insert stores -/

namespace Database

/-- The content with one more file of the torrent `hashId`. -/
def addFile (hashId : Int) (db : Database) (entry : Bytes × Int64) : Database :=
  let id := Sqlite.nextRowid (db.fileTable.map FileRow.id)
  { db with
    fileTable := db.fileTable ++ [⟨id, hashId, entry.1, entry.2⟩]
    fulltextTable := db.fulltextTable ++ [⟨id, entry.1⟩] }

/-- The rows of a torrent's files, numbered from `id` on. -/
def fileRows (hashId : Int) : Int → List (Bytes × Int64) → List FileRow
  | _, [] => []
  | id, entry :: entries => ⟨id, hashId, entry.1, entry.2⟩ :: fileRows hashId (id + 1) entries

/-- What is indexed for a file. -/
def indexRow (row : FileRow) : FulltextRow := ⟨row.id, row.name⟩

/-- The content with a new torrent: its hash, its name and files under the next
rowids, and the names indexed under the same rowids. -/
def addTorrent (data : TorrentData) (db : Database) : Database :=
  let hashId := Sqlite.nextRowid (db.hashTable.map HashRow.id)
  let rows := fileRows hashId (Sqlite.nextRowid (db.fileTable.map FileRow.id)) data.entries
  { db with
    hashTable := db.hashTable ++ [⟨hashId, data.hash⟩]
    fileTable := db.fileTable ++ rows
    fulltextTable := db.fulltextTable ++ rows.map indexRow }

/-- Adding files one by one numbers them consecutively. -/
theorem foldl_addFile (hashId : Int) (entries : List (Bytes × Int64)) (db : Database) :
    entries.foldl (addFile hashId) db =
      let rows := fileRows hashId (Sqlite.nextRowid (db.fileTable.map FileRow.id)) entries
      { db with
        fileTable := db.fileTable ++ rows
        fulltextTable := db.fulltextTable ++ rows.map indexRow } := by
  induction entries generalizing db with
  | nil => simp [fileRows]
  | cons entry entries ih =>
      rw [List.foldl_cons, ih]
      simp [addFile, fileRows, indexRow, Sqlite.nextRowid_append_next]

end Database

namespace MyDataInsertClass

open Sqlite

/-! ## specifications -/

variable {c : Crawler}

/-- One file: a row of `file_table` and the text under that row's id, by three
statement steps. -/
theorem insertEntry_ensures (hq : c.Quiet) (hashid : Int) (name : Bytes) (size : Int64) :
    Ensures (insertEntry hashid name size) c (fun ok c' => c.Keeps c' ∧
      if ok then c'.mDb.db = c.mDb.db.addFile hashid (name, size) ∧
        (MySqliteTokenizers.tokens name).isOk ∧ c.mDb.Spends 3 c'.mDb
      else ¬ c.mDb.AcceptsFor 3)
      (fun exit c' => MySqliteTokenizers.tokens name = .error exit ∧ c.mDb.AcceptsFor 3 ∧
        c'.mDb.saved = c.mDb.saved) := by
  refine (insertReturning_ensures hq _ _ _ _ _).bind fun (res, id) c₁ h => ?_
  obtain ⟨hk₁, h⟩ := h
  cases res with
  | false =>
      have hnot : ¬ c.mDb.AcceptsFor 3 := fun ha => by
        simpa [Database.insertFile] using h.2 (ha.mono (by decide))
      simp [hk₁, hnot]
  | true =>
      obtain ⟨hrow, hspent₁⟩ := h
      obtain ⟨hdb, rfl⟩ := Prod.mk.inj (Option.some.inj hrow)
      have hiff : c₁.mDb.AcceptsFor 1 ↔ c.mDb.AcceptsFor 3 := hspent₁.acceptsFor_iff
      simp only [ne_eq, not_true_eq_false, if_false, ensures_bind]
      refine (MyFullTextTable.insert_ensures hk₁.quiet _ name).mono (fun ok c₂ h => ?_)
        fun exit c₂ h => ⟨h.1, hiff.mp h.2.1, h.2.2.trans hk₁.saved⟩
      obtain ⟨hk₂, h⟩ := h
      cases ok with
      | false =>
          have hnot : ¬ c.mDb.AcceptsFor 3 := fun ha => h.2 (hiff.mpr ha)
          simp [hk₁.trans hk₂, hnot]
      | true =>
          obtain ⟨hdb₂, htext, hspent₂⟩ := h
          have hspent : c.mDb.Spends 3 c₂.mDb := hspent₁.trans hspent₂
          simp [hk₁.trans hk₂, hdb₂, ← hdb, Database.addFile, Database.insertFulltext, htext, hspent]

/-- After `spent` statement steps, three for each name, the tokenizer ends the
process: a name cannot be tokenized, those before it can, and nothing is
refused until it is reached. -/
def MeetsBadName (spent : Nat) (entries : List (Bytes × Int64)) (e : Engine Database)
    (exit : Exit) : Prop :=
  ∃ pre entry post, entries = pre ++ entry :: post ∧
    (∀ file ∈ pre, (MySqliteTokenizers.tokens file.1).isOk) ∧
    MySqliteTokenizers.tokens entry.1 = .error exit ∧ e.AcceptsFor (spent + 3 * (pre.length + 1))

section

variable {e e' : Engine Database} {n spent : Nat} {entry : Bytes × Int64}
  {entries : List (Bytes × Int64)} {exit : Exit}

theorem MeetsBadName.acceptsFor (h : MeetsBadName spent entries e exit) :
    e.AcceptsFor (spent + 3) := by
  obtain ⟨pre, entry, post, -, -, -, hacc⟩ := h
  exact hacc.mono (by omega)

theorem MeetsBadName.exists_error (h : MeetsBadName spent entries e exit) :
    ∃ entry ∈ entries, MySqliteTokenizers.tokens entry.1 = .error exit := by
  obtain ⟨pre, entry, post, rfl, -, hbad, -⟩ := h
  exact ⟨entry, by simp, hbad⟩

/-- Steps that are not refused may be counted or left behind. -/
theorem meetsBadName_of_spends (h : e.Spends n e') :
    MeetsBadName spent entries e' exit ↔ MeetsBadName (spent + n) entries e exit := by
  simp only [MeetsBadName, h.acceptsFor_iff, Nat.add_comm spent n, Nat.add_assoc]

/-- Names that can be tokenized are passed. -/
theorem meetsBadName_cons (hok : (MySqliteTokenizers.tokens entry.1).isOk) :
    MeetsBadName spent (entry :: entries) e exit ↔ MeetsBadName (spent + 3) entries e exit := by
  constructor
  · intro h
    obtain ⟨pre, bad, post, heq, hpre, hbad, hacc⟩ := h
    cases pre with
    | nil =>
        obtain ⟨rfl, -⟩ := List.cons.inj heq
        rw [hbad] at hok
        cases hok
    | cons first pre =>
        obtain ⟨-, rfl⟩ := List.cons.inj heq
        refine ⟨pre, bad, post, rfl, fun file hf => hpre file (List.mem_cons_of_mem _ hf), hbad, ?_⟩
        exact hacc.mono (by simp; omega)
  · intro h
    obtain ⟨pre, bad, post, rfl, hpre, hbad, hacc⟩ := h
    refine ⟨entry :: pre, bad, post, rfl, by simpa [hok] using hpre, hbad, ?_⟩
    exact hacc.mono (by simp; omega)

end

/-- All files, in order; by induction on the files. -/
theorem insertFiles_ensures (hq : c.Quiet) (hashid : Int) (files : List (Bytes × Int64)) :
    Ensures (insertFiles hashid files) c (fun ok c' => c.Keeps c' ∧
      if ok then c'.mDb.db = files.foldl (Database.addFile hashid) c.mDb.db ∧
        (∀ file ∈ files, (MySqliteTokenizers.tokens file.1).isOk) ∧
        c.mDb.AcceptsFor (3 * files.length)
      else ¬ c.mDb.Accepting ∧ ∀ exit, ¬ MeetsBadName 0 files c.mDb exit)
      (fun exit c' => MeetsBadName 0 files c.mDb exit ∧ c'.mDb.saved = c.mDb.saved) := by
  induction files generalizing c with
  | nil => simp [insertFiles, Crawler.Keeps.refl hq, Engine.AcceptsFor]
  | cons file files ih =>
      rw [insertFiles, ensures_bind]
      refine (insertEntry_ensures hq hashid file.1 file.2).mono (fun ok c₁ h => ?_)
        fun exit c₁ h => ⟨⟨[], file, files, rfl, by simp, h.1, h.2.1⟩, h.2.2⟩
      obtain ⟨hk₁, h⟩ := h
      cases ok with
      | false =>
          have hnot : ∀ exit, ¬ MeetsBadName 0 (file :: files) c.mDb exit :=
            fun exit hbad => h (hbad.acceptsFor.mono (by decide))
          simpa [hk₁] using ⟨fun ha => h ha.acceptsFor, hnot⟩
      | true =>
          obtain ⟨hdb₁, htext, hspent⟩ := h
          have hiff : ∀ exit, MeetsBadName 0 (file :: files) c.mDb exit ↔
              MeetsBadName 0 files c₁.mDb exit :=
            fun exit => (meetsBadName_cons htext).trans (meetsBadName_of_spends hspent).symm
          simp only [ne_eq, not_true_eq_false, if_false]
          refine (ih hk₁.quiet).mono (fun ok c₂ h₂ => ?_) fun exit c₂ h₂ => ?_
          · obtain ⟨hk₂, h₂⟩ := h₂
            refine ⟨hk₁.trans hk₂, ?_⟩
            cases ok with
            | false =>
                exact ⟨fun ha => h₂.1 (hk₁.accepting ha), fun exit hbad => h₂.2 exit ((hiff exit).mp hbad)⟩
            | true =>
                obtain ⟨hdb₂, htexts, hacc⟩ := h₂
                have hall : c.mDb.AcceptsFor (3 * (files.length + 1)) :=
                  (hspent.acceptsFor_iff.mp hacc).mono (by omega)
                simpa [hdb₁, htext, hdb₂, hall] using htexts
          · exact ⟨(hiff exit).mpr h₂.1, h₂.2.trans hk₁.saved⟩

/-- The torrent's own name is stored as its files are. -/
theorem insertData_eq (data : TorrentData) :
    insertData data = MyHashTable.insert data.hash 0 >>= fun (res, hashid) =>
      if res ≠ true then pure res else insertFiles hashid data.entries := by
  simp [insertData, TorrentData.entries, insertFiles]

/-- What `_Insert` has made of the content when it returns `ok`. -/
def Outcome (data : TorrentData) (e : Engine Database) (ok : Bool) (db : Database) : Prop :=
  if ok then db = e.db.addTorrent data ∧ data.hash ∉ e.db.hashTable.map HashRow.hashValue ∧
    ∀ file ∈ data.entries, (MySqliteTokenizers.tokens file.1).isOk
  else e.Accepting → data.hash ∈ e.db.hashTable.map HashRow.hashValue

/-- The call comes to a name that ends the process: the torrent is new, and
neither its hash nor anything before that name is refused. -/
def Stops (data : TorrentData) (e : Engine Database) (exit : Exit) : Prop :=
  data.hash ∉ e.db.hashTable.map HashRow.hashValue ∧ MeetsBadName 2 data.entries e exit

theorem not_stops_of_isOk {data : TorrentData} {e : Engine Database} {exit : Exit}
    (h : ∀ file ∈ data.entries, (MySqliteTokenizers.tokens file.1).isOk) :
    ¬ Stops data e exit := by
  intro hstops
  obtain ⟨entry, hentry, hbad⟩ := hstops.2.exists_error
  have hok := h entry hentry
  rw [hbad] at hok
  cases hok

/-- What is known of the refusals when a call returns: it has come to no such
name, and if it returned `true` none of its steps was refused. -/
def Admits (data : TorrentData) (e : Engine Database) (ok : Bool) : Prop :=
  (∀ exit, ¬ Stops data e exit) ∧ (ok = true → e.AcceptsFor (2 + 3 * data.entries.length))

/-- The function run in the transaction. -/
theorem insertData_ensures (hq : c.Quiet) (data : TorrentData) :
    Ensures (insertData data) c (fun ok c' => c.Keeps c' ∧ Outcome data c.mDb ok c'.mDb.db ∧
        Admits data c.mDb ok)
      (fun exit c' => Stops data c.mDb exit ∧ c'.mDb.saved = c.mDb.saved) := by
  rw [insertData_eq]
  refine (insertReturning_ensures hq _ _ _ _ _).bind fun (res, hashid) c₁ h => ?_
  obtain ⟨hk₁, h⟩ := h
  cases res with
  | false =>
      have hin : c.mDb.AcceptsFor 2 → data.hash ∈ c.mDb.db.hashTable.map HashRow.hashValue := by
        intro ha
        by_contra hnew
        simp [Database.insertHash, hnew] at h
        exact h.2 ha
      have hnot : ∀ exit, ¬ Stops data c.mDb exit :=
        fun exit hstops => hstops.1 (hin (hstops.2.acceptsFor.mono (by decide)))
      simpa [hk₁, Outcome, Admits, hnot] using fun ha : c.mDb.Accepting => hin ha.acceptsFor
  | true =>
      obtain ⟨hrow, hspent⟩ := h
      have hnew : data.hash ∉ c.mDb.db.hashTable.map HashRow.hashValue := by
        intro hin
        simp [Database.insertHash, hin] at hrow
      simp only [Database.insertHash, hnew, if_false] at hrow
      obtain ⟨hdb, rfl⟩ := Prod.mk.inj (Option.some.inj hrow)
      have hiff : ∀ exit, Stops data c.mDb exit ↔ MeetsBadName 0 data.entries c₁.mDb exit :=
        fun exit => (and_iff_right hnew).trans (meetsBadName_of_spends hspent).symm
      simp only [ne_eq, not_true_eq_false, if_false]
      apply (insertFiles_ensures hk₁.quiet _ data.entries).mono
      · intro ok c₂ h₂
        obtain ⟨hk₂, h₂⟩ := h₂
        refine ⟨hk₁.trans hk₂, ?_⟩
        cases ok with
        | false =>
            exact ⟨fun ha => (h₂.1 (hk₁.accepting ha)).elim,
              fun exit hstops => h₂.2 exit ((hiff exit).mp hstops), by simp⟩
        | true =>
            have hadd : c₂.mDb.db = c.mDb.db.addTorrent data := by
              rw [h₂.1, ← hdb, Database.foldl_addFile, Database.addTorrent]
            exact ⟨⟨hadd, hnew, h₂.2.1⟩, fun exit => not_stops_of_isOk h₂.2.1,
              fun _ => hspent.acceptsFor_iff.mp h₂.2.2⟩
      · exact fun exit c₂ h₂ => ⟨(hiff exit).mpr h₂.1, h₂.2.trans hk₁.saved⟩

/-- How `Insert` may return: with `true` and exactly the torrent's rows added,
or with `false` and the content as it was.  Either way no transaction is open
and no statement is in the middle of its run. -/
def InsertReturns (data : TorrentData) (c : Crawler) (returned : Bool) (c' : Crawler) : Prop :=
  c'.Quiet ∧ c'.mDb.saved = none ∧
    (returned = true ∧ c'.mDb.db = c.mDb.db.addTorrent data ∧
        data.hash ∉ c.mDb.db.hashTable.map HashRow.hashValue ∧
        (∀ file ∈ data.entries, (MySqliteTokenizers.tokens file.1).isOk) ∨
      returned = false ∧ c'.mDb.db = c.mDb.db ∧
        (c.mDb.Accepting → data.hash ∈ c.mDb.db.hashTable.map HashRow.hashValue))

/-- How `Insert` may end the process: the torrent is new, one of its names
cannot be tokenized, and nothing of it has been committed. -/
def InsertExits (data : TorrentData) (c : Crawler) (exit : Exit) (c' : Crawler) : Prop :=
  c'.mDb.committed = c.mDb.db ∧ data.hash ∉ c.mDb.db.hashTable.map HashRow.hashValue ∧
    ∃ file ∈ data.entries, MySqliteTokenizers.tokens file.1 = .error exit

/-- `_Insert` inside the transaction that `Insert` has opened. -/
theorem insertData_inTransaction (data : TorrentData) {c₁ : Crawler} (hq : c₁.Quiet)
    (hdb : c₁.mDb = { c.mDb with busy := 0, saved := some c.mDb.db }) :
    Ensures (insertData data) c₁
      (fun ok c₂ => c₂.Quiet ∧ c₂.mDb.saved = some c.mDb.db ∧ Outcome data c.mDb ok c₂.mDb.db ∧
        Admits data c.mDb ok)
      (fun exit c₂ => c₂.mDb.committed = c.mDb.db ∧ Stops data c.mDb exit) := by
  apply (insertData_ensures hq data).mono
  · intro ok c₂ h
    obtain ⟨hk, h⟩ := h
    rw [hdb] at h
    exact ⟨hk.quiet, by rw [hk.saved, hdb], h⟩
  · intro exit c₂ h
    rw [hdb] at h
    obtain ⟨hstops, hsaved⟩ := h
    exact ⟨by rw [Engine.committed, hsaved]; rfl, hstops⟩

/-- `Insert`, on a connection with no transaction open and fewer than 1000 busy
answers ahead. -/
theorem insert_ensures (data : TorrentData) (hq : c.Quiet) (hs : c.mDb.saved = none)
    (hb : c.mDb.busy < 1000) :
    Ensures (insert data) c
      (fun returned c' => InsertReturns data c returned c' ∧ Admits data c.mDb returned)
      (fun exit c' => c'.mDb.committed = c.mDb.db ∧ Stops data c.mDb exit) := by
  have hrun := MyTransactionStmt.runOnTransaction_ensures (t := mTransaction)
    (R := fun ok e => Outcome data c.mDb ok e.db ∧ Admits data c.mDb ok) hq hs hb
    fun c₁ hq₁ hdb₁ => insertData_inTransaction data hq₁ hdb₁
  apply hrun.mono _ fun exit c' h => h
  intro returned c' h
  obtain ⟨hq', e, ⟨hr, hadmits⟩, hdb⟩ := h
  refine ⟨?_, hadmits⟩
  cases returned with
  | true => exact ⟨hq', by rw [hdb], .inl ⟨rfl, by rw [hdb]; exact hr.1, hr.2⟩⟩
  | false => exact ⟨hq', by rw [hdb], .inr ⟨rfl, by rw [hdb]; rfl, hr⟩⟩

/-- **Insert is atomic**, on a connection with no transaction open and fewer
than 1000 busy answers ahead. -/
theorem insert_atomic (data : TorrentData) (hq : c.Quiet) (hs : c.mDb.saved = none)
    (hb : c.mDb.busy < 1000) :
    Ensures (insert data) c (InsertReturns data c) (InsertExits data c) :=
  (insert_ensures data hq hs hb).mono (fun _ _ h => h.1)
    fun _ _ h => ⟨h.1, h.2.1, h.2.2.exists_error⟩

/-- **All, nothing, or the end of the process.**  A call of `Insert` that
returns has stored the whole torrent or nothing, nothing if a step was refused,
and the transaction is closed.  If it does not return, nothing of the torrent
has been committed; and that happens exactly if it comes to a name that ends
the process. -/
theorem insert_atomic_or_stops (data : TorrentData) (hq : c.Quiet) (hs : c.mDb.saved = none)
    (hb : c.mDb.busy < 1000) :
    (∀ returned c', (insert data).run c = .ok returned c' → InsertReturns data c returned c' ∧
        (returned = true → c.mDb.AcceptsFor (2 + 3 * data.entries.length))) ∧
      (∀ exit c', (insert data).run c = .error exit c' → c'.mDb.committed = c.mDb.db) ∧
      ((∃ exit c', (insert data).run c = .error exit c') ↔ ∃ exit, Stops data c.mDb exit) := by
  have h := insert_ensures data hq hs hb
  unfold Ensures at h
  cases hrun : (insert data).run c with
  | ok returned c' =>
      rw [hrun] at h
      obtain ⟨hret, hnot, hacc⟩ := h
      simpa [hret, hnot] using hacc
  | error exit c' =>
      rw [hrun] at h
      simpa [h.1] using ⟨exit, h.2⟩

/-- A torrent of one file, `a`. -/
def oneFile : TorrentData := ⟨[48, 49], [97], 5, [([97], 5)]⟩

theorem isOk_tokens_encode (text : List Char) :
    (MySqliteTokenizers.tokens (MySqliteTokenizers.encode text)).isOk := by
  rw [MySqliteTokenizers.tokens_encode]
  rfl

/-- The names `a` and `ab` can be tokenized. -/
theorem isOk_tokens_a : (MySqliteTokenizers.tokens [97]).isOk := isOk_tokens_encode ['a']

theorem isOk_tokens_ab : (MySqliteTokenizers.tokens [97, 98]).isOk := isOk_tokens_encode ['a', 'b']

/-- A connection that is locked twice, and refuses the text of the file. -/
def refusingCrawler : Crawler where
  mDb := ⟨.empty, none, 2, fun n => if n = 7 then some .constraint else none⟩
  stmts := fun _ => .prepared .ok

/-- A torrent whose name is one byte that begins no character. -/
def badName : TorrentData := ⟨[48, 49], [255], 5, []⟩

/-- A connection that meets neither a lock nor a refusal. -/
def emptyCrawler : Crawler where
  mDb := ⟨.empty, none, 0, fun _ => none⟩
  stmts := fun _ => .prepared .ok

theorem stops_badName : Stops badName emptyCrawler.mDb
    (.tokenizeFindUtf8Char "Invalid UTF-8 start byte." 1 0) := by
  have htokens : MySqliteTokenizers.tokens [255] =
      .error (.tokenizeFindUtf8Char "Invalid UTF-8 start byte." 1 0) := by
    rw [MySqliteTokenizers.tokens, MySqliteTokenizers.tokenizeTokenizer,
      MySqliteTokenizers.tokenizeFrom]
    rfl
  exact ⟨List.not_mem_nil, [], ([255], 5), [], rfl, by simp, htokens, fun _ _ => rfl⟩

/-- The call for it returns neither `true` nor `false`. -/
theorem insert_badName_ends : emptyCrawler.Quiet ∧ emptyCrawler.mDb.saved = none ∧
    emptyCrawler.mDb.busy < 1000 ∧
      ¬ ∃ returned c', (insert badName).run emptyCrawler = .ok returned c' := by
  refine ⟨fun _ => rfl, rfl, by decide, fun h => ?_⟩
  obtain ⟨returned, c', hrun⟩ := h
  have hens := insert_ensures badName (c := emptyCrawler) (fun _ => rfl) rfl (by decide)
  exact (hens.of_ok hrun).2.1 _ stops_badName

/-- One call meets locks and a refusal and returns `false`, the other one ends
the process; the file stays empty. -/
theorem insert_atomic_or_stops_oneFile :
    (∃ c', (insert oneFile).run refusingCrawler = .ok false c' ∧
      InsertReturns oneFile refusingCrawler false c') ∧
    ∃ exit c', (insert badName).run emptyCrawler = .error exit c' ∧
      c'.mDb.committed = .empty := by
  have hone := insert_atomic_or_stops oneFile (c := refusingCrawler) (fun _ => rfl) rfl (by decide)
  have hbad := insert_atomic_or_stops badName (c := emptyCrawler) (fun _ => rfl) rfl (by decide)
  constructor
  · have hok : ∀ file ∈ oneFile.entries, (MySqliteTokenizers.tokens file.1).isOk := by
      simpa [oneFile, TorrentData.entries] using isOk_tokens_a
    have hnot : ¬ ∃ exit c', (insert oneFile).run refusingCrawler = .error exit c' := by
      intro hends
      obtain ⟨exit, hstops⟩ := hone.2.2.mp hends
      exact not_stops_of_isOk hok hstops
    cases hrun : (insert oneFile).run refusingCrawler with
    | ok returned c' =>
        obtain ⟨hret, hacc⟩ := hone.1 returned c' hrun
        cases returned with
        | false => exact ⟨c', rfl, hret⟩
        | true => cases hacc rfl 7 (by decide)
    | error exit c' => exact absurd ⟨exit, c', hrun⟩ hnot
  · obtain ⟨exit, c', hrun⟩ := hbad.2.2.mpr ⟨_, stops_badName⟩
    exact ⟨exit, c', hrun, hbad.2.1 exit c' hrun⟩

end MyDataInsertClass

end BtDht
