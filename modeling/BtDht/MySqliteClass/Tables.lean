import BtDht.MySqliteClass.Tokenizers

/-!
# BtDht.MySqliteClass.Tables

The tables of the crawler's database and the classes that insert into them:
`SqlMy::MyHashTable`, `SqlMy::MyTorrentFileTable`, `SqlMy::MyFullTextTable` and
`SqlMy::MyHashCountTable`.

Three of the four `Insert` functions step an `INSERT … RETURNING` twice; they
are one definition, `insertReturning`, at different statements, and share its
specification `insertReturning_ensures`.
-/

namespace BtDht

open Sqlite

/-! ## contents -/

/-- A row of `hash_table`. -/
structure HashRow where
  id : Int
  hashValue : Bytes
  deriving DecidableEq, Repr

/-- A row of `file_table`. -/
structure FileRow where
  id : Int
  hashId : Int
  name : Bytes
  size : Int64
  deriving DecidableEq, Repr

/-- What `fulltext_table` has been given under a rowid. -/
structure FulltextRow where
  rowid : Int
  text : Bytes
  deriving DecidableEq, Repr

/-- A row of `hash_count_table`. -/
structure HashCountRow where
  id : Int
  hashValue : Bytes
  count : Int
  deriving DecidableEq, Repr

/-- The database, each table in the order in which its rows were entered. -/
structure Database where
  hashTable : List HashRow
  fileTable : List FileRow
  fulltextTable : List FulltextRow
  hashCountTable : List HashCountRow
  deriving DecidableEq, Repr

namespace Database

/-- The database right after the tables were created. -/
def empty : Database := ⟨[], [], [], []⟩

/-- `INSERT INTO hash_table (hash_value) VALUES (?1) RETURNING id`, with
`UNIQUE(hash_value)`. -/
def insertHash (hashValue : Bytes) (db : Database) : Option (Database × Int) :=
  if hashValue ∈ db.hashTable.map HashRow.hashValue then none
  else
    let id := nextRowid (db.hashTable.map HashRow.id)
    some ({ db with hashTable := db.hashTable ++ [⟨id, hashValue⟩] }, id)

/-- `INSERT INTO file_table (hash_id, name, size) VALUES (?1, ?2, ?3) RETURNING id` -/
def insertFile (hashId : Int) (name : Bytes) (size : Int64) (db : Database) :
    Option (Database × Int) :=
  let id := nextRowid (db.fileTable.map FileRow.id)
  some ({ db with fileTable := db.fileTable ++ [⟨id, hashId, name, size⟩] }, id)

/-- `INSERT INTO fulltext_table (rowid, text) VALUES (?1, ?2)` -/
def insertFulltext (rowid : Int) (text : Bytes) (db : Database) : Database :=
  { db with fulltextTable := db.fulltextTable ++ [⟨rowid, text⟩] }

/-- `INSERT INTO hash_count_table (hash_value) VALUES (?1) ON CONFLICT(hash_value)
DO UPDATE SET count=count+1 RETURNING count` -/
def upsertHashCount (hashValue : Bytes) (db : Database) : Option (Database × Int) :=
  match db.hashCountTable.find? fun r => r.hashValue = hashValue with
  | some found =>
      some ({ db with hashCountTable := db.hashCountTable.map fun r =>
        if r.hashValue = hashValue then { r with count := r.count + 1 } else r }, found.count + 1)
  | none =>
      let id := nextRowid (db.hashCountTable.map HashCountRow.id)
      some ({ db with hashCountTable := db.hashCountTable ++ [⟨id, hashValue, 1⟩] }, 1)

end Database

/-! ## the crawler's connection -/

/-- The statements prepared on the crawler's connection. -/
inductive StmtName
  | begin
  | commit
  | rollback
  | hashInset
  | fileInset
  | fulltextInset
  | hashCountInset
  deriving DecidableEq

instance : Fintype StmtName where
  elems := {.begin, .commit, .rollback, .hashInset, .fileInset, .fulltextInset, .hashCountInset}
  complete := by
    intro stmt
    cases stmt <;> decide

/-- The crawler's connection. -/
abbrev Crawler := MySqliteConnect (Engine Database) StmtName (Database × Int)

namespace Crawler

/-- What no insert touches: outside its own two steps no statement is
suspended, and transactions and the lock are as they were. -/
structure Keeps (c c' : Crawler) : Prop where
  quiet : c'.Quiet
  saved : c'.mDb.saved = c.mDb.saved
  busy : c'.mDb.busy = c.mDb.busy
  accepting : c.mDb.Accepting → c'.mDb.Accepting

theorem Keeps.refl {c : Crawler} (hq : c.Quiet) : Keeps c c :=
  ⟨hq, rfl, rfl, id⟩

theorem Keeps.trans {c c' c'' : Crawler} (h : Keeps c c') (h' : Keeps c' c'') : Keeps c c'' where
  quiet := h'.quiet
  saved := h'.saved.trans h.saved
  busy := h'.busy.trans h.busy
  accepting := fun ha => h'.accepting (h.accepting ha)

end Crawler

/-- `GetInt64(0)` -/
def getInt64 (row : Option (Database × Int)) : Int := (row.map Prod.snd).getD 0

/-- The body of an `Insert` whose statement returns a value.  It answers
whether the row is in, and what it leaves in its out-parameter. -/
def insertReturning (mInset : StmtName) (change : Database → Option (Database × Int))
    (meg1 meg2 : String) (pid : Int) : Process Crawler Exit (Bool × Int) := do
  MySqliteStmt.reset mInset
  let res ← MySqliteStmt.stepExit mInset (Sqlite.insertReturning change) meg1
  if res = .row then
    let pid := getInt64 (← MySqliteStmt.column mInset)
    let res ← MySqliteStmt.stepExit mInset (Sqlite.insertReturning change) meg2
    return (res = .ok, pid)
  else
    return (false, pid)

/-- `MyHashTable::Insert` -/
def MyHashTable.insert (s : Bytes) (pid : Int) : Process Crawler Exit (Bool × Int) :=
  insertReturning .hashInset (Database.insertHash s) "hash Insert 1" "hash Insert 1" pid

/-- `MyTorrentFileTable::Insert` -/
def MyTorrentFileTable.insert (hashId : Int) (name : Bytes) (size : Int64) (pid : Int) :
    Process Crawler Exit (Bool × Int) :=
  insertReturning .fileInset (Database.insertFile hashId name size) "torrent insert 1"
    "torrent insert 2" pid

/-- `MyHashCountTable::Insert` -/
def MyHashCountTable.insert (s : Bytes) (pcount : Int) : Process Crawler Exit (Bool × Int) :=
  insertReturning .hashCountInset (Database.upsertHashCount s) "hash count Insert 1"
    "hash count Insert 2" pcount

/-- `MyFullTextTable::Insert` -/
def MyFullTextTable.insert (id : Int) (s : Bytes) : Process Crawler Exit Bool := do
  MySqliteStmt.reset .fulltextInset
  let res ← MySqliteStmt.stepExit .fulltextInset
    (insertVirtual (MySqliteTokenizers.tokens s) fun _ => Database.insertFulltext id s)
    "full text Insert"
  return res = .ok

/-! ## specifications -/

variable {c : Crawler}

/-- After a step that leaves no row, everything an insert must keep is kept. -/
theorem Crawler.keeps_stepped (hq : c.Quiet) (stmt : StmtName) (code : ResultCode)
    {e : Engine Database} (hsaved : e.saved = c.mDb.saved) (hbusy : e.busy = c.mDb.busy)
    (hacc : c.mDb.Accepting → e.Accepting) : c.Keeps (c.update e stmt (.stepped code none)) where
  quiet := hq.stepped _ _ _
  saved := hsaved
  busy := hbusy
  accepting := hacc

/-- An insert that returns a value either puts its row in, by two steps that
are not refused, and returns the value, or is refused and changes nothing; in
both cases its statement is finished. -/
theorem insertReturning_ensures {E : Exit → Crawler → Prop} (hq : c.Quiet) (mInset : StmtName)
    (change : Database → Option (Database × Int)) (meg1 meg2 : String) (pid : Int) :
    Ensures (insertReturning mInset change meg1 meg2 pid) c (fun r c' => c.Keeps c' ∧
      if r.1 then change c.mDb.db = some (c'.mDb.db, r.2) ∧ c.mDb.Spends 2 c'.mDb
      else c'.mDb.db = c.mDb.db ∧ (c.mDb.AcceptsFor 2 → change c.mDb.db = none)) E := by
  rw [insertReturning, ensures_bind, MySqliteStmt.ensures_reset, ensures_bind]
  cases hr : c.mDb.refusals 0 with
  | some refusal =>
      have hnot : ¬ c.mDb.AcceptsFor 2 := fun ha => by simp [ha 0] at hr
      rw [MySqliteStmt.ensures_stepExit_refused (by simpa using Sqlite.insertReturning_refused hr)]
      have hk : c.Keeps (c.update c.mDb.decided mInset (.stepped refusal.code none)) :=
        c.keeps_stepped hq _ _ rfl rfl Engine.Accepting.decided
      simp [refusal.code_ne_row, hnot, hk]
  | none =>
      cases hc : change c.mDb.db with
      | none =>
          rw [MySqliteStmt.ensures_stepExit_refused
            (by simpa using Sqlite.insertReturning_violated hr hc)]
          have hk : c.Keeps (c.update c.mDb.decided mInset (.stepped Refusal.constraint.code none)) :=
            c.keeps_stepped hq _ _ rfl rfl Engine.Accepting.decided
          simp [Refusal.code_ne_row, hk]
      | some r =>
          obtain ⟨db, id⟩ := r
          rw [MySqliteStmt.ensures_stepExit_row (by simpa using Sqlite.insertReturning_row hr hc)]
          simp only [if_true, ensures_bind, MySqliteStmt.ensures_column,
            MySqliteConnect.update_stmts_self, MySqliteStmt.stepped_cursor]
          -- the second step finds the statement suspended at its row
          cases hr' : c.mDb.refusals 1 with
          | some refusal =>
              have hnot : ¬ c.mDb.AcceptsFor 2 := fun ha => by simp [ha 1] at hr'
              rw [MySqliteStmt.ensures_stepExit_refused
                (by simpa using Sqlite.insertReturning_undone hr')]
              have hacc : ¬ c.mDb.Accepting := fun ha => hnot ha.acceptsFor
              simp [refusal.code_ne_ok, hnot, hacc, c.keeps_stepped hq]
          | none =>
              rw [MySqliteStmt.ensures_stepExit_done
                (by simpa using Sqlite.insertReturning_done hr')]
              simp only [getInt64, Option.map_some, Option.getD_some, decide_true, ensures_pure,
                MySqliteConnect.update_update, MySqliteConnect.update_mDb, if_true, true_and,
                Engine.decided_db]
              have hspent : c.mDb.Spends 2 { c.mDb.decided with db := db }.decided :=
                (Engine.spends_decided hr db).trans (Engine.spends_decided hr' db)
              exact ⟨c.keeps_stepped hq _ _ rfl rfl fun ha => ha.decided.decided, hspent⟩

/-- A text is put in, unless it is refused or, when it is not, tokenizing it
ends the process. -/
theorem MyFullTextTable.insert_ensures (hq : c.Quiet) (id : Int) (s : Bytes) :
    Ensures (MyFullTextTable.insert id s) c (fun ok c' => c.Keeps c' ∧
      if ok then c'.mDb.db = c.mDb.db.insertFulltext id s ∧
        (MySqliteTokenizers.tokens s).isOk ∧ c.mDb.Spends 1 c'.mDb
      else c'.mDb.db = c.mDb.db ∧ ¬ c.mDb.AcceptsFor 1)
      (fun exit c' => MySqliteTokenizers.tokens s = .error exit ∧ c.mDb.AcceptsFor 1 ∧
        c'.mDb.saved = c.mDb.saved) := by
  rw [MyFullTextTable.insert, ensures_bind, MySqliteStmt.ensures_reset, ensures_bind]
  cases hr : c.mDb.refusals 0 with
  | some refusal =>
      have hnot : ¬ c.mDb.AcceptsFor 1 := fun ha => by simp [ha 0] at hr
      have hk : c.Keeps (c.update c.mDb.decided .fulltextInset (.stepped refusal.code none)) :=
        c.keeps_stepped hq _ _ rfl rfl Engine.Accepting.decided
      rw [MySqliteStmt.ensures_stepExit_refused (by simpa using insertVirtual_refused hr)]
      simp [refusal.code_ne_ok, hnot, hk]
  | none =>
      cases ht : MySqliteTokenizers.tokens s with
      | ok ts =>
          rw [MySqliteStmt.ensures_stepExit_done (by simpa using insertVirtual_done hr rfl)]
          have hk : c.Keeps (c.update { c.mDb.decided with db := c.mDb.db.insertFulltext id s }
              .fulltextInset (.stepped .done none)) :=
            c.keeps_stepped hq _ _ rfl rfl Engine.Accepting.decided
          have hspent := Engine.spends_decided hr (c.mDb.db.insertFulltext id s)
          simpa [Except.isOk, Except.toBool] using And.intro hk hspent
      | error exit =>
          rw [MySqliteStmt.ensures_stepExit_error (by simpa using insertVirtual_exit hr rfl)]
          simpa using (Engine.spends_decided hr c.mDb.db).accepts

end BtDht
