import BtDht.Data.Steps
import BtDht.MySqliteClass.Library

/-!
# BtDht.MySqliteClass.InsertSteps

`MyDataInsertClass::Insert` as the sequence of its database calls.  The
functions are those of `Tables`, `Transaction` and `DataInsert` once more, with
the same bodies; but between two calls of `MySqliteStmt` another connection may
read, or the machine may stop.

Run without interruptions they are the functions they repeat (`run_insert`).
What is new is what holds in between: until `COMMIT` the committed content is
what it was before the call (`insert_throughout`).
-/

namespace BtDht

open Sqlite Steps

namespace Stepwise

/-! ## the code -/

/-- The body of an `Insert` whose statement returns a value. -/
def insertReturning (mInset : StmtName) (change : Database → Option (Database × Int))
    (meg1 meg2 : String) (pid : Int) : Steps Crawler Exit (Bool × Int) := do
  atomically (MySqliteStmt.reset mInset)
  let res ← atomically (MySqliteStmt.stepExit mInset (Sqlite.insertReturning change) meg1)
  if res = .row then
    let pid := getInt64 (← atomically (MySqliteStmt.column mInset))
    let res ← atomically (MySqliteStmt.stepExit mInset (Sqlite.insertReturning change) meg2)
    return (res = .ok, pid)
  else
    return (false, pid)

/-- `MyHashTable::Insert` -/
def hashInsert (s : Bytes) (pid : Int) : Steps Crawler Exit (Bool × Int) :=
  insertReturning .hashInset (Database.insertHash s) "hash Insert 1" "hash Insert 1" pid

/-- `MyTorrentFileTable::Insert` -/
def fileInsert (hashId : Int) (name : Bytes) (size : Int64) (pid : Int) :
    Steps Crawler Exit (Bool × Int) :=
  insertReturning .fileInset (Database.insertFile hashId name size) "torrent insert 1"
    "torrent insert 2" pid

/-- `MyFullTextTable::Insert` -/
def fulltextInsert (id : Int) (s : Bytes) : Steps Crawler Exit Bool := do
  atomically (MySqliteStmt.reset .fulltextInset)
  let res ← atomically (MySqliteStmt.stepExit .fulltextInset
    (insertVirtual (MySqliteTokenizers.tokens s) fun _ => Database.insertFulltext id s)
    "full text Insert")
  return res = .ok

/-- What `_Insert` does with the torrent's name and with each of its files. -/
def insertEntry (hashid : Int) (name : Bytes) (size : Int64) : Steps Crawler Exit Bool := do
  let (res, fulltexttableid) ← fileInsert hashid name size 0
  if res ≠ true then
    return res
  let res ← fulltextInsert fulltexttableid name
  if res ≠ true then
    return res
  return true

/-- The loop of `_Insert` over the torrent's files. -/
def insertFiles (hashid : Int) : List (Bytes × Int64) → Steps Crawler Exit Bool
  | [] => return true
  | item :: files => do
      let res ← insertEntry hashid item.1 item.2
      if res ≠ true then
        return res
      insertFiles hashid files

/-- `_Insert` -/
def insertData (data : TorrentData) : Steps Crawler Exit Bool := do
  let (res, hashid) ← hashInsert data.hash 0
  if res ≠ true then
    return res
  let res ← insertEntry hashid data.name data.size
  if res ≠ true then
    return res
  insertFiles hashid data.files

/-- `BeginLoop`, with the tries that are left. -/
def beginTries (t : MyTransactionStmt StmtName) : Nat → Steps Crawler Exit Bool
  | 0 => return false
  | n + 1 => do
      if ← atomically t.begin then
        return true
      else
        beginTries t n

/-- `RunOnTransaction` -/
def runOnTransaction (t : MyTransactionStmt StmtName) (func : Steps Crawler Exit Bool) :
    Steps Crawler Exit Bool := do
  if !(← beginTries t 1000) then
    .throw .canNotStartBegin
  if ← func then
    atomically t.commit
    return true
  else
    atomically t.rollback
    return false

/-- `Insert` -/
def insert (data : TorrentData) : Steps Crawler Exit Bool :=
  runOnTransaction MyDataInsertClass.mTransaction (insertData data)

/-! ## without interruptions -/

theorem run_insertReturning (mInset : StmtName) (change : Database → Option (Database × Int))
    (meg1 meg2 : String) (pid : Int) :
    (insertReturning mInset change meg1 meg2 pid).run =
      BtDht.insertReturning mInset change meg1 meg2 pid := by
  simp [insertReturning, BtDht.insertReturning]

theorem run_fulltextInsert (id : Int) (s : Bytes) :
    (fulltextInsert id s).run = MyFullTextTable.insert id s := by
  simp [fulltextInsert, MyFullTextTable.insert]

theorem run_insertEntry (hashid : Int) (name : Bytes) (size : Int64) :
    (insertEntry hashid name size).run = MyDataInsertClass.insertEntry hashid name size := by
  simp [insertEntry, MyDataInsertClass.insertEntry, fileInsert, MyTorrentFileTable.insert,
    run_insertReturning, run_fulltextInsert]

theorem run_insertFiles (hashid : Int) (files : List (Bytes × Int64)) :
    (insertFiles hashid files).run = MyDataInsertClass.insertFiles hashid files := by
  induction files with
  | nil => rfl
  | cons file files ih =>
      simp [insertFiles, MyDataInsertClass.insertFiles, run_insertEntry, ih]

theorem run_insertData (data : TorrentData) :
    (insertData data).run = MyDataInsertClass.insertData data := by
  simp [insertData, MyDataInsertClass.insertData, hashInsert, MyHashTable.insert,
    run_insertReturning, run_insertEntry, run_insertFiles]

theorem run_beginTries (t : MyTransactionStmt StmtName) (n : Nat) : (beginTries t n).run = t.beginTries n := by
  induction n with
  | zero => rfl
  | succ n ih => simp [beginTries, MyTransactionStmt.beginTries, ih]

/-- The parts of `Insert`, one after the other, are `Insert`. -/
theorem run_insert (data : TorrentData) : (insert data).run = MyDataInsertClass.insert data := by
  simp [insert, MyDataInsertClass.insert, runOnTransaction, MyTransactionStmt.runOnTransaction,
    MyTransactionStmt.beginLoop, run_beginTries, run_insertData]

/-! ## in between -/

/-- What a statement keeps of the database is kept by the function that steps
it. -/
theorem ensures_step_keeps {J : Engine Database → Prop} {c : Crawler} {stmt : StmtName}
    {program : Program (Engine Database) Exit (Database × Int)}
    (h : Ensures (program (c.suspended stmt) (c.stmts stmt).cursor) c.mDb (fun _ => J) fun _ => J)
    (meg : String) (isReturnCodeFunc : SqlStepCode → Bool) :
    Ensures (MySqliteStmt.step stmt program meg isReturnCodeFunc) c (fun _ c' => J c'.mDb)
      fun _ c' => J c'.mDb := by
  have hstep : Ensures (MySqliteStmt.sqlite3Step stmt program) c (fun _ c' => J c'.mDb)
      fun _ c' => J c'.mDb := by
    unfold Ensures at h
    cases hp : (program (c.suspended stmt) (c.stmts stmt).cursor).run c.mDb with
    | ok r mDb =>
        rw [hp] at h
        rwa [MySqliteStmt.ensures_sqlite3Step hp]
    | error exit mDb =>
        rw [hp] at h
        rwa [MySqliteStmt.ensures_sqlite3Step_error hp]
  apply hstep.bind
  intro res c' hc
  split
  · simpa using hc
  · split
    · simpa using hc
    · split
      · split <;> simpa using hc
      · simpa using hc

/-- A transaction is open that began on the content `db`. -/
def InTransaction (db : Database) (e : Engine Database) : Prop := e.saved = some db

/-- What another connection reads. -/
def Committed (db : Database) (e : Engine Database) : Prop := e.committed = db

theorem InTransaction.committed {db : Database} {e : Engine Database} (h : InTransaction db e) :
    Committed db e := by
  rw [Committed, Engine.committed, h, Option.getD_some]

variable {db : Database} {e : Engine Database}

theorem ensures_insertReturning {change : Database → Option (Database × Int)} {suspended : Bool}
    {cursor : Option (Database × Int)} (h : InTransaction db e) :
    Ensures (Sqlite.insertReturning change suspended cursor : Process _ Exit _) e
      (fun _ => InTransaction db) fun _ => InTransaction db := by
  cases cursor with
  | none =>
      cases hr : e.refusals 0 with
      | some refusal =>
          rw [Ensures, EStateM.run, insertReturning_refused hr]
          exact h
      | none =>
          cases hc : change e.db with
          | none =>
              rw [Ensures, EStateM.run, insertReturning_violated hr hc]
              exact h
          | some r =>
              rw [Ensures, EStateM.run, insertReturning_row hr hc]
              exact h
  | some row =>
      cases hr : e.refusals 0 with
      | some refusal =>
          rw [Ensures, EStateM.run, insertReturning_undone hr]
          exact h
      | none =>
          rw [Ensures, EStateM.run, insertReturning_done hr]
          exact h

theorem ensures_insertVirtual {α : Type} {code : Except Exit α} {change : α → Database → Database}
    {suspended : Bool} {cursor : Option (Database × Int)} (h : InTransaction db e) :
    Ensures (insertVirtual code change suspended cursor) e (fun _ => InTransaction db)
      fun _ => InTransaction db := by
  cases hr : e.refusals 0 with
  | some refusal =>
      rw [Ensures, EStateM.run, insertVirtual_refused hr]
      exact h
  | none =>
      cases hcode : code with
      | ok a =>
          rw [Ensures, EStateM.run, insertVirtual_done hr rfl]
          exact h
      | error exit =>
          rw [Ensures, EStateM.run, insertVirtual_exit hr rfl]
          exact h

theorem ensures_beginImmediate {suspended : Bool} {cursor : Option (Database × Int)}
    (h : Committed db e) :
    Ensures (beginImmediate suspended cursor : Process _ Exit _) e (fun _ => Committed db)
      fun _ => Committed db := by
  cases hs : e.saved with
  | some saved =>
      have hopen : (beginImmediate suspended cursor e : EStateM.Result Exit _ _) =
          .ok (.error, none) e := by
        simp [beginImmediate, hs]
      rw [Ensures, EStateM.run, hopen]
      exact h
  | none =>
      cases hb : e.busy with
      | zero =>
          rw [Ensures, EStateM.run, beginImmediate_of_unlocked hs hb]
          rwa [Committed, Engine.committed, hs, Option.getD_none] at h
      | succ n =>
          rw [Ensures, EStateM.run, beginImmediate_of_locked hs hb]
          exact h

/-! ### what `_Insert` keeps -/

theorem insertReturning_keeps (mInset : StmtName) (change : Database → Option (Database × Int))
    (meg1 meg2 : String) (pid : Int) (db : Database) :
    (insertReturning mInset change meg1 meg2 pid).Keeps fun c => InTransaction db c.mDb := by
  refine (keeps_atomically fun c hc => ?_).bind fun _ => ?_
  · rwa [MySqliteStmt.ensures_reset]
  refine (keeps_atomically fun c hc => ?_).bind fun res => ?_
  · exact ensures_step_keeps (ensures_insertReturning hc) _ _
  split
  · refine (keeps_atomically fun c hc => ?_).bind fun row => ?_
    · rwa [MySqliteStmt.ensures_column]
    refine (keeps_atomically fun c hc => ?_).bind fun _ => keeps_pure _
    exact ensures_step_keeps (ensures_insertReturning hc) _ _
  · exact keeps_pure _

theorem fulltextInsert_keeps (id : Int) (s : Bytes) (db : Database) :
    (fulltextInsert id s).Keeps fun c => InTransaction db c.mDb := by
  refine (keeps_atomically fun c hc => ?_).bind fun _ => ?_
  · rwa [MySqliteStmt.ensures_reset]
  refine (keeps_atomically fun c hc => ?_).bind fun _ => keeps_pure _
  exact ensures_step_keeps (ensures_insertVirtual hc) _ _

theorem insertEntry_keeps (hashid : Int) (name : Bytes) (size : Int64) (db : Database) :
    (insertEntry hashid name size).Keeps fun c => InTransaction db c.mDb := by
  refine (insertReturning_keeps _ _ _ _ _ db).bind fun r => ?_
  obtain ⟨res, id⟩ := r
  show (if res ≠ true then _ else _ : Steps Crawler Exit Bool).Keeps _
  split
  · exact keeps_pure _
  · refine (fulltextInsert_keeps id name db).bind fun res => ?_
    split <;> exact keeps_pure _

theorem insertFiles_keeps (hashid : Int) (files : List (Bytes × Int64)) (db : Database) :
    (insertFiles hashid files).Keeps fun c => InTransaction db c.mDb := by
  induction files with
  | nil => exact keeps_pure _
  | cons file files ih =>
      refine (insertEntry_keeps hashid file.1 file.2 db).bind fun res => ?_
      split
      · exact keeps_pure _
      · exact ih

theorem beginTries_keeps (t : MyTransactionStmt StmtName) (n : Nat) (db : Database) :
    (beginTries t n).Keeps fun c => Committed db c.mDb := by
  induction n with
  | zero => exact keeps_pure _
  | succ n ih =>
      refine (keeps_atomically fun c hc => ?_).bind fun began => ?_
      · refine (ensures_step_keeps (ensures_beginImmediate hc) _ _).bind fun res c' hc' => ?_
        split
        · simpa using hc'
        · split <;> simpa using hc'
      · split
        · exact keeps_pure _
        · exact ih

theorem insertData_keeps (data : TorrentData) (db : Database) :
    (insertData data).Keeps fun c => InTransaction db c.mDb := by
  refine (insertReturning_keeps _ _ _ _ _ db).bind fun r => ?_
  obtain ⟨res, id⟩ := r
  show (if res ≠ true then _ else _ : Steps Crawler Exit Bool).Keeps _
  split
  · exact keeps_pure _
  · refine (insertEntry_keeps id data.name data.size db).bind fun res => ?_
    split
    · exact keeps_pure _
    · exact insertFiles_keeps id data.files db

/-! ### the whole call -/

variable {c : Crawler}

/-- While it tries to begin, nothing changes. -/
theorem beginTries_throughout (t : MyTransactionStmt StmtName) (hq : c.Quiet)
    (hs : c.mDb.saved = none) :
    (beginTries t 1000).Throughout (fun c' => Committed c.mDb.db c'.mDb) c
      (fun began c' => Committed c.mDb.db c'.mDb ∧ (began = true → c'.Quiet ∧
        c'.mDb = { c.mDb with busy := 0, saved := some c.mDb.db }))
      fun _ c' => Committed c.mDb.db c'.mDb := by
  have hstart : Committed c.mDb.db c.mDb := by
    rw [Committed, Engine.committed, hs, Option.getD_none]
  have hrun : Ensures (beginTries t 1000).run c (fun began c' => began = true → c'.Quiet ∧
      c'.mDb = { c.mDb with busy := 0, saved := some c.mDb.db }) fun _ _ => False := by
    rw [run_beginTries]
    rcases Nat.lt_or_ge c.mDb.busy 1000 with hb | hb
    · exact (MyTransactionStmt.beginTries_ensures 1000 hq hs hb).mono
        (fun _ _ h _ => ⟨h.1, h.2.2⟩) fun _ _ h => h
    · exact (MyTransactionStmt.beginTries_locked 1000 hq hs hb).mono
        (fun _ _ h hbegan => absurd (hbegan.symm.trans h.1) (by simp)) fun _ _ h => h
  exact ((beginTries_keeps t 1000 c.mDb.db).throughout hstart hrun).mono (fun _ h => h)
    (fun _ _ h => ⟨h.2, h.1⟩) fun _ _ h => h.2

/-- **Nothing is seen of a torrent before it is whole.**  On a connection with
no transaction open the committed content stays as it is until the call
returns; and if the call ends the process it is still the same. -/
theorem insert_throughout (data : TorrentData) (hq : c.Quiet) (hs : c.mDb.saved = none) :
    (insert data).Throughout (fun c' => Committed c.mDb.db c'.mDb) c
      (MyDataInsertClass.InsertReturns data c) fun _ c' => Committed c.mDb.db c'.mDb := by
  refine (beginTries_throughout MyDataInsertClass.mTransaction hq hs).bind fun began c₁ h₁ => ?_
  cases began with
  | false => exact h₁.1
  | true =>
      obtain ⟨hq₁, hdb₁⟩ := h₁.2 rfl
      have hopen : InTransaction c.mDb.db c₁.mDb := by rw [InTransaction, hdb₁]
      have hrun := MyDataInsertClass.insertData_inTransaction data hq₁ hdb₁
      rw [← run_insertData] at hrun
      have hbody := (insertData_keeps data c.mDb.db).throughout hopen hrun
      refine (hbody.mono (fun _ h => h.committed) (fun _ _ h => h.1)
        fun _ _ h => h.2.committed).bind fun ok c₂ h₂ => ?_
      obtain ⟨hq₂, hs₂, hout⟩ := h₂
      have hin : Committed c.mDb.db c₂.mDb := InTransaction.committed hs₂
      cases ok with
      | true =>
          refine (throughout_atomically (I := fun c' => Committed c.mDb.db c'.mDb) hin
            (MyTransactionStmt.commit_ensures hq₂ hs₂)).bind fun _ c₃ h₃ => ?_
          exact ⟨h₃.1, by rw [h₃.2], .inl ⟨rfl, by rw [h₃.2]; exact hout.1.1, hout.1.2⟩⟩
      | false =>
          refine (throughout_atomically (I := fun c' => Committed c.mDb.db c'.mDb) hin
            (MyTransactionStmt.rollback_ensures hq₂ hs₂)).bind fun _ c₃ h₃ => ?_
          exact ⟨h₃.1, by rw [h₃.2], .inr ⟨rfl, by rw [h₃.2], hout.1⟩⟩

end Stepwise

end BtDht
