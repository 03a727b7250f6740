import BtDht.MySqliteClass.Stmt

/-!
# BtDht.MySqliteClass.Transaction

`SqlMy::MyTransactionStmt`: a function run between `BEGIN IMMEDIATE` and
`COMMIT` or `ROLLBACK`.

`runOnTransaction_ensures` is the rule for such a run.  Whatever the function
did to the content, the transaction either keeps all of it or none of it, as
the function's answer says, and is closed in both cases.
-/

namespace BtDht

open Sqlite

/-- The transaction's statements: `m_commit`, `m_rollback` and `m_begin`. -/
structure MyTransactionStmt (ι : Type) where
  mCommit : ι
  mRollback : ι
  mBegin : ι

namespace MyTransactionStmt

variable {δ ι χ : Type} [DecidableEq ι] [Fintype ι]

/-- `Begin`: `false` when the database is locked. -/
def begin (t : MyTransactionStmt ι) : Process (MySqliteConnect (Engine δ) ι χ) Exit Bool := do
  let res ← MySqliteStmt.step t.mBegin beginImmediate "Begin" fun p => p = .busy
  if res = .busy then
    return false
  else if res = .ok then
    return true
  else
    throw .startTransaction

/-- `Commit` -/
def commit (t : MyTransactionStmt ι) : Process (MySqliteConnect (Engine δ) ι χ) Exit PUnit := do
  if (← MySqliteStmt.stepExit t.mCommit Sqlite.commit "Commit") ≠ .ok then
    throw .commitTransaction

/-- `Rollback` -/
def rollback (t : MyTransactionStmt ι) : Process (MySqliteConnect (Engine δ) ι χ) Exit PUnit := do
  if (← MySqliteStmt.stepExit t.mRollback Sqlite.rollback "Rollback") ≠ .ok then
    throw .rollbackTransaction

/-- The loop of `BeginLoop`, with the number of tries it has left. -/
def beginTries (t : MyTransactionStmt ι) :
    Nat → Process (MySqliteConnect (Engine δ) ι χ) Exit Bool
  | 0 => return false
  | n + 1 => do
      if ← t.begin then
        return true
      else
        t.beginTries n

/-- `BeginLoop` -/
def beginLoop (t : MyTransactionStmt ι) : Process (MySqliteConnect (Engine δ) ι χ) Exit Bool :=
  t.beginTries 1000

/-- `RunOnTransaction` -/
def runOnTransaction (t : MyTransactionStmt ι)
    (func : Process (MySqliteConnect (Engine δ) ι χ) Exit Bool) :
    Process (MySqliteConnect (Engine δ) ι χ) Exit Bool := do
  if !(← t.beginLoop) then
    throw .canNotStartBegin
  if ← func then
    t.commit
    return true
  else
    t.rollback
    return false

/-! ## specifications -/

variable {t : MyTransactionStmt ι} {c : MySqliteConnect (Engine δ) ι χ}
  {E : Exit → MySqliteConnect (Engine δ) ι χ → Prop}

/-- Outside a transaction, `Begin` opens one unless the database is locked. -/
theorem begin_ensures (hq : c.Quiet) (hs : c.mDb.saved = none) :
    Ensures t.begin c (fun began c' => c'.Quiet ∧
      if began then c.mDb.busy = 0 ∧ c'.mDb = { c.mDb with saved := some c.mDb.db }
      else ∃ n, c.mDb.busy = n + 1 ∧ c'.mDb = { c.mDb with busy := n }) E := by
  cases hb : c.mDb.busy with
  | zero =>
      simp [begin, MySqliteStmt.step,
        MySqliteStmt.ensures_sqlite3Step (beginImmediate_of_unlocked hs hb), hq.stepped]
  | succ n =>
      simp [begin, MySqliteStmt.step,
        MySqliteStmt.ensures_sqlite3Step (beginImmediate_of_locked hs hb), hq.stepped]

/-- With fewer busy answers ahead than tries left, the loop opens the
transaction. -/
theorem beginTries_ensures (tries : Nat) (hq : c.Quiet) (hs : c.mDb.saved = none)
    (hb : c.mDb.busy < tries) :
    Ensures (t.beginTries tries) c (fun began c' => c'.Quiet ∧ began = true ∧
      c'.mDb = { c.mDb with busy := 0, saved := some c.mDb.db }) E := by
  induction tries generalizing c with
  | zero => omega
  | succ tries ih =>
      refine (begin_ensures hq hs).bind fun began c₁ h => ?_
      obtain ⟨hq₁, h⟩ := h
      cases began with
      | true =>
          simp only [if_true] at h
          simp [hq₁, h.2, ← h.1]
      | false =>
          obtain ⟨n, hn, hdb⟩ := h
          have hb₁ : c₁.mDb.busy < tries := by simp [hdb]; omega
          have hs₁ : c₁.mDb.saved = none := by simp [hdb, hs]
          simpa [hdb] using ih hq₁ hs₁ hb₁

/-- With at least as many busy answers ahead as tries left, it gives up. -/
theorem beginTries_locked (tries : Nat) (hq : c.Quiet) (hs : c.mDb.saved = none)
    (hb : tries ≤ c.mDb.busy) :
    Ensures (t.beginTries tries) c (fun began c' => began = false ∧
      c'.mDb = { c.mDb with busy := c.mDb.busy - tries }) E := by
  induction tries generalizing c with
  | zero => simp [beginTries]
  | succ tries ih =>
      refine (begin_ensures hq hs).bind fun began c₁ h => ?_
      obtain ⟨hq₁, h⟩ := h
      cases began with
      | true =>
          simp only [if_true] at h
          omega
      | false =>
          obtain ⟨n, hn, hdb⟩ := h
          have hb₁ : tries ≤ c₁.mDb.busy := by simp [hdb]; omega
          have hs₁ : c₁.mDb.saved = none := by simp [hdb, hs]
          have hsub : n - tries = c.mDb.busy - (tries + 1) := by omega
          simpa [hdb, hsub] using ih hq₁ hs₁ hb₁

/-- Committing closes the transaction and keeps what it did. -/
theorem commit_ensures {db : δ} (hq : c.Quiet) (hs : c.mDb.saved = some db) :
    Ensures t.commit c (fun _ c' => c'.Quiet ∧ c'.mDb = { c.mDb with saved := none }) E := by
  have hstep : (Sqlite.commit : Program _ Exit χ) (c.suspended t.mCommit)
      (c.stmts t.mCommit).cursor c.mDb = .ok (.done, none) { c.mDb with saved := none } := by
    rw [hq.suspended]
    exact commit_of_open hs
  simp [commit, MySqliteStmt.ensures_stepExit_done hstep, hq.stepped]

/-- Rolling back closes the transaction and restores what it found. -/
theorem rollback_ensures {db : δ} (hq : c.Quiet) (hs : c.mDb.saved = some db) :
    Ensures t.rollback c
      (fun _ c' => c'.Quiet ∧ c'.mDb = { c.mDb with db := db, saved := none }) E := by
  simp [rollback, MySqliteStmt.ensures_stepExit_done (rollback_of_open hs), hq.stepped]

/-- The rule for a transaction.  `R` is what the function ensures of the
connection inside it, where it neither opens nor closes a transaction. -/
theorem runOnTransaction_ensures {func : Process (MySqliteConnect (Engine δ) ι χ) Exit Bool}
    {R : Bool → Engine δ → Prop} (hq : c.Quiet) (hs : c.mDb.saved = none) (hb : c.mDb.busy < 1000)
    (hfunc : ∀ c₁ : MySqliteConnect (Engine δ) ι χ, c₁.Quiet →
      c₁.mDb = { c.mDb with busy := 0, saved := some c.mDb.db } →
      Ensures func c₁
        (fun ok c₂ => c₂.Quiet ∧ c₂.mDb.saved = some c.mDb.db ∧ R ok c₂.mDb) E) :
    Ensures (t.runOnTransaction func) c (fun ok c' => c'.Quiet ∧ ∃ e, R ok e ∧
      c'.mDb = { e with db := if ok then e.db else c.mDb.db, saved := none }) E := by
  refine (beginTries_ensures 1000 hq hs hb).bind fun began c₁ h => ?_
  obtain ⟨hq₁, rfl, hdb₁⟩ := h
  simp only [Bool.not_true, Bool.false_eq_true, if_false]
  refine (hfunc c₁ hq₁ hdb₁).bind fun ok c₂ h => ?_
  obtain ⟨hq₂, hs₂, hr⟩ := h
  cases ok with
  | true =>
      simp only [if_true]
      refine (commit_ensures hq₂ hs₂).bind fun _ c₃ h => ?_
      exact ensures_pure.mpr ⟨h.1, c₂.mDb, hr, h.2⟩
  | false =>
      simp only [Bool.false_eq_true, if_false]
      refine (rollback_ensures hq₂ hs₂).bind fun _ c₃ h => ?_
      exact ensures_pure.mpr ⟨h.1, c₂.mDb, hr, h.2⟩

/-- A database that stays locked through all tries ends the process. -/
theorem runOnTransaction_locked {func : Process (MySqliteConnect (Engine δ) ι χ) Exit Bool}
    (hq : c.Quiet) (hs : c.mDb.saved = none) (hb : 1000 ≤ c.mDb.busy) :
    Ensures (t.runOnTransaction func) c (fun _ _ => False)
      (fun exit c' => exit = .canNotStartBegin ∧ c'.mDb.committed = c.mDb.db) := by
  refine (beginTries_locked 1000 hq hs hb).bind fun began c₁ h => ?_
  obtain ⟨rfl, hdb⟩ := h
  simp [hdb, Engine.committed, hs]

end MyTransactionStmt

end BtDht
