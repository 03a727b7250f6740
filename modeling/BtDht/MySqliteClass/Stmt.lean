import BtDht.Data.Sqlite
import Mathlib.Data.Fintype.Basic

/-!
# BtDht.MySqliteClass.Stmt

`SqlMy::MySqliteStmt` and `SqlMy::MySqliteConnect`: the wrapper through which
every statement is stepped and reset, and the places where it ends the
process.

A statement is named by an `ι`, as the classes hold it by a pointer.  Its
wrapper remembers the code of the last step (`m_up_step_code`); what
`sqlite3_reset` would answer is either `SQLITE_OK` or that code, which is a
field of the structure, so that no call of `Reset` ever ends the process.
-/

namespace BtDht

open Sqlite

/-- `SqlMy::SqlStepCode`.  `STEP_ERROR` is `ResultCode.error`. -/
abbrev SqlStepCode := ResultCode

/-! ## ending the process -/

/-- The calls of `MyWin32Out::Exit`, with what is printed just before them. -/
inductive Exit
  | stepStm (code : SqlStepCode) (callMeg : String)
  | getText
  | resetStm
  | bindStmText
  | startTransaction
  | commitTransaction
  | rollbackTransaction
  | canNotStartBegin
  | xToken
  | xTokenColocated
  | tokenizeFindUtf8Char (error : String) (nText offset : Nat)
  deriving DecidableEq, Repr

/-! ## statements -/

/-- What `Step(meg, false)` returns when a query's step finds `answer`. -/
def Sqlite.Answer.stepCode {χ : Type} : Answer χ → SqlStepCode
  | .row _ => .row
  | .done => .ok
  | .error => .error

/-- `MySqliteStmt`: the row the statement is suspended at, what resetting it
would answer, and the code of the last step. -/
structure MySqliteStmt (χ : Type) where
  cursor : Option χ
  resetCode : ResultCode
  mUpStepCode : ResultCode
  resetCode_eq : resetCode = .ok ∨ resetCode = mUpStepCode

variable {η ι χ : Type}

/-- A prepared statement before its first step, when `m_up_step_code` holds
whatever was in memory. -/
def MySqliteStmt.prepared (code : ResultCode) : MySqliteStmt χ where
  cursor := none
  resetCode := .ok
  mUpStepCode := code
  resetCode_eq := .inl rfl

/-- The statement after a step has answered `code`.  SQLite repeats an error
when the statement is reset. -/
def MySqliteStmt.stepped (code : ResultCode) (cursor : Option χ) : MySqliteStmt χ where
  cursor := cursor
  resetCode := if code.isError then code else .ok
  mUpStepCode := code
  resetCode_eq := by
    cases code.isError <;> simp

/-- The statement after a reset. -/
def MySqliteStmt.afterReset (stmt : MySqliteStmt χ) : MySqliteStmt χ where
  cursor := none
  resetCode := .ok
  mUpStepCode := stmt.mUpStepCode
  resetCode_eq := .inl rfl

@[simp] theorem MySqliteStmt.stepped_cursor {code : ResultCode} {cursor : Option χ} :
    (stepped code cursor).cursor = cursor := rfl

@[simp] theorem MySqliteStmt.afterReset_cursor {stmt : MySqliteStmt χ} :
    stmt.afterReset.cursor = none := rfl

/-- A connection with its prepared statements. -/
structure MySqliteConnect (η ι χ : Type) where
  mDb : η
  stmts : ι → MySqliteStmt χ

namespace MySqliteConnect

/-- No statement is suspended at a row. -/
def Quiet (c : MySqliteConnect η ι χ) : Prop := ∀ i, (c.stmts i).cursor = none

/-- The connection with a new engine state and a new state of one statement. -/
def update [DecidableEq ι] (c : MySqliteConnect η ι χ) (mDb : η) (stmt : ι)
    (state : MySqliteStmt χ) : MySqliteConnect η ι χ where
  mDb := mDb
  stmts := Function.update c.stmts stmt state

variable [DecidableEq ι] {c : MySqliteConnect η ι χ} {mDb : η} {stmt : ι} {state : MySqliteStmt χ}

@[simp] theorem update_mDb : (c.update mDb stmt state).mDb = mDb := rfl

@[simp] theorem update_stmts_self : (c.update mDb stmt state).stmts stmt = state := by
  simp [update]

@[simp] theorem update_update {mDb' : η} {state' : MySqliteStmt χ} :
    (c.update mDb stmt state).update mDb' stmt state' = c.update mDb' stmt state' := by
  simp [update]

theorem quiet_update (h : ∀ i, i ≠ stmt → (c.stmts i).cursor = none) (hs : state.cursor = none) :
    (c.update mDb stmt state).Quiet := by
  intro i
  by_cases hi : i = stmt
  · rw [hi, update_stmts_self, hs]
  · simp [update, Function.update_of_ne hi, h i hi]

/-- A step that leaves no row suspends nothing. -/
theorem Quiet.stepped (h : c.Quiet) (mDb : η) (stmt : ι) (code : ResultCode) :
    (c.update mDb stmt (.stepped code none)).Quiet :=
  quiet_update (fun i _ => h i) rfl

/-- Whether a statement other than `stmt` is suspended at a row. -/
def suspended [Fintype ι] (c : MySqliteConnect η ι χ) (stmt : ι) : Bool :=
  decide (∃ i, i ≠ stmt ∧ (c.stmts i).cursor.isSome)

theorem Quiet.suspended [Fintype ι] (h : c.Quiet) (stmt : ι) : c.suspended stmt = false := by
  simp [MySqliteConnect.suspended, h _]

end MySqliteConnect

namespace MySqliteStmt

/-- The row the statement is suspended at, as the column accessors read it. -/
def column (stmt : ι) : Process (MySqliteConnect η ι χ) Exit (Option χ) :=
  modifyGet fun c => ((c.stmts stmt).cursor, c)

variable [DecidableEq ι]

/-- `Reset` -/
def reset (stmt : ι) : Process (MySqliteConnect η ι χ) Exit PUnit := fun c =>
  let uperrorcode := (c.stmts stmt).mUpStepCode
  let res := (c.stmts stmt).resetCode
  let c' := c.update c.mDb stmt (c.stmts stmt).afterReset
  if res ≠ .ok ∧ res ≠ uperrorcode then .error .resetStm c' else .ok .unit c'

section

variable {c : MySqliteConnect η ι χ} {stmt : ι} {E : Exit → MySqliteConnect η ι χ → Prop}

omit [DecidableEq ι] in
@[simp] theorem ensures_column {Q : Option χ → MySqliteConnect η ι χ → Prop} :
    Ensures (column stmt) c Q E ↔ Q (c.stmts stmt).cursor c := by
  simp [column]

/-- `Reset` never ends the process. -/
@[simp] theorem ensures_reset {Q : PUnit → MySqliteConnect η ι χ → Prop} :
    Ensures (reset stmt) c Q E ↔ Q .unit (c.update c.mDb stmt (c.stmts stmt).afterReset) := by
  have hok : ¬ ((c.stmts stmt).resetCode ≠ .ok ∧
      (c.stmts stmt).resetCode ≠ (c.stmts stmt).mUpStepCode) := by
    rintro ⟨h1, h2⟩
    exact (c.stmts stmt).resetCode_eq.elim h1 h2
  simp only [Ensures, reset, EStateM.run, if_neg hok]

end

variable [Fintype ι]

/-- `sqlite3_step`, and the assignment to `m_up_step_code` after it. -/
def sqlite3Step (stmt : ι) (program : Program η Exit χ) :
    Process (MySqliteConnect η ι χ) Exit ResultCode := fun c =>
  match program (c.suspended stmt) (c.stmts stmt).cursor c.mDb with
  | .ok (code, cursor) mDb => .ok code (c.update mDb stmt (.stepped code cursor))
  | .error exit mDb => .error exit { c with mDb := mDb }

/-- `Step`, with the codes the caller asks to have returned. -/
def step (stmt : ι) (program : Program η Exit χ) (meg : String)
    (isReturnCodeFunc : SqlStepCode → Bool) :
    Process (MySqliteConnect η ι χ) Exit SqlStepCode := do
  let res ← sqlite3Step stmt program
  if isReturnCodeFunc res then
    return res
  if res = .row then
    return .row
  if res ≠ .done ∧ res ≠ .ok then
    if res = .constraintUnique ∨ res = .constraint then
      return res
    throw (.stepStm res meg)
  return .ok

/-- `Step(meg)`: no code is returned that is not handled. -/
def stepExit (stmt : ι) (program : Program η Exit χ) (meg : String) :
    Process (MySqliteConnect η ι χ) Exit SqlStepCode :=
  step stmt program meg fun _ => false

/-- `Step(meg, false)`: an error is returned and does not end the process. -/
def stepError (stmt : ι) (program : Program η Exit χ) (meg : String) :
    Process (MySqliteConnect η ι χ) Exit SqlStepCode :=
  step stmt program meg fun p => p = .error

section

variable {c : MySqliteConnect η ι χ} {stmt : ι} {program : Program η Exit χ}
  {code : ResultCode} {cursor : Option χ} {mDb : η} {E : Exit → MySqliteConnect η ι χ → Prop}
  {Q : ResultCode → MySqliteConnect η ι χ → Prop}

theorem ensures_sqlite3Step
    (h : program (c.suspended stmt) (c.stmts stmt).cursor c.mDb = .ok (code, cursor) mDb) :
    Ensures (sqlite3Step stmt program) c Q E ↔
      Q code (c.update mDb stmt (.stepped code cursor)) := by
  simp only [Ensures, sqlite3Step, EStateM.run, h]

theorem ensures_sqlite3Step_error {exit : Exit}
    (h : program (c.suspended stmt) (c.stmts stmt).cursor c.mDb = .error exit mDb) :
    Ensures (sqlite3Step stmt program) c Q E ↔ E exit { c with mDb := mDb } := by
  simp only [Ensures, sqlite3Step, EStateM.run, h]

section stepExit

variable {meg : String}

theorem ensures_stepExit_row
    (h : program (c.suspended stmt) (c.stmts stmt).cursor c.mDb = .ok (.row, cursor) mDb) :
    Ensures (stepExit stmt program meg) c Q E ↔ Q .row (c.update mDb stmt (.stepped .row cursor)) := by
  simp [stepExit, step, ensures_sqlite3Step h]

theorem ensures_stepExit_done
    (h : program (c.suspended stmt) (c.stmts stmt).cursor c.mDb = .ok (.done, cursor) mDb) :
    Ensures (stepExit stmt program meg) c Q E ↔ Q .ok (c.update mDb stmt (.stepped .done cursor)) := by
  simp [stepExit, step, ensures_sqlite3Step h]

/-- A constraint result is returned to the caller. -/
theorem ensures_stepExit_refused {refusal : Refusal}
    (h : program (c.suspended stmt) (c.stmts stmt).cursor c.mDb = .ok (refusal.code, cursor) mDb) :
    Ensures (stepExit stmt program meg) c Q E ↔
      Q refusal.code (c.update mDb stmt (.stepped refusal.code cursor)) := by
  cases refusal with
  | constraint => simp [stepExit, step, ensures_sqlite3Step h, Refusal.code]
  | constraintUnique => simp [stepExit, step, ensures_sqlite3Step h, Refusal.code]

theorem ensures_stepExit_error {exit : Exit}
    (h : program (c.suspended stmt) (c.stmts stmt).cursor c.mDb = .error exit mDb) :
    Ensures (stepExit stmt program meg) c Q E ↔ E exit { c with mDb := mDb } := by
  simp [stepExit, step, ensures_sqlite3Step_error h]

/-- An error that is not returned ends the process. -/
theorem ensures_stepExit_exit
    (h : program (c.suspended stmt) (c.stmts stmt).cursor c.mDb = .ok (.error, cursor) mDb) :
    Ensures (stepExit stmt program meg) c Q E ↔
      E (.stepStm .error meg) (c.update mDb stmt (.stepped .error cursor)) := by
  simp [stepExit, step, ensures_sqlite3Step h]

end stepExit

section stepError

variable {meg : String}

/-- Each answer of a query is returned. -/
theorem ensures_stepError_answer (answer : Answer χ)
    (h : program (c.suspended stmt) (c.stmts stmt).cursor c.mDb =
      .ok (answer.code, answer.cursor) mDb) :
    Ensures (stepError stmt program meg) c Q E ↔
      Q answer.stepCode (c.update mDb stmt (.stepped answer.code answer.cursor)) := by
  cases answer with
  | row r => simp [stepError, step, ensures_sqlite3Step h, Answer.code, Answer.stepCode]
  | done => simp [stepError, step, ensures_sqlite3Step h, Answer.code, Answer.stepCode]
  | error => simp [stepError, step, ensures_sqlite3Step h, Answer.code, Answer.stepCode]

theorem ensures_stepError_error {exit : Exit}
    (h : program (c.suspended stmt) (c.stmts stmt).cursor c.mDb = .error exit mDb) :
    Ensures (stepError stmt program meg) c Q E ↔ E exit { c with mDb := mDb } := by
  simp [stepError, step, ensures_sqlite3Step_error h]

end stepError

end

end MySqliteStmt

end BtDht
