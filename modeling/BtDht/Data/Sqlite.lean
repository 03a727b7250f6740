import BtDht.Data.Process

/-!
# BtDht.Data.Sqlite

What programs may assume of an SQLite connection: result codes, transactions
and the stepping of prepared statements, over contents of any type `δ`.

A prepared statement with its parameters bound is a `Program`: what one
`sqlite3_step` does, given the row the statement is suspended at, if any.  An
`INSERT … RETURNING` takes two steps: the first performs the whole change and
answers `SQLITE_ROW`, the second finishes the statement.  A statement that is
refused, at either step, changes nothing.

What the environment decides is part of the connection: how many more times
`BEGIN IMMEDIATE` finds the database locked, and which statement steps are
refused although the content would allow them.  Two things are assumed of it.
A refused step answers one of the constraint codes.  And no other connection is
in the way, except of `BEGIN IMMEDIATE`: a step finds no table locked, and
`COMMIT` is busy only with a statement of its own connection.
-/

namespace BtDht.Sqlite

/-! ## result codes -/

/-- What `sqlite3_step` and `sqlite3_reset` answer. -/
inductive ResultCode
  | ok
  | error
  | busy
  | constraint
  | constraintUnique
  | row
  | done
  | other (code : Int)
  deriving DecidableEq, Repr

/-- The codes that report a failure. -/
def ResultCode.isError : ResultCode → Bool
  | .ok | .row | .done => false
  | _ => true

/-- The constraint results a refused step may answer. -/
inductive Refusal
  | constraint
  | constraintUnique
  deriving DecidableEq, Repr

def Refusal.code : Refusal → ResultCode
  | .constraint => .constraint
  | .constraintUnique => .constraintUnique

theorem Refusal.code_ne_row (refusal : Refusal) : refusal.code ≠ .row := by
  cases refusal <;> decide

theorem Refusal.code_ne_ok (refusal : Refusal) : refusal.code ≠ .ok := by
  cases refusal <;> decide

/-! ## the connection -/

/-- A connection: the content it sees, the content a `ROLLBACK` would restore
while a transaction is open, and what the environment still has in store. -/
structure Engine (δ : Type) where
  db : δ
  saved : Option δ
  /-- how many more times `BEGIN IMMEDIATE` finds the database locked -/
  busy : Nat
  /-- for each statement step to come, whether it is refused -/
  refusals : Nat → Option Refusal

variable {δ κ ε χ : Type}

/-- What has been committed: all that is left if the process ends now. -/
def Engine.committed (e : Engine δ) : δ := e.saved.getD e.db

/-- Nothing is refused from here on. -/
def Engine.Accepting (e : Engine δ) : Prop := ∀ n, e.refusals n = none

/-- The engine after the environment has decided on one step. -/
def Engine.decided (e : Engine δ) : Engine δ := { e with refusals := fun n => e.refusals (n + 1) }

@[simp] theorem Engine.decided_db (e : Engine δ) : e.decided.db = e.db := rfl
@[simp] theorem Engine.decided_saved (e : Engine δ) : e.decided.saved = e.saved := rfl
@[simp] theorem Engine.decided_busy (e : Engine δ) : e.decided.busy = e.busy := rfl

theorem Engine.Accepting.decided {e : Engine δ} (h : e.Accepting) : e.decided.Accepting :=
  fun n => h (n + 1)

/-- None of the next `n` statement steps is refused. -/
def Engine.AcceptsFor (n : Nat) (e : Engine δ) : Prop := ∀ i < n, e.refusals i = none

/-- `e'` is as far as `e` is after `n` statement steps, none of them refused. -/
structure Engine.Spends (n : Nat) (e e' : Engine δ) : Prop where
  accepts : e.AcceptsFor n
  rest : ∀ i, e'.refusals i = e.refusals (n + i)

section

variable {e e' e'' : Engine δ} {m n : Nat}

theorem Engine.Accepting.acceptsFor (h : e.Accepting) : e.AcceptsFor n := fun i _ => h i

theorem Engine.AcceptsFor.mono (h : e.AcceptsFor n) (hle : m ≤ n) : e.AcceptsFor m :=
  fun i hi => h i (by omega)

/-- What is accepted from a later point on. -/
theorem Engine.Spends.acceptsFor_iff (h : e.Spends n e') :
    e'.AcceptsFor m ↔ e.AcceptsFor (n + m) := by
  constructor
  · intro ha i hi
    rcases Nat.lt_or_ge i n with hlt | hge
    · exact h.accepts i hlt
    · rw [show i = n + (i - n) by omega, ← h.rest]
      exact ha (i - n) (by omega)
  · intro ha i hi
    rw [h.rest]
    exact ha (n + i) (by omega)

theorem Engine.Spends.trans (h : e.Spends n e') (h' : e'.Spends m e'') : e.Spends (n + m) e'' where
  accepts := h.acceptsFor_iff.mp h'.accepts
  rest i := by rw [h'.rest, h.rest, Nat.add_assoc]

/-- A step that is not refused, whatever it makes of the content. -/
theorem Engine.spends_decided (h : e.refusals 0 = none) (db : δ) :
    e.Spends 1 { e.decided with db := db } where
  accepts i hi := by rwa [show i = 0 by omega]
  rest i := by rw [Nat.add_comm]; rfl

end

/-- The rowid that an `INTEGER PRIMARY KEY` column takes by default. -/
def nextRowid (ids : List Int) : Int :=
  match ids.max? with
  | none => 1
  | some m => m + 1

theorem lt_nextRowid {ids : List Int} {id : Int} (h : id ∈ ids) : id < nextRowid ids := by
  unfold nextRowid
  cases hm : ids.max? with
  | none =>
      rw [List.max?_eq_none_iff] at hm
      simp [hm] at h
  | some m =>
      have := (List.max?_eq_some_iff.mp hm).2 id h
      simp only
      omega

/-- The next rowid after the next one. -/
theorem nextRowid_append_next (ids : List Int) :
    nextRowid (ids ++ [nextRowid ids]) = nextRowid ids + 1 := by
  have hmax : (ids ++ [nextRowid ids]).max? = some (nextRowid ids) := by
    rw [List.max?_eq_some_iff]
    refine ⟨by simp, fun id hid => ?_⟩
    rcases List.mem_append.mp hid with h | h
    · have := lt_nextRowid h
      omega
    · simp at h
      omega
  rw [nextRowid, hmax]

/-! ## prepared statements -/

/-- What one `sqlite3_step` of a statement does.  It is told whether another
statement is suspended at a row and the row this one is suspended at, and
answers a code and the row it is suspended at then. -/
abbrev Program (η ε χ : Type) := Bool → Option χ → Process η ε (ResultCode × Option χ)

/-- `BEGIN IMMEDIATE` -/
def beginImmediate : Program (Engine δ) ε χ := fun _ _ e =>
  match e.saved, e.busy with
  | some _, _ => .ok (.error, none) e
  | none, n + 1 => .ok (.busy, none) { e with busy := n }
  | none, 0 => .ok (.done, none) { e with saved := some e.db }

/-- `COMMIT`, which fails while a statement is in the middle of its run. -/
def commit : Program (Engine δ) ε χ := fun suspended _ e =>
  match e.saved, suspended with
  | none, _ => .ok (.error, none) e
  | some _, true => .ok (.busy, none) e
  | some _, false => .ok (.done, none) { e with saved := none }

/-- `ROLLBACK` -/
def rollback : Program (Engine δ) ε χ := fun _ _ e =>
  match e.saved with
  | none => .ok (.error, none) e
  | some db => .ok (.done, none) { e with db := db, saved := none }

/-- `INSERT … RETURNING` of one row.  `change` is the write with the value it
returns, or `none` when the content violates one of the table's constraints.
While suspended the statement remembers what it found. -/
def insertReturning (change : δ → Option (δ × κ)) : Program (Engine δ) ε (δ × κ) :=
  fun _ suspendedAt e =>
    match suspendedAt, e.refusals 0 with
    | none, some refusal => .ok (refusal.code, none) e.decided
    | none, none =>
        match change e.db with
        | none => .ok (.constraint, none) e.decided
        | some (db, v) => .ok (.row, some (e.db, v)) { e.decided with db := db }
    | some (found, _), some refusal => .ok (refusal.code, none) { e.decided with db := found }
    | some _, none => .ok (.done, none) e.decided

/-- An `INSERT` into a virtual table.  Unless it is refused, it runs code of
the program, which yields what to store or ends the process. -/
def insertVirtual {α : Type} (code : Except ε α) (change : α → δ → δ) :
    Program (Engine δ) ε χ := fun _ _ e =>
  match e.refusals 0, code with
  | some refusal, _ => .ok (refusal.code, none) e.decided
  | none, .ok a => .ok (.done, none) { e.decided with db := change a e.db }
  | none, .error exit => .error exit e.decided

/-- What a step of a `SELECT` finds: a row, the end, or an error. -/
inductive Answer (χ : Type)
  | row (row : χ)
  | done
  | error
  deriving DecidableEq, Repr

def Answer.code : Answer χ → ResultCode
  | .row _ => .row
  | .done => .done
  | .error => .error

def Answer.cursor : Answer χ → Option χ
  | .row r => some r
  | .done => none
  | .error => none

/-- A `SELECT` whose first step runs code of the program, which may end the
process.  `answer` is what the step finds otherwise. -/
def selectVirtual {η α : Type} (code : Except ε α) (answer : η → Answer χ × η) :
    Program η ε χ := fun _ suspendedAt e =>
  match suspendedAt, code with
  | none, .error exit => .error exit e
  | _, _ => .ok ((answer e).1.code, (answer e).1.cursor) (answer e).2

section

variable {e : Engine δ} {suspended : Bool} {cursor : Option χ} {db found : δ} {v : κ} {n : Nat}

theorem beginImmediate_of_unlocked (hs : e.saved = none) (hb : e.busy = 0) :
    (beginImmediate : Program _ ε χ) suspended cursor e =
      .ok (.done, none) { e with saved := some e.db } := by
  simp [beginImmediate, hs, hb]

theorem beginImmediate_of_locked (hs : e.saved = none) (hb : e.busy = n + 1) :
    (beginImmediate : Program _ ε χ) suspended cursor e =
      .ok (.busy, none) { e with busy := n } := by
  simp [beginImmediate, hs, hb]

theorem commit_of_open (hs : e.saved = some db) :
    (commit : Program _ ε χ) false cursor e = .ok (.done, none) { e with saved := none } := by
  simp [commit, hs]

section

variable {change : δ → Option (δ × κ)} {refusal : Refusal}

theorem insertReturning_refused (hr : e.refusals 0 = some refusal) :
    (insertReturning change : Program _ ε _) suspended none e =
      .ok (refusal.code, none) e.decided := by
  simp [insertReturning, hr]

theorem insertReturning_violated (hr : e.refusals 0 = none) (hc : change e.db = none) :
    (insertReturning change : Program _ ε _) suspended none e =
      .ok (Refusal.constraint.code, none) e.decided := by
  simp [insertReturning, hr, hc, Refusal.code]

theorem insertReturning_row (hr : e.refusals 0 = none) (hc : change e.db = some (db, v)) :
    (insertReturning change : Program _ ε _) suspended none e =
      .ok (.row, some (e.db, v)) { e.decided with db := db } := by
  simp [insertReturning, hr, hc]

theorem insertReturning_undone (hr : e.refusals 0 = some refusal) :
    (insertReturning change : Program _ ε _) suspended (some (found, v)) e =
      .ok (refusal.code, none) { e.decided with db := found } := by
  simp [insertReturning, hr]

theorem insertReturning_done (hr : e.refusals 0 = none) :
    (insertReturning change : Program _ ε _) suspended (some (found, v)) e =
      .ok (.done, none) e.decided := by
  simp [insertReturning, hr]

end

section

variable {α : Type} {code : Except ε α} {change : α → δ → δ} {refusal : Refusal} {a : α} {exit : ε}

theorem insertVirtual_refused (hr : e.refusals 0 = some refusal) :
    insertVirtual code change suspended cursor e = .ok (refusal.code, none) e.decided := by
  simp [insertVirtual, hr]

theorem insertVirtual_done (hr : e.refusals 0 = none) (hc : code = .ok a) :
    insertVirtual code change suspended cursor e =
      .ok (.done, none) { e.decided with db := change a e.db } := by
  simp [insertVirtual, hr, hc]

theorem insertVirtual_exit (hr : e.refusals 0 = none) (hc : code = .error exit) :
    insertVirtual code change suspended cursor e = .error exit e.decided := by
  simp [insertVirtual, hr, hc]

end

theorem rollback_of_open (hs : e.saved = some db) :
    (rollback : Program _ ε χ) suspended cursor e =
      .ok (.done, none) { e with db := db, saved := none } := by
  simp [rollback, hs]

end

section

variable {η α : Type} {code : Except ε α} {answer : η → Answer χ × η} {suspended : Bool} {e : η}

theorem selectVirtual_exit {exit : ε} (hc : code = .error exit) :
    selectVirtual code answer suspended none e = .error exit e := by
  simp [selectVirtual, hc]

theorem selectVirtual_first {a : α} (hc : code = .ok a) :
    selectVirtual code answer suspended none e =
      .ok ((answer e).1.code, (answer e).1.cursor) (answer e).2 := by
  simp [selectVirtual, hc]

theorem selectVirtual_next (row : χ) :
    selectVirtual code answer suspended (some row) e =
      .ok ((answer e).1.code, (answer e).1.cursor) (answer e).2 := by
  simp [selectVirtual]

end

end BtDht.Sqlite
