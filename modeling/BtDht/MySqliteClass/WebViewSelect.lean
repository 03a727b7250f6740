import BtDht.Data.Lists
import BtDht.MySqliteClass.Tokenizers

/-!
# BtDht.MySqliteClass.WebViewSelect

`SqlMy::MyWebViewSelectClass` on the web view's connection.  The three
`Select` functions step a query twice and are one definition, `selectLine`, at
different queries.

The query by key runs the tokenizer while it is stepped.  So whether a
`Select` function comes back depends on the key (`Answerable`,
`selectLine_ensures`).
-/

namespace BtDht

open Sqlite MySqliteTokenizers

/-! ## the web view's connection -/

/-- The statements of the class. -/
inductive SelectName
  | selectFromKey
  | selectFromNew
  | selectFromHot
  deriving DecidableEq

instance : Fintype SelectName where
  elems := {.selectFromKey, .selectFromNew, .selectFromHot}
  complete := by
    intro stmt
    cases stmt <;> decide

/-- A statement with what is bound to it. -/
inductive Query
  | fromKey (key : Bytes) (count offset : Int)
  | fromNew (count offset : Int)
  | fromHot (count offset : Int)
  deriving DecidableEq, Repr

/-- The text bound to `?1`, if it is a text. -/
def Query.text : Query → Bytes
  | .fromKey key _ _ => key
  | _ => []

/-- What decides on the run of a query: how long a bound text may be, which
parts of a `MATCH` argument FTS5 hands to the tokenizer, and what the steps to
come find in the database. -/
structure WebEngine where
  lengthLimit : Nat
  handed : Bytes → List Bytes
  answers : Nat → Query → Answer Bytes

namespace WebEngine

/-- The strings the tokenizer gets. -/
def strings (e : WebEngine) : Query → List Bytes
  | .fromKey key _ _ => e.handed key
  | _ => []

/-- What the next step finds. -/
def next (e : WebEngine) (query : Query) : Answer Bytes × WebEngine :=
  (e.answers 0 query, { e with answers := fun n => e.answers (n + 1) })

/-- `sqlite3_step` of a query. -/
def program (query : Query) : Program WebEngine Exit Bytes := fun suspended cursor e =>
  selectVirtual ((e.strings query).mapM tokens) (fun e => e.next query) suspended cursor e

variable {e : WebEngine} {query : Query} {suspended : Bool}

/-- A string the tokenizer cannot scan ends the process at the first step. -/
theorem program_exit {exit : Exit} (h : (e.strings query).mapM tokens = .error exit) :
    program query suspended none e = .error exit e :=
  selectVirtual_exit h

theorem program_first {ts : List (List Fts5.Token)} (h : (e.strings query).mapM tokens = .ok ts) :
    program query suspended none e =
      .ok ((e.answers 0 query).code, (e.answers 0 query).cursor) (e.next query).2 :=
  selectVirtual_first h

theorem program_second (row : Bytes) :
    program query suspended (some row) (e.next query).2 =
      .ok ((e.answers 1 query).code, (e.answers 1 query).cursor) ((e.next query).2.next query).2 :=
  selectVirtual_next row

end WebEngine

abbrev WebConnection := MySqliteConnect WebEngine SelectName Bytes

/-! ## the class -/

namespace MyWebViewSelectClass

/-- What `sqlite3_bind_text` is given of a string: its size is cast to `int`,
and a negative size means that the text ends at its first zero. -/
def boundText (s : Bytes) : Bytes :=
  let n := int32 s.length
  if n < 0 then s.takeWhile (· ≠ 0) else s.take n.toNat

/-- `BindText` and `BindInt64`.  On a statement that has been reset only a text
that is too long is refused. -/
def bindQuery (query : Query) : Process WebConnection Exit PUnit := do
  let c ← get
  if query.text.length > c.mDb.lengthLimit then
    throw .bindStmText

/-- `GetText(0)`: what precedes the first zero of the text. -/
def getText (stmt : SelectName) : Process WebConnection Exit Bytes := do
  match ← MySqliteStmt.column stmt with
  | none => throw .getText
  | some text => return text.takeWhile (· ≠ 0)

/-- The body of a `Select` function.  It answers whether there is a result, and
what it leaves in `str`. -/
def selectLine (stmt : SelectName) (query : Query) (meg1 meg2 : String) (str : Bytes) :
    Process WebConnection Exit (Bool × Bytes) := do
  MySqliteStmt.reset stmt
  bindQuery query
  let res ← MySqliteStmt.stepError stmt (WebEngine.program query) meg1
  if res = .row then
    let str ← getText stmt
    let res ← MySqliteStmt.stepExit stmt (WebEngine.program query) meg2
    return (res = .ok, str)
  else
    return (false, str)

/-- `SelectHotLine` -/
def selectHotLine (count offset : Int) (str : Bytes) : Process WebConnection Exit (Bool × Bytes) :=
  selectLine .selectFromHot (.fromHot count offset) "web view SelectHotLine 1"
    "web view SelectHotLine 2" str

/-- `SelectNewLine` -/
def selectNewLine (count offset : Int) (str : Bytes) : Process WebConnection Exit (Bool × Bytes) :=
  selectLine .selectFromNew (.fromNew count offset) "web view SelectNewLine 1"
    "web view SelectNewLine 2" str

/-- `SelectFromKey` -/
def selectFromKey (key : Bytes) (count offset : Int) (str : Bytes) :
    Process WebConnection Exit (Bool × Bytes) :=
  selectLine .selectFromKey (.fromKey (boundText key) count offset) "web view SelectFromKey 1"
    "web view SelectFromKey 2" str

end MyWebViewSelectClass

/-! ## when a query comes back -/

/-- The engine lets the query come back: its text can be bound, the tokenizer
can scan what it is given, and no error follows a row. -/
structure WebEngine.Answerable (e : WebEngine) (query : Query) : Prop where
  bound : query.text.length ≤ e.lengthLimit
  scannable : ∀ s ∈ e.strings query, Scannable s
  finished : ∀ row, e.answers 0 query = .row row → e.answers 1 query ≠ .error

/-- The tokenizer gets through exactly when it can scan every string. -/
theorem WebEngine.isOk_strings_iff (e : WebEngine) (query : Query) :
    ((e.strings query).mapM tokens).isOk ↔ ∀ s ∈ e.strings query, Scannable s := by
  simp only [isOk_mapM_iff, isOk_tokens_iff]

namespace MyWebViewSelectClass

variable {c : WebConnection} {query : Query}

/-- Binding lets through what is not too long. -/
theorem ensures_bindQuery {Q : PUnit → WebConnection → Prop} {E : Exit → WebConnection → Prop} :
    Ensures (bindQuery query) c Q E ↔
      if query.text.length ≤ c.mDb.lengthLimit then Q .unit c else E .bindStmText c := by
  by_cases h : query.text.length ≤ c.mDb.lengthLimit
  · simp [bindQuery, h, Nat.not_lt.mpr h]
  · simp [bindQuery, h, Nat.lt_of_not_le h]

/-- What follows a row: its text is read, and the second step comes back unless
it finds an error. -/
theorem ensures_secondStep {e : WebEngine} {stmt : SelectName} {row : Bytes} (meg2 : String)
    (hdb : c.mDb = (e.next query).2) (hcursor : (c.stmts stmt).cursor = some row) :
    Ensures (do
        let str ← getText stmt
        let res ← MySqliteStmt.stepExit stmt (WebEngine.program query) meg2
        return (decide (res = .ok), str)) c
      (fun r _ => e.answers 1 query ≠ .error ∧
        (r.1 = true → e.answers 1 query = .done ∧ r.2 = row.takeWhile (· ≠ 0)))
      (fun _ _ => e.answers 1 query = .error) := by
  have hstep : WebEngine.program query (c.suspended stmt) (c.stmts stmt).cursor c.mDb =
      .ok ((e.answers 1 query).code, (e.answers 1 query).cursor)
        ((e.next query).2.next query).2 := by
    rw [hdb, hcursor]
    exact WebEngine.program_second row
  simp only [getText, ensures_bind, MySqliteStmt.ensures_column, hcursor, ensures_pure]
  cases hsecond : e.answers 1 query with
  | row row' =>
      rw [hsecond] at hstep
      rw [MySqliteStmt.ensures_stepExit_row hstep]
      simp
  | done =>
      rw [hsecond] at hstep
      rw [MySqliteStmt.ensures_stepExit_done hstep]
      simp
  | error =>
      rw [hsecond] at hstep
      rw [MySqliteStmt.ensures_stepExit_exit hstep]

/-- A `Select` function comes back exactly when its query is answerable, and
then with the text of a row if one is found and is the only one. -/
theorem selectLine_ensures (stmt : SelectName) (meg1 meg2 : String) (str : Bytes) :
    Ensures (selectLine stmt query meg1 meg2 str) c
      (fun r _ => c.mDb.Answerable query ∧ (r.1 = true → ∃ row, c.mDb.answers 0 query = .row row ∧
        c.mDb.answers 1 query = .done ∧ r.2 = row.takeWhile (· ≠ 0)))
      (fun _ _ => ¬ c.mDb.Answerable query) := by
  rw [selectLine, ensures_bind, MySqliteStmt.ensures_reset, ensures_bind, ensures_bindQuery]
  by_cases hb : query.text.length ≤ c.mDb.lengthLimit
  · rw [MySqliteConnect.update_mDb, if_pos hb, ensures_bind]
    cases hcode : (c.mDb.strings query).mapM tokens with
    | error exit =>
        rw [MySqliteStmt.ensures_stepError_error
          (by simpa using WebEngine.program_exit hcode)]
        intro h
        have hok := (c.mDb.isOk_strings_iff query).mpr h.scannable
        rw [hcode] at hok
        cases hok
    | ok ts =>
        have hscan : ∀ s ∈ c.mDb.strings query, Scannable s :=
          (c.mDb.isOk_strings_iff query).mp (by rw [hcode]; rfl)
        rw [MySqliteStmt.ensures_stepError_answer (c.mDb.answers 0 query)
          (by simpa using WebEngine.program_first hcode)]
        cases hfirst : c.mDb.answers 0 query with
        | row row =>
            simp only [Answer.stepCode, if_true]
            apply (ensures_secondStep meg2 rfl
              (by rw [MySqliteConnect.update_stmts_self]; rfl)).mono
            · intro r _ hr
              have hfin : ∀ row', c.mDb.answers 0 query = .row row' →
                  c.mDb.answers 1 query ≠ .error := fun _ _ => hr.1
              exact ⟨⟨hb, hscan, hfin⟩, fun hret => ⟨row, rfl, hr.2 hret⟩⟩
            · exact fun _ _ herr h => h.finished row hfirst herr
        | done =>
            have h : c.mDb.Answerable query := ⟨hb, hscan, by simp [hfirst]⟩
            simpa [Answer.stepCode] using h
        | error =>
            have h : c.mDb.Answerable query := ⟨hb, hscan, by simp [hfirst]⟩
            simpa [Answer.stepCode] using h
  · rw [MySqliteConnect.update_mDb, if_neg hb]
    exact fun h => hb h.bound

end MyWebViewSelectClass

end BtDht
