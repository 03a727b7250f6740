import BtDht.MySqliteClass.Library
import BtDht.MySqliteClass.WebViewSelect

/-!
# BtDht.MySqliteClass.Reads

The functions that read the crawler's tables row by row and hand each row to a
callback: `MyTorrentFileTable::SelectNewLine` and `MyFullTextTable::Sou`.  Both
are one loop `whileRow`; going through a query with it is going through its rows
(`whileRow_ensures`).

`SelectNewLine` lists files as they came in, from the last one
(`selectNewLine_files`).  `Sou` never calls its callback: the text it reads of
a row is not stored in the index, and reading it ends the process (`sou_never_calls`).
-/

namespace BtDht

open Sqlite

/-! ## going through the rows of a query -/

/-- A connection with one statement, which reads the content `η`. -/
abbrev Reader (η χ : Type) := MySqliteConnect η Unit χ

variable {η χ ω α : Type}

namespace Reader

/-- The statement just prepared. -/
def prepared (code : ResultCode) (mDb : η) : Reader η χ where
  mDb := mDb
  stmts := fun _ => .prepared code

@[simp] theorem prepared_mDb {code : ResultCode} {mDb : η} :
    (prepared code mDb : Reader η χ).mDb = mDb := rfl

/-- A call on the statement. -/
def onStmt (x : Process (Reader η χ) Exit α) : Process (Reader η χ × ω) Exit α :=
  Process.within Prod.fst (fun s c => (c, s.2)) x

/-- A call of the callback. -/
def onFunc (x : Process ω Exit α) : Process (Reader η χ × ω) Exit α :=
  Process.within Prod.snd (fun s w => (s.1, w)) x

end Reader

open Reader

/-- `while (stmt.Step(meg) == ROW) { … }`, for at most `n` steps.  It answers
whether the loop has ended. -/
def whileRow (program : Program η Exit χ) (meg : String) (body : χ → Process ω Exit PUnit) :
    Nat → Process (Reader η χ × ω) Exit Bool
  | 0 => return false
  | n + 1 => do
      let res ← onStmt (MySqliteStmt.stepExit () program meg)
      if res = .row then
        let row ← onStmt (MySqliteStmt.column ())
        onFunc (row.forM body)
        whileRow program meg body n
      else return true

/-- A `SELECT` that finds `rows`.  It is suspended at a row and knows those that
are to follow. -/
def selectRows (rows : η → List χ) : Program η Exit (χ × List χ) := fun _ suspendedAt e =>
  match suspendedAt with
  | none => .ok (found (rows e)) e
  | some (_, rest) => .ok (found rest) e
where
  found : List χ → ResultCode × Option (χ × List χ)
    | [] => (.done, none)
    | row :: rest => (.row, some (row, rest))

/-- What the statement has still to give. -/
def pending (rows : η → List χ) (c : Reader η (χ × List χ)) : List χ :=
  match (c.stmts ()).cursor with
  | none => rows c.mDb
  | some (_, rest) => rest

section whileRow

variable {rows : η → List χ} {meg : String} {body : χ → Process ω Exit PUnit}

theorem selectRows_eq (rows : η → List χ) (c : Reader η (χ × List χ)) :
    selectRows rows (c.suspended ()) (c.stmts ()).cursor c.mDb =
      .ok (selectRows.found (pending rows c)) c.mDb := by
  unfold selectRows pending
  cases (c.stmts ()).cursor with
  | none => rfl
  | some row => rfl

/-- The loop is the callback on each row, and ends. -/
theorem whileRow_ensures {Q : ω → Prop} {E : Exit → ω → Prop} {n : Nat}
    {c : Reader η (χ × List χ)} {w : ω} (hn : (pending rows c).length < n)
    (h : Ensures ((pending rows c).forM body) w (fun _ => Q) E) :
    Ensures (whileRow (selectRows rows) meg (fun row => body row.1) n) (c, w)
      (fun ended s => ended = true ∧ s.1.mDb = c.mDb ∧ Q s.2) fun exit s => E exit s.2 := by
  induction n generalizing c w with
  | zero => omega
  | succ n ih =>
      have hstep := selectRows_eq rows c
      rw [whileRow, ensures_bind, onStmt, ensures_within]
      cases hp : pending rows c with
      | nil =>
          rw [hp] at hstep h
          rw [MySqliteStmt.ensures_stepExit_done hstep]
          simpa using h
      | cons row rest =>
          rw [hp] at hstep h hn
          have hbody : Ensures (body row >>= fun _ => rest.forM body) w (fun _ => Q) E := h
          rw [ensures_bind] at hbody
          rw [MySqliteStmt.ensures_stepExit_row hstep]
          simp only [if_true, onStmt, onFunc, ensures_bind, ensures_within,
            MySqliteStmt.ensures_column, MySqliteConnect.update_stmts_self,
            MySqliteStmt.stepped_cursor]
          refine hbody.mono (fun _ w' hw' => ?_) fun _ _ he => he
          have hrest : pending rows (c.update c.mDb () (.stepped .row (some (row, rest)))) = rest := by
            simp [pending]
          exact ih (by rw [hrest]; simpa using hn) (by rwa [hrest])

end whileRow

/-! ## the newest files -/

/-- `GetText`: what precedes the first zero of the text. -/
def getText : Option Bytes → Process ω Exit Bytes
  | none => throw .getText
  | some text => return text.takeWhile (· ≠ 0)

/-- `SELECT id, hash_id, name, size FROM file_table ORDER BY id DESC LIMIT 300` -/
def Database.newestFiles (db : Database) : List FileRow :=
  (db.fileTable.mergeSort fun r r' => r'.id ≤ r.id).take 300

namespace MyTorrentFileTable

/-- The body of the loop of `SelectNewLine`. -/
def newLine (func : Int → Int → Bytes → Int64 → Process ω Exit PUnit) (row : FileRow) :
    Process ω Exit PUnit := do
  let name ← getText (some row.name)
  func row.id row.hashId name row.size

/-- `SelectNewLine`, for at most `n` steps. -/
def selectNewLine (func : Int → Int → Bytes → Int64 → Process ω Exit PUnit) (n : Nat) :
    Process (Reader Database (FileRow × List FileRow) × ω) Exit Bool :=
  whileRow (selectRows Database.newestFiles) "SelectNewLine while" (fun row => newLine func row.1) n

end MyTorrentFileTable

namespace Database

variable {stored : List TorrentData} {db : Database}

/-- The files of a library stand in the order in which they came in. -/
theorem Holds.fileTable_entries (h : db.Holds stored) :
    db.fileTable.map FileRow.entry = stored.flatMap TorrentData.entries := by
  have hgroups := flatMap_filter_eq (h.fileIds.imp fun hr => hr.2) h.hashIds h.owner
  rw [← hgroups, List.map_flatMap, List.flatMap_map]
  have hentries : ∀ {hashes : List HashRow} {stored : List TorrentData},
      List.Forall₂ (fun row data => (db.filesOf row.id).map FileRow.entry = data.entries)
        hashes stored →
      (hashes.flatMap fun row => (db.filesOf row.id).map FileRow.entry) =
        stored.flatMap TorrentData.entries := by
    intro hashes stored hfiles
    induction hfiles with
    | nil => rfl
    | cons hr _ ih => rw [List.flatMap_cons, List.flatMap_cons, ih, hr]
  exact hentries (h.torrents.imp fun _ _ hr => hr.2)

theorem Holds.newestFiles_eq (h : db.Holds stored) :
    db.newestFiles = db.fileTable.reverse.take 300 := by
  have hsorted : (db.fileTable.mergeSort fun r r' => r'.id ≤ r.id).Pairwise
      fun r r' => decide (r'.id ≤ r.id) := by
    apply List.pairwise_mergeSort
    · simp only [decide_eq_true_eq]
      exact fun a b c hab hbc => Int.le_trans hbc hab
    · simp only [Bool.or_eq_true, decide_eq_true_eq]
      exact fun a b => Int.le_total b.id a.id
  have hreverse : db.fileTable.reverse.Pairwise fun r r' => decide (r'.id ≤ r.id) := by
    rw [List.pairwise_reverse]
    exact h.fileIds.imp fun hr => decide_eq_true (Int.le_of_lt hr.1)
  have hids : (db.fileTable.map FileRow.id).Nodup :=
    List.pairwise_map.mpr (h.fileIds.imp fun hr => ne_of_lt hr.1)
  have heq : db.fileTable.mergeSort (fun r r' => r'.id ≤ r.id) = db.fileTable.reverse := by
    refine List.Perm.eq_of_pairwise ?_ hsorted hreverse
      ((List.mergeSort_perm _ _).trans (List.reverse_perm _).symm)
    intro r r' hr hr' hge hle
    exact List.inj_on_of_nodup_map hids (List.mem_mergeSort.mp hr) (List.mem_reverse.mp hr')
      (Int.le_antisymm (of_decide_eq_true hle) (of_decide_eq_true hge))
  rw [newestFiles, heq]

end Database

/-- **The newest files.**  After any calls of `Insert`, and for every callback,
`SelectNewLine` is the callback on up to 300 files: those of the inserted
torrents from the last file of the last one backwards, each with its name up to
the first zero. -/
theorem selectNewLine_files {codes : StmtName → ResultCode}
    {hist : List InsertCall} {r : MyDataInsertClass.Run}
    (ht : (MyDataInsertClass.system codes).Trace hist r)
    (func : Int → Int → Bytes → Int64 → Process ω Exit PUnit) {n : Nat} (hn : 300 < n)
    (code : ResultCode) :
    ∃ files : List FileRow,
      files.map FileRow.entry = (r.inserted.flatMap TorrentData.entries).reverse.take 300 ∧
      ∀ {w : ω} {Q : ω → Prop} {E : Exit → ω → Prop},
        Ensures (files.forM fun f => func f.id f.hashId (f.name.takeWhile (· ≠ 0)) f.size) w
          (fun _ => Q) E →
        Ensures (MyTorrentFileTable.selectNewLine func n) (prepared code r.crawler.mDb.db, w)
          (fun ended s => ended = true ∧ s.1.mDb = r.crawler.mDb.db ∧ Q s.2)
          fun exit s => E exit s.2 := by
  have h := (MyDataInsertClass.ready_of_trace ht).holds
  have hpending : pending Database.newestFiles (prepared code r.crawler.mDb.db) =
      r.crawler.mDb.db.fileTable.reverse.take 300 := h.newestFiles_eq
  refine ⟨r.crawler.mDb.db.fileTable.reverse.take 300, ?_, fun {w Q E} hcalls => ?_⟩
  · rw [List.map_take, List.map_reverse, h.fileTable_entries]
  · have hfew : (pending Database.newestFiles (prepared code r.crawler.mDb.db)).length < n := by
      rw [hpending, List.length_take]
      omega
    refine whileRow_ensures hfew ?_
    rw [hpending]
    exact hcalls

theorem selectNewLine_oneFile :
    ∃ c s, (MyTorrentFileTable.selectNewLine (fun _ _ name _ => modify (· ++ [name])) 301).run
      (prepared .ok c, ([] : List Bytes)) = .ok true s ∧ s.2 = [[97], [97]] := by
  obtain ⟨c, ht⟩ := MyDataInsertClass.trace_oneFile
  obtain ⟨files, hfiles, hrun⟩ := selectNewLine_files ht
    (fun _ _ name _ => modify (· ++ [name])) (n := 301) (by decide) .ok
  have hentries : files.map FileRow.entry = [([97], 5), ([97], 5)] := by
    rw [hfiles]
    simp [MyDataInsertClass.oneFile, TorrentData.entries]
  obtain ⟨first, rest, rfl, hfirst, hrest⟩ := List.map_eq_cons_iff.mp hentries
  obtain ⟨second, rfl, hsecond⟩ := List.map_eq_singleton_iff.mp hrest
  have hnames : first.name = [97] ∧ second.name = [97] :=
    ⟨congrArg Prod.fst hfirst, congrArg Prod.fst hsecond⟩
  have hcalls := hrun (w := []) (Q := fun w => w = [[97], [97]]) (E := fun _ _ => False)
    (by simp [hnames])
  obtain ⟨ended, s, hs, rfl, -, hw⟩ := hcalls.returns
  exact ⟨_, s, hs, hw⟩

/-! ## a search of the index -/

/-- What decides on a search of the index: how long a bound text may be, which
parts of the key FTS5 hands to the tokenizer, and what each step finds, a rowid
or an error. -/
structure SearchEngine where
  lengthLimit : Nat
  handed : Bytes → List Bytes
  answers : Nat → Answer Int

/-- `sqlite3_step` of the search for `key`. -/
def SearchEngine.program (key : Bytes) : Program SearchEngine Exit Int := fun suspended cursor e =>
  selectVirtual ((e.handed key).mapM MySqliteTokenizers.tokens)
    (fun e => (e.answers 0, { e with answers := fun n => e.answers (n + 1) })) suspended cursor e

namespace MyFullTextTable

/-- The body of the loop of `Sou`.  The index is one without content, so that
the column `text` is `NULL` in every row. -/
def readRow (func : Int → Bytes → Process ω Exit PUnit) (id : Int) : Process ω Exit PUnit := do
  let text ← getText none
  func id text

/-- `MyFullTextTable::Sou`, for at most `n` steps. -/
def sou (s : Bytes) (func : Int → Bytes → Process ω Exit PUnit) (n : Nat) :
    Process (Reader SearchEngine Int × ω) Exit Bool := do
  let c ← get
  if (MyWebViewSelectClass.boundText s).length > c.1.mDb.lengthLimit then
    throw .bindStmText
  else
    whileRow (SearchEngine.program (MyWebViewSelectClass.boundText s)) "sou" (readRow func) n

end MyFullTextTable

/-- The search can be run and finds no row. -/
structure SearchEngine.FindsNothing (e : SearchEngine) (key : Bytes) : Prop where
  bound : key.length ≤ e.lengthLimit
  scannable : ∀ s ∈ e.handed key, MySqliteTokenizers.Scannable s
  done : e.answers 0 = .done

section

variable {e : SearchEngine} {key : Bytes} (suspended : Bool)

theorem SearchEngine.isOk_codes :
    ((e.handed key).mapM MySqliteTokenizers.tokens).isOk ↔
      ∀ s ∈ e.handed key, MySqliteTokenizers.Scannable s := by
  simp [isOk_mapM_iff, MySqliteTokenizers.isOk_tokens_iff]

theorem SearchEngine.program_eq (h : ∀ s ∈ e.handed key, MySqliteTokenizers.Scannable s) :
    SearchEngine.program key suspended none e =
      .ok ((e.answers 0).code, (e.answers 0).cursor)
        { e with answers := fun n => e.answers (n + 1) } := by
  have hok := isOk_codes.mpr h
  cases hcode : (e.handed key).mapM MySqliteTokenizers.tokens with
  | ok ts => exact selectVirtual_first hcode
  | error exit => simp [hcode, Except.isOk, Except.toBool] at hok

theorem SearchEngine.program_exit (h : ¬ ∀ s ∈ e.handed key, MySqliteTokenizers.Scannable s) :
    ∃ exit, SearchEngine.program key suspended none e = .error exit e := by
  rw [← isOk_codes] at h
  cases hcode : (e.handed key).mapM MySqliteTokenizers.tokens with
  | ok ts => simp [hcode, Except.isOk, Except.toBool] at h
  | error exit => exact ⟨exit, selectVirtual_exit hcode⟩

end

/-- **A search of the index finds nothing, or ends the process.**  `Sou` comes
back exactly if the search can be run and its first step is done, and whatever
there is to find, its callback is not called: reading the text of the first row
ends the process. -/
theorem sou_never_calls (s : Bytes) (func : Int → Bytes → Process ω Exit PUnit) {n : Nat}
    (hn : 0 < n) (code : ResultCode) (e : SearchEngine) (w : ω) :
    Ensures (MyFullTextTable.sou s func n) (prepared code e, w)
      (fun ended s' => e.FindsNothing (MyWebViewSelectClass.boundText s) ∧ ended = true ∧
        s'.2 = w)
      fun _ s' => ¬ e.FindsNothing (MyWebViewSelectClass.boundText s) ∧ s'.2 = w := by
  rw [MyFullTextTable.sou]
  generalize MyWebViewSelectClass.boundText s = key
  cases n with
  | zero => omega
  | succ n =>
      rw [ensures_bind, ensures_get, prepared_mDb]
      by_cases hb : key.length > e.lengthLimit
      · rw [if_pos hb, ensures_throw]
        exact ⟨fun h => Nat.not_lt.mpr h.bound hb, rfl⟩
      · rw [if_neg hb, whileRow, ensures_bind, onStmt, ensures_within]
        by_cases hscan : ∀ s ∈ e.handed key, MySqliteTokenizers.Scannable s
        · have hstep := SearchEngine.program_eq
            ((prepared code e : Reader SearchEngine Int).suspended ()) hscan
          cases hans : e.answers 0 with
          | row id =>
              rw [hans] at hstep
              rw [MySqliteStmt.ensures_stepExit_row hstep]
              have hnot : ¬ e.FindsNothing key := fun h => nomatch hans.symm.trans h.done
              simp [onStmt, onFunc, MyFullTextTable.readRow, getText, Answer.cursor, hnot]
          | done =>
              rw [hans] at hstep
              rw [MySqliteStmt.ensures_stepExit_done hstep]
              have hnothing : e.FindsNothing key := ⟨Nat.not_lt.mp hb, hscan, hans⟩
              simp [hnothing]
          | error =>
              rw [hans] at hstep
              rw [MySqliteStmt.ensures_stepExit_exit hstep]
              exact ⟨fun h => (nomatch hans.symm.trans h.done), rfl⟩
        · obtain ⟨exit, hexit⟩ := SearchEngine.program_exit
            ((prepared code e : Reader SearchEngine Int).suspended ()) hscan
          rw [MySqliteStmt.ensures_stepExit_error hexit]
          exact ⟨fun h => hscan h.scannable, rfl⟩

/-- An index that has a row for every key. -/
def oneRow : SearchEngine where
  lengthLimit := 1000000000
  handed := fun key => [key]
  answers := fun _ => .row 1

theorem sou_oneRow :
    ∃ exit s, (MyFullTextTable.sou [97] (fun id _ => modify (id :: ·)) 1).run
      (prepared .ok oneRow, []) = .error exit s ∧ s.2 = [] := by
  have h := sou_never_calls [97] (fun id _ => modify (id :: ·)) (n := 1) (by decide) .ok oneRow []
  have hexits : Ensures (MyFullTextTable.sou [97] (fun id _ => modify (id :: ·)) 1)
      (prepared .ok oneRow, []) (fun _ _ => False) fun _ s => s.2 = [] :=
    h.mono (fun _ _ hq => nomatch hq.1.done) fun _ _ he => he.2
  obtain ⟨exit, s, hs, hw⟩ := hexits.exits
  exact ⟨exit, s, hs, hw⟩

end BtDht
