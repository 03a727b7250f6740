import BtDht.MySqliteClass.Interleaving
import BtDht.MyWebView

/-!
# BtDht.MyWebView.Serves

What a request is answered with, from the calls of `Insert` to the response.
The web view has a connection of its own, so it reads what the crawler has
committed; SQLite makes JSON of the rows, and the handler passes the text on up
to its first zero.

The crawler may be in the middle of a torrent, or may have been killed in the
middle of one.  Either way a page of new torrents has whole torrents in the
reverse order of their insertion (`serves_new`), and a search for a phrase
finds exactly the inserted torrents with its bytes in a name (`serves_search`).
-/

namespace BtDht

open Sqlite MySqliteTokenizers Database Relational

/-! ## the web view's connection on the crawler's file -/

/-- A `MATCH` argument that is one string: the phrase in quotes, with the quotes
in it doubled. -/
def quoted (phrase : Bytes) : Bytes :=
  [34] ++ phrase.flatMap (fun b => if b = 34 then [34, 34] else [b]) ++ [34]

/-- What the web view relies on when the content `db` has been committed.  Its
queries yield one row, the text `json` makes of the selected objects, and are
then done.  JSON text has no zero, and FTS5 takes a string without one to be
one phrase. -/
structure WebEngine.Reads (ρ : Type) [LinearOrder ρ] (json : List TorrentObject → Bytes)
    (db : Database) (e : WebEngine) : Prop where
  json_text : ∀ objects, 0 ∉ json objects
  fromNew : ∀ count offset, ∃ objects, db.SelectsNew count offset objects ∧
    e.answers 0 (.fromNew count offset) = .row (json objects) ∧
    e.answers 1 (.fromNew count offset) = .done
  phrase : ∀ phrase, 0 ∉ phrase → e.handed (quoted phrase) = [phrase]
  fromKey : ∀ phrase count offset, phrase ≠ [] → 0 ∉ phrase →
    ∃ (textquery : List (TextRow ρ)) (fileGroups : _) (groups : _),
      db.Matches phrase textquery ∧ db.IsKeyListing textquery fileGroups groups ∧
      e.answers 0 (.fromKey (quoted phrase) count offset) =
        .row (json ((limitOffset count offset groups).map keyObject)) ∧
      e.answers 1 (.fromKey (quoted phrase) count offset) = .done

/-! ## the text of a row -/

namespace MyWebViewSelectClass

variable {c : WebConnection} {query : Query} {row : Bytes}

/-- A text without a zero is read whole. -/
theorem takeWhile_ne_zero {s : Bytes} (h : 0 ∉ s) : s.takeWhile (· ≠ 0) = s := by
  rw [List.takeWhile_eq_self_iff]
  intro b hb
  exact decide_eq_true fun hzero => h (hzero ▸ hb)

/-- The second step finds the query done. -/
theorem secondStep_done {e : WebEngine} {c : WebConnection} (stmt : SelectName) (row : Bytes)
    (meg2 : String) (hdb : c.mDb = (e.next query).2) (hcursor : (c.stmts stmt).cursor = some row)
    (hdone : e.answers 1 query = .done) :
    Ensures (do
        let str ← getText stmt
        let res ← MySqliteStmt.stepExit stmt (WebEngine.program query) meg2
        return (decide (res = .ok), str)) c
      (fun r _ => r = (true, row.takeWhile (· ≠ 0))) fun _ _ => False := by
  have hstep : WebEngine.program query (c.suspended stmt) (c.stmts stmt).cursor c.mDb =
      .ok (.done, none) ((e.next query).2.next query).2 := by
    rw [hdb, hcursor, WebEngine.program_second row, hdone]
    rfl
  simp only [getText, ensures_bind, MySqliteStmt.ensures_column, hcursor, ensures_pure]
  rw [MySqliteStmt.ensures_stepExit_done hstep]
  simp

/-- A `Select` function whose query yields one row leaves its text in `str`. -/
theorem selectLine_row (stmt : SelectName) (meg1 meg2 : String) (str : Bytes)
    (hb : query.text.length ≤ c.mDb.lengthLimit) (hscan : ∀ s ∈ c.mDb.strings query, Scannable s)
    (h0 : c.mDb.answers 0 query = .row row) (h1 : c.mDb.answers 1 query = .done)
    (hrow : 0 ∉ row) :
    Ensures (selectLine stmt query meg1 meg2 str) c (fun r _ => r = (true, row))
      fun _ _ => False := by
  obtain ⟨ts, hcode⟩ : ∃ ts, (c.mDb.strings query).mapM tokens = .ok ts := by
    have hok := (c.mDb.isOk_strings_iff query).mpr hscan
    cases hcode : (c.mDb.strings query).mapM tokens with
    | error exit =>
        rw [hcode] at hok
        cases hok
    | ok ts => exact ⟨ts, rfl⟩
  rw [selectLine, ensures_bind, MySqliteStmt.ensures_reset, ensures_bind, ensures_bindQuery,
    MySqliteConnect.update_mDb, if_pos hb, ensures_bind,
    MySqliteStmt.ensures_stepError_answer (c.mDb.answers 0 query)
      (by simpa using WebEngine.program_first hcode), h0]
  simp only [Answer.stepCode, if_true]
  have hsecond := secondStep_done (c := (c.update c.mDb stmt (c.stmts stmt).afterReset).update
    (c.mDb.next query).2 stmt (.stepped (Answer.row row).code (Answer.row row).cursor))
    stmt row meg2 rfl (by simp [Answer.cursor]) h1
  rwa [takeWhile_ne_zero hrow] at hsecond

end MyWebViewSelectClass

/-! ## responses -/

/-- The handler comes back and has sent this one response. -/
def Responds (p : Request) (w : WebView) (response : Response) : Prop :=
  ∃ w', (apiRouting p).run w = .ok .unit w' ∧ w'.sent = w.sent ++ [response]

variable {w : WebView} {p : Request}

/-- The text that a `Select` function leaves is sent. -/
theorem responds_of_row {select : Process WebConnection Exit (Bool × Bytes)} {row : Bytes}
    (hp : apiRouting p = WebView.onTable select >>= WebView.respond)
    (h : Ensures select w.table (fun r _ => r = (true, row)) fun _ _ => False) :
    Responds p w (.jsonContent row) := by
  have hsent : Ensures (apiRouting p) w (fun _ w' => w'.sent = w.sent ++ [.jsonContent row])
      fun _ _ => False := by
    rw [hp, ensures_bind, WebView.onTable, ensures_within]
    refine h.mono (fun r c hr => ?_) fun _ _ hf => hf
    rw [hr]
    simp [WebView.respond, WebView.send]
  obtain ⟨u, w', hrun, hw⟩ := hsent.returns
  exact ⟨w', hrun, hw⟩

/-- The rows of a page; a negative offset is 0. -/
theorem limitOffset_page {α : Type*} (offset : Int) (rows : List α) :
    limitOffset 30 offset rows = (rows.drop offset.toNat).take 30 := by
  rw [limitOffset, if_neg (by decide)]
  rfl

/-- A text of fewer than `2 ^ 31` bytes is bound as it is. -/
theorem boundText_eq_self {s : Bytes} (h : s.length < 2 ^ 31) :
    MyWebViewSelectClass.boundText s = s := by
  have hn : int32 s.length = s.length := int32_eq_self (by omega) (by omega)
  have hnonneg : ¬ (s.length : Int) < 0 := by omega
  rw [MyWebViewSelectClass.boundText, hn]
  simp only [if_neg hnonneg, Int.toNat_natCast, List.take_length]

variable {codes : StmtName → ResultCode} {hist : List Stepwise.Occurrence} {m : Stepwise.Moment}
  {ρ : Type} [LinearOrder ρ] {json : List TorrentObject → Bytes}

/-- A page of new torrents of a library. -/
theorem Database.Holds.responds_new {stored : List TorrentData} {db : Database} (h : db.Holds stored)
    (hr : w.table.mDb.Reads ρ json db) (hkey : p.getQueryValue "key" = [])
    (hnew : p.getQueryValue "new" ≠ []) :
    ∃ objects, Responds p w (.jsonContent (json objects)) ∧
      List.Forall₂ Shows objects ((stored.reverse.drop p.offset.toNat).take 30) := by
  obtain ⟨objects, hsel, h0, h1⟩ := hr.fromNew 30 p.offset
  have hselect : Ensures (MyWebViewSelectClass.selectNewLine 30 p.offset []) w.table
      (fun r _ => r = (true, json objects)) fun _ _ => False :=
    MyWebViewSelectClass.selectLine_row _ _ _ _ (by simp [Query.text])
      (by simp [WebEngine.strings]) h0 h1 (hr.json_text objects)
  have hp : apiRouting p = WebView.onTable (MyWebViewSelectClass.selectNewLine 30 p.offset []) >>=
      WebView.respond := by
    simp only [apiRouting, hkey, if_pos hnew, ne_eq, not_true, if_false]
  refine ⟨objects, responds_of_row hp hselect, ?_⟩
  obtain ⟨groups, hl, hobjects⟩ := hsel
  have hshows := h.newListing hl
  rw [hobjects, limitOffset_page, List.forall₂_map_left_iff]
  exact List.forall₂_take _ (List.forall₂_drop _ hshows)

/-- **A page of new torrents.**  At every moment of every run of the crawler,
the response to a request for new torrents is a list of whole torrents: up to
30 of those inserted, from the last to the first, beginning at the offset of
the request. -/
theorem serves_new (ht : (Stepwise.system codes).Trace hist m)
    (hr : w.table.mDb.Reads ρ json m.committed) (hkey : p.getQueryValue "key" = [])
    (hnew : p.getQueryValue "new" ≠ []) :
    ∃ objects, Responds p w (.jsonContent (json objects)) ∧
      List.Forall₂ Shows objects ((m.inserted.reverse.drop p.offset.toNat).take 30) :=
  (Stepwise.sound_of_trace ht).committed.holds.responds_new hr hkey hnew

/-- **A search.**  At every moment of every run of the crawler, the response to
a search for a phrase shows up to 30, from the offset of the request on, of the
inserted torrents that have the bytes of the phrase in a name, up to the case
of ASCII letters; and these are all such torrents, each of them once.  The
phrase is not empty, has no zero, and the tokenizer gets through it; at one that
it does not get through it ends the process. -/
theorem serves_search (ht : (Stepwise.system codes).Trace hist m)
    (hr : w.table.mDb.Reads ρ json m.committed) {phrase : Bytes} (hne : phrase ≠ [])
    (hzero : 0 ∉ phrase) (hscan : Scannable phrase)
    (hkey : p.getQueryValue "key" = quoted phrase) (hlen : (quoted phrase).length < 2 ^ 31)
    (hlimit : (quoted phrase).length ≤ w.table.mDb.lengthLimit) :
    ∃ (found : List TorrentData) (objects : List TorrentObject),
      Responds p w (.jsonContent (json objects)) ∧
      (found.map TorrentData.hash).Nodup ∧
      (∀ data, data ∈ found ↔ data ∈ m.inserted ∧ HasName phrase data) ∧
      List.Forall₂ Shows objects ((found.drop p.offset.toNat).take 30) := by
  obtain ⟨textquery, fileGroups, groups, hm, hl, h0, h1⟩ := hr.fromKey phrase 30 p.offset hne hzero
  have hcommitted := (Stepwise.sound_of_trace ht).committed
  obtain ⟨found, hnd, hmem, hshows⟩ := hcommitted.holds.search hcommitted.indexed hscan hm hl
  have hselect : Ensures (MyWebViewSelectClass.selectFromKey (quoted phrase) 30 p.offset []) w.table
      (fun r _ => r = (true, json ((limitOffset 30 p.offset groups).map keyObject)))
      fun _ _ => False := by
    rw [MyWebViewSelectClass.selectFromKey, boundText_eq_self hlen]
    exact MyWebViewSelectClass.selectLine_row _ _ _ _ hlimit
      (by simpa [WebEngine.strings, hr.phrase phrase hzero] using hscan) h0 h1 (hr.json_text _)
  have hp : apiRouting p = WebView.onTable
      (MyWebViewSelectClass.selectFromKey (quoted phrase) 30 p.offset []) >>= WebView.respond := by
    have hkey' : quoted phrase ≠ [] := by simp [quoted]
    simp only [apiRouting, hkey, if_pos hkey']
  refine ⟨found, _, responds_of_row hp hselect, hnd, hmem, ?_⟩
  rw [limitOffset_page, List.forall₂_map_left_iff]
  exact List.forall₂_take _ (List.forall₂_drop _ hshows)

/-! ## one torrent -/

/-- What follows the opening quote, up to the closing one. -/
def unquote : Bytes → Bytes
  | [] => []
  | [_] => []
  | b :: b' :: s => if b = 34 then 34 :: unquote s else b :: unquote (b' :: s)

theorem unquote_quoted (phrase : Bytes) : unquote (quoted phrase).tail = phrase := by
  show unquote (phrase.flatMap (fun b => if b = 34 then [34, 34] else [b]) ++ [34]) = phrase
  induction phrase with
  | nil => rfl
  | cons b phrase ih =>
      rw [List.flatMap_cons, List.append_assoc]
      by_cases hb : b = 34
      · simpa [hb, unquote] using ih
      · have hne : phrase.flatMap (fun b => if b = 34 then [34, 34] else [b]) ++ [34] ≠ [] := by simp
        obtain ⟨b', s, hs⟩ := List.exists_cons_of_ne_nil hne
        rw [hs] at ih ⊢
        simpa [hb, unquote] using ih

/-- Every library can be read. -/
theorem Database.Holds.exists_reads {stored : List TorrentData} {db : Database} (h : db.Holds stored)
    (hjson : ∀ objects, 0 ∉ json objects) :
    ∃ e : WebEngine, e.Reads Int json db ∧ e.lengthLimit = 1000000000 := by
  obtain ⟨newGroups, hnew⟩ := exists_newListing db
  have hkey : ∀ phrase : Bytes, ∃ (textquery : List (TextRow Int)) (fileGroups : _) (groups : _),
      (phrase ≠ [] → db.Matches phrase textquery) ∧
        db.IsKeyListing textquery fileGroups groups := by
    intro phrase
    by_cases hne : phrase = []
    · obtain ⟨fileGroups, groups, hl⟩ := exists_keyListing db ([] : List (TextRow Int))
      exact ⟨[], fileGroups, groups, fun h => absurd hne h, hl⟩
    · obtain ⟨textquery, hm⟩ := h.exists_matches hne (0 : Int)
      obtain ⟨fileGroups, groups, hl⟩ := exists_keyListing db textquery
      exact ⟨textquery, fileGroups, groups, fun _ => hm, hl⟩
  choose textquery fileGroups groups hm hl using hkey
  refine ⟨⟨1000000000, fun key => [unquote key.tail], fun n query =>
    if n = 0 then .row (json (match query with
      | .fromNew count offset => (limitOffset count offset newGroups).map torrentObject
      | .fromKey key count offset =>
          (limitOffset count offset (groups (unquote key.tail))).map keyObject
      | .fromHot _ _ => []))
    else .done⟩, ?_, rfl⟩
  constructor
  · exact hjson
  · exact fun count offset => ⟨_, ⟨newGroups, hnew, rfl⟩, rfl, rfl⟩
  · exact fun phrase _ => congrArg (fun s => [s]) (unquote_quoted phrase)
  · intro phrase count offset hne _
    refine ⟨textquery phrase, fileGroups phrase, groups phrase, hm phrase hne, hl phrase, ?_, rfl⟩
    simp [unquote_quoted]

/-- `json_group_array` of values that are JSON already. -/
def jsonGroupArray (values : List Bytes) : Bytes := [91] ++ List.intercalate [44] values ++ [93]

/-- `json_object` of a file, whose name needs no escapes. -/
def fileJson (file : Bytes × Int64) : Bytes :=
  "\x7b\"name\":\"".toUTF8.data.toList ++ file.1 ++ "\",\"size\":".toUTF8.data.toList ++
    toChars file.2.toInt.toNat 10 ++ [125]

/-- The JSON of torrents whose names need no escapes. -/
def torrentsJson (objects : List TorrentObject) : Bytes :=
  (jsonGroupArray (objects.map fun object =>
    "\x7b\"hash_value\":\"".toUTF8.data.toList ++ object.hashValue ++
      "\",\"files\":".toUTF8.data.toList ++ jsonGroupArray (object.files.map fileJson) ++
      [125])).filter (· ≠ 0)

theorem torrentsJson_text (objects : List TorrentObject) : 0 ∉ torrentsJson objects := by
  simp [torrentsJson]

example : torrentsJson [⟨[48, 49], [([97], 5)]⟩] =
    "[\x7b\"hash_value\":\"01\",\"files\":[\x7b\"name\":\"a\",\"size\":5\x7d]\x7d]".toUTF8.data.toList := by
  decide

/-- A web view on the file of a crawler that has inserted one torrent. -/
theorem exists_reads_oneFile : ∃ (hist : List Stepwise.Occurrence) (m : Stepwise.Moment)
    (w : WebView), (Stepwise.system fun _ => .ok).Trace hist m ∧
      m.inserted = [MyDataInsertClass.oneFile] ∧
      w.table.mDb.Reads Int torrentsJson m.committed ∧ w.table.mDb.lengthLimit = 1000000000 := by
  obtain ⟨c, ht⟩ := MyDataInsertClass.trace_oneFile
  obtain ⟨hist, -, -, ht⟩ := Stepwise.exists_parts_of_trace ht
  obtain ⟨e, he, hlimit⟩ :=
    (Stepwise.sound_of_trace ht).committed.holds.exists_reads torrentsJson_text
  exact ⟨hist, _, ⟨⟨e, fun _ => .prepared .ok⟩, []⟩, ht, rfl, he, hlimit⟩

/-- A request with one value. -/
def queryFor (name : String) (value : Bytes) : Request where
  getQueryValue := fun name' => if name' = name then value else []

theorem serves_new_oneFile : ∃ (m : Stepwise.Moment) (w : WebView),
    m.inserted = [MyDataInsertClass.oneFile] ∧
      ∃ objects, Responds (queryFor "new" [49]) w (.jsonContent (torrentsJson objects)) ∧
        List.Forall₂ Shows objects
          ((m.inserted.reverse.drop (queryFor "new" [49]).offset.toNat).take 30) := by
  obtain ⟨hist, m, w, ht, hm, hr, -⟩ := exists_reads_oneFile
  exact ⟨m, w, hm, serves_new ht hr (by decide) (by decide)⟩

/-- The torrent `a` is found as `"A"`. -/
theorem serves_search_oneFile : ∃ (m : Stepwise.Moment) (w : WebView),
    m.inserted = [MyDataInsertClass.oneFile] ∧
      ∃ (found : List TorrentData) (objects : List TorrentObject),
        Responds (queryFor "key" (quoted [65])) w (.jsonContent (torrentsJson objects)) ∧
        (found.map TorrentData.hash).Nodup ∧
        (∀ data, data ∈ found ↔ data ∈ m.inserted ∧ HasName [65] data) ∧
        List.Forall₂ Shows objects
          ((found.drop (queryFor "key" (quoted [65])).offset.toNat).take 30) := by
  obtain ⟨hist, m, w, ht, hm, hr, hlimit⟩ := exists_reads_oneFile
  have hscan : Scannable [65] := ⟨[[65]], by simpa using ⟨by decide, by simp⟩, rfl⟩
  have hlen : (quoted [65]).length = 3 := by decide
  exact ⟨m, w, hm, serves_search ht hr (by decide) (by decide) hscan (by decide)
    (by rw [hlen]; decide) (by rw [hlen, hlimit]; decide)⟩

end BtDht
