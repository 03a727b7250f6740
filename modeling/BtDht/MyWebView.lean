import BtDht.MySqliteClass.WebViewSelect

/-!
# BtDht.MyWebView

`APIRouting` of `mywebview.cpp`: it reads the query values of a request, asks
`MyWebViewSelectClass` and sends one response.

The handler has an answer for a query that fails, but the tokenizer below it
ends the process on a text it cannot scan.  `apiRouting_responds_iff` says on
which requests the handler comes back, and `apiRouting_exits` is a request of
one byte that ends the crawler.
-/

namespace BtDht

open Sqlite MySqliteTokenizers

/-! ## requests and responses -/

/-- What `APIRouting` reads of a `RequestResponseAPI`.  `GetQueryValue` gives
the empty string for a value that is not there. -/
structure Request where
  getQueryValue : String → Bytes

/-- What it sends: `SendJsonContent` and `Send404`. -/
inductive Response
  | jsonContent (content : Bytes)
  | notFound
  deriving DecidableEq, Repr

/-- What a request is handled with, and the responses that have been sent. -/
structure WebView where
  table : WebConnection
  sent : List Response

/-- `ParseNumber` -/
def parseNumber (s : Bytes) (n : Nat) : Bool × Nat := fromChars s n

namespace Request

/-- The `offset` of the page that is asked for.  The product wraps around. -/
def offset (p : Request) : Int :=
  let pagestr := p.getQueryValue "page"
  let page := (parseNumber pagestr 0).2
  let count := 30
  int64 (count * int64 page)

/-- The query that is run for the request, if any. -/
def query (p : Request) : Option Query :=
  if p.getQueryValue "key" ≠ [] then
    some (.fromKey (MyWebViewSelectClass.boundText (p.getQueryValue "key")) 30 p.offset)
  else if p.getQueryValue "new" ≠ [] then some (.fromNew 30 p.offset)
  else if p.getQueryValue "hot" ≠ [] then some (.fromHot 30 p.offset)
  else none

end Request

/-! ## the handler -/

namespace WebView

/-- A call of `table`. -/
def onTable {α : Type} (x : Process WebConnection Exit α) : Process WebView Exit α :=
  Process.within table (fun w table => { w with table := table }) x

def send (response : Response) : Process WebView Exit PUnit :=
  modify fun w => { w with sent := w.sent ++ [response] }

/-- The response to what a `Select` function answers. -/
def respond (r : Bool × Bytes) : Process WebView Exit PUnit :=
  if r.1 then send (.jsonContent r.2) else send .notFound

end WebView

open WebView MyWebViewSelectClass in
/-- `APIRouting` -/
def apiRouting (p : Request) : Process WebView Exit PUnit := do
  let count := 30
  let offset := p.offset
  let key := p.getQueryValue "key"
  let selnew := p.getQueryValue "new"
  let selhot := p.getQueryValue "hot"
  if key ≠ [] then
    respond (← onTable (selectFromKey key count offset []))
  else if selnew ≠ [] then
    respond (← onTable (selectNewLine count offset []))
  else if selhot ≠ [] then
    respond (← onTable (selectHotLine count offset []))
  else
    send .notFound

/-! ## which requests are answered -/

/-- The request runs no query, or one that is answerable. -/
def WebView.Answerable (w : WebView) (p : Request) : Prop :=
  ∀ query, p.query = some query → w.table.mDb.Answerable query

variable {w : WebView}

/-- One response to what a `Select` function answers, if it comes back. -/
theorem ensures_respond {select : Process WebConnection Exit (Bool × Bytes)} {answerable : Prop}
    {Q : Bool × Bytes → WebConnection → Prop}
    (h : Ensures select w.table (fun r c => answerable ∧ Q r c) fun _ _ => ¬ answerable) :
    Ensures (WebView.onTable select >>= WebView.respond) w
      (fun _ w' => answerable ∧ ∃ response, w'.sent = w.sent ++ [response])
      fun _ _ => ¬ answerable := by
  rw [ensures_bind, WebView.onTable, ensures_within]
  apply h.mono _ fun _ _ he => he
  intro r c hr
  cases hfound : r.1 with
  | true => simpa [WebView.respond, WebView.send, hfound] using hr.1
  | false => simpa [WebView.respond, WebView.send, hfound] using hr.1

/-- The handler ends with one response if the request is answerable, and with
the process otherwise. -/
theorem apiRouting_ensures (p : Request) (w : WebView) : Ensures (apiRouting p) w
    (fun _ w' => w.Answerable p ∧ ∃ response, w'.sent = w.sent ++ [response])
    fun _ _ => ¬ w.Answerable p := by
  by_cases hkey : p.getQueryValue "key" = []
  · by_cases hnew : p.getQueryValue "new" = []
    · by_cases hhot : p.getQueryValue "hot" = []
      · have hans : w.Answerable p := by simp [WebView.Answerable, Request.query, hkey, hnew, hhot]
        simpa [apiRouting, WebView.send, hkey, hnew, hhot] using hans
      · have hans : w.Answerable p ↔ w.table.mDb.Answerable (.fromHot 30 p.offset) := by
          simp [WebView.Answerable, Request.query, hkey, hnew, hhot]
        simp only [apiRouting, hkey, hnew, if_pos hhot, ne_eq, not_true, if_false, hans]
        exact ensures_respond (MyWebViewSelectClass.selectLine_ensures _ _ _ _)
    · have hans : w.Answerable p ↔ w.table.mDb.Answerable (.fromNew 30 p.offset) := by
        simp [WebView.Answerable, Request.query, hkey, hnew]
      simp only [apiRouting, hkey, if_pos hnew, ne_eq, not_true, if_false, hans]
      exact ensures_respond (MyWebViewSelectClass.selectLine_ensures _ _ _ _)
  · have hans : w.Answerable p ↔ w.table.mDb.Answerable
        (.fromKey (MyWebViewSelectClass.boundText (p.getQueryValue "key")) 30 p.offset) := by
      simp [WebView.Answerable, Request.query, hkey]
    simp only [apiRouting, if_pos hkey, hans]
    exact ensures_respond (MyWebViewSelectClass.selectLine_ensures _ _ _ _)

/-- **Which web requests end the crawler.**  A request is answered with one
response exactly if it runs no query, or its query can be bound, hands the
tokenizer only strings it can scan and meets no error after a row.  Every other
request reaches `MyWin32Out::Exit`. -/
theorem apiRouting_responds_iff (p : Request) (w : WebView) :
    (∃ u w', (apiRouting p).run w = .ok u w' ∧ ∃ response, w'.sent = w.sent ++ [response]) ↔
      ∀ query, p.query = some query → w.table.mDb.Answerable query :=
  (apiRouting_ensures p w).returns_iff

/-- The key is the byte `FF`, which begins no character. -/
def oneByteRequest : Request where
  getQueryValue := fun name => if name = "key" then [0xFF] else []

/-- A web view in front of an empty result.  A key that is one bareword is
handed to the tokenizer as it is. -/
def emptyWebView : WebView where
  table :=
    { mDb :=
        { lengthLimit := 1000000000
          handed := fun key => [key]
          answers := fun n _ => if n % 2 = 0 then .row [91, 93] else .done }
      stmts := fun _ => .prepared .ok }
  sent := []

/-- A request of one byte ends the process. -/
theorem apiRouting_exits : ∃ w', (apiRouting oneByteRequest).run emptyWebView =
    .error (.tokenizeFindUtf8Char "Invalid UTF-8 start byte." 1 0) w' := by
  have htokens : tokens [0xFF] =
      .error (.tokenizeFindUtf8Char "Invalid UTF-8 start byte." 1 0) := by
    rw [tokens, tokenizeTokenizer, tokenizeFrom]
    rfl
  have hstrings : (emptyWebView.table.mDb.strings (.fromKey
      (MyWebViewSelectClass.boundText (oneByteRequest.getQueryValue "key")) 30
      oneByteRequest.offset)).mapM tokens =
        .error (.tokenizeFindUtf8Char "Invalid UTF-8 start byte." 1 0) := by
    have hkey : MyWebViewSelectClass.boundText (oneByteRequest.getQueryValue "key") = [0xFF] := by
      decide
    simp only [emptyWebView, WebEngine.strings, hkey, List.mapM_cons, htokens]
    rfl
  have hrun : Ensures (apiRouting oneByteRequest) emptyWebView (fun _ _ => False) fun exit _ =>
      exit = .tokenizeFindUtf8Char "Invalid UTF-8 start byte." 1 0 := by
    rw [apiRouting, if_pos (by decide), ensures_bind, WebView.onTable, ensures_within,
      MyWebViewSelectClass.selectFromKey, MyWebViewSelectClass.selectLine, ensures_bind,
      MySqliteStmt.ensures_reset, ensures_bind, MyWebViewSelectClass.ensures_bindQuery,
      if_pos (by decide), ensures_bind,
      MySqliteStmt.ensures_stepError_error (by simpa using WebEngine.program_exit hstrings)]
  obtain ⟨exit, w', herr, rfl⟩ := hrun.exits
  exact ⟨w', herr⟩

end BtDht
