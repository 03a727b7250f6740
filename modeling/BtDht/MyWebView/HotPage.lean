import BtDht.MyDhtRecord.AlertLoop
import BtDht.MyWebView.Serves

/-!
# BtDht.MyWebView.HotPage

What a request for the hot torrents is answered with between two alerts.  The
listing joins what the alerts counted to what the metadata brought, and both
go by the key of `GetHash16String`.  Alerts have v1 hashes only, so a torrent
without one can be stored, found and listed as new, but it is never hot.
-/

namespace BtDht

open Sqlite Database Relational AlertLoop

/-- What the web view relies on for the hot listing of the content `db`: the
query yields one row, the text `json` makes of the selected objects, and is
then done. -/
structure WebEngine.ReadsHot (json : List HotObject → Bytes) (db : Database) (e : WebEngine) :
    Prop where
  json_text : ∀ objects, 0 ∉ json objects
  fromHot : ∀ count offset, ∃ groups, db.IsHotListing groups ∧
    e.answers 0 (.fromHot count offset) =
      .row (json ((limitOffset count offset groups).map hotObject)) ∧
    e.answers 1 (.fromHot count offset) = .done

variable {w : WebView} {p : Request} {codes : StmtName → ResultCode} {db : Database}
  {stored : List TorrentData} {hist : List Delivery} {s : DhtRecord} {json : List HotObject → Bytes}

/-- A torrent without a v1 hash has the key of no alert. -/
theorem hashKey_ne_of_not_hasV1 {info : TorrentInfo} (h : info.infoHashes.hasV1 = false)
    (hash : Sha1Hash) : hashKey hash ≠ (BtFunc.getTorrentData info).hash := by
  intro heq
  have hlen := congrArg List.length heq
  rw [BtFunc.length_hash, h, hashKey, BtFunc.length_getHash16String, hash.size_eq] at hlen
  simp at hlen

/-- **The hot page.**  Between any two alerts of a run of the loop, the response
to a request for the hot torrents shows up to 30 objects, from the offset of the
request on, of a list that has exactly the torrents of the library whose hashes
were counted, by non-increasing count.  No torrent without a v1 hash is in it. -/
theorem serves_hot (hstored : db.Holds stored) (hi : db.Indexed)
    (ht : (AlertLoop.system db codes).Trace hist s)
    (hr : w.table.mDb.ReadsHot json s.counttable.mDb.db) (hkey : p.getQueryValue "key" = [])
    (hnew : p.getQueryValue "new" = []) (hhot : p.getQueryValue "hot" ≠ []) :
    ∃ (library : List TorrentData) (objects : List HotObject), Collected stored hist library ∧
      ShowsHot library ((hist.filterMap Delivery.counted).map hashKey) objects ∧
      Responds p w (.jsonContent (json ((objects.drop p.offset.toNat).take 30))) ∧
      ∀ info : TorrentInfo, info.infoHashes.hasV1 = false →
        (BtFunc.getTorrentData info).hash ∉ objects.map HotObject.hashValue := by
  have h := loop_of_trace hstored hi ht
  obtain ⟨library, hcol, hholds⟩ := h.library
  obtain ⟨groups, hl, h0, h1⟩ := hr.fromHot 30 p.offset
  have hshows := hholds.showsHot h.tallies hl
  have hselect : Ensures (MyWebViewSelectClass.selectHotLine 30 p.offset []) w.table
      (fun r _ => r = (true, json (((groups.map hotObject).drop p.offset.toNat).take 30)))
      fun _ _ => False := by
    rw [limitOffset_page, List.map_take, List.map_drop] at h0
    exact MyWebViewSelectClass.selectLine_row _ _ _ _ (by simp [Query.text])
      (by simp [WebEngine.strings]) h0 h1 (hr.json_text _)
  have hp : apiRouting p = WebView.onTable (MyWebViewSelectClass.selectHotLine 30 p.offset []) >>=
      WebView.respond := by
    simp only [apiRouting, hkey, hnew, if_pos hhot, ne_eq, not_true, if_false]
  refine ⟨library, groups.map hotObject, hcol, hshows, responds_of_row hp hselect, ?_⟩
  intro info hv2 hin
  obtain ⟨hash, -, heq⟩ := List.mem_map.mp ((hshows.hashes _).mp hin).1
  exact hashKey_ne_of_not_hasV1 hv2 hash heq

/-- Every content can be read. -/
theorem exists_readsHot (db : Database) (hjson : ∀ objects, 0 ∉ json objects) :
    ∃ e : WebEngine, e.ReadsHot json db := by
  obtain ⟨groups, hl⟩ := exists_hotListing db
  refine ⟨⟨1000000000, fun _ => [], fun n query =>
    if n = 0 then .row (json (match query with
      | .fromHot count offset => (limitOffset count offset groups).map hotObject
      | _ => []))
    else .done⟩, hjson, fun count offset => ⟨groups, hl, rfl, rfl⟩⟩

/-- The JSON of a list that is empty or has the torrent of `oneHist`. -/
def oneHotJson (objects : List HotObject) : Bytes :=
  if objects = [] then "[]".toUTF8.data.toList
  else ("[\x7b\"hash_value\":\"0101010101010101010101010101010101010101\",\"count\":1,\"files\":" ++
    "[\x7b\"name\":\"a\",\"size\":5\x7d,\x7b\"name\":\"a\",\"size\":5\x7d]\x7d]").toUTF8.data.toList

theorem serves_hot_oneHist : ∃ (s : DhtRecord) (w : WebView) (library : List TorrentData)
    (objects : List HotObject), (AlertLoop.system .empty fun _ => .ok).Trace oneHist s ∧
      ShowsHot library ((oneHist.filterMap Delivery.counted).map hashKey) objects ∧
      Responds (queryFor "hot" [49]) w
        (.jsonContent (oneHotJson ((objects.drop (queryFor "hot" [49]).offset.toNat).take 30))) := by
  have hjson : ∀ objects, 0 ∉ oneHotJson objects := by
    intro objects
    unfold oneHotJson
    split <;> decide
  obtain ⟨s, ht⟩ := trace_oneHist
  obtain ⟨e, he⟩ := exists_readsHot s.counttable.mDb.db hjson
  obtain ⟨library, objects, -, hshows, hresponds, -⟩ :=
    serves_hot (w := ⟨⟨e, fun _ => .prepared .ok⟩, []⟩) (p := queryFor "hot" [49])
      holds_empty indexed_empty ht he (by decide) (by decide) (by decide)
  exact ⟨s, _, library, objects, ht, hshows, hresponds⟩

end BtDht
