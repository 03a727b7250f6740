import BtDht.Data.Paging
import BtDht.MyWebView.Pages
import BtDht.MyWebView.Serves

/-!
# BtDht.MyWebView.GrowingPages

Paging through the new torrents while the crawler goes on.  Each page is a
request of its own, and between two of them torrents come in, or the crawler
may even crash and start again.  The listing has its newest torrent first, so
what comes in pushes the rest towards later pages: a torrent may be shown twice,
but it is not skipped (`pages_skip_nothing`).
-/

namespace BtDht

open Sqlite Database Stepwise

/-- The request for page `i` of the new torrents. -/
structure AsksNew (p : Request) (i : Nat) : Prop where
  key_eq : p.getQueryValue "key" = []
  new_ne : p.getQueryValue "new" ≠ []
  page_eq : p.page = i

variable {codes : StmtName → ResultCode} {ρ : Type} [LinearOrder ρ]
  {json : List TorrentObject → Bytes}

/-- **Paging skips nothing.**  Pages `0` to `n - 1` of the new torrents are asked
for one after the other, at moments of one run of the crawler.  Each torrent
that was inserted at the first of them is shown on one of the pages, if those
inserted since have not pushed it beyond the last one. -/
theorem pages_skip_nothing {n : Nat} (hn : 30 * n < 2 ^ 63) {hist : Nat → List Occurrence}
    {m : Nat → Moment} {w : Nat → WebView} {p : Nat → Request}
    (ht : ∀ i < n, (Stepwise.system codes).Trace (hist i) (m i))
    (hnext : ∀ i, i + 1 < n → hist i <+: hist (i + 1))
    (hr : ∀ i < n, (w i).table.mDb.Reads ρ json (m i).committed)
    (hp : ∀ i < n, AsksNew (p i) i) :
    ∃ objects : Nat → List TorrentObject,
      (∀ i < n, Responds (p i) (w i) (.jsonContent (json (objects i)))) ∧
      ∀ k data, (m 0).inserted.reverse[k]? = some data →
        k + ((m (n - 1)).inserted.length - (m 0).inserted.length) < 30 * n →
        ∃ i < n, ∃ o ∈ objects i, Shows o data := by
  have hpage : ∀ i, ∃ objects, i < n → Responds (p i) (w i) (.jsonContent (json objects)) ∧
      List.Forall₂ Shows objects (((m i).inserted.reverse.drop (30 * i)).take 30) := by
    intro i
    by_cases hi : i < n
    · obtain ⟨objects, hresponds, hshows⟩ :=
        (sound_of_trace (ht i hi)).committed.holds.responds_new (hr i hi) (hp i hi).key_eq
          (hp i hi).new_ne
      have hoffset : (p i).offset = (30 * i : Nat) := by
        rw [offset_eq_of_lt (by rw [(hp i hi).page_eq]; omega), (hp i hi).page_eq]
      rw [hoffset, Int.toNat_natCast] at hshows
      exact ⟨objects, fun _ => ⟨hresponds, hshows⟩⟩
    · exact ⟨[], fun h => absurd h hi⟩
  choose objects hobjects using hpage
  refine ⟨objects, fun i hi => (hobjects i hi).1, fun k data hdata hlast => ?_⟩
  have hgrows : ∀ i, i + 1 < n → (m i).inserted.reverse <:+ (m (i + 1)).inserted.reverse := by
    intro i hi
    obtain ⟨between, hbetween⟩ := hnext i hi
    have ht' := ht (i + 1) hi
    rw [← hbetween] at ht'
    have hgrown : Grown (m i) (m (i + 1)) := (ht i (by omega)).stretch Grown .refl .trans
      (fun _ _ _ _ hm ha hs => ((sound_of_trace hm).step ha hs).2) ht'
    exact List.reverse_suffix.mpr hgrown.inserted
  obtain ⟨i, hi, hin⟩ := Paging.mem_some_page hgrows hdata (by simpa using hlast)
  obtain ⟨o, ho, hshows⟩ := exists_mem_of_forall₂ (hobjects i hi).2.flip hin
  exact ⟨i, hi, o, ho, hshows⟩

/-- A request for a page of the new torrents. -/
def newPage (page : Nat) : Request where
  getQueryValue := fun name =>
    if name = "page" then toChars page 10 else if name = "new" then [49] else []

theorem asksNew_newPage {page : Nat} (h : page < 2 ^ 64) : AsksNew (newPage page) page where
  key_eq := rfl
  new_ne := List.cons_ne_nil _ _
  page_eq := by
    have hvalue : (newPage page).getQueryValue "page" = toChars page 10 := rfl
    rw [Request.page, hvalue, parseNumber, fromChars_toChars h]

/-- What is `a` at the first request and `b` from the second on. -/
def atRequest {α : Type*} (a b : α) : Nat → α
  | 0 => a
  | _ => b

theorem forall_atRequest {P : Nat → Prop} (h0 : P 0) (h1 : P 1) : ∀ i < 2, P i
  | 0, _ => h0
  | 1, _ => h1

/-- Between the two pages `twoFiles` comes in, and the crawler crashes. -/
theorem pages_skip_nothing_crash : ∃ (m m' : Moment) (w w' : WebView)
    (objects : Nat → List TorrentObject), m.inserted = [MyDataInsertClass.oneFile] ∧
      m'.inserted = [MyDataInsertClass.oneFile, MyDataInsertClass.twoFiles] ∧
      (∀ i < 2, Responds (newPage i) (atRequest w w' i) (.jsonContent (torrentsJson (objects i)))) ∧
      ∃ i < 2, ∃ o ∈ objects i, Shows o MyDataInsertClass.oneFile := by
  obtain ⟨hist, between, m, m', ht, -, hm, ht', -, -, hm', -⟩ := exists_crash
  obtain ⟨e, he, -⟩ := (sound_of_trace ht).committed.holds.exists_reads torrentsJson_text
  obtain ⟨e', he', -⟩ := (sound_of_trace ht').committed.holds.exists_reads torrentsJson_text
  have hruns : ∀ i < 2, (Stepwise.system fun _ => .ok).Trace (atRequest hist (hist ++ between) i)
      (atRequest m m' i) := forall_atRequest ht ht'
  have hnext : ∀ i, i + 1 < 2 →
      atRequest hist (hist ++ between) i <+: atRequest hist (hist ++ between) (i + 1) := by
    intro i hi
    obtain rfl : i = 0 := by omega
    exact List.prefix_append hist _
  have hreads : ∀ i < 2, (atRequest (⟨⟨e, fun _ => .prepared .ok⟩, []⟩ : WebView)
      ⟨⟨e', fun _ => .prepared .ok⟩, []⟩ i).table.mDb.Reads Int torrentsJson
        (atRequest m m' i).committed := forall_atRequest he he'
  obtain ⟨objects, hresponds, hshown⟩ := pages_skip_nothing (by decide) hruns hnext hreads
    fun i hi => asksNew_newPage (by omega)
  refine ⟨m, m', _, _, objects, hm, hm', hresponds, hshown 0 _ ?_ ?_⟩
  · simp [atRequest, hm]
  · simp [atRequest, hm, hm']

end BtDht
