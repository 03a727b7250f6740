import BtDht.Data.Relational
import BtDht.MyWebView

/-!
# BtDht.MyWebView.Pages

The page arithmetic of `APIRouting`.  The page is read as a `size_t`, cast to
`int64_t` and multiplied by 30; of these steps only the reading checks a range.
So the offset is exact while `30 * page` is below `2 ^ 63`
(`exactOffset_iff`), and from there on it is not the offset of the page: the
last page that can be asked for has an offset of -30, which the database takes
for 0.
-/

namespace BtDht

open Sqlite Relational

namespace Request

/-- The page that is asked for: 0 if there is no number or it does not fit. -/
def page (p : Request) : Nat := (parseNumber (p.getQueryValue "page") 0).2

end Request

open WebView MyWebViewSelectClass in
/-- `APIRouting` once it has its `count` and its `offset`. -/
def routeWindow (p : Request) (count offset : Int) : Process WebView Exit PUnit := do
  if p.getQueryValue "key" ≠ [] then
    respond (← onTable (selectFromKey (p.getQueryValue "key") count offset []))
  else if p.getQueryValue "new" ≠ [] then
    respond (← onTable (selectNewLine count offset []))
  else if p.getQueryValue "hot" ≠ [] then
    respond (← onTable (selectHotLine count offset []))
  else
    send .notFound

/-- The handler passes the window on as it has computed it. -/
theorem apiRouting_eq_routeWindow (p : Request) : apiRouting p = routeWindow p 30 p.offset := rfl

/-- The offset of the request is that of its page. -/
structure ExactOffset (p : Request) : Prop where
  /-- `(int64_t)page` keeps the value -/
  cast_eq : int64 p.page = p.page
  /-- `count*((int64_t)page)` does not overflow -/
  no_overflow : -2 ^ 63 ≤ 30 * int64 p.page ∧ 30 * int64 p.page < 2 ^ 63
  offset_eq : p.offset = 30 * p.page
  offset_nonneg : 0 ≤ p.offset
  /-- what the `Select` functions are called with -/
  passed : apiRouting p = routeWindow p 30 (30 * p.page)

/-! ## exact offsets -/

theorem offset_eq_of_lt {p : Request} (h : 30 * p.page < 2 ^ 63) : p.offset = (30 * p.page : Nat) := by
  have hcast : int64 p.page = p.page := int64_eq_self (by omega) (by omega)
  show int64 (30 * int64 p.page) = _
  rw [hcast, int64_eq_self (by omega) (by omega)]
  omega

theorem exactOffset_iff (p : Request) : ExactOffset p ↔ 30 * p.page < 2 ^ 63 := by
  constructor
  · intro h
    have hlt := h.no_overflow.2
    rw [h.cast_eq] at hlt
    omega
  · intro h
    have hcast : int64 p.page = p.page := int64_eq_self (by omega) (by omega)
    have hoffset : p.offset = 30 * p.page := by
      rw [offset_eq_of_lt h]
      omega
    constructor
    · exact hcast
    · rw [hcast]
      omega
    · exact hoffset
    · omega
    · rw [apiRouting_eq_routeWindow, hoffset]

/-- **Page arithmetic.**  The cast, the product and so the offset of a request
are exact, and its window has no row in common with that of another page whose
offset is exact, if and only if `30 * page` is below `2 ^ 63`. -/
theorem page_arithmetic_exact_iff (p : Request) :
    (ExactOffset p ∧ ∀ q, ExactOffset q → p.page ≠ q.page →
      ∀ {α : Type} (rows : List α), rows.Nodup →
        List.Disjoint (limitOffset 30 p.offset rows) (limitOffset 30 q.offset rows)) ↔
      30 * p.page < 2 ^ 63 := by
  constructor
  · intro h
    exact (exactOffset_iff p).mp h.1
  · intro hp
    refine ⟨(exactOffset_iff p).mpr hp, fun q hq hne α rows hnd => ?_⟩
    rw [offset_eq_of_lt hp, offset_eq_of_lt ((exactOffset_iff q).mp hq)]
    exact disjoint_limitOffset hnd hne

/-- A request for a page of the hot torrents. -/
def hotPage (page : Nat) : Request where
  getQueryValue := fun name =>
    if name = "page" then toChars page 10 else if name = "hot" then [49] else []

theorem page_hotPage {page : Nat} (h : page < 2 ^ 64) : (hotPage page).page = page := by
  have hvalue : (hotPage page).getQueryValue "page" = toChars page 10 := rfl
  rw [Request.page, hvalue, parseNumber, fromChars_toChars h]

/-- The last page that can be asked for has the offset -30 and the rows of the
first page. -/
theorem last_page_is_first :
    (hotPage (2 ^ 64 - 1)).page = 2 ^ 64 - 1 ∧ (hotPage (2 ^ 64 - 1)).offset = -30 ∧
    ¬ ExactOffset (hotPage (2 ^ 64 - 1)) ∧ (hotPage 0).page = 0 ∧
    limitOffset 30 (hotPage (2 ^ 64 - 1)).offset [1, 2] =
      limitOffset 30 (hotPage 0).offset [1, 2] ∧
    limitOffset 30 (hotPage 0).offset [1, 2] = [1, 2] := by
  have hlast : (hotPage (2 ^ 64 - 1)).page = 2 ^ 64 - 1 := page_hotPage (by decide)
  have hfirst : (hotPage 0).page = 0 := page_hotPage (by decide)
  have hoffset : (hotPage (2 ^ 64 - 1)).offset = -30 := by
    show int64 (30 * int64 (hotPage (2 ^ 64 - 1)).page) = -30
    rw [hlast]
    decide
  have hoffset' : (hotPage 0).offset = 0 := by
    show int64 (30 * int64 (hotPage 0).page) = 0
    rw [hfirst]
    decide
  refine ⟨hlast, hoffset, ?_, hfirst, ?_, ?_⟩
  · intro h
    have hnonneg := h.offset_nonneg
    rw [hoffset] at hnonneg
    omega
  · rw [hoffset, hoffset']
    decide
  · rw [hoffset']
    decide

end BtDht
