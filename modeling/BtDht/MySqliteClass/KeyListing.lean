import BtDht.MySqliteClass.NewListing

/-!
# BtDht.MySqliteClass.KeyListing

The query `m_select_from_key` of `SqlMy::MyWebViewSelectClass`: four steps from
the rows that match a text to the torrents they belong to.  What `MATCH` finds
is a list of rowids with their ranks.

`filegroupquery` has one row for each torrent with a matching file, so the join
after it neither multiplies files nor drops any; and all rows it gives to a
torrent carry one rank, so `ORDER BY f.rank` does not depend on the row that
the bare column is taken from.
-/

namespace BtDht

open Relational

/-! ## the query -/

/-- A row of `textquery`: a row that matches, with its rank. -/
structure TextRow (ρ : Type*) where
  rowid : Int
  rank : ρ

/-- A row of `filegroupquery`. -/
structure FileGroupRow (ρ : Type*) where
  hashId : Int
  rank : ρ

/-- A row of `fullfilequery`. -/
structure FullFileRow (ρ : Type*) where
  hashId : Int
  name : Bytes
  size : Int64
  rank : ρ

namespace Database

variable {ρ : Type*}

/-- `file_table AS ft JOIN textquery AS tq ON tq.rowid = ft.id` -/
def matchingFiles (db : Database) (textquery : List (TextRow ρ)) : List (FileRow × TextRow ρ) :=
  join (fun ft tq => tq.rowid = ft.id) db.fileTable textquery

/-- `SELECT ft.hash_id, min(tq.rank) AS rank` -/
def fileGroupRow [LinearOrder ρ] (g : RowGroup (FileRow × TextRow ρ)) : FileGroupRow ρ where
  hashId := g.bare.1.hashId
  rank := g.min fun r => r.2.rank

/-- `fullfilequery`: `file_table AS ft JOIN filegroupquery AS fg
ON fg.hash_id = ft.hash_id` -/
def fullfilequery (db : Database) (filegroupquery : List (FileGroupRow ρ)) : List (FullFileRow ρ) :=
  (join (fun ft fg => fg.hashId = ft.hashId) db.fileTable filegroupquery).map
    fun r => ⟨r.1.hashId, r.1.name, r.1.size, r.2.rank⟩

/-- `hash_table AS ht JOIN fullfilequery AS f ON ht.id = f.hash_id` -/
def keyFiles (db : Database) (filegroupquery : List (FileGroupRow ρ)) :
    List (HashRow × FullFileRow ρ) :=
  join (fun ht f => ht.id = f.hashId) db.hashTable (db.fullfilequery filegroupquery)

/-- `json_object('hash_value', ht.hash_value, 'files', json_group_array(…))` -/
def keyObject (g : RowGroup (HashRow × FullFileRow ρ)) : TorrentObject where
  hashValue := g.bare.1.hashValue
  files := g.rows.map fun r => (r.2.name, r.2.size)

/-- The groups of the query in the order it may list them.  `fileGroups` are
those of `filegroupquery`, which is `GROUP BY ft.hash_id`; the query itself is
`GROUP BY ht.hash_value ORDER BY f.rank`. -/
structure IsKeyListing [LinearOrder ρ] (db : Database) (textquery : List (TextRow ρ))
    (fileGroups : List (RowGroup (FileRow × TextRow ρ)))
    (groups : List (RowGroup (HashRow × FullFileRow ρ))) : Prop where
  fileGrouped : IsGroupBy (fun r => r.1.hashId) (db.matchingFiles textquery) fileGroups
  grouped : IsGroupBy (fun r => r.1.hashValue) (db.keyFiles (fileGroups.map fileGroupRow)) groups
  ordered : IsOrdered (fun g => g.bare.2.rank) groups

theorem exists_keyListing [LinearOrder ρ] (db : Database) (textquery : List (TextRow ρ)) :
    ∃ fileGroups groups, db.IsKeyListing textquery fileGroups groups := by
  obtain ⟨fileGroups, hfiles⟩ := exists_isGroupBy (fun r => r.1.hashId) (db.matchingFiles textquery)
  obtain ⟨groups, hgrouped, hordered⟩ := exists_isGroupBy_isOrdered
    (fun r => r.1.hashValue) (fun g => g.bare.2.rank) (db.keyFiles (fileGroups.map fileGroupRow))
  exact ⟨fileGroups, groups, hfiles, hgrouped, hordered⟩

/-! ## what a torrent has that matches -/

/-- The ranks of the rows of one torrent that match. -/
def matchingRanks (db : Database) (textquery : List (TextRow ρ)) (hashId : Int) : Set ρ :=
  {rank | ∃ ft ∈ db.filesOf hashId, ∃ tq ∈ textquery, tq.rowid = ft.id ∧ tq.rank = rank}

/-- The object shows a torrent: all of its files, each once.  The rank is the
smallest among its rows that match. -/
structure ShowsMatching [LinearOrder ρ] (db : Database) (textquery : List (TextRow ρ))
    (object : TorrentObject) (shown : HashRow × ρ) : Prop where
  hashValue_eq : object.hashValue = shown.1.hashValue
  files_perm : object.files.Perm ((db.filesOf shown.1.id).map FileRow.entry)
  rank_least : IsLeast (db.matchingRanks textquery shown.1.id) shown.2

section fileGroups

variable {db : Database} {textquery : List (TextRow ρ)}
  {fileGroups : List (RowGroup (FileRow × TextRow ρ))}

theorem mem_matchingFiles {ft : FileRow} {tq : TextRow ρ} :
    (ft, tq) ∈ db.matchingFiles textquery ↔
      ft ∈ db.fileTable ∧ tq ∈ textquery ∧ tq.rowid = ft.id := by
  rw [matchingFiles, mem_join, decide_eq_true_iff]

/-- What a row of `keyFiles` is made of. -/
theorem mem_keyFiles {filegroupquery : List (FileGroupRow ρ)} {r : HashRow × FullFileRow ρ} :
    r ∈ db.keyFiles filegroupquery ↔ r.1 ∈ db.hashTable ∧ ∃ ft ∈ db.filesOf r.1.id,
      ∃ fg ∈ filegroupquery, fg.hashId = r.1.id ∧ r.2 = ⟨ft.hashId, ft.name, ft.size, fg.rank⟩ := by
  rw [keyFiles, mem_join, decide_eq_true_iff]
  apply and_congr_right
  intro _
  constructor
  · intro hr
    obtain ⟨hin, hid⟩ := hr
    obtain ⟨x, hx, heq⟩ := List.mem_map.mp hin
    obtain ⟨hft, hfg, hkey⟩ := mem_join.mp hx
    rw [← heq] at hid
    have hfile : x.1 ∈ db.filesOf r.1.id := List.mem_filter.mpr ⟨hft, decide_eq_true hid.symm⟩
    exact ⟨x.1, hfile, x.2, hfg, (of_decide_eq_true hkey).trans hid.symm, heq.symm⟩
  · intro hr
    obtain ⟨ft, hfile, fg, hfg, hkey, heq⟩ := hr
    obtain ⟨hft, hhash⟩ := List.mem_filter.mp hfile
    have hid : ft.hashId = r.1.id := of_decide_eq_true hhash
    have hx : (ft, fg) ∈ join (fun ft fg => decide (fg.hashId = ft.hashId)) db.fileTable
        filegroupquery := mem_join.mpr ⟨hft, hfg, decide_eq_true (hkey.trans hid.symm)⟩
    rw [heq]
    exact ⟨List.mem_map_of_mem hx, hid.symm⟩

variable [LinearOrder ρ]

/-- `filegroupquery` has the smallest rank of each torrent that has one. -/
theorem isLeast_fileGroupRow
    (h : IsGroupBy (fun r => r.1.hashId) (db.matchingFiles textquery) fileGroups)
    {g : RowGroup (FileRow × TextRow ρ)} (hg : g ∈ fileGroups) :
    IsLeast (db.matchingRanks textquery (fileGroupRow g).hashId) (fileGroupRow g).rank := by
  have hranks : db.matchingRanks textquery (fileGroupRow g).hashId =
      {rank | ∃ r ∈ g.rows, r.2.rank = rank} := by
    ext rank
    constructor
    · intro hrank
      obtain ⟨ft, hft, tq, htq, hid, heq⟩ := hrank
      obtain ⟨hfile, hhash⟩ := List.mem_filter.mp hft
      have hmem : (ft, tq) ∈ db.matchingFiles textquery := mem_matchingFiles.mpr ⟨hfile, htq, hid⟩
      exact ⟨(ft, tq), (h.mem_rows hg).mpr ⟨hmem, of_decide_eq_true hhash⟩, heq⟩
    · intro hrank
      obtain ⟨r, hr, heq⟩ := hrank
      obtain ⟨hmem, hhash⟩ := (h.mem_rows hg).mp hr
      obtain ⟨hfile, htq, hid⟩ := mem_matchingFiles.mp hmem
      exact ⟨r.1, List.mem_filter.mpr ⟨hfile, decide_eq_true hhash⟩, r.2, htq, hid, heq⟩
  rw [hranks]
  exact g.isLeast_min fun r => r.2.rank

/-- It has a row for every torrent with a row that matches. -/
theorem exists_fileGroupRow
    (h : IsGroupBy (fun r => r.1.hashId) (db.matchingFiles textquery) fileGroups) {hashId : Int}
    (hne : (db.matchingRanks textquery hashId).Nonempty) :
    ∃ fg ∈ fileGroups.map fileGroupRow, fg.hashId = hashId := by
  obtain ⟨rank, ft, hft, tq, htq, hid, -⟩ := hne
  obtain ⟨hfile, hhash⟩ := List.mem_filter.mp hft
  obtain ⟨g, hg, hr⟩ := h.exists_group (mem_matchingFiles.mpr ⟨hfile, htq, hid⟩)
  have hkey : ft.hashId = g.bare.1.hashId := h.same g hg _ hr
  exact ⟨fileGroupRow g, List.mem_map_of_mem hg, hkey.symm.trans (of_decide_eq_true hhash)⟩

theorem nodup_fileGroupRow
    (h : IsGroupBy (fun r => r.1.hashId) (db.matchingFiles textquery) fileGroups) :
    ((fileGroups.map fileGroupRow).map FileGroupRow.hashId).Nodup := by
  rw [List.map_map]
  exact h.distinct

/-- `fullfilequery` has every file of a torrent in it, once. -/
theorem filter_fullfilequery
    (h : IsGroupBy (fun r => r.1.hashId) (db.matchingFiles textquery) fileGroups)
    {fg : FileGroupRow ρ} (hfg : fg ∈ fileGroups.map fileGroupRow) :
    (db.fullfilequery (fileGroups.map fileGroupRow)).filter (fun f => fg.hashId = f.hashId) =
      (db.filesOf fg.hashId).map fun ft => ⟨ft.hashId, ft.name, ft.size, fg.rank⟩ := by
  have hone : ∀ ft ∈ db.filesOf fg.hashId,
      (fileGroups.map fileGroupRow).filter (fun fg => fg.hashId = ft.hashId) = [fg] := by
    intro ft hft
    have hhash : ft.hashId = fg.hashId := of_decide_eq_true (List.mem_filter.mp hft).2
    rw [hhash]
    exact filter_key_eq_singleton (nodup_fileGroupRow h) hfg
  have hfilter : (join (fun ft fg => decide (fg.hashId = ft.hashId)) db.fileTable
      (fileGroups.map fileGroupRow)).filter (fun x => fg.hashId = x.1.hashId) =
      (db.filesOf fg.hashId).map (·, fg) := by
    rw [filter_join (fun ft : FileRow => fg.hashId = ft.hashId), filter_fileTable, join_eq_map hone]
  rw [fullfilequery, List.filter_map]
  show (List.filter (fun x : FileRow × FileGroupRow ρ => fg.hashId = x.1.hashId) _).map _ = _
  rw [hfilter, List.map_map]
  rfl

end fileGroups

/-! ## the listing of a library -/

section listing

variable [LinearOrder ρ] {stored : List TorrentData} {db : Database} {textquery : List (TextRow ρ)}
  {fileGroups : List (RowGroup (FileRow × TextRow ρ))}
  {groups : List (RowGroup (HashRow × FullFileRow ρ))}

/-- Each group is a whole torrent, and any of its rows has the rank it is to
be ordered by. -/
theorem Holds.showsMatching (h : Holds stored db)
    (hl : db.IsKeyListing textquery fileGroups groups) {g : RowGroup (HashRow × FullFileRow ρ)}
    (hg : g ∈ groups) :
    db.ShowsMatching textquery (keyObject g) (g.bare.1, g.bare.2.rank) := by
  obtain ⟨-, ft, -, fg, hfg, hid, heq⟩ := mem_keyFiles.mp (hl.grouped.bare_mem_table hg)
  refine ⟨rfl, ?_, ?_⟩
  · have hrows := hl.grouped.join_snd_perm h.consistent.hashes hg
    rw [← hid, filter_fullfilequery hl.fileGrouped hfg] at hrows
    have hentries := hrows.map fun f => (f.name, f.size)
    rw [List.map_map, List.map_map, hid] at hentries
    exact hentries
  · obtain ⟨g', hg', rfl⟩ := List.mem_map.mp hfg
    have hleast := isLeast_fileGroupRow hl.fileGrouped hg'
    rw [heq]
    rwa [hid] at hleast

/-- The torrents with a row that matches have a group, and no others. -/
theorem Holds.mem_keyBare (h : Holds stored db) (hl : db.IsKeyListing textquery fileGroups groups)
    (row : HashRow) : row ∈ groups.map (fun g => g.bare.1) ↔
      row ∈ db.hashTable ∧ (db.matchingRanks textquery row.id).Nonempty := by
  constructor
  · intro hrow
    obtain ⟨g, hg, rfl⟩ := List.mem_map.mp hrow
    exact ⟨(mem_keyFiles.mp (hl.grouped.bare_mem_table hg)).1,
      (h.showsMatching hl hg).rank_least.nonempty⟩
  · intro hrow
    obtain ⟨hin, hne⟩ := hrow
    obtain ⟨fg, hfg, hid⟩ := exists_fileGroupRow hl.fileGrouped hne
    obtain ⟨rank, ft, hft, -⟩ := hne
    have hr : (row, ⟨ft.hashId, ft.name, ft.size, fg.rank⟩) ∈
        db.keyFiles (fileGroups.map fileGroupRow) :=
      mem_keyFiles.mpr ⟨hin, ft, hft, fg, hfg, hid, rfl⟩
    obtain ⟨g, hg, hr⟩ := hl.grouped.exists_group hr
    have hbare := (mem_keyFiles.mp (hl.grouped.bare_mem_table hg)).1
    have heq : row = g.bare.1 := h.hashRow_eq hin hbare (hl.grouped.same g hg _ hr)
    exact List.mem_map.mpr ⟨g, hg, heq.symm⟩

end listing

end Database

/-! ## the listing over whole runs -/

namespace MyDataInsertClass

open Database Sqlite

variable {codes : StmtName → ResultCode} {hist : List InsertCall} {r : Run}

/-- **Keyword search returns whole torrents once.**  After any calls of
`Insert`, whatever rows `MATCH` yields with whatever ranks, and whichever rows
the groups take their bare columns from: the list shows exactly the torrents
with a row that matches, each once and with all of its files, by their
smallest rank. -/
theorem keyListing_whole_torrents (ht : (system codes).Trace hist r) {ρ : Type*} [LinearOrder ρ]
    (textquery : List (TextRow ρ)) :
    (∃ fileGroups groups, r.crawler.mDb.db.IsKeyListing textquery fileGroups groups) ∧
      ∀ fileGroups groups, r.crawler.mDb.db.IsKeyListing textquery fileGroups groups →
        ∃ shown : List (HashRow × ρ), (shown.map Prod.fst).Nodup ∧
          (∀ row, row ∈ shown.map Prod.fst ↔ row ∈ r.crawler.mDb.db.hashTable ∧
            (r.crawler.mDb.db.matchingRanks textquery row.id).Nonempty) ∧
          List.Forall₂ (r.crawler.mDb.db.ShowsMatching textquery) (groups.map keyObject) shown ∧
          shown.Pairwise fun a b => a.2 ≤ b.2 := by
  have h := (ready_of_trace ht).holds
  refine ⟨exists_keyListing _ _, fun fileGroups groups hl => ?_⟩
  have hfst : (groups.map fun g => (g.bare.1, g.bare.2.rank)).map Prod.fst =
      groups.map fun g => g.bare.1 := by
    rw [List.map_map]
    rfl
  refine ⟨groups.map fun g => (g.bare.1, g.bare.2.rank), ?_, ?_, ?_, ?_⟩
  · rw [hfst]
    have hnd : ((groups.map fun g => g.bare.1).map HashRow.hashValue).Nodup := by
      rw [List.map_map]
      exact hl.grouped.distinct
    exact hnd.of_map
  · rw [hfst]
    exact h.mem_keyBare hl
  · rw [List.forall₂_map_left_iff, List.forall₂_map_right_iff, List.forall₂_same]
    exact fun g hg => h.showsMatching hl hg
  · exact List.pairwise_map.mpr hl.ordered

/-- The rows of `oneFile` and `twoFiles` that match the key `a`. -/
def rowsWithA : List (TextRow Int) := [⟨1, -1⟩, ⟨2, -2⟩, ⟨3, -1⟩, ⟨4, -4⟩, ⟨5, -3⟩]

/-- Two torrents that match by two and by three rows are shown once each. -/
theorem keyListing_whole_twoFiles :
    ∃ c : Crawler, (system fun _ => .ok).Trace ([oneFile, twoFiles].map undisturbed)
        ⟨c, [oneFile, twoFiles]⟩ ∧
      (∃ fileGroups groups, c.mDb.db.IsKeyListing rowsWithA fileGroups groups) ∧
      ∀ fileGroups groups, c.mDb.db.IsKeyListing rowsWithA fileGroups groups →
        ∃ shown : List (HashRow × Int), (shown.map Prod.fst).Nodup ∧
          (∀ row, row ∈ shown.map Prod.fst ↔
            row ∈ [(⟨1, oneFile.hash⟩ : HashRow), ⟨2, twoFiles.hash⟩]) ∧
          List.Forall₂ (c.mDb.db.ShowsMatching rowsWithA) (groups.map keyObject) shown ∧
          shown.Pairwise fun a b => a.2 ≤ b.2 := by
  obtain ⟨c, ht, hdb⟩ := trace_twoTorrents
  obtain ⟨hex, hlisting⟩ := keyListing_whole_torrents ht rowsWithA
  have hrows : c.mDb.db.hashTable = [⟨1, oneFile.hash⟩, ⟨2, twoFiles.hash⟩] := by
    rw [hdb]
    decide
  have hone : ⟨1, 1, [97], 5⟩ ∈ c.mDb.db.filesOf 1 := by
    rw [hdb]
    decide
  have htwo : ⟨3, 2, [97, 98], 7⟩ ∈ c.mDb.db.filesOf 2 := by
    rw [hdb]
    decide
  refine ⟨c, ht, hex, fun fileGroups groups hl => ?_⟩
  obtain ⟨shown, hnd, hmem, hshows⟩ := hlisting fileGroups groups hl
  refine ⟨shown, hnd, fun row => ⟨fun hin => ?_, fun hin => ?_⟩, hshows⟩
  · exact hrows ▸ ((hmem row).mp hin).1
  · refine (hmem row).mpr ⟨hrows ▸ hin, ?_⟩
    simp only [List.mem_cons, List.not_mem_nil, or_false] at hin
    rcases hin with rfl | rfl
    · exact ⟨-1, _, hone, ⟨1, -1⟩, by simp [rowsWithA], rfl, rfl⟩
    · exact ⟨-1, _, htwo, ⟨3, -1⟩, by simp [rowsWithA], rfl, rfl⟩

end MyDataInsertClass

end BtDht
