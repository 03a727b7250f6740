import BtDht.Data.Relational
import BtDht.MySqliteClass.Library

/-!
# BtDht.MySqliteClass.NewListing

The query `m_select_from_new` of `SqlMy::MyWebViewSelectClass`.  It joins the
two tables, groups by hash and orders the groups by the bare column `f.id`,
which SQL may take from any row of the group.

On a database that holds a library the choice does not matter: the files of a
torrent have ids of their own, all of them below the ids of the torrents
stored later.  The listing is the library from its last torrent to its first,
and pages cut from it lose and repeat nothing.
-/

namespace BtDht

open Relational

/-! ## the query -/

/-- What the query makes of one group: the `json_object` of a torrent. -/
structure TorrentObject where
  hashValue : Bytes
  files : List (Bytes × Int64)
  deriving DecidableEq

namespace Database

/-- `hash_table AS ht JOIN file_table AS f ON ht.id = f.hash_id` -/
def hashFiles (db : Database) : List (HashRow × FileRow) :=
  join (fun ht f => ht.id = f.hashId) db.hashTable db.fileTable

/-- `json_object('hash_value', ht.hash_value, 'files', json_group_array(…))` -/
def torrentObject (g : RowGroup (HashRow × FileRow)) : TorrentObject where
  hashValue := g.bare.1.hashValue
  files := g.rows.map fun r => r.2.entry

/-- The groups of the query in the order it may list them:
`GROUP BY ht.hash_value ORDER BY f.id DESC`. -/
structure IsNewListing (db : Database) (groups : List (RowGroup (HashRow × FileRow))) : Prop where
  grouped : IsGroupBy (fun r => r.1.hashValue) db.hashFiles groups
  ordered : IsOrderedDesc (fun g => g.bare.2.id) groups

/-- What `m_select_from_new` may yield with `LIMIT ?1 OFFSET ?2`. -/
def SelectsNew (db : Database) (count offset : Int) (objects : List TorrentObject) : Prop :=
  ∃ groups, db.IsNewListing groups ∧ objects = (limitOffset count offset groups).map torrentObject

/-- The object shows the torrent; its files may stand in any order. -/
def Shows (object : TorrentObject) (data : TorrentData) : Prop :=
  object.hashValue = data.hash ∧ object.files.Perm data.entries

/-! ## the listing of a library -/

variable {stored : List TorrentData} {db : Database} {groups : List (RowGroup (HashRow × FileRow))}

theorem mem_hashFiles {h : HashRow} {f : FileRow} :
    (h, f) ∈ db.hashFiles ↔ h ∈ db.hashTable ∧ f ∈ db.fileTable ∧ h.id = f.hashId := by
  simp [hashFiles, mem_join]

/-- The files joined to an id are the files of its torrent. -/
theorem filter_fileTable (db : Database) (id : Int) :
    db.fileTable.filter (fun f => id = f.hashId) = db.filesOf id := by
  rw [filesOf]
  congr
  funext f
  exact decide_eq_decide.mpr eq_comm

theorem Holds.nodup_hashTable (h : Holds stored db) : db.hashTable.Nodup :=
  .of_map _ (h.consistent.hashes)

/-- In a library a hash value belongs to one row. -/
theorem Holds.hashRow_eq (h : Holds stored db) {r r' : HashRow} (hr : r ∈ db.hashTable)
    (hr' : r' ∈ db.hashTable) (heq : r.hashValue = r'.hashValue) : r = r' :=
  List.inj_on_of_nodup_map h.consistent.hashes hr hr' heq

/-- A file row with a larger id belongs to a torrent stored no earlier. -/
theorem Holds.hashId_le (h : Holds stored db) {f f' : FileRow} (hf : f ∈ db.fileTable)
    (hf' : f' ∈ db.fileTable) (hle : f.id ≤ f'.id) : f.hashId ≤ f'.hashId := by
  obtain ⟨i, hi, rfl⟩ := List.getElem_of_mem hf
  obtain ⟨j, hj, rfl⟩ := List.getElem_of_mem hf'
  have hlt := List.pairwise_iff_getElem.mp h.fileIds
  rcases Nat.lt_trichotomy i j with hij | rfl | hji
  · exact (hlt i j hi hj hij).2
  · exact Int.le_refl _
  · have := (hlt j i hj hi hji).1
    omega

/-- Every hash row is joined to some file. -/
theorem Holds.any_fileTable (h : Holds stored db) {r : HashRow} (hr : r ∈ db.hashTable) :
    db.fileTable.any fun f => r.id = f.hashId := by
  obtain ⟨f, hf, hid⟩ := h.consistent.fileOfHash r hr
  exact List.any_eq_true.mpr ⟨f, hf, decide_eq_true hid.symm⟩

/-- A group has the files of its torrent. -/
theorem Holds.files_perm (h : Holds stored db) (hl : db.IsNewListing groups)
    {g : RowGroup (HashRow × FileRow)} (hg : g ∈ groups) :
    (g.rows.map Prod.snd).Perm (db.filesOf g.bare.1.id) := by
  rw [← filter_fileTable]
  exact hl.grouped.join_snd_perm h.consistent.hashes hg

/-- There is one group for each hash row. -/
theorem Holds.perm_bare (h : Holds stored db) (hl : db.IsNewListing groups) :
    (groups.map fun g => g.bare.1).Perm db.hashTable := by
  have hperm := hl.grouped.join_bare_perm h.consistent.hashes
  rwa [List.filter_eq_self.mpr fun r hr => h.any_fileTable hr] at hperm

/-- Whatever file each group is ordered by, the hash rows come out from the
last to the first. -/
theorem Holds.map_bare (h : Holds stored db) (hl : db.IsNewListing groups) :
    groups.map (fun g => g.bare.1) = db.hashTable.reverse := by
  have hperm := (h.perm_bare hl).trans (List.reverse_perm db.hashTable).symm
  have hbare : ∀ g ∈ groups, g.bare.2 ∈ db.fileTable ∧ g.bare.1.id = g.bare.2.hashId :=
    fun g hg => (mem_hashFiles.mp (hl.grouped.bare_mem_table hg)).2
  have hsorted : (groups.map fun g => g.bare.1).Pairwise fun r r' => r'.id ≤ r.id := by
    rw [List.pairwise_map]
    refine hl.ordered.imp_of_mem fun {g g'} hg hg' hle => ?_
    rw [(hbare g hg).2, (hbare g' hg').2]
    exact h.hashId_le (hbare g' hg').1 (hbare g hg).1 hle
  have hreverse : db.hashTable.reverse.Pairwise fun r r' => r'.id ≤ r.id := by
    rw [List.pairwise_reverse]
    exact (List.pairwise_map.mp h.hashIds).imp fun hlt => Int.le_of_lt hlt
  have hids : (db.hashTable.map HashRow.id).Nodup := h.hashIds.imp ne_of_lt
  have hanti : ∀ r r', r ∈ groups.map (fun g => g.bare.1) → r' ∈ db.hashTable.reverse →
      r'.id ≤ r.id → r.id ≤ r'.id → r = r' := by
    intro r r' hr hr' hge hle
    have hmem := (h.perm_bare hl).mem_iff.mp hr
    exact List.inj_on_of_nodup_map hids hmem (List.mem_reverse.mp hr') (Int.le_antisymm hle hge)
  exact List.Perm.eq_of_pairwise hanti hsorted hreverse hperm

/-- The listing is the library backwards. -/
theorem Holds.newListing (h : Holds stored db) (hl : db.IsNewListing groups) :
    List.Forall₂ (fun g data => Shows (torrentObject g) data) groups stored.reverse := by
  have hrows := List.rel_reverse h.torrents
  rw [← h.map_bare hl, List.forall₂_map_left_iff] at hrows
  have hboth := (List.forall₂_and_left _ _).mpr ⟨fun g hg => h.files_perm hl hg, hrows⟩
  refine hboth.imp fun g data hg => ⟨hg.2.1, ?_⟩
  have hfiles := hg.1.map FileRow.entry
  rw [hg.2.2, List.map_map] at hfiles
  exact hfiles

/-- There is a listing for every database. -/
theorem exists_newListing (db : Database) : ∃ groups, db.IsNewListing groups := by
  obtain ⟨groups, hgrouped, hordered⟩ := exists_isGroupBy_isOrderedDesc
    (fun r => r.1.hashValue) (fun g => g.bare.2.id) db.hashFiles
  exact ⟨groups, hgrouped, hordered⟩

/-- A page is a page of the library backwards. -/
theorem Holds.selectsNew (h : Holds stored db) {count offset : Nat} {objects : List TorrentObject}
    (hs : db.SelectsNew count offset objects) :
    List.Forall₂ Shows objects ((stored.reverse.drop offset).take count) := by
  obtain ⟨groups, hl, rfl⟩ := hs
  have hcount : ¬ (count : Int) < 0 := by omega
  rw [limitOffset, if_neg hcount, Int.toNat_natCast, Int.toNat_natCast, List.forall₂_map_left_iff]
  exact List.forall₂_take _ (List.forall₂_drop _ (h.newListing hl))

end Database

/-! ## the listing over whole runs -/

namespace MyDataInsertClass

open Database Sqlite

variable {codes : StmtName → ResultCode} {hist : List InsertCall} {r : Run}

/-- **The new torrents first.**  After any calls of `Insert`, whichever row
each group takes its `f.id` from, the listing shows the inserted torrents from
the last to the first, each of them once; and the first `n` pages, each with
choices of its own, show the first `30 * n` torrents of that list. -/
theorem newListing_pages (ht : (system codes).Trace hist r) :
    (r.inserted.map TorrentData.hash).Nodup ∧
      (∃ groups, r.crawler.mDb.db.IsNewListing groups) ∧
      (∀ groups, r.crawler.mDb.db.IsNewListing groups →
        List.Forall₂ Shows (groups.map torrentObject) r.inserted.reverse) ∧
      ∀ (n : Nat) (pages : Nat → List TorrentObject),
        (∀ page < n, r.crawler.mDb.db.SelectsNew 30 (30 * page) (pages page)) →
          List.Forall₂ Shows ((List.range n).flatMap pages) (r.inserted.reverse.take (30 * n)) := by
  have h := (ready_of_trace ht).holds
  refine ⟨h.distinct, exists_newListing _, fun groups hl => ?_, fun n pages hpages => ?_⟩
  · rw [List.forall₂_map_left_iff]
    exact h.newListing hl
  · apply forall₂_pages
    intro page hpage
    exact h.selectsNew (hpages page hpage)

/-- One torrent more than a page has. -/
def manyTorrents : List TorrentData :=
  (List.range 31).map fun n => ⟨[UInt8.ofNat n], [97], 5, []⟩

/-- After the calls for `manyTorrents` and one more with a hash that is there,
two pages show all of them. -/
theorem newListing_pages_manyTorrents :
    ∃ c : Crawler, (system fun _ => .ok).Trace
        (manyTorrents.map undisturbed ++ [undisturbed ⟨[0], [98], 7, []⟩]) ⟨c, manyTorrents⟩ ∧
      (∃ groups, c.mDb.db.IsNewListing groups) ∧
      ∀ first second, c.mDb.db.SelectsNew 30 0 first → c.mDb.db.SelectsNew 30 30 second →
        List.Forall₂ Shows (first ++ second) manyTorrents.reverse := by
  have htext : ∀ data ∈ manyTorrents, ∀ file ∈ data.entries,
      (MySqliteTokenizers.tokens file.1).isOk := by
    simpa [manyTorrents, TorrentData.entries] using fun _ _ => isOk_tokens_a
  obtain ⟨c, ht, -⟩ := exists_trace_undisturbed (fun _ => .ok) manyTorrents (by decide) htext
  obtain ⟨c', ht', -⟩ := exists_trace_of_mem (undisturbed ⟨[0], [98], 7, []⟩) ht
    (by decide) (by decide)
  obtain ⟨-, hex, -, hpages⟩ := newListing_pages ht'
  refine ⟨c', ht', hex, fun first second hfirst hsecond => ?_⟩
  have htwo : ∀ page : Nat, page < 2 → c'.mDb.db.SelectsNew 30 (30 * page)
      (if page = 0 then first else second) := by
    intro page hpage
    obtain rfl | rfl : page = 0 ∨ page = 1 := by omega
    · exact hfirst
    · exact hsecond
  have hshown := hpages 2 (fun page => if page = 0 then first else second) htwo
  have hall : manyTorrents.reverse.take (30 * 2) = manyTorrents.reverse :=
    List.take_of_length_le (by decide)
  rw [hall] at hshown
  simpa [List.range_succ] using hshown

end MyDataInsertClass

end BtDht
