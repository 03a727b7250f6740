import BtDht.MySqliteClass.HashCount
import BtDht.MySqliteClass.NewListing

/-!
# BtDht.MySqliteClass.HotListing

The query `m_select_from_hot` of `SqlMy::MyWebViewSelectClass`.  It joins the
counts to the hashes by their text, the result to the files, and groups by
hash.

Hash values are distinct in both tables, so the first join has at most one row
for each of them and nothing is multiplied: the listing has one object for
each hash that is both counted and stored.
-/

namespace BtDht

open Relational

/-! ## the query -/

/-- A row of `hot_subquery`. -/
structure HotRow where
  id : Int
  hashValue : Bytes
  count : Int
  deriving DecidableEq

/-- What the query makes of one group: its `json_object`. -/
structure HotObject where
  hashValue : Bytes
  count : Int
  files : List (Bytes × Int64)
  deriving DecidableEq

namespace Database

/-- `hot_subquery`: `hash_count_table AS hct JOIN hash_table AS ht
ON ht.hash_value = hct.hash_value` -/
def hotSubquery (db : Database) : List HotRow :=
  (join (fun hct ht => ht.hashValue = hct.hashValue) db.hashCountTable db.hashTable).map
    fun r => ⟨r.2.id, r.2.hashValue, r.1.count⟩

/-- `hot_subquery AS ht JOIN file_table AS f ON ht.id = f.hash_id` -/
def hotFiles (db : Database) : List (HotRow × FileRow) :=
  join (fun ht f => ht.id = f.hashId) db.hotSubquery db.fileTable

/-- `json_object('hash_value', ht.hash_value, 'count', ht.count,
'files', json_group_array(…))` -/
def hotObject (g : RowGroup (HotRow × FileRow)) : HotObject where
  hashValue := g.bare.1.hashValue
  count := g.bare.1.count
  files := g.rows.map fun r => r.2.entry

/-- The groups of the query in the order it may list them:
`GROUP BY ht.hash_value ORDER BY ht.count DESC`. -/
structure IsHotListing (db : Database) (groups : List (RowGroup (HotRow × FileRow))) : Prop where
  grouped : IsGroupBy (fun r => r.1.hashValue) db.hotFiles groups
  ordered : IsOrderedDesc (fun g => g.bare.1.count) groups

theorem exists_hotListing (db : Database) : ∃ groups, db.IsHotListing groups := by
  obtain ⟨groups, hgrouped, hordered⟩ := exists_isGroupBy_isOrderedDesc
    (fun r => r.1.hashValue) (fun g => g.bare.1.count) db.hotFiles
  exact ⟨groups, hgrouped, hordered⟩

/-! ## the listing of a library that is counted -/

/-- The objects show the torrents of `stored` whose hashes are among `keys`,
with their counts. -/
structure ShowsHot (stored : List TorrentData) (keys : List Bytes) (objects : List HotObject) :
    Prop where
  distinct : (objects.map HotObject.hashValue).Nodup
  hashes : ∀ v, v ∈ objects.map HotObject.hashValue ↔ v ∈ keys ∧ v ∈ stored.map TorrentData.hash
  counts : ∀ o ∈ objects, o.count = keys.count o.hashValue
  files : ∀ o ∈ objects, ∃ data, stored.find? (fun data => data.hash = o.hashValue) = some data ∧
    o.files.Perm data.entries
  ordered : IsOrderedDesc HotObject.count objects

variable {stored : List TorrentData} {keys : List Bytes} {db : Database}
  {groups : List (RowGroup (HotRow × FileRow))}

theorem mem_hotSubquery {row : HotRow} :
    row ∈ db.hotSubquery ↔ ∃ hct ∈ db.hashCountTable, ∃ ht ∈ db.hashTable,
      ht.hashValue = hct.hashValue ∧ row = ⟨ht.id, ht.hashValue, hct.count⟩ := by
  constructor
  · intro hrow
    obtain ⟨r, hr, rfl⟩ := List.mem_map.mp hrow
    obtain ⟨hcount, hhash, heq⟩ := mem_join.mp hr
    exact ⟨r.1, hcount, r.2, hhash, of_decide_eq_true heq, rfl⟩
  · intro hrow
    obtain ⟨hct, hcount, ht, hhash, heq, rfl⟩ := hrow
    exact List.mem_map.mpr ⟨(hct, ht), mem_join.mpr ⟨hcount, hhash, decide_eq_true heq⟩, rfl⟩

/-- A hash value has at most one row in `hot_subquery`. -/
theorem Holds.nodup_hotSubquery (h : Holds stored db) (hc : Tallies keys db) :
    (db.hotSubquery.map HotRow.hashValue).Nodup := by
  have hcounts : db.hashCountTable.Nodup := .of_map _ hc.distinct
  rw [hotSubquery, List.map_map]
  apply (nodup_join hcounts h.nodup_hashTable).map_on
  intro r hr r' hr' heq
  obtain ⟨hcount, hhash, hkey⟩ := mem_join.mp hr
  obtain ⟨hcount', hhash', hkey'⟩ := mem_join.mp hr'
  have hvalue : r.2.hashValue = r'.2.hashValue := heq
  have hleft : r.1.hashValue = r'.1.hashValue := by
    rw [← of_decide_eq_true hkey, hvalue, of_decide_eq_true hkey']
  exact Prod.ext (List.inj_on_of_nodup_map hc.distinct hcount hcount' hleft)
    (h.hashRow_eq hhash hhash' hvalue)

/-- It has one exactly if it is both counted and stored. -/
theorem Holds.mem_hotSubquery_iff (h : Holds stored db) (hc : Tallies keys db) (v : Bytes) :
    v ∈ db.hotSubquery.map HotRow.hashValue ↔ v ∈ keys ∧ v ∈ stored.map TorrentData.hash := by
  rw [← hc.mem_iff, ← h.hashes, List.mem_map, List.mem_map, List.mem_map]
  constructor
  · intro hv
    obtain ⟨row, hrow, rfl⟩ := hv
    obtain ⟨hct, hcount, ht, hhash, heq, rfl⟩ := mem_hotSubquery.mp hrow
    exact ⟨⟨hct, hcount, heq.symm⟩, ht, hhash, rfl⟩
  · intro hv
    obtain ⟨⟨hct, hcount, hkey⟩, ht, hhash, hvalue⟩ := hv
    have heq : ht.hashValue = hct.hashValue := hvalue.trans hkey.symm
    exact ⟨_, mem_hotSubquery.mpr ⟨hct, hcount, ht, hhash, heq, rfl⟩, hvalue⟩

/-- What the query lists. -/
theorem Holds.showsHot (h : Holds stored db) (hc : Tallies keys db) (hl : db.IsHotListing groups) :
    ShowsHot stored keys (groups.map hotObject) := by
  have hnd := h.nodup_hotSubquery hc
  have hrow : ∀ g ∈ groups, g.bare.1 ∈ db.hotSubquery :=
    fun g hg => (mem_join.mp (hl.grouped.bare_mem_table hg)).1
  -- every row of the first join has files, so each has a group
  have hpartner : ∀ row ∈ db.hotSubquery, db.fileTable.any fun f => row.id = f.hashId := by
    intro row hrow
    obtain ⟨hct, -, ht, hhash, -, rfl⟩ := mem_hotSubquery.mp hrow
    exact h.any_fileTable hhash
  have hbare : (groups.map fun g => g.bare.1).Perm db.hotSubquery := by
    have hperm := hl.grouped.join_bare_perm hnd
    rwa [List.filter_eq_self.mpr hpartner] at hperm
  have hvalues : ((groups.map hotObject).map HotObject.hashValue).Perm
      (db.hotSubquery.map HotRow.hashValue) := by
    have hperm := hbare.map HotRow.hashValue
    rw [List.map_map] at hperm ⊢
    exact hperm
  constructor
  · exact hvalues.nodup_iff.mpr hnd
  · intro v
    rw [hvalues.mem_iff]
    exact h.mem_hotSubquery_iff hc v
  · intro o ho
    obtain ⟨g, hg, rfl⟩ := List.mem_map.mp ho
    obtain ⟨hct, hcount, ht, -, heq, hb⟩ := mem_hotSubquery.mp (hrow g hg)
    rw [hotObject, hb, heq]
    exact (hc.count_eq hcount).2
  · intro o ho
    obtain ⟨g, hg, rfl⟩ := List.mem_map.mp ho
    obtain ⟨hct, -, ht, hhash, -, hb⟩ := mem_hotSubquery.mp (hrow g hg)
    obtain ⟨data, hfind, hfiles⟩ := h.consistent.files ht hhash
    have hperm := (hl.grouped.join_snd_perm hnd hg).map FileRow.entry
    rw [filter_fileTable, List.map_map, hb] at hperm
    rw [h.filesById] at hfiles
    rw [hotObject, hb]
    exact ⟨data, hfind, hfiles ▸ hperm⟩
  · exact List.pairwise_map.mpr hl.ordered

end Database

end BtDht
