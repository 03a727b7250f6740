import BtDht.Data.Lists
import BtDht.MySqliteClass.Tables

/-!
# BtDht.MySqliteClass.HashCount

What `SqlMy::MyHashCountTable` is for: it counts.  `Counts keys db` says that
the table has, for every key among `keys`, how often it stands there, and
nothing else.  `Insert` returns the count with the new sighting and keeps the
table in step, whatever keys come in between.
-/

namespace BtDht

open Sqlite

namespace Database

variable {db : Database}

/-- The count of a hash value, if it has a row. -/
def countOf (db : Database) (hashValue : Bytes) : Option Int :=
  (db.hashCountTable.find? fun r => r.hashValue = hashValue).map HashCountRow.count

/-- The table counts exactly the keys `keys`. -/
def Counts (keys : List Bytes) (db : Database) : Prop :=
  ∀ key, db.countOf key = if keys.count key = 0 then none else some (keys.count key : Int)

/-- Raising the count of one key in a list of rows. -/
theorem find?_raise (rows : List HashCountRow) (key key' : Bytes) :
    ((rows.map fun r => if r.hashValue = key then { r with count := r.count + 1 } else r).find?
        fun r => r.hashValue = key').map HashCountRow.count =
      ((rows.find? fun r => r.hashValue = key').map HashCountRow.count).map fun n =>
        if key' = key then n + 1 else n := by
  induction rows with
  | nil => rfl
  | cons r rows ih =>
      by_cases hr : r.hashValue = key'
      · by_cases hk : key' = key
        · simp [hr, hk]
        · simp [hr, hk]
      · by_cases hk : r.hashValue = key
        · simpa [hr, hk, hk ▸ hr] using ih
        · simpa [hr, hk] using ih

/-- The upsert never fails; it returns the count of its key, one higher, and
leaves the other counts alone. -/
theorem upsertHashCount_spec (key : Bytes) (db : Database) :
    ∃ db', db.upsertHashCount key = some (db', (db.countOf key).getD 0 + 1) ∧
      ∀ key', db'.countOf key' =
        if key' = key then some ((db.countOf key).getD 0 + 1) else db.countOf key' := by
  cases hfind : db.hashCountTable.find? fun r => r.hashValue = key with
  | some found =>
      have hcount : db.countOf key = some found.count := by simp [countOf, hfind]
      simp only [upsertHashCount, hfind, hcount, Option.getD_some]
      refine ⟨_, rfl, fun key' => ?_⟩
      rw [countOf, find?_raise]
      by_cases hk : key' = key
      · simp [hk, hfind]
      · simp [hk, countOf, Function.comp_def]
  | none =>
      have hcount : db.countOf key = none := by simp [countOf, hfind]
      simp only [upsertHashCount, hfind, hcount, Option.getD_none]
      refine ⟨_, rfl, fun key' => ?_⟩
      by_cases hk : key' = key
      · simp [hk, countOf, List.find?_append, hfind]
      · simp [hk, countOf, List.find?_append, Ne.symm hk]

/-- One more sighting. -/
theorem Counts.upsert {keys : List Bytes} (h : Counts keys db) (key : Bytes) :
    ∃ db', db.upsertHashCount key = some (db', (keys.count key : Int) + 1) ∧
      Counts (keys ++ [key]) db' := by
  have hcount : (db.countOf key).getD 0 = (keys.count key : Int) := by
    rw [h key]
    by_cases hk : keys.count key = 0
    · simp [hk]
    · simp [hk]
  obtain ⟨db', heq, hother⟩ := upsertHashCount_spec key db
  rw [hcount] at heq hother
  refine ⟨db', heq, fun key' => ?_⟩
  rw [hother key']
  by_cases hk : key' = key
  · simp [hk]
  · simp [hk, h key', List.count_append, Ne.symm hk]

/-- The upsert writes to its own table only. -/
theorem upsertHashCount_frame {db' : Database} {key : Bytes} {n : Int}
    (h : db.upsertHashCount key = some (db', n)) :
    db' = { db with hashCountTable := db'.hashCountTable } := by
  unfold upsertHashCount at h
  split at h
  · rw [← (Prod.mk.inj (Option.some.inj h)).1]
  · rw [← (Prod.mk.inj (Option.some.inj h)).1]

/-- The table has one row for each of the keys `keys`, with its count. -/
structure Tallies (keys : List Bytes) (db : Database) : Prop where
  distinct : (db.hashCountTable.map HashCountRow.hashValue).Nodup
  counts : db.Counts keys

theorem Tallies.upsert {keys : List Bytes} (h : Tallies keys db) {db' : Database} {key : Bytes}
    {n : Int} (hup : db.upsertHashCount key = some (db', n)) : Tallies (keys ++ [key]) db' where
  distinct := by
    unfold upsertHashCount at hup
    split at hup
    · rw [← (Prod.mk.inj (Option.some.inj hup)).1, List.map_map]
      have hsame : (HashCountRow.hashValue ∘ fun r =>
          if r.hashValue = key then { r with count := r.count + 1 } else r) =
          HashCountRow.hashValue := by
        funext r
        by_cases hr : r.hashValue = key <;> simp [hr]
      rw [hsame]
      exact h.distinct
    · next hnone =>
        have hnew : key ∉ db.hashCountTable.map HashCountRow.hashValue := by
          intro hin
          obtain ⟨r, hr, heq⟩ := List.mem_map.mp hin
          exact List.find?_eq_none.mp hnone r hr (decide_eq_true heq)
        rw [← (Prod.mk.inj (Option.some.inj hup)).1]
        simpa using h.distinct.concat hnew
  counts := by
    obtain ⟨db₁, heq, hcounts⟩ := h.counts.upsert key
    rw [heq] at hup
    rwa [← (Prod.mk.inj (Option.some.inj hup)).1]

/-- Each row has the count of its key. -/
theorem Tallies.count_eq {keys : List Bytes} (h : Tallies keys db) {r : HashCountRow}
    (hr : r ∈ db.hashCountTable) : keys.count r.hashValue ≠ 0 ∧ r.count = keys.count r.hashValue := by
  have hc : some r.count = if keys.count r.hashValue = 0 then none
      else some (keys.count r.hashValue : Int) := by
    rw [← h.counts r.hashValue, countOf, find?_key_eq_some h.distinct hr]
    rfl
  split at hc
  · cases hc
  · next hne => exact ⟨hne, Option.some.inj hc⟩

/-- Exactly the keys have a row. -/
theorem Tallies.mem_iff {keys : List Bytes} (h : Tallies keys db) {key : Bytes} :
    key ∈ db.hashCountTable.map HashCountRow.hashValue ↔ key ∈ keys := by
  constructor
  · intro hin
    obtain ⟨r, hr, rfl⟩ := List.mem_map.mp hin
    exact List.count_pos_iff.mp (Nat.pos_of_ne_zero (h.count_eq hr).1)
  · intro hin
    have hne : keys.count key ≠ 0 := Nat.ne_of_gt (List.count_pos_iff.mpr hin)
    have hc := h.counts key
    rw [if_neg hne, countOf] at hc
    obtain ⟨r, hfind, -⟩ := Option.map_eq_some_iff.mp hc
    have hkey : r.hashValue = key := by simpa using List.find?_some hfind
    exact hkey ▸ List.mem_map_of_mem (List.mem_of_find?_eq_some hfind)

end Database

/-- With nothing refused, `Insert` does its upsert and returns the count. -/
theorem MyHashCountTable.insert_upserts {E : Exit → Crawler → Prop} {c : Crawler} (hq : c.Quiet)
    (ha : c.mDb.Accepting) (s : Bytes) (pcount : Int) :
    Ensures (MyHashCountTable.insert s pcount) c (fun r c' => r.1 = true ∧ c.Keeps c' ∧
      c.mDb.db.upsertHashCount s = some (c'.mDb.db, r.2)) E := by
  obtain ⟨db', heq, -⟩ := Database.upsertHashCount_spec s c.mDb.db
  have hins := insertReturning_ensures (E := E) hq .hashCountInset (Database.upsertHashCount s)
    "hash count Insert 1" "hash count Insert 2" pcount
  apply hins.mono _ fun _ _ he => he
  intro r c' h
  obtain ⟨ok, n⟩ := r
  obtain ⟨hk, hr⟩ := h
  cases ok with
  | true => exact ⟨rfl, hk, hr.1⟩
  | false =>
      have hnone := hr.2 ha.acceptsFor
      rw [heq] at hnone
      cases hnone

/-- With nothing refused, `Insert` returns how often it has been called with
this key. -/
theorem MyHashCountTable.insert_ensures {E : Exit → Crawler → Prop} {c : Crawler}
    {keys : List Bytes} (hq : c.Quiet) (ha : c.mDb.Accepting) (h : c.mDb.db.Counts keys)
    (s : Bytes) (pcount : Int) :
    Ensures (MyHashCountTable.insert s pcount) c (fun r c' =>
      r = (true, (keys.count s : Int) + 1) ∧ c.Keeps c' ∧ c'.mDb.db.Counts (keys ++ [s])) E := by
  obtain ⟨db', heq, hcounts⟩ := h.upsert s
  apply (MyHashCountTable.insert_upserts hq ha s pcount).mono _ fun _ _ he => he
  intro r c' hr
  obtain ⟨hok, hk, hup⟩ := hr
  obtain ⟨hdb, hn⟩ := Prod.mk.inj (Option.some.inj (heq.symm.trans hup))
  exact ⟨Prod.ext hok hn.symm, hk, hdb ▸ hcounts⟩

end BtDht
