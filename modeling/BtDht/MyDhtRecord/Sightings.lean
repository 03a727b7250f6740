import BtDht.MyDhtRecord
import BtDht.MySqliteClass.HotListing

/-!
# BtDht.MyDhtRecord.Sightings

The crawler's connection has two writers: `isaddtorreent` counts what the
alerts show, and `MyDataInsertClass::Insert` stores the torrents whose metadata
came in.  Their calls interleave freely, and an `Insert` may be refused or
rolled back between any two sightings.

Each writer leaves the other's tables alone, so after any such run the tables
hold the inserted torrents and tally the sightings (`recorded_of_trace`), and
the hot listing shows both.
-/

namespace BtDht

open Sqlite Database Relational

/-! ## the two writers -/

/-- An alert shows a hash, or the metadata of a torrent has come in. -/
inductive RecordEvent
  | sighting (hash : Sha1Hash)
  | metadata (v1 : Sha1Hash) (call : InsertCall)

/-- The session, and the connection with the torrents inserted through it. -/
structure RecordRun where
  ses : Session
  run : MyDataInsertClass.Run

namespace RecordRun

/-- What `isaddtorreent` works on, when no upsert is refused. -/
def accepting (r : RecordRun) : DhtRecord :=
  ⟨r.ses, { r.run.crawler with mDb := { r.run.crawler.mDb with refusals := fun _ => none } }⟩

/-- Runs of both writers from the empty tables.  A torrent's hash is the text
of its v1 hash. -/
def system (codes : StmtName → ResultCode) : System RecordRun RecordEvent Exit where
  init := ⟨⟨[]⟩, (MyDataInsertClass.system codes).init⟩
  allowed _ ev :=
    match ev with
    | .sighting _ => True
    | .metadata v1 call => call.data.hash = BtFunc.getHash16String v1.bytes []
  step r ev :=
    match ev with
    | .sighting hash =>
        match (isaddtorreent hash).run r.accepting with
        | .ok _ s => .ok ⟨s.ses, { r.run with crawler := s.counttable }⟩
        | .error exit _ => .error exit
    | .metadata _ call =>
        ((MyDataInsertClass.system codes).step r.run call).map fun run => { r with run := run }

end RecordRun

/-- The hashes shown, first one first. -/
def sightings (hist : List RecordEvent) : List Sha1Hash :=
  hist.filterMap fun ev =>
    match ev with
    | .sighting hash => some hash
    | .metadata .. => none

/-! ## what each of them leaves alone -/

/-- A sighting is one upsert. -/
theorem isaddtorreent_upserts {s : DhtRecord} (hq : s.counttable.Quiet)
    (ha : s.counttable.mDb.Accepting) (hash : Sha1Hash) :
    Ensures (isaddtorreent hash) s (fun _ s' => s.counttable.Keeps s'.counttable ∧
      ∃ n, s.counttable.mDb.db.upsertHashCount (hashKey hash) = some (s'.counttable.mDb.db, n))
      fun _ _ => False := by
  rw [isaddtorreent, ensures_bind, DhtRecord.insert, ensures_within]
  apply (MyHashCountTable.insert_upserts hq ha (hashKey hash) 0).mono _ fun _ _ he => he
  intro r c h
  obtain ⟨ok, n⟩ := r
  obtain ⟨-, hk, hup⟩ := h
  by_cases hn : n = 1
  · simpa [hn] using ⟨hk, n, hup⟩
  · simpa [hn] using ⟨hk, n, hup⟩

/-- The library is in the other three tables. -/
theorem Database.Holds.of_upsert {stored : List TorrentData} {db db' : Database} {key : Bytes}
    {n : Int} (h : Holds stored db) (hup : db.upsertHashCount key = some (db', n)) :
    Holds stored db' := by
  rw [upsertHashCount_frame hup]
  exact ⟨h.distinct, h.torrents, h.hashIds, h.fileIds, h.owner, h.index⟩

/-- The counts are in a table that no `Insert` touches, whatever it returns. -/
theorem MyDataInsertClass.Ready.step_tallies {codes : StmtName → ResultCode} {keys : List Bytes}
    {r r' : Run} {call : InsertCall} (h : Ready r) (htally : r.crawler.mDb.db.Tallies keys)
    (hs : (MyDataInsertClass.system codes).step r call = .ok r') :
    r'.crawler.mDb.db.Tallies keys := by
  have hreturns : ∀ returned c, (insert call.data).run (r.crawler.facing call) = .ok returned c →
      c.mDb.db.Tallies keys := by
    intro returned c hrun
    have hret : InsertReturns call.data (r.crawler.facing call) returned c :=
      insert_returns h.quiet h.closed hrun
    obtain ⟨-, -, ⟨-, hdb, -⟩ | ⟨-, hdb, -⟩⟩ := hret
    · rw [hdb]
      exact ⟨htally.distinct, htally.counts⟩
    · rw [hdb]
      exact htally
  simp only [MyDataInsertClass.system] at hs
  split at hs
  · next c hrun =>
      obtain rfl := Except.ok.inj hs
      exact hreturns true c hrun
  · next c hrun =>
      obtain rfl := Except.ok.inj hs
      exact hreturns false c hrun
  · cases hs

/-! ## runs -/

namespace RecordRun

/-- The tables hold the inserted torrents and tally the sightings. -/
structure Recorded (hist : List RecordEvent) (r : RecordRun) : Prop where
  ready : MyDataInsertClass.Ready r.run
  tallies : r.run.crawler.mDb.db.Tallies ((sightings hist).map hashKey)

variable {codes : StmtName → ResultCode} {hist : List RecordEvent} {r r' : RecordRun}

theorem recorded_init (codes : StmtName → ResultCode) : Recorded [] (system codes).init where
  ready := ⟨fun _ => rfl, rfl, holds_empty⟩
  tallies := ⟨List.nodup_nil, fun _ => rfl⟩

/-- A sighting always goes on, and inserts nothing. -/
theorem Recorded.sighting (codes : StmtName → ResultCode) (h : Recorded hist r) (hash : Sha1Hash) :
    ∃ r', (system codes).step r (.sighting hash) = .ok r' ∧ r'.run.inserted = r.run.inserted ∧
      Recorded (hist ++ [.sighting hash]) r' := by
  have hens := isaddtorreent_upserts (s := r.accepting) h.ready.quiet (fun _ => rfl) hash
  obtain ⟨_, s, hrun, hk, n, hup⟩ := hens.returns
  have hup' : r.run.crawler.mDb.db.upsertHashCount (hashKey hash) =
      some (s.counttable.mDb.db, n) := hup
  have hclosed : s.counttable.mDb.saved = none := hk.saved.trans h.ready.closed
  refine ⟨⟨s.ses, { r.run with crawler := s.counttable }⟩, ?_, rfl, ?_⟩
  · simp only [system, hrun]
  · refine ⟨⟨hk.quiet, hclosed, h.ready.holds.of_upsert hup'⟩, ?_⟩
    rw [show sightings (hist ++ [.sighting hash]) = sightings hist ++ [hash] by simp [sightings],
      List.map_append]
    exact h.tallies.upsert hup'

/-- One event of either kind. -/
theorem Recorded.step {ev : RecordEvent} (h : Recorded hist r)
    (hs : (system codes).step r ev = .ok r') : Recorded (hist ++ [ev]) r' := by
  cases ev with
  | sighting hash =>
      obtain ⟨r₁, hs₁, -, h₁⟩ := h.sighting codes hash
      obtain rfl := Except.ok.inj (hs₁.symm.trans hs)
      exact h₁
  | metadata v1 call =>
      cases hrun : (MyDataInsertClass.system codes).step r.run call with
      | error exit =>
          simp only [system, hrun] at hs
          cases hs
      | ok run =>
          simp only [system, hrun] at hs
          obtain rfl := Except.ok.inj hs
          have hsame : sightings (hist ++ [.metadata v1 call]) = sightings hist := by
            simp [sightings]
          refine ⟨h.ready.step hrun, ?_⟩
          rw [hsame]
          exact h.ready.step_tallies h.tallies hrun

/-- The run lemma. -/
theorem recorded_of_trace (ht : (system codes).Trace hist r) : Recorded hist r :=
  ht.history Recorded (recorded_init codes) fun _ _ _ _ _ h _ hs => h.step hs

/-! ## the hot listing -/

/-- The object shows a hash: how often it was sighted, and the files of the
first torrent inserted with it. -/
structure ShowsHash (hist : List RecordEvent) (inserted : List TorrentData) (object : HotObject)
    (hash : Sha1Hash) : Prop where
  hashValue_eq : object.hashValue = hashKey hash
  count_eq : object.count = (sightings hist).count hash
  files_perm : ∃ data, inserted.find? (fun data => data.hash = hashKey hash) = some data ∧
    object.files.Perm data.entries

/-- **The hot listing counts sightings.**  After any interleaving of sightings
and `Insert` calls of v1 torrents, whichever rows the groups of the query take
their bare columns from: the list shows exactly the hashes that were both
sighted and inserted, each once, by non-increasing number of sightings. -/
theorem hot_listing_counts_sightings (ht : (system codes).Trace hist r) :
    (∃ groups, r.run.crawler.mDb.db.IsHotListing groups) ∧
      ∀ groups, r.run.crawler.mDb.db.IsHotListing groups → ∃ hashes : List Sha1Hash,
        hashes.Nodup ∧
        (∀ hash, hash ∈ hashes ↔
          hash ∈ sightings hist ∧ hashKey hash ∈ r.run.inserted.map TorrentData.hash) ∧
        List.Forall₂ (ShowsHash hist r.run.inserted) (groups.map hotObject) hashes ∧
        IsOrderedDesc HotObject.count (groups.map hotObject) := by
  have h := recorded_of_trace ht
  refine ⟨exists_hotListing _, fun groups hl => ?_⟩
  have hshows := h.ready.holds.showsHot h.tallies hl
  have hrange : (groups.map hotObject).map HotObject.hashValue ∈ Set.range (List.map hashKey) := by
    rw [Set.range_list_map]
    intro v hv
    obtain ⟨hash, -, hkey⟩ := List.mem_map.mp ((hshows.hashes v).mp hv).1
    exact ⟨hash, hkey⟩
  obtain ⟨hashes, hmap⟩ := hrange
  have hmem : ∀ hash, hash ∈ hashes ↔
      hash ∈ sightings hist ∧ hashKey hash ∈ r.run.inserted.map TorrentData.hash := by
    intro hash
    have hiff := hshows.hashes (hashKey hash)
    rwa [← hmap, List.mem_map_of_injective hashKey_injective,
      List.mem_map_of_injective hashKey_injective] at hiff
  have hnd : hashes.Nodup := by
    apply List.Nodup.of_map hashKey
    rw [hmap]
    exact hshows.distinct
  have hrelated : List.Forall₂ (fun object hash => object.hashValue = hashKey hash)
      (groups.map hotObject) hashes := by
    rw [← List.forall₂_map_left_iff (R := fun v hash => v = hashKey hash),
      ← List.forall₂_map_right_iff (R := fun v v' => v = v'), List.forall₂_eq_eq_eq]
    exact hmap.symm
  refine ⟨hashes, hnd, hmem, ?_, hshows.ordered⟩
  apply ((List.forall₂_and_left _ _).mpr ⟨fun o ho => ho, hrelated⟩).imp
  intro object hash hboth
  obtain ⟨ho, heq⟩ := hboth
  have hcount := hshows.counts object ho
  have hfiles := hshows.files object ho
  rw [heq] at hfiles
  rw [heq, List.count_map_of_injective _ _ hashKey_injective] at hcount
  exact ⟨heq, hcount, hfiles⟩

/-- A torrent of one file, `a`, with the v1 hash `01…01`. -/
def oneV1 : TorrentData := ⟨BtFunc.getHash16String (ByteBlock.fill 20 1).bytes [], [97], 5, [([97], 5)]⟩

/-- It is inserted, and its hash sighted twice. -/
def oneV1Hist : List RecordEvent :=
  [.metadata (.fill 20 1) ⟨oneV1, 0, fun _ => none⟩, .sighting (.fill 20 1), .sighting (.fill 20 1)]

theorem trace_oneV1 : ∃ r, (system fun _ => .ok).Trace oneV1Hist r ∧ r.run.inserted = [oneV1] := by
  have htext : ∀ file ∈ oneV1.entries, (MySqliteTokenizers.tokens file.1).isOk := by
    simpa [oneV1, TorrentData.entries] using MyDataInsertClass.isOk_tokens_a
  have hnil : (MyDataInsertClass.system fun _ => .ok).Trace []
      (MyDataInsertClass.system fun _ => .ok).init := .nil
  obtain ⟨c, ht, -⟩ := MyDataInsertClass.exists_trace_of_accepting
    (MyDataInsertClass.undisturbed oneV1) hnil (by decide) (fun _ => rfl) List.not_mem_nil htext
  obtain ⟨r, hr, -, hstep⟩ := ht.snoc_inv
  rw [hr.functional hnil] at hstep
  have ht₁ : (system fun _ => .ok).Trace [oneV1Hist[0]] ⟨⟨[]⟩, c, [oneV1]⟩ := by
    have hmap := congrArg (Except.map fun run => (⟨⟨[]⟩, run⟩ : RecordRun)) hstep
    exact .snoc .nil rfl hmap
  obtain ⟨r₂, hs₂, hi₂, h₂⟩ := (recorded_of_trace ht₁).sighting (fun _ => .ok) (.fill 20 1)
  obtain ⟨r₃, hs₃, hi₃, -⟩ := h₂.sighting (fun _ => .ok) (.fill 20 1)
  have hallowed : ∀ r hash, (system fun _ => .ok).allowed r (.sighting hash) := fun _ _ => trivial
  exact ⟨r₃, (ht₁.snoc (hallowed _ _) hs₂).snoc (hallowed _ _) hs₃, hi₃.trans hi₂⟩

theorem hot_listing_counts_oneV1 :
    ∃ r, (system fun _ => .ok).Trace oneV1Hist r ∧
      ∀ groups, r.run.crawler.mDb.db.IsHotListing groups →
        (groups.map hotObject).map HotObject.count = [2] := by
  obtain ⟨r, ht, hins⟩ := trace_oneV1
  refine ⟨r, ht, fun groups hl => ?_⟩
  obtain ⟨hashes, hnd, hmem, hshows, -⟩ := (hot_listing_counts_sightings ht).2 groups hl
  have hone : hashes.Perm [.fill 20 1] := by
    rw [List.perm_ext_iff_of_nodup hnd (List.nodup_singleton _)]
    intro hash
    rw [hmem, hins]
    simp [oneV1Hist, sightings, oneV1, hashKey]
    grind
  rw [List.perm_singleton.mp hone] at hshows
  obtain ⟨object, objects, hshow, hnil, heq⟩ := List.forall₂_cons_right_iff.mp hshows
  rw [heq, List.forall₂_nil_right_iff.mp hnil, List.map_singleton, hshow.count_eq]
  rfl

end RecordRun

end BtDht
