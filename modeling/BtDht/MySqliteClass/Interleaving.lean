import BtDht.MySqliteClass.InsertSteps
import BtDht.MySqliteClass.Search

/-!
# BtDht.MySqliteClass.Interleaving

The crawler with other connections looking on, and with crashes.  An
`Occurrence` is the start of a call of `Insert`, one database call of the
running one, its return, or the end of the process at any point with a new
start on what is then in the file.

A torrent is in from its `COMMIT` on, which is before its call returns: a crash
between the two leaves a torrent that no call has returned `true` for.  At every
moment the committed content is one that undisturbed calls of `Insert` would
have made for the torrents that are in, those with a call that returned `true`
among them (`committed_undisturbed`), and what was committed once is never lost
(`durable_of_trace`).
-/

namespace BtDht

open Sqlite Steps Database

/-! ## undisturbed calls -/

namespace MyDataInsertClass

/-- `db` is what undisturbed calls make of the empty database, one for each
torrent in `inserted`. -/
def Undisturbed (codes : StmtName → ResultCode) (inserted : List TorrentData) (db : Database) :
    Prop :=
  ∃ c : Crawler, (system codes).Trace (inserted.map undisturbed) ⟨c, inserted⟩ ∧ c.mDb.db = db

variable {codes : StmtName → ResultCode} {inserted : List TorrentData} {db : Database}
  {data : TorrentData}

theorem Undisturbed.holds (h : Undisturbed codes inserted db) : db.Holds inserted := by
  obtain ⟨c, ht, rfl⟩ := h
  exact (ready_of_trace ht).holds

theorem Undisturbed.indexed (h : Undisturbed codes inserted db) : db.Indexed := by
  obtain ⟨c, ht, rfl⟩ := h
  exact indexed_of_trace ht

theorem undisturbed_empty : Undisturbed codes [] .empty := ⟨_, .nil, rfl⟩

/-- One torrent more, by one call more. -/
theorem Undisturbed.addTorrent (h : Undisturbed codes inserted db)
    (hnew : data.hash ∉ db.hashTable.map HashRow.hashValue)
    (htext : ∀ file ∈ data.entries, (MySqliteTokenizers.tokens file.1).isOk) :
    Undisturbed codes (inserted ++ [data]) (db.addTorrent data) := by
  rw [h.holds.hashes] at hnew
  obtain ⟨c, ht, rfl⟩ := h
  obtain ⟨c', ht', hdb⟩ := exists_trace_of_accepting (undisturbed data) ht
    (by decide : 0 < 1000) (fun _ => rfl) hnew htext
  refine ⟨c', ?_, hdb⟩
  rwa [List.map_append]

/-- No call of `Insert` counts sightings. -/
theorem hashCountTable_of_trace {hist : List InsertCall} {r : Run}
    (ht : (system codes).Trace hist r) : r.crawler.mDb.db.hashCountTable = [] := by
  refine ht.history (fun _ r => r.crawler.mDb.db.hashCountTable = []) rfl ?_
  intro h r call r' ht hi _ hs
  have hready := ready_of_trace ht
  have hcases : ∀ returned c, (insert call.data).run (r.crawler.facing call) = .ok returned c →
      c.mDb.db.hashCountTable = [] := by
    intro returned c hrun
    have hret : InsertReturns call.data (r.crawler.facing call) returned c :=
      insert_returns hready.quiet hready.closed hrun
    obtain ⟨-, -, ⟨-, hdb, -⟩ | ⟨-, hdb, -⟩⟩ := hret
    · rw [hdb]
      exact hi
    · rw [hdb]
      exact hi
  simp only [system] at hs
  split at hs
  · next c hrun =>
      obtain rfl := Except.ok.inj hs
      exact hcases true c hrun
  · next c hrun =>
      obtain rfl := Except.ok.inj hs
      exact hcases false c hrun
  · cases hs

theorem Undisturbed.hashCountTable (h : Undisturbed codes inserted db) :
    db.hashCountTable = [] := by
  obtain ⟨c, ht, rfl⟩ := h
  exact hashCountTable_of_trace ht

end MyDataInsertClass

namespace Stepwise

open MyDataInsertClass

/-! ## moments -/

/-- Where the program stands: the crawler's connection, the call of `Insert`
that is running, if any, with the torrent it is for, and the torrents whose
`COMMIT` was done. -/
structure Moment where
  crawler : Crawler
  call : Option (TorrentData × Steps Crawler Exit Bool)
  inserted : List TorrentData

/-- What other connections read. -/
def Moment.committed (m : Moment) : Database := m.crawler.mDb.committed

inductive Occurrence
  /-- `Insert` is called -/
  | begin (call : InsertCall)
  /-- the running call makes its next database call -/
  | part
  /-- the running call, for `data`, returns to its caller -/
  | finish (data : TorrentData) (returned : Bool)
  /-- the process is gone and starts again; `codes` is what the memory of the
  new statements holds -/
  | restart (codes : StmtName → ResultCode)

/-- What there is after a database call.  Only after `COMMIT` is nothing left
of a call but to return `true`, and then the torrent is in. -/
def after (data : TorrentData) (inserted : List TorrentData) :
    Steps Crawler Exit Bool × Crawler → Moment
  | (.pure true, c) => ⟨c, some (data, .pure true), inserted ++ [data]⟩
  | (x, c) => ⟨c, some (data, x), inserted⟩

/-- A new process on the file as it is.  What had not been committed is rolled
back, and `hash_count_table`, which is not in the file, is empty. -/
def Moment.restart (m : Moment) (codes : StmtName → ResultCode) : Moment :=
  { m with
    crawler := ⟨⟨{ m.committed with hashCountTable := [] }, none, 0, fun _ => none⟩,
      fun stmt => .prepared (codes stmt)⟩
    call := none }

/-- The crawler call by call.  A call begins when none is running and returns
when it has no database call left; a process may end at any time. -/
def system (codes : StmtName → ResultCode) : System Moment Occurrence Empty where
  init := ⟨(MyDataInsertClass.system codes).init.crawler, none, []⟩
  allowed m
    | .begin _ => m.call = none
    | .part => ∃ data x, m.call = some (data, x) ∧ x.GoesOn
    | .finish data returned => m.call = some (data, .pure returned)
    | .restart _ => True
  step m
    | .begin call =>
        .ok ⟨m.crawler.facing call, some (call.data, insert call.data), m.inserted⟩
    | .part =>
        match m.call with
        | some (data, x) => .ok (after data m.inserted (next (x, m.crawler)))
        | none => .ok m
    | .finish _ _ => .ok { m with call := none }
    | .restart codes => .ok (m.restart codes)

/-! ## what is kept -/

/-- A call in the middle of its run: other connections still read what they
read when it began, and it will return as `Insert` does. -/
def Underway (db : Database) (c : Crawler) (data : TorrentData) (x : Steps Crawler Exit Bool) :
    Prop :=
  ∃ c₀ : Crawler, c₀.mDb.db = db ∧ x.Throughout (fun c => Committed db c.mDb) c
    (InsertReturns data c₀) fun _ c => Committed db c.mDb

/-- The invariant. -/
structure Sound (codes : StmtName → ResultCode) (m : Moment) : Prop where
  committed : Undisturbed codes m.inserted m.committed
  idle : m.call = none → m.crawler.Quiet ∧ m.crawler.mDb.saved = none
  running : ∀ data x, m.call = some (data, x) → x.GoesOn → Underway m.committed m.crawler data x
  returning : ∀ data returned, m.call = some (data, .pure returned) →
    m.crawler.Quiet ∧ m.crawler.mDb.saved = none

/-- What is in, stays in. -/
structure Grown (m m' : Moment) : Prop where
  inserted : m.inserted <+: m'.inserted
  hashTable : m.committed.hashTable <+: m'.committed.hashTable
  fileTable : m.committed.fileTable <+: m'.committed.fileTable
  fulltextTable : m.committed.fulltextTable <+: m'.committed.fulltextTable

theorem Grown.refl (m : Moment) : Grown m m :=
  ⟨List.prefix_rfl, List.prefix_rfl, List.prefix_rfl, List.prefix_rfl⟩

theorem Grown.trans {m m' m'' : Moment} (h : Grown m m') (h' : Grown m' m'') : Grown m m'' where
  inserted := h.inserted.trans h'.inserted
  hashTable := h.hashTable.trans h'.hashTable
  fileTable := h.fileTable.trans h'.fileTable
  fulltextTable := h.fulltextTable.trans h'.fulltextTable

theorem Grown.of_eq {m m' : Moment} (hi : m'.inserted = m.inserted)
    (hc : m'.committed = m.committed) : Grown m m' where
  inserted := by rw [hi]
  hashTable := by rw [hc]
  fileTable := by rw [hc]
  fulltextTable := by rw [hc]

theorem Grown.of_addTorrent {m m' : Moment} {data : TorrentData}
    (hi : m'.inserted = m.inserted ++ [data]) (hc : m'.committed = m.committed.addTorrent data) :
    Grown m m' where
  inserted := by
    rw [hi]
    exact List.prefix_append _ _
  hashTable := by
    rw [hc]
    exact List.prefix_append _ _
  fileTable := by
    rw [hc]
    exact List.prefix_append _ _
  fulltextTable := by
    rw [hc]
    exact List.prefix_append _ _

variable {codes : StmtName → ResultCode} {m m' : Moment} {data : TorrentData}

theorem committed_of_closed (h : m.crawler.mDb.saved = none) :
    m.committed = m.crawler.mDb.db := by
  rw [Moment.committed, Engine.committed, h, Option.getD_none]

theorem Sound.of_idle {c : Crawler} {inserted : List TorrentData} (hq : c.Quiet)
    (hs : c.mDb.saved = none) (hdb : Undisturbed codes inserted c.mDb.db) :
    Sound codes ⟨c, none, inserted⟩ where
  committed := by
    rwa [committed_of_closed hs]
  idle _ := ⟨hq, hs⟩
  running := by simp
  returning := by simp

theorem Sound.of_running {c : Crawler} {x : Steps Crawler Exit Bool} (hgoes : x.GoesOn)
    (hdb : Undisturbed codes m.inserted m.committed) (hc : Committed m.committed c.mDb)
    (hx : Underway m.committed c data x) : Sound codes ⟨c, some (data, x), m.inserted⟩ := by
  have heq : Moment.committed ⟨c, some (data, x), m.inserted⟩ = m.committed := hc
  refine ⟨by rwa [heq], by simp, fun data' x' h _ => ?_, fun data' returned h => ?_⟩
  · obtain ⟨rfl, rfl⟩ := Prod.mk.inj (Option.some.inj h)
    rwa [heq]
  · rw [(Prod.mk.inj (Option.some.inj h)).2] at hgoes
    exact hgoes.elim

theorem Sound.of_returning {c : Crawler} {inserted : List TorrentData} {returned : Bool}
    (hq : c.Quiet) (hs : c.mDb.saved = none) (hdb : Undisturbed codes inserted c.mDb.db) :
    Sound codes ⟨c, some (data, .pure returned), inserted⟩ where
  committed := by
    rwa [committed_of_closed hs]
  idle := by simp
  running data' x' h hgoes := by
    rw [← (Prod.mk.inj (Option.some.inj h)).2] at hgoes
    exact hgoes.elim
  returning _ _ _ := ⟨hq, hs⟩

/-- A call is underway: whether it goes on, is about to return or ends the
process, the moment after its database call is sound. -/
theorem sound_after {c : Crawler} {x : Steps Crawler Exit Bool}
    (hm : Undisturbed codes m.inserted m.committed) (hx : Underway m.committed c data x) :
    Sound codes (after data m.inserted (x, c)) ∧ Grown m (after data m.inserted (x, c)) := by
  obtain ⟨c₀, hdb₀, hx'⟩ := id hx
  cases x with
  | atomic y k => exact ⟨.of_running trivial hm hx'.1 hx, .of_eq rfl hx'.1⟩
  | throw exit =>
      have hc : (after data m.inserted (.throw exit, c)).committed = m.committed := hx'
      exact ⟨⟨by rwa [hc], by simp [after], by simp [after, GoesOn], by simp [after]⟩,
        .of_eq rfl hc⟩
  | pure returned =>
      obtain ⟨hq, hs, ⟨rfl, hdb, hnew, htext⟩ | ⟨rfl, hdb, -⟩⟩ := hx'
      · rw [hdb₀] at hdb hnew
        refine ⟨.of_returning hq hs (hdb ▸ hm.addTorrent hnew htext), .of_addTorrent rfl ?_⟩
        exact (committed_of_closed hs).trans hdb
      · rw [hdb₀] at hdb
        exact ⟨.of_returning hq hs (hdb ▸ hm), .of_eq rfl ((committed_of_closed hs).trans hdb)⟩

/-- The step lemma. -/
theorem Sound.step {o : Occurrence} (h : Sound codes m) (ha : (system codes).allowed m o)
    (hs : (system codes).step m o = .ok m') : Sound codes m' ∧ Grown m m' := by
  cases o with
  | begin call =>
      obtain rfl := Except.ok.inj hs
      obtain ⟨hq, hclosed⟩ := h.idle ha
      have hopen := committed_of_closed hclosed
      have hc : Committed m.committed (m.crawler.facing call).mDb := rfl
      have hx : Underway m.committed (m.crawler.facing call) call.data (insert call.data) := by
        refine ⟨m.crawler.facing call, hopen.symm, ?_⟩
        rw [hopen]
        exact insert_throughout (c := m.crawler.facing call) call.data hq hclosed
      exact ⟨.of_running trivial h.committed hc hx, .of_eq rfl hc⟩
  | part =>
      obtain ⟨data, x, hcall, hgoes⟩ := ha
      simp only [system, hcall] at hs
      obtain rfl := Except.ok.inj hs
      obtain ⟨c₀, hdb₀, hx⟩ := h.running data x hcall hgoes
      exact sound_after h.committed ⟨c₀, hdb₀, hx.next⟩
  | finish data returned =>
      obtain rfl := Except.ok.inj hs
      obtain ⟨hq, hclosed⟩ := h.returning data returned ha
      exact ⟨.of_idle hq hclosed (committed_of_closed hclosed ▸ h.committed), .of_eq rfl rfl⟩
  | restart codes' =>
      obtain rfl := Except.ok.inj hs
      have hdb : (m.restart codes').committed = m.committed := by
        show { m.committed with hashCountTable := [] } = m.committed
        rw [← h.committed.hashCountTable]
      refine ⟨.of_idle (fun _ => rfl) rfl ?_, .of_eq rfl hdb⟩
      exact hdb ▸ h.committed

/-- The run lemma. -/
theorem sound_of_trace {hist : List Occurrence} (ht : (system codes).Trace hist m) :
    Sound codes m := by
  refine ht.invariant (Sound codes) ?_ fun m o m' h ha hs => (h.step ha hs).1
  exact .of_idle (fun _ => rfl) rfl undisturbed_empty

/-! ## every moment of every run -/

/-- The process does not end. -/
def Uninterrupted (hist : List Occurrence) : Prop := ∀ codes, .restart codes ∉ hist

/-- The torrent for which a call returns `true`. -/
def Occurrence.stored? : Occurrence → Option TorrentData
  | .finish data true => some data
  | _ => none

/-- The torrent for which the running call is about to return `true`. -/
def Moment.owed (m : Moment) : List TorrentData :=
  match m.call with
  | some (data, .pure true) => [data]
  | _ => []

theorem inserted_after (data : TorrentData) (inserted : List TorrentData)
    (p : Steps Crawler Exit Bool × Crawler) :
    (after data inserted p).inserted = inserted ++ (after data inserted p).owed := by
  obtain ⟨x, c⟩ := p
  cases x with
  | atomic y k => simp [after, Moment.owed]
  | throw exit => simp [after, Moment.owed]
  | pure returned => cases returned <;> simp [after, Moment.owed]

/-- What comes in is owed to its caller, and a return pays what is owed; a
crash forgets it. -/
theorem owed_of_step {o : Occurrence} (ha : (system codes).allowed m o)
    (hs : (system codes).step m o = .ok m') :
    (∃ new, o.stored?.toList ++ m'.owed = m.owed ++ new ∧ m'.inserted = m.inserted ++ new) ∨
      (∃ codes, o = .restart codes) ∧ m'.owed = [] ∧ m'.inserted = m.inserted := by
  cases o with
  | begin call =>
      obtain rfl := Except.ok.inj hs
      simp only [system] at ha
      have hnone : m.owed = [] := by
        rw [Moment.owed, ha]
      have howed : Moment.owed ⟨m.crawler.facing call, some (call.data, insert call.data),
          m.inserted⟩ = [] := rfl
      exact .inl ⟨[], by simp [Occurrence.stored?, howed, hnone], by simp⟩
  | part =>
      obtain ⟨data, x, hcall, hgoes⟩ := ha
      simp only [system, hcall] at hs
      obtain rfl := Except.ok.inj hs
      have howed : m.owed = [] := by
        cases x with
        | pure returned => exact hgoes.elim
        | throw exit => exact hgoes.elim
        | atomic y k => simp [Moment.owed, hcall]
      refine .inl ⟨_, ?_, inserted_after data m.inserted (next (x, m.crawler))⟩
      simp [Occurrence.stored?, howed]
  | finish data returned =>
      obtain rfl := Except.ok.inj hs
      simp only [system] at ha
      refine .inl ⟨[], ?_, by simp⟩
      cases returned <;> simp [Occurrence.stored?, Moment.owed, ha]
  | restart codes' =>
      obtain rfl := Except.ok.inj hs
      exact .inr ⟨⟨codes', rfl⟩, rfl, rfl⟩

/-- The torrents whose calls have returned `true`, or are about to, are in; and
without a crash no others are. -/
theorem told_of_trace {hist : List Occurrence} (ht : (system codes).Trace hist m) :
    (hist.filterMap Occurrence.stored? ++ m.owed).Sublist m.inserted ∧
      (Uninterrupted hist → hist.filterMap Occurrence.stored? ++ m.owed = m.inserted) := by
  refine ht.history (fun hist m => (hist.filterMap Occurrence.stored? ++ m.owed).Sublist m.inserted ∧
    (Uninterrupted hist → hist.filterMap Occurrence.stored? ++ m.owed = m.inserted))
    ⟨.slnil, fun _ => rfl⟩ ?_
  intro hist m o m' _ ih ha hs
  obtain ⟨hsub, heq⟩ := ih
  have hsnoc : (hist ++ [o]).filterMap Occurrence.stored? =
      hist.filterMap Occurrence.stored? ++ o.stored?.toList := by
    rw [List.filterMap_append]
    cases ho : o.stored? <;> simp [ho]
  rw [hsnoc, List.append_assoc]
  rcases owed_of_step ha hs with ⟨new, howed, hin⟩ | ⟨⟨codes', rfl⟩, howed, hin⟩
  · rw [howed, hin, ← List.append_assoc]
    exact ⟨hsub.append (.refl new), fun hu => by
      rw [heq fun codes h => hu codes (List.mem_append_left _ h)]⟩
  · rw [howed, hin]
    refine ⟨?_, fun hu => absurd (List.mem_append_right _ List.mem_cons_self) (hu codes')⟩
    simpa [Occurrence.stored?] using (List.sublist_append_left _ _).trans hsub

/-- **No reader ever sees part of a torrent.**  Whatever calls there are, and
wherever the process ends and starts again, other connections read at every
moment what undisturbed calls of `Insert` would have made for the torrents whose
`COMMIT` was done.  Those for which a call has returned `true` are among them,
in this order, and without a crash there are no others between two calls.  While
no call is running no transaction is open. -/
theorem committed_undisturbed {hist : List Occurrence} (ht : (system codes).Trace hist m) :
    Undisturbed codes m.inserted m.committed ∧ m.committed.Consistent m.inserted ∧
      (hist.filterMap Occurrence.stored?).Sublist m.inserted ∧
      (m.call = none → m.crawler.mDb.saved = none ∧
        (Uninterrupted hist → hist.filterMap Occurrence.stored? = m.inserted)) := by
  have h := sound_of_trace ht
  obtain ⟨hsub, heq⟩ := told_of_trace ht
  refine ⟨h.committed, h.committed.holds.consistent,
    (List.sublist_append_left _ _).trans hsub, fun hidle => ⟨(h.idle hidle).2, fun hu => ?_⟩⟩
  have howed : m.owed = [] := by
    rw [Moment.owed, hidle]
  simpa [howed] using heq hu

/-- **What is in, stays in.**  At no moment of a run, and after no crash, is
anything missing that another connection could read before. -/
theorem durable_of_trace {hist post : List Occurrence} (ht : (system codes).Trace hist m)
    (ht' : (system codes).Trace (hist ++ post) m') : Grown m m' :=
  ht.stretch Grown .refl .trans (fun _ _ _ _ hm ha hs => ((sound_of_trace hm).step ha hs).2) ht'

/-! ## whole calls -/

/-- The call that begins, if one does. -/
def Occurrence.call? : Occurrence → Option InsertCall
  | .begin call => some call
  | _ => none

/-- What has been done in terms of whole calls; what is left of one that has
database calls to make ends as the whole of it would have. -/
def Whole (codes : StmtName → ResultCode) (calls : List InsertCall) (m : Moment) : Prop :=
  match m.call with
  | none => (MyDataInsertClass.system codes).Trace calls ⟨m.crawler, m.inserted⟩
  | some (_, .pure _) => (MyDataInsertClass.system codes).Trace calls ⟨m.crawler, m.inserted⟩
  | some (data, x) => ∃ pre call c, calls = pre ++ [call] ∧ data = call.data ∧
      (MyDataInsertClass.system codes).Trace pre ⟨c, m.inserted⟩ ∧
      x.run.run m.crawler = (MyDataInsertClass.insert data).run (c.facing call)

theorem whole_after {pre : List InsertCall} {call : InsertCall} {c c' : Crawler}
    {inserted : List TorrentData} {x : Steps Crawler Exit Bool}
    (ht : (MyDataInsertClass.system codes).Trace pre ⟨c, inserted⟩)
    (hrun : x.run.run c' = (MyDataInsertClass.insert call.data).run (c.facing call)) :
    Whole codes (pre ++ [call]) (after call.data inserted (x, c')) := by
  cases x with
  | atomic y k => exact ⟨pre, call, c, rfl, rfl, ht, hrun⟩
  | throw exit => exact ⟨pre, call, c, rfl, rfl, ht, hrun⟩
  | pure returned =>
      have hret : (MyDataInsertClass.insert call.data).run (c.facing call) = .ok returned c' :=
        hrun.symm
      have hstep : (MyDataInsertClass.system codes).step ⟨c, inserted⟩ call =
          .ok ⟨c', if returned then inserted ++ [call.data] else inserted⟩ := by
        simp only [MyDataInsertClass.system, hret]
        cases returned <;> rfl
      cases returned with
      | true => exact ht.snoc trivial hstep
      | false => exact ht.snoc trivial hstep

theorem whole_of_trace {hist : List Occurrence} (ht : (system codes).Trace hist m)
    (hu : Uninterrupted hist) : Whole codes (hist.filterMap Occurrence.call?) m := by
  revert hu
  have h0 : Whole codes [] (system codes).init := by
    exact .nil (S := MyDataInsertClass.system codes)
  refine ht.history (fun hist m => Uninterrupted hist →
    Whole codes (hist.filterMap Occurrence.call?) m) (fun _ => h0) ?_
  intro h m o m' _ ih ha hs hu
  have hw := ih fun codes hin => hu codes (List.mem_append_left _ hin)
  rw [List.filterMap_append]
  cases o with
  | begin call =>
      obtain rfl := Except.ok.inj hs
      simp only [system] at ha
      simp only [Whole, ha] at hw
      exact ⟨_, call, m.crawler, rfl, rfl, hw, by rw [run_insert]⟩
  | part =>
      obtain ⟨data, x, hcall, hgoes⟩ := ha
      simp only [system, hcall] at hs
      obtain rfl := Except.ok.inj hs
      cases x with
      | pure returned => exact hgoes.elim
      | throw exit => exact hgoes.elim
      | atomic y k =>
          simp only [Whole, hcall] at hw
          obtain ⟨pre, call, c, hcalls, rfl, ht₀, hrun⟩ := hw
          simp only [List.filterMap_cons, List.filterMap_nil, Occurrence.call?, List.append_nil,
            hcalls]
          exact whole_after ht₀ ((run_next (.atomic y k) m.crawler).trans hrun)
  | finish data returned =>
      obtain rfl := Except.ok.inj hs
      simp only [system] at ha
      simp only [Whole, ha] at hw
      simpa [Whole, List.filterMap_cons, Occurrence.call?] using hw
  | restart codes' => exact absurd (List.mem_append_right _ List.mem_cons_self) (hu codes')

/-- Part after part of a call. -/
theorem exists_trace_parts {hist : List Occurrence} {c : Crawler} {x : Steps Crawler Exit Bool}
    {inserted : List TorrentData} (n : Nat)
    (ht : (system codes).Trace hist (after data inserted (x, c))) :
    ∃ parts, (∀ o ∈ parts, o = .part) ∧
      (system codes).Trace (hist ++ parts) (after data inserted (next^[n] (x, c))) := by
  induction n generalizing hist x c with
  | zero => exact ⟨[], by simp, by simpa using ht⟩
  | succ n ih =>
      rw [Function.iterate_succ_apply]
      cases x with
      | pure returned => exact ih ht
      | throw exit => exact ih ht
      | atomic y k =>
          have hnext : (system codes).Trace (hist ++ [.part])
              (after data inserted (next (.atomic y k, c))) := ht.snoc ⟨_, _, rfl, trivial⟩ rfl
          obtain ⟨parts, hall, ht'⟩ := ih hnext
          refine ⟨.part :: parts, by simpa using hall, ?_⟩
          rwa [List.append_cons]

/-- A call that is not interrupted, from its beginning until it returns. -/
theorem exists_trace_call {hist : List Occurrence} {c c' : Crawler} {inserted : List TorrentData}
    {returned : Bool} (call : InsertCall) (ht : (system codes).Trace hist ⟨c, none, inserted⟩)
    (hrun : (MyDataInsertClass.insert call.data).run (c.facing call) = .ok returned c') :
    ∃ parts, (∀ o ∈ parts, o = .part) ∧ (system codes).Trace (hist ++ .begin call :: parts)
      (after call.data inserted (.pure returned, c')) := by
  have hbegin : (system codes).Trace (hist ++ [.begin call])
      (after call.data inserted (insert call.data, c.facing call)) := ht.snoc rfl rfl
  obtain ⟨n, hn⟩ := exists_iterate_next (insert call.data) (c.facing call)
  rw [run_insert, hrun, ended] at hn
  obtain ⟨parts, hall, ht'⟩ := exists_trace_parts n hbegin
  rw [hn, ← List.append_cons] at ht'
  exact ⟨parts, hall, ht'⟩

/-- Its return. -/
theorem trace_finish {hist : List Occurrence} {c : Crawler} {inserted : List TorrentData}
    {returned : Bool} (ht : (system codes).Trace hist (after data inserted (.pure returned, c))) :
    (system codes).Trace (hist ++ [.finish data returned])
      ⟨c, none, if returned then inserted ++ [data] else inserted⟩ := by
  cases returned with
  | true => exact ht.snoc rfl rfl
  | false => exact ht.snoc rfl rfl

theorem exists_parts_of_trace {calls : List InsertCall} {r : Run}
    (ht : (MyDataInsertClass.system codes).Trace calls r) :
    ∃ hist, Uninterrupted hist ∧ hist.filterMap Occurrence.call? = calls ∧
      (system codes).Trace hist ⟨r.crawler, none, r.inserted⟩ := by
  refine ht.history (fun calls r => ∃ hist, Uninterrupted hist ∧
    hist.filterMap Occurrence.call? = calls ∧
      (system codes).Trace hist ⟨r.crawler, none, r.inserted⟩) ⟨[], ?_, rfl, .nil⟩ ?_
  · exact fun codes => List.not_mem_nil
  intro calls r call r' _ ih _ hs
  obtain ⟨hist, hu, hcalls, ht₀⟩ := ih
  have hwhole : ∀ returned c,
      (MyDataInsertClass.insert call.data).run (r.crawler.facing call) = .ok returned c →
      ∃ hist, Uninterrupted hist ∧ hist.filterMap Occurrence.call? = calls ++ [call] ∧
        (system codes).Trace hist
          ⟨c, none, if returned then r.inserted ++ [call.data] else r.inserted⟩ := by
    intro returned c hrun
    obtain ⟨parts, hall, ht'⟩ := exists_trace_call call ht₀ hrun
    have hnone : parts.filterMap Occurrence.call? = [] := by
      simpa [List.filterMap_eq_nil_iff] using fun o ho => by rw [hall o ho]; rfl
    refine ⟨_, fun codes hin => ?_, ?_, trace_finish ht'⟩
    · simp only [List.mem_append, List.mem_cons, List.not_mem_nil, reduceCtorEq, or_false,
        false_or] at hin
      cases hin with
      | inl hin => exact hu codes hin
      | inr hin => cases hall _ hin
    · simp [hcalls, hnone, Occurrence.call?]
  simp only [MyDataInsertClass.system] at hs
  split at hs
  · next c hrun =>
      obtain rfl := Except.ok.inj hs
      exact hwhole true c hrun
  · next c hrun =>
      obtain rfl := Except.ok.inj hs
      exact hwhole false c hrun
  · cases hs

/-- **Call by call and part by part.**  Some calls of `Insert` bring the crawler
to a state exactly if their database calls do, one by one, with other
connections looking on. -/
theorem trace_iff_parts {calls : List InsertCall} {c : Crawler} {inserted : List TorrentData} :
    (MyDataInsertClass.system codes).Trace calls ⟨c, inserted⟩ ↔
      ∃ hist, Uninterrupted hist ∧ hist.filterMap Occurrence.call? = calls ∧
        (system codes).Trace hist ⟨c, none, inserted⟩ := by
  constructor
  · exact fun ht => exists_parts_of_trace ht
  · intro h
    obtain ⟨hist, hu, rfl, ht⟩ := h
    exact whole_of_trace ht hu

/-! ## a crash -/

/-- A run in which `oneFile` comes in, and one that goes on from it with a call
for `twoFiles`.  Its process is gone after the `COMMIT`, before the call has
returned. -/
theorem exists_crash : ∃ (hist between : List Occurrence) (m m' : Moment),
    (system fun _ => .ok).Trace hist m ∧ hist.filterMap Occurrence.stored? = [oneFile] ∧
      m.inserted = [oneFile] ∧ (system fun _ => .ok).Trace (hist ++ between) m' ∧
      between.filterMap Occurrence.stored? = [] ∧ .restart (fun _ => .busy) ∈ between ∧
      m'.inserted = [oneFile, twoFiles] ∧ m'.call = none := by
  obtain ⟨c, hcalls⟩ := trace_oneFile
  obtain ⟨hist, hu, -, ht⟩ := exists_parts_of_trace hcalls
  have hready := ready_of_trace hcalls
  have hnew : twoFiles.hash ∉ c.mDb.db.hashTable.map HashRow.hashValue := by
    rw [hready.holds.hashes]
    simp [oneFile, twoFiles]
  obtain ⟨c', hrun, -⟩ := insert_of_accepting (c := c.facing (undisturbed twoFiles)) hready.quiet
    hready.closed (by decide : 0 < 1000) (fun _ => rfl) hnew isOk_tokens_twoFiles
  obtain ⟨parts, hall, ht'⟩ := exists_trace_call (undisturbed twoFiles) ht hrun
  have hrestart : (system fun _ => .ok).Trace
      (hist ++ .begin (undisturbed twoFiles) :: parts ++ [.restart fun _ => .busy])
      ((after twoFiles [oneFile] (.pure true, c')).restart fun _ => .busy) := ht'.snoc trivial rfl
  have htold : hist.filterMap Occurrence.stored? = [oneFile] := by
    simpa [Moment.owed] using (told_of_trace ht).2 hu
  have hnone : parts.filterMap Occurrence.stored? = [] := by
    simpa [List.filterMap_eq_nil_iff] using fun o ho => by rw [hall o ho]; rfl
  rw [List.append_assoc] at hrestart
  refine ⟨hist, _, _, _, ht, htold, rfl, hrestart, ?_, by simp, ?_, ?_⟩
  · simp [List.filterMap_cons, Occurrence.stored?, hnone]
  · rfl
  · rfl

/-- The moment after the crash: `twoFiles` is in, though its call has not
returned `true`. -/
theorem committed_undisturbed_crash : ∃ (hist : List Occurrence) (m : Moment),
    (system fun _ => .ok).Trace hist m ∧ hist.filterMap Occurrence.stored? = [oneFile] ∧
      m.inserted = [oneFile, twoFiles] ∧
      Undisturbed (fun _ => .ok) m.inserted m.committed ∧ m.committed.Consistent m.inserted ∧
      m.crawler.mDb.saved = none := by
  obtain ⟨hist, between, m, m', -, htold, -, ht', hbetween, -, hm', hidle⟩ := exists_crash
  obtain ⟨hundisturbed, hconsistent, -, hclosed⟩ := committed_undisturbed ht'
  refine ⟨_, m', ht', ?_, hm', hundisturbed, hconsistent, (hclosed hidle).1⟩
  rw [List.filterMap_append, htold, hbetween, List.append_nil]

theorem durable_of_trace_crash : ∃ m m' : Moment, m.inserted = [oneFile] ∧
    m'.inserted = [oneFile, twoFiles] ∧ Grown m m' := by
  obtain ⟨hist, between, m, m', ht, -, hm, ht', -, -, hm', -⟩ := exists_crash
  exact ⟨m, m', hm, hm', durable_of_trace ht ht'⟩

end Stepwise

end BtDht
