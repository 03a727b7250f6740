import BtDht.MyDhtRecord.AlertLoop

/-!
# BtDht.MyDhtRecord.Lifetimes

The program run again and again on one file.  A process works through alerts
until one of them ends it, or until it is stopped; the next one starts on what
is committed, with a new session and nothing counted.

What the processes leave behind together has been collected from all alerts
that were handled, as by one loop (`lifetimes_collect`).  The counts and the requests are
those of the running process alone, so that a torrent is requested again after
each start.
-/

namespace BtDht

open Sqlite Database

/-! ## collecting on top of what was collected -/

/-- What was collected on top of a collected library has been collected. -/
theorem Collected.trans {stored library library' : List TorrentData}
    {hist hist' : List Delivery} (h : Collected stored hist library)
    (h' : Collected library hist' library') : Collected stored (hist ++ hist') library' := by
  have hoffered : offered (hist ++ hist') = offered hist ++ offered hist' := by
    simp [offered]
  constructor
  · obtain ⟨inserted, rfl, hsub⟩ := h.grown
    obtain ⟨inserted', rfl, hsub'⟩ := h'.grown
    rw [hoffered]
    exact ⟨inserted ++ inserted', List.append_assoc _ _ _, hsub.append hsub'⟩
  · intro v hv
    have hpre : Unrefused hist v := fun d hd => hv d (List.mem_append_left _ hd)
    have hpost : Unrefused hist' v := fun d hd => hv d (List.mem_append_right _ hd)
    rw [h'.first v hpost, List.find?_append, h.first v hpre, ← List.find?_append, hoffered,
      List.append_assoc]

/-! ## the program -/

namespace Lifetimes

/-- The running process, with the alerts it has handled and those that the
processes before it have. -/
structure Lifetime where
  before : List Delivery
  current : List Delivery
  process : DhtRecord

/-- A process has ended in the state `s`, and the next one starts. -/
def Lifetime.restart (m : Lifetime) (s : DhtRecord) (codes : StmtName → ResultCode) : Lifetime where
  before := m.before ++ m.current
  current := []
  process := DhtRecord.init s.counttable.mDb.committed codes

/-- What happens to the program; `codes` is what the memory of the new
statements holds if it has to start again. -/
inductive Incident
  | deliver (d : Delivery) (codes : StmtName → ResultCode)
  | stop (codes : StmtName → ResultCode)

/-- The alert of an incident. -/
def Incident.delivery? : Incident → Option Delivery
  | .deliver d _ => some d
  | .stop _ => none

/-- The program from its first start on, without a file. -/
def system (codes : StmtName → ResultCode) : System Lifetime Incident Empty where
  init := ⟨[], [], DhtRecord.init .empty codes⟩
  allowed _ _ := True
  step m
    | .deliver d codes =>
        match (sessionAlert d.alert).run (AlertLoop.facing m.process d) with
        | .ok _ s => .ok { m with current := m.current ++ [d], process := s }
        | .error _ s => .ok (m.restart s codes)
    | .stop codes => .ok (m.restart m.process codes)

/-! ## what is kept across starts -/

/-- The running process has looped on what those before it have collected. -/
def Lived (m : Lifetime) : Prop :=
  ∃ stored, Collected [] m.before stored ∧ AlertLoop.Looped stored m.current m.process

variable {codes : StmtName → ResultCode} {hist : List Incident} {m m' : Lifetime}

/-- The next process starts on everything that was stored between two alerts. -/
theorem Lived.restart (h : Lived m) {s : DhtRecord}
    (hs : s.counttable.mDb.committed = m.process.counttable.mDb.db)
    (codes : StmtName → ResultCode) : Lived (m.restart s codes) := by
  obtain ⟨stored, hbefore, hloop⟩ := h
  obtain ⟨library, hcurrent, hholds⟩ := hloop.library
  refine ⟨library, hbefore.trans hcurrent, ?_⟩
  rw [Lifetime.restart, hs]
  exact AlertLoop.looped_init hholds hloop.indexed

theorem Lived.step (h : Lived m) {i : Incident} (hs : (system codes).step m i = .ok m') :
    Lived m' := by
  obtain ⟨stored, hbefore, hloop⟩ := h
  cases i with
  | deliver d codes' =>
      have hrun := hloop.sessionAlert d
      unfold Ensures at hrun
      cases hres : (sessionAlert d.alert).run (AlertLoop.facing m.process d) with
      | ok u s =>
          rw [hres] at hrun
          simp only [system, hres] at hs
          obtain rfl := Except.ok.inj hs
          exact ⟨stored, hbefore, hrun⟩
      | error exit s =>
          rw [hres] at hrun
          simp only [system, hres] at hs
          obtain rfl := Except.ok.inj hs
          exact Lived.restart ⟨stored, hbefore, hloop⟩ hrun.1 codes'
  | stop codes' =>
      obtain rfl := Except.ok.inj hs
      have hcommitted : m.process.counttable.mDb.committed = m.process.counttable.mDb.db := by
        rw [Engine.committed, hloop.closed]
        rfl
      exact Lived.restart ⟨stored, hbefore, hloop⟩ hcommitted codes'

/-- The run lemma. -/
theorem lived_of_trace (ht : (system codes).Trace hist m) : Lived m := by
  refine ht.invariant Lived ?_ fun _ _ _ h _ hs => h.step hs
  exact ⟨[], collected_nil [], AlertLoop.looped_init holds_empty AlertLoop.indexed_empty⟩

/-- What is handled has been delivered. -/
theorem handled_sublist (ht : (system codes).Trace hist m) :
    (m.before ++ m.current).Sublist (hist.filterMap Incident.delivery?) := by
  refine ht.history (fun hist m => (m.before ++ m.current).Sublist
    (hist.filterMap Incident.delivery?)) (List.nil_sublist _) ?_
  intro hist m i m' _ ih _ hs
  rw [List.filterMap_append]
  have hrestart : ∀ s codes, ((m.restart s codes).before ++ (m.restart s codes).current).Sublist
      (hist.filterMap Incident.delivery? ++ [i].filterMap Incident.delivery?) := by
    intro s codes
    rw [Lifetime.restart, List.append_nil]
    exact ih.trans (List.sublist_append_left _ _)
  cases i with
  | deliver d codes' =>
      simp only [system] at hs
      split at hs
      · obtain rfl := Except.ok.inj hs
        rw [← List.append_assoc]
        exact ih.append (List.Sublist.refl [d])
      · obtain rfl := Except.ok.inj hs
        exact hrestart _ _
  | stop codes' =>
      obtain rfl := Except.ok.inj hs
      exact hrestart _ _

/-- **What the processes leave behind together.**  Whatever ends them, and
however often they start again: the library is consistent and has some of the
torrents of all alerts that were handled, in their order, and the first one of
each key whose torrents met no refusal.  The requests and the counts are those
of the alerts that the running process has handled. -/
theorem lifetimes_collect (ht : (system codes).Trace hist m) :
    (m.before ++ m.current).Sublist (hist.filterMap Incident.delivery?) ∧
      (∃ library, Collected [] (m.before ++ m.current) library ∧
        m.process.counttable.mDb.db.Consistent library) ∧
      m.process.counttable.mDb.saved = none ∧
      m.process.ses.added = (asked [] m.current).map request ∧
      m.process.counttable.mDb.db.Tallies ((m.current.filterMap Delivery.counted).map hashKey) := by
  obtain ⟨stored, hbefore, hloop⟩ := lived_of_trace ht
  obtain ⟨library, hcurrent, hholds⟩ := hloop.library
  exact ⟨handled_sublist ht, ⟨library, hbefore.trans hcurrent, hholds.consistent⟩, hloop.closed,
    hloop.requested, hloop.tallies⟩

/-- The first process runs the loop. -/
theorem trace_of_loop {hist : List Delivery} {s : DhtRecord}
    (ht : (AlertLoop.system .empty codes).Trace hist s) :
    (system codes).Trace (hist.map fun d => .deliver d codes) ⟨[], hist, s⟩ := by
  refine ht.history (fun hist s =>
    (system codes).Trace (hist.map fun d => .deliver d codes) ⟨[], hist, s⟩) .nil ?_
  intro hist s d s' _ ih _ hs
  rw [List.map_append]
  refine ih.snoc trivial ?_
  simp only [AlertLoop.system] at hs
  split at hs
  · next u s₁ hres =>
      obtain rfl := Except.ok.inj hs
      simp only [system, hres]
  · cases hs

/-- The alerts of `oneHist`, and a second start. -/
theorem lifetimes_collect_oneHist : ∃ (m : Lifetime) (library : List TorrentData),
    m.before = AlertLoop.oneHist ∧ Collected [] (m.before ++ m.current) library ∧
      m.process.counttable.mDb.db.Consistent library ∧ m.process.ses.added = [] := by
  obtain ⟨s, hloop⟩ := AlertLoop.trace_oneHist
  have ht : (system fun _ => .ok).Trace (AlertLoop.oneHist.map (fun d => .deliver d fun _ => .ok) ++
      [.stop fun _ => .busy]) (Lifetime.restart ⟨[], AlertLoop.oneHist, s⟩ s fun _ => .busy) :=
    (trace_of_loop hloop).snoc trivial rfl
  obtain ⟨-, ⟨library, hcol, hcons⟩, -, hadded, -⟩ := lifetimes_collect ht
  exact ⟨_, library, rfl, hcol, hcons, hadded⟩

end Lifetimes

end BtDht
