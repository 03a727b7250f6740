import Mathlib.Data.List.Basic
import Mathlib.Data.List.Infix

/-!
# BtDht.Data.Paths

Paths as text: the segments between the separators, and the names that are left
of them when the segments `.` and `..` are resolved.

A folder and a text are joined by writing one after the other.
`forall_inside_append_iff` says which texts lead from every folder to something
below it: those that begin with a separator, never climb above their start and
end below it.
-/

namespace BtDht.Paths

variable {α : Type} (isSep : α → Bool) (dot : α)

/-! ## segments -/

/-- The texts between the separators. -/
def segments (path : List α) : List (List α) := path.splitOnP isSep

section Segments

variable {isSep}

theorem segments_append_cons {s : α} (h : isSep s = true) (path rest : List α) :
    segments isSep (path ++ s :: rest) = segments isSep path ++ segments isSep rest :=
  List.splitOnP_append_cons path rest h

theorem segments_nil : segments isSep ([] : List α) = [[]] :=
  List.splitOnP_nil

theorem segments_cons {s : α} (h : isSep s = true) (rest : List α) :
    segments isSep (s :: rest) = [] :: segments isSep rest :=
  segments_append_cons h [] rest

theorem segments_of_forall_not_sep {name : List α} (h : ∀ a ∈ name, isSep a = false) :
    segments isSep name = [name] :=
  List.splitOnP_eq_singleton h

/-- A text without separators is glued to the first segment after it. -/
theorem segments_append_of_forall_not_sep {name rest : List α}
    (h : ∀ a ∈ name, isSep a = false) :
    segments isSep (name ++ rest) = (segments isSep rest).modifyHead (name ++ ·) := by
  unfold segments
  induction name with
  | nil => exact (congrFun List.modifyHead_id _).symm
  | cons a name ih =>
      have ha : isSep a = false := h a (by simp)
      rw [List.cons_append, List.splitOnP_cons_eq_if_modifyHead, ha,
        ih fun b hb => h b (by simp [hb])]
      simp only [Bool.false_eq_true, if_false, List.modifyHead_modifyHead]
      rfl

/-- There it is no segment any more. -/
theorem not_mem_segments_append {name rest : List α} {a : α} (h : ∀ a ∈ name, isSep a = false)
    (ha : isSep a = false) (hfresh : name ∉ segments isSep (a :: rest)) :
    name ∉ segments isSep (name ++ a :: rest) := by
  have hone : ∀ b ∈ [a], isSep b = false := by simpa using ha
  have hcons : segments isSep (a :: rest) = (segments isSep rest).modifyHead (a :: ·) :=
    segments_append_of_forall_not_sep hone
  rw [segments_append_of_forall_not_sep h]
  rw [hcons] at hfresh ⊢
  cases hs : segments isSep rest with
  | nil => exact absurd hs (List.splitOnP_ne_nil _ _)
  | cons first others =>
      rw [hs, List.modifyHead_cons, List.mem_cons, not_or] at hfresh
      rw [List.modifyHead_cons, List.modifyHead_cons, List.mem_cons, not_or]
      exact ⟨fun heq => by simpa using congrArg List.length heq, hfresh.2⟩

theorem length_le_of_mem_segments {path segment : List α} (h : segment ∈ segments isSep path) :
    segment.length ≤ path.length := by
  unfold segments at h
  induction path generalizing segment with
  | nil => simp_all
  | cons a path ih =>
      rw [List.splitOnP_cons_eq_if_modifyHead] at h
      cases hs : path.splitOnP isSep with
      | nil => exact absurd hs (List.splitOnP_ne_nil _ _)
      | cons first others =>
          rw [hs] at h ih
          grind [List.modifyHead_cons]

/-- The three kinds of segments. -/
theorem segment_cases (segment : List α) :
    (segment = [] ∨ segment = [dot]) ∨ segment = [dot, dot] ∨
      (segment ≠ [] ∧ segment ≠ [dot] ∧ segment ≠ [dot, dot]) := by
  tauto

end Segments

variable [DecidableEq α]

/-! ## resolving -/

/-- What one segment does to the names that are left of the segments before it,
the last of them first.  There is nothing above a root. -/
def step (rooted : Bool) (names : List (List α)) (segment : List α) : List (List α) :=
  if segment = [] ∨ segment = [dot] then names
  else if segment = [dot, dot] then
    match names with
    | [] => if rooted then [] else [segment]
    | name :: above => if name = [dot, dot] then segment :: name :: above else above
  else segment :: names

/-- What a path names: from the root or from where one stands. -/
structure Resolved (α : Type) where
  rooted : Bool
  names : List (List α)
  deriving DecidableEq, Repr

/-- A path without its segments `.` and `..`.  Those `..` stay that have nothing
to cancel. -/
def resolve (path : List α) : Resolved α :=
  let rooted := path.head?.any isSep
  ⟨rooted, ((segments isSep path).foldl (step dot rooted) []).reverse⟩

/-- The path names something below the folder: it resolves to the folder with a
separator after it, and further names. -/
def Inside (folder path : List α) : Prop :=
  ∃ s more, isSep s = true ∧ more ≠ [] ∧ [dot, dot] ∉ more ∧
    resolve isSep dot path = ⟨(resolve isSep dot (folder ++ [s])).rooted,
      (resolve isSep dot (folder ++ [s])).names ++ more⟩

theorem foldl_of_resolve_eq {isSep : α → Bool} {dot : α} {path : List α} {rooted : Bool}
    {names : List (List α)} (h : resolve isSep dot path = ⟨rooted, names⟩) :
    ((segments isSep path).foldl (step dot rooted) []).reverse = names := by
  obtain ⟨hroot, hnames⟩ := Resolved.mk.inj h
  rwa [hroot] at hnames

/-! ## climbing -/

/-- How many of the segments lead up. -/
def ups (segs : List (List α)) : Nat := segs.count [dot, dot]

/-- How many of the segments are names. -/
def downs (segs : List (List α)) : Nat :=
  segs.countP fun segment => segment ≠ [] ∧ segment ≠ [dot] ∧ segment ≠ [dot, dot]

/-- From `depth` names below the start, the segments never lead above it. -/
def NeverAbove (depth : Nat) (segs : List (List α)) : Prop :=
  ∀ part, part <+: segs → ups dot part ≤ depth + downs dot part

/-- A text that leads from its start to something below it, whatever stands
before it. -/
structure StaysInside (rest : List α) : Prop where
  sep : rest.head?.any isSep = true
  neverAbove : NeverAbove dot 0 (segments isSep rest)
  below : ups dot (segments isSep rest) < downs dot (segments isSep rest)

variable {isSep dot} {depth : Nat} {segment : List α} {segs names above : List (List α)}
  {rooted : Bool}

theorem neverAbove_cons : NeverAbove dot depth (segment :: segs) ↔
    ∀ part, part <+: segs → ups dot (segment :: part) ≤ depth + downs dot (segment :: part) := by
  constructor
  · intro h part hpart
    exact h _ (List.cons_prefix_cons.mpr ⟨rfl, hpart⟩)
  · intro h part hpart
    cases part with
    | nil => simp [ups]
    | cons a part =>
        obtain ⟨rfl, htail⟩ := List.cons_prefix_cons.mp hpart
        exact h part htail

instance : Decidable (NeverAbove dot depth segs) :=
  decidable_of_iff (∀ part ∈ segs.inits, ups dot part ≤ depth + downs dot part)
    (by simp only [List.mem_inits, NeverAbove])

instance (rest : List α) : Decidable (StaysInside isSep dot rest) :=
  decidable_of_iff (rest.head?.any isSep = true ∧ NeverAbove dot 0 (segments isSep rest) ∧
      ups dot (segments isSep rest) < downs dot (segments isSep rest))
    ⟨fun h => ⟨h.1, h.2.1, h.2.2⟩, fun h => ⟨h.sep, h.neverAbove, h.below⟩⟩

/-! ### a segment that is skipped -/

theorem ups_skip (h : segment = [] ∨ segment = [dot]) :
    ups dot (segment :: segs) = ups dot segs := by
  unfold ups
  grind

theorem downs_skip (h : segment = [] ∨ segment = [dot]) :
    downs dot (segment :: segs) = downs dot segs := by
  unfold downs
  grind

theorem step_skip (h : segment = [] ∨ segment = [dot]) :
    step dot rooted names segment = names := by
  unfold step
  rw [if_pos h]

theorem neverAbove_skip (h : segment = [] ∨ segment = [dot]) :
    NeverAbove dot depth (segment :: segs) ↔ NeverAbove dot depth segs := by
  simp only [neverAbove_cons, ups_skip h, downs_skip h]
  rfl

/-! ### a segment that leads up -/

theorem ups_up : ups dot ([dot, dot] :: segs) = ups dot segs + 1 := by
  simp [ups]

theorem downs_up : downs dot ([dot, dot] :: segs) = downs dot segs := by
  simp [downs]

theorem step_up {name : List α} (h : name ≠ [dot, dot]) :
    step dot rooted (name :: above) [dot, dot] = above := by
  simp [step, h]

theorem neverAbove_up :
    NeverAbove dot (depth + 1) ([dot, dot] :: segs) ↔ NeverAbove dot depth segs := by
  rw [neverAbove_cons]
  simp only [ups_up, downs_up, NeverAbove]
  grind

theorem not_neverAbove_zero_up : ¬ NeverAbove dot 0 ([dot, dot] :: segs) := by
  intro h
  have hle := neverAbove_cons.mp h [] List.nil_prefix
  rw [ups_up, downs_up] at hle
  simp [ups, downs] at hle

/-! ### a name -/

section Name

variable (h : segment ≠ [] ∧ segment ≠ [dot] ∧ segment ≠ [dot, dot])
include h

theorem ups_name : ups dot (segment :: segs) = ups dot segs := by
  simp [ups, h]

theorem downs_name : downs dot (segment :: segs) = downs dot segs + 1 := by
  simp [downs, h]

theorem step_name : step dot rooted names segment = segment :: names := by
  simp [step, h]

theorem neverAbove_name :
    NeverAbove dot depth (segment :: segs) ↔ NeverAbove dot (depth + 1) segs := by
  rw [neverAbove_cons]
  simp only [ups_name h, downs_name h, NeverAbove]
  grind

end Name

/-! ## the walk below a folder -/

/-- Segments that never lead above their start leave the names there alone. -/
theorem foldl_step_of_neverAbove (hnames : [dot, dot] ∉ names)
    (h : NeverAbove dot names.length segs) (rooted : Bool) (above : List (List α)) :
    ∃ more, [dot, dot] ∉ more ∧ more.length + ups dot segs = names.length + downs dot segs ∧
      segs.foldl (step dot rooted) (names ++ above) = more ++ above := by
  induction segs generalizing names with
  | nil => exact ⟨names, hnames, by simp [ups, downs], rfl⟩
  | cons segment segs ih =>
      rw [List.foldl_cons]
      obtain hskip | rfl | hname := segment_cases dot segment
      · rw [step_skip hskip, ups_skip hskip, downs_skip hskip]
        exact ih hnames ((neverAbove_skip hskip).mp h)
      · cases names with
        | nil => exact absurd h not_neverAbove_zero_up
        | cons name names =>
            rw [List.mem_cons, not_or] at hnames
            obtain ⟨more, hmore, hlen, hfold⟩ := ih hnames.2 (neverAbove_up.mp h)
            rw [List.cons_append, step_up (Ne.symm hnames.1), ups_up, downs_up, List.length_cons]
            exact ⟨more, hmore, by omega, hfold⟩
      · have hcons : [dot, dot] ∉ segment :: names := by simp [hnames, Ne.symm hname.2.2]
        obtain ⟨more, hmore, hlen, hfold⟩ := ih hcons ((neverAbove_name hname).mp h)
        rw [step_name hname, ups_name hname, downs_name hname]
        rw [List.length_cons] at hlen
        exact ⟨more, hmore, by omega, hfold⟩

/-- Nothing is named that no segment names. -/
theorem mem_foldl_step {name : List α} (h : name ∈ segs.foldl (step dot rooted) names) :
    name ∈ names ∨ name ∈ segs := by
  induction segs generalizing names with
  | nil => exact Or.inl h
  | cons segment segs ih =>
      have hstep : ∀ name ∈ step dot rooted names segment, name ∈ names ∨ name = segment := by
        unfold step
        grind
      grind

/-- Segments that lead above a name and do not have it themselves lose it. -/
theorem not_mem_foldl_step {name : List α} (hname : name ∉ segs) (hup : name ≠ [dot, dot])
    (hnames : [dot, dot] ∉ names ∧ name ∉ names) (h : ¬ NeverAbove dot names.length segs) :
    name ∉ segs.foldl (step dot rooted) (names ++ [name]) := by
  induction segs generalizing names with
  | nil => exact absurd (fun part hpart => by simp [List.prefix_nil.mp hpart, ups]) h
  | cons segment segs ih =>
      rw [List.mem_cons, not_or] at hname
      rw [List.foldl_cons]
      obtain hskip | rfl | hseg := segment_cases dot segment
      · rw [step_skip hskip]
        exact ih hname.2 hnames (by rwa [neverAbove_skip hskip] at h)
      · cases names with
        | nil =>
            rw [List.nil_append, step_up hup]
            intro hmem
            obtain hmem | hmem := mem_foldl_step hmem
            · exact absurd hmem List.not_mem_nil
            · exact hname.2 hmem
        | cons top names =>
            rw [List.length_cons, neverAbove_up] at h
            rw [List.cons_append, step_up (by grind)]
            exact ih hname.2 (by grind) h
      · rw [neverAbove_name hseg] at h
        rw [step_name hseg]
        have hcons : [dot, dot] ∉ segment :: names ∧ name ∉ segment :: names := by grind
        exact ih hname.2 hcons h

/-! ## joining -/

variable {rest : List α}

variable (dot) in
/-- Below a separator the walk goes on from where the folder has led. -/
theorem resolve_append_cons {s : α} (hs : isSep s = true) (folder rest : List α) :
    (resolve isSep dot (folder ++ s :: rest)).rooted =
        (resolve isSep dot (folder ++ [s])).rooted ∧
      (resolve isSep dot (folder ++ s :: rest)).names.reverse =
        (segments isSep rest).foldl (step dot (resolve isSep dot (folder ++ [s])).rooted)
          (resolve isSep dot (folder ++ [s])).names.reverse := by
  have hroot : (folder ++ s :: rest).head?.any isSep = (folder ++ [s]).head?.any isSep := by
    cases folder with
    | nil => rfl
    | cons a folder => rfl
  constructor
  · exact hroot
  · simp only [resolve, hroot, segments_append_cons hs, segments_nil, List.foldl_append,
      List.reverse_reverse, List.foldl_cons, List.foldl_nil, step_skip (Or.inl rfl)]

theorem staysInside_cons {s : α} (hs : isSep s = true) : StaysInside isSep dot (s :: rest) ↔
    NeverAbove dot 0 (segments isSep rest) ∧
      ups dot (segments isSep rest) < downs dot (segments isSep rest) := by
  have hskip : ([] : List α) = [] ∨ ([] : List α) = [dot] := Or.inl rfl
  constructor
  · intro h
    have hnever := h.neverAbove
    have hbelow := h.below
    rw [segments_cons hs, neverAbove_skip hskip] at hnever
    rw [segments_cons hs, ups_skip hskip, downs_skip hskip] at hbelow
    exact ⟨hnever, hbelow⟩
  · intro h
    obtain ⟨hnever, hbelow⟩ := h
    exact {
      sep := hs
      neverAbove := by rwa [segments_cons hs, neverAbove_skip hskip]
      below := by rwa [segments_cons hs, ups_skip hskip, downs_skip hskip] }

/-- A text that stays inside leads from every folder to something below it. -/
theorem inside_append_of_staysInside (h : StaysInside isSep dot rest) (folder : List α) :
    Inside isSep dot folder (folder ++ rest) := by
  cases rest with
  | nil => exact absurd h.sep (by simp)
  | cons s rest =>
      have hs : isSep s = true := h.sep
      obtain ⟨hnever, hbelow⟩ := (staysInside_cons hs).mp h
      obtain ⟨hroot, hnames⟩ := resolve_append_cons dot hs folder rest
      obtain ⟨more, hmore, hlen, hfold⟩ := foldl_step_of_neverAbove List.not_mem_nil hnever
        (resolve isSep dot (folder ++ [s])).rooted (resolve isSep dot (folder ++ [s])).names.reverse
      rw [List.nil_append, ← hnames] at hfold
      refine ⟨s, more.reverse, hs, ?_, by simpa using hmore, ?_⟩
      · intro hnil
        rw [List.reverse_eq_nil_iff.mp hnil, List.length_nil] at hlen
        omega
      · have hres := congrArg List.reverse hfold
        rw [List.reverse_reverse, List.reverse_append, List.reverse_reverse] at hres
        rw [← hres, ← hroot]

section Fresh

variable {name : List α} (hname : ∀ a ∈ name, isSep a = false)
  (hseg : name ≠ [] ∧ name ≠ [dot] ∧ name ≠ [dot, dot])
include hname hseg

/-- A folder of one name. -/
theorem resolve_name_append {s : α} (hs : isSep s = true) :
    resolve isSep dot (name ++ [s]) = ⟨false, [name]⟩ := by
  have hroot : (name ++ [s]).head?.any isSep = false := by
    cases name with
    | nil => exact absurd rfl hseg.1
    | cons a name => exact hname a (by simp)
  simp only [resolve, hroot, segments_append_cons hs, segments_of_forall_not_sep hname, segments_nil,
    List.singleton_append, List.foldl_cons, List.foldl_nil, step_name hseg, step_skip (Or.inl rfl),
    List.reverse_singleton]

/-- From a folder of one name that the text does not have, only a text that
stays inside leads to something below the folder: it has no other way back. -/
theorem staysInside_of_inside (hfresh : name ∉ segments isSep rest)
    (h : Inside isSep dot name (name ++ rest)) : StaysInside isSep dot rest := by
  obtain ⟨s, more, hs, hmore, -, hres⟩ := h
  rw [resolve_name_append hname hseg hs, List.singleton_append] at hres
  have hnames := foldl_of_resolve_eq hres
  have hmem : name ∈ (segments isSep (name ++ rest)).foldl (step dot false) [] := by
    rw [← List.mem_reverse, hnames]
    exact List.mem_cons_self
  cases rest with
  | nil =>
      rw [List.append_nil, segments_of_forall_not_sep hname, List.foldl_cons, List.foldl_nil,
        step_name hseg] at hnames
      exact absurd (List.cons.inj hnames).2.symm hmore
  | cons a rest =>
      cases ha : isSep a with
      | false =>
          obtain hmem | hmem := mem_foldl_step hmem
          · exact absurd hmem List.not_mem_nil
          · exact absurd hmem (not_mem_segments_append hname ha hfresh)
      | true =>
          rw [segments_append_cons ha, segments_of_forall_not_sep hname, List.singleton_append,
            List.foldl_cons, step_name hseg] at hmem hnames
          rw [segments_cons ha, List.mem_cons, not_or] at hfresh
          have hstart : [dot, dot] ∉ ([] : List (List α)) ∧ name ∉ ([] : List (List α)) :=
            ⟨List.not_mem_nil, List.not_mem_nil⟩
          have hnever : NeverAbove dot 0 (segments isSep rest) := by
            by_contra hclimbs
            exact not_mem_foldl_step hfresh.2 hseg.2.2 hstart hclimbs hmem
          obtain ⟨below, -, hlen, hfold⟩ := foldl_step_of_neverAbove hstart.1 hnever false [name]
          rw [List.nil_append] at hfold
          rw [hfold, List.reverse_append, List.reverse_singleton, List.singleton_append] at hnames
          have hbelow : below.length ≠ 0 := by
            intro hzero
            rw [List.length_eq_zero_iff.mp hzero, List.reverse_nil] at hnames
            exact hmore (List.cons.inj hnames).2.symm
          rw [List.length_nil] at hlen
          exact (staysInside_cons ha).mpr ⟨hnever, by omega⟩

end Fresh

/-- **Which texts lead from every folder to something below it.**  `c` is any
character that names can be made of. -/
theorem forall_inside_append_iff {c : α} (hsep : isSep c = false) (hdot : c ≠ dot) :
    (∀ folder, Inside isSep dot folder (folder ++ rest)) ↔ StaysInside isSep dot rest := by
  constructor
  · intro h
    -- a name that is too long to be a segment of the text
    let name := List.replicate (rest.length + 1) c
    have hname : ∀ a ∈ name, isSep a = false := by
      intro a ha
      rwa [List.eq_of_mem_replicate ha]
    have hseg : name ≠ [] ∧ name ≠ [dot] ∧ name ≠ [dot, dot] := by
      simp [name, List.replicate_succ, hdot]
    have hfresh : name ∉ segments isSep rest := by
      intro hmem
      have hlen := length_le_of_mem_segments hmem
      rw [List.length_replicate] at hlen
      omega
    exact staysInside_of_inside hname hseg hfresh (h name)
  · intro h folder
    exact inside_append_of_staysInside h folder

end BtDht.Paths
