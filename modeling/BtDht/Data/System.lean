import BtDht.Data.Lists

/-!
# BtDht.Data.System

Event-driven systems and the rules for their runs.  A `System` is a step
function over a state, together with the events each state admits: the step
may fail, and then there is no next state.  A `Trace` is a run from the
initial state, kept with the history of events that led to the state, so that
both plain invariants and statements about the history are proved by one
induction.

The rules:

* `Trace.invariant` / `Trace.history` — what every step preserves holds of
  every state reached (and of every state with its history);
* `Trace.split` — every event of a run fired on a state some prefix reached;
* `Trace.between` — what the events of a stretch of a run keep holds at its end
  if it holds at its beginning;
* `Trace.stretch` — a preorder that holds across every step holds across every
  stretch of a run;
* `Trace.holdsSince` — while a property lasts, what the event that brought it
  about established lasts too;
* `Trace.since_iff` — what each step either brings about or keeps holds exactly
  if one of the steps brought it about and all later ones have kept it;
* `Trace.simulated` / `Trace.related` — steps that match lift to runs that
  match;
* `Trace.always_iff` — when a property of states is kept by exactly those
  steps that meet a condition, it holds all along a run exactly when all of
  the run's steps meet the condition.
-/

namespace BtDht

universe u v w

/-- What a result becomes under a function, it becomes from a result. -/
theorem map_eq_ok_iff {φ : Type w} {σ : Type u} {τ : Type v} {x : Except φ σ} {f : σ → τ} {t : τ} :
    x.map f = .ok t ↔ ∃ s, x = .ok s ∧ f s = t := by
  cases x with
  | error e => simp [Except.map]
  | ok s => simp [Except.map]

/-- A state machine: where it starts, which events a state admits, and what
an event does; `φ` is what a step may fail with. -/
structure System (σ : Type u) (ε : Type v) (φ : Type w) where
  init : σ
  allowed : σ → ε → Prop
  step : σ → ε → Except φ σ

namespace System

variable {σ : Type u} {ε : Type v} {φ : Type w}

/-- The runs of a system: the history, oldest event first, and the state it
ends in. -/
inductive Trace (S : System σ ε φ) : List ε → σ → Prop
  | nil : Trace S [] S.init
  | snoc {h : List ε} {s s' : σ} {e : ε} : Trace S h s → S.allowed s e → S.step s e = .ok s' →
      Trace S (h ++ [e]) s'

/-- The states some run ends in. -/
def Reachable (S : System σ ε φ) (s : σ) : Prop := ∃ h, S.Trace h s

/-- Every event of the history `h` fired on a state that meets `P` with it. -/
def Along (S : System σ ε φ) (P : σ → ε → Prop) (h : List ε) : Prop :=
  ∀ pre e post s, h = pre ++ e :: post → S.Trace pre s → P s e

variable {S : System σ ε φ}

/-! ## invariants -/

/-- A relation between history and state that every step extends holds of
every run. -/
theorem Trace.history (I : List ε → σ → Prop) (h0 : I [] S.init)
    (hstep : ∀ h s e s', S.Trace h s → I h s → S.allowed s e → S.step s e = .ok s' →
      I (h ++ [e]) s')
    {h : List ε} {s : σ} (ht : S.Trace h s) : I h s := by
  induction ht with
  | nil => exact h0
  | snoc ht ha hs ih => exact hstep _ _ _ _ ht ih ha hs

/-- An invariant that every step keeps holds of every state reached. -/
theorem Trace.invariant (I : σ → Prop) (h0 : I S.init)
    (hstep : ∀ s e s', I s → S.allowed s e → S.step s e = .ok s' → I s')
    {h : List ε} {s : σ} (ht : S.Trace h s) : I s :=
  ht.history (fun _ => I) h0 fun _ _ _ _ _ hi ha hs => hstep _ _ _ hi ha hs

theorem Reachable.invariant (I : σ → Prop) (h0 : I S.init)
    (hstep : ∀ s e s', I s → S.allowed s e → S.step s e = .ok s' → I s')
    {s : σ} (hr : S.Reachable s) : I s := by
  obtain ⟨h, ht⟩ := hr
  exact ht.invariant I h0 hstep

theorem Reachable.step {s s' : σ} {e : ε} (hr : S.Reachable s) (ha : S.allowed s e)
    (hs : S.step s e = .ok s') : S.Reachable s' := by
  obtain ⟨h, ht⟩ := hr
  exact ⟨h ++ [e], ht.snoc ha hs⟩

/-! ## prefixes -/

/-- The last event of a run, with the state it fired on. -/
theorem Trace.snoc_inv {h : List ε} {e : ε} {s' : σ} (ht : S.Trace (h ++ [e]) s') :
    ∃ s, S.Trace h s ∧ S.allowed s e ∧ S.step s e = .ok s' := by
  generalize hh : h ++ [e] = h' at ht
  cases ht with
  | nil => simp at hh
  | snoc ht ha hs =>
      obtain ⟨rfl, he⟩ := List.append_inj' hh rfl
      obtain rfl := (List.cons.inj he).1
      exact ⟨_, ht, ha, hs⟩

/-- Every prefix of a run is a run. -/
theorem Trace.prefix {h h' : List ε} {s : σ} (ht : S.Trace (h ++ h') s) :
    ∃ s₀, S.Trace h s₀ := by
  induction h' using List.reverseRecOn generalizing s with
  | nil => exact ⟨s, by simpa using ht⟩
  | append_singleton h' e ih =>
      rw [← List.append_assoc] at ht
      obtain ⟨s₁, ht₁, -, -⟩ := ht.snoc_inv
      exact ih ht₁

/-- A run determines the state it ends in. -/
theorem Trace.functional {h : List ε} {s s' : σ} (ht : S.Trace h s) (ht' : S.Trace h s') :
    s = s' := by
  induction ht generalizing s' with
  | nil =>
      generalize hh : ([] : List ε) = h at ht'
      cases ht' with
      | nil => rfl
      | snoc => simp at hh
  | snoc _ _ hs ih =>
      obtain ⟨s₁, ht₁, -, hs₁⟩ := ht'.snoc_inv
      rw [← ih ht₁, hs] at hs₁
      exact Except.ok.inj hs₁

/-- An event inside a run fired on the state its predecessors reached, and
the run went on from the state it gave. -/
theorem Trace.split {pre post : List ε} {e : ε} {s : σ} (ht : S.Trace (pre ++ e :: post) s) :
    ∃ s₀ s₁, S.Trace pre s₀ ∧ S.allowed s₀ e ∧ S.step s₀ e = .ok s₁ ∧
      S.Trace (pre ++ [e]) s₁ := by
  rw [List.append_cons] at ht
  obtain ⟨s₁, ht₁⟩ := ht.prefix
  obtain ⟨s₀, ht₀, ha, hs⟩ := ht₁.snoc_inv
  exact ⟨s₀, s₁, ht₀, ha, hs, ht₁⟩

/-! ## stretches of a run -/

/-- What every event of `h₂` keeps holds after `h₁ ++ h₂` if it holds after
`h₁`. -/
theorem Trace.between (I : σ → Prop) {h₁ h₂ : List ε} {s₁ s : σ} (ht₁ : S.Trace h₁ s₁)
    (hi : I s₁)
    (hstep : ∀ mid e s s', mid ++ [e] <+: h₂ → S.Trace (h₁ ++ mid) s → I s →
      S.step s e = .ok s' → I s')
    (ht : S.Trace (h₁ ++ h₂) s) : I s := by
  induction h₂ using List.reverseRecOn generalizing s with
  | nil =>
      rw [List.append_nil] at ht
      rwa [ht.functional ht₁]
  | append_singleton h₂ e ih =>
      rw [← List.append_assoc] at ht
      obtain ⟨s₂, ht₂, -, hs⟩ := ht.snoc_inv
      have hi₂ : I s₂ := ih (fun mid e' s s' hp => hstep mid e' s s'
        (hp.trans (List.prefix_append h₂ [e]))) ht₂
      exact hstep h₂ e s₂ s List.prefix_rfl ht₂ hi₂ hs

/-- A preorder that holds across every step of a run holds across each stretch
of it. -/
theorem Trace.stretch (R : σ → σ → Prop) (hrefl : ∀ s, R s s)
    (htrans : ∀ {s₁ s₂ s₃}, R s₁ s₂ → R s₂ s₃ → R s₁ s₃)
    (hstep : ∀ h s e s', S.Trace h s → S.allowed s e → S.step s e = .ok s' → R s s')
    {h₁ h₂ : List ε} {s₁ s : σ} (ht₁ : S.Trace h₁ s₁) (ht : S.Trace (h₁ ++ h₂) s) : R s₁ s := by
  induction h₂ using List.reverseRecOn generalizing s with
  | nil =>
      rw [List.append_nil] at ht
      rw [ht.functional ht₁]
      exact hrefl s₁
  | append_singleton h₂ e ih =>
      rw [← List.append_assoc] at ht
      obtain ⟨s₂, ht₂, ha, hs⟩ := ht.snoc_inv
      exact htrans (ih ht₂) (hstep _ s₂ e s ht₂ ha hs)

/-- The run `pre ++ e :: post` is in a stretch of `P` that began with `e`: `P`
failed before that event and has held ever since. -/
structure HoldsSince (S : System σ ε φ) (P : σ → Prop) (pre : List ε) (e : ε) (post : List ε) :
    Prop where
  before : ∀ s, S.Trace pre s → ¬ P s
  since : ∀ mid s, mid <+: post → S.Trace (pre ++ e :: mid) s → P s

/-- What the first event of a stretch of `P` establishes, and every event
inside the stretch keeps, holds wherever `P` does. -/
theorem Trace.holdsSince (P : σ → Prop) (R : ε → σ → Prop) (h0 : ¬ P S.init)
    (hbegin : ∀ s e s', ¬ P s → S.step s e = .ok s' → P s' → R e s')
    (hkeep : ∀ s e₀ e s', P s → R e₀ s → S.step s e = .ok s' → P s' → R e₀ s')
    {h : List ε} {s : σ} (ht : S.Trace h s) (hp : P s) :
    ∃ pre e post, h = pre ++ e :: post ∧ S.HoldsSince P pre e post ∧ R e s := by
  induction ht with
  | nil => exact absurd hp h0
  | @snoc h s s' e ht ha hs ih =>
      have hnext : ∀ s'', S.Trace (h ++ [e]) s'' → P s'' := by
        intro s'' ht''
        rwa [ht''.functional (ht.snoc ha hs)]
      by_cases hps : P s
      · -- the stretch goes on
        obtain ⟨pre, e₀, post, rfl, hsince, hr⟩ := ih hps
        refine ⟨pre, e₀, post ++ [e], by simp, ⟨hsince.before, fun mid s'' hm ht'' => ?_⟩,
          hkeep s e₀ e s' hps hr hs hp⟩
        cases List.prefix_concat_iff.mp hm with
        | inl heq =>
            rw [heq] at ht''
            exact hnext s'' (by simpa using ht'')
        | inr hm' => exact hsince.since mid s'' hm' ht''
      · -- a new stretch begins
        refine ⟨h, e, [], rfl, ⟨fun s'' ht'' => ?_, fun mid s'' hm ht'' => ?_⟩,
          hbegin s e s' hps hs hp⟩
        · rwa [ht''.functional ht]
        · rw [List.prefix_nil.mp hm] at ht''
          exact hnext s'' ht''

/-- When a step leads to `P` exactly if it brings `P` about (`W`), or `P` holds
and it keeps it (`K`), then `P` holds after a run exactly if some step brought it
about and all later ones kept it. -/
theorem Trace.since_iff (P : σ → Prop) (W K : σ → ε → Prop) (h0 : ¬ P S.init)
    (hstep : ∀ s e s', S.Reachable s → S.allowed s e → S.step s e = .ok s' →
      (P s' ↔ W s e ∨ P s ∧ K s e))
    {h : List ε} {s : σ} (ht : S.Trace h s) :
    P s ↔ ∃ pre e post, h = pre ++ e :: post ∧ (∀ s₀, S.Trace pre s₀ → W s₀ e) ∧
      ∀ mid e' rest s₁, post = mid ++ e' :: rest → S.Trace (pre ++ e :: mid) s₁ → K s₁ e' := by
  induction ht with
  | nil => simp [h0]
  | @snoc h s s' e ht ha hs ih =>
      rw [hstep s e s' ⟨h, ht⟩ ha hs]
      constructor
      · intro hp
        cases hp with
        | inl hw =>
            refine ⟨h, e, [], rfl, fun s₀ ht₀ => by rwa [ht₀.functional ht], ?_⟩
            intro mid e' rest s₁ hnil
            simp at hnil
        | inr hk =>
            obtain ⟨pre, e₀, post, rfl, hw, hkeep⟩ := ih.mp hk.1
            refine ⟨pre, e₀, post ++ [e], by simp, hw, fun mid e' rest s₁ hpost ht₁ => ?_⟩
            rcases append_singleton_eq_append_cons.mp hpost with ⟨rfl, rfl, -⟩ | ⟨rest', -, hpost'⟩
            · rw [ht₁.functional ht]
              exact hk.2
            · exact hkeep mid e' rest' s₁ hpost' ht₁
      · rintro ⟨pre, e₀, post, hh, hw, hkeep⟩
        rcases append_singleton_eq_append_cons.mp hh with ⟨rfl, rfl, -⟩ | ⟨post', rfl, rfl⟩
        · exact Or.inl (hw s ht)
        · refine Or.inr ⟨ih.mpr ⟨pre, e₀, post', rfl, hw, ?_⟩, hkeep post' e [] s rfl ht⟩
          intro mid e' rest s₁ hpost ht₁
          exact hkeep mid e' (rest ++ [e]) s₁ (by rw [hpost]; simp) ht₁

/-! ## conditions along a run -/

theorem along_nil (P : σ → ε → Prop) : S.Along P [] := by
  intro pre e post s hh
  simp at hh

/-- A condition holds along a run extended by one event exactly when it holds
along the run and at that event. -/
theorem along_snoc {P : σ → ε → Prop} {h : List ε} {s : σ} {e : ε} (ht : S.Trace h s) :
    S.Along P (h ++ [e]) ↔ S.Along P h ∧ P s e := by
  constructor
  · intro hp
    refine ⟨fun pre e' post s' hh ht' => ?_, hp h e [] s rfl ht⟩
    exact hp pre e' (post ++ [e]) s' (by rw [hh]; simp) ht'
  · rintro ⟨hp, he⟩ pre e' post s' hh ht'
    rcases append_singleton_eq_append_cons.mp hh with ⟨rfl, rfl, -⟩ | ⟨post', -, hh'⟩
    · rwa [ht'.functional ht]
    · exact hp pre e' post' s' hh' ht'

/-- When a property of states survives exactly the steps that meet `P`, it
holds in every state along a run exactly when every step of it meets `P`. -/
theorem Trace.always_iff (G : σ → Prop) (P : σ → ε → Prop) (h0 : G S.init)
    (hstep : ∀ s e s', S.Reachable s → G s → S.allowed s e → S.step s e = .ok s' →
      (G s' ↔ P s e))
    {h : List ε} {s : σ} (ht : S.Trace h s) :
    (∀ pre s', pre <+: h → S.Trace pre s' → G s') ↔ S.Along P h := by
  induction ht with
  | nil =>
      refine ⟨fun _ => along_nil P, fun _ pre s' hp ht' => ?_⟩
      obtain rfl := List.prefix_nil.mp hp
      rwa [ht'.functional .nil]
  | @snoc h s s' e ht ha hs ih =>
      rw [along_snoc ht, ← ih]
      constructor
      · intro hg
        have hgs : G s := hg h s (List.prefix_append h [e]) ht
        refine ⟨fun pre s₀ hp => hg pre s₀ (hp.trans (List.prefix_append h [e])), ?_⟩
        exact (hstep s e s' ⟨h, ht⟩ hgs ha hs).mp (hg (h ++ [e]) s' List.prefix_rfl (ht.snoc ha hs))
      · rintro ⟨hg, hpe⟩ pre s₀ hp ht₀
        rcases List.prefix_concat_iff.mp hp with rfl | hp'
        · have hgs : G s := hg h s List.prefix_rfl ht
          rw [ht₀.functional (ht.snoc ha hs)]
          exact (hstep s e s' ⟨h, ht⟩ hgs ha hs).mpr hpe
        · exact hg pre s₀ hp' ht₀

/-! ## two systems -/

section simulation

universe u' v' w'

variable {τ : Type u'} {δ : Type v'} {ψ : Type w'} {T : System τ δ ψ}

/-- When every step of `T` is matched by a step of `S` that leaves the states
related, every run of `T` is matched by a run of `S`. -/
theorem Trace.simulated (R : σ → τ → Prop) (M : ε → δ → Prop) (h0 : R S.init T.init)
    (hstep : ∀ s t d t', S.Reachable s → R s t → T.allowed t d → T.step t d = .ok t' →
      ∃ e s', M e d ∧ S.allowed s e ∧ S.step s e = .ok s' ∧ R s' t')
    {h' : List δ} {t : τ} (ht : T.Trace h' t) :
    ∃ h s, List.Forall₂ M h h' ∧ S.Trace h s ∧ R s t := by
  induction ht with
  | nil => exact ⟨[], S.init, .nil, .nil, h0⟩
  | snoc _ ha hs ih =>
      obtain ⟨h, s, hm, hts, hr⟩ := ih
      obtain ⟨e, s', he, hae, hse, hr'⟩ := hstep _ _ _ _ ⟨h, hts⟩ hr ha hs
      exact ⟨h ++ [e], s', List.rel_append hm (.cons he .nil), hts.snoc hae hse, hr'⟩

/-- Two runs whose events match end in related states. -/
theorem Trace.related (R : σ → τ → Prop) (M : ε → δ → Prop) (h0 : R S.init T.init)
    (hstep : ∀ s t e d s' t', R s t → M e d → S.step s e = .ok s' → T.step t d = .ok t' → R s' t')
    {h : List ε} {h' : List δ} {s : σ} {t : τ} (hm : List.Forall₂ M h h') (hs : S.Trace h s)
    (ht : T.Trace h' t) : R s t := by
  induction hs generalizing h' t with
  | nil =>
      obtain rfl := List.forall₂_nil_left_iff.mp hm
      rwa [ht.functional .nil]
  | @snoc h s s' e hs ha hst ih =>
      obtain ⟨h₁, d, rfl, hm₁, hd⟩ := exists_snoc_of_forall₂ hm
      obtain ⟨t₁, ht₁, -, hstep₁⟩ := ht.snoc_inv
      exact hstep s t₁ e d s' t (ih hm₁ ht₁) hd hst hstep₁

end simulation

/-! ## evaluating runs -/

/-- What a list of events does, whether or not the states admit them. -/
def exec (S : System σ ε φ) (h : List ε) : Except φ σ := h.foldlM S.step S.init

theorem exec_snoc (h : List ε) (e : ε) :
    S.exec (h ++ [e]) = (S.exec h).bind fun s => S.step s e := by
  rw [exec, exec, List.foldlM_append]
  cases h.foldlM S.step S.init with
  | error f => rfl
  | ok s => exact bind_pure (S.step s e)

/-- Run a list of events from the initial state; `none` when an event is not
admitted or its step fails. -/
def run (S : System σ ε φ) [∀ s e, Decidable (S.allowed s e)] (h : List ε) : Option σ :=
  h.foldlM (fun s e => if S.allowed s e then (S.step s e).toOption else none) S.init

/-- What `run` computes is a run. -/
theorem trace_of_run [∀ s e, Decidable (S.allowed s e)] {h : List ε} {s : σ}
    (hr : S.run h = some s) : S.Trace h s := by
  induction h using List.reverseRecOn generalizing s with
  | nil =>
      obtain rfl := Option.some.inj hr
      exact .nil
  | append_singleton h e ih =>
      rw [run, List.foldlM_append] at hr
      obtain ⟨s₀, hs₀, he⟩ := Option.bind_eq_some_iff.mp hr
      rw [List.foldlM_cons] at he
      obtain ⟨s₁, hs₁, he'⟩ := Option.bind_eq_some_iff.mp he
      obtain rfl := Option.some.inj he'
      by_cases ha : S.allowed s₀ e
      · rw [if_pos ha] at hs₁
        cases hst : S.step s₀ e with
        | error f => rw [hst] at hs₁; cases hs₁
        | ok s₂ =>
            rw [hst] at hs₁
            obtain rfl := Option.some.inj hs₁
            exact (ih hs₀).snoc ha hst
      · rw [if_neg ha] at hs₁
        cases hs₁

end System

end BtDht
