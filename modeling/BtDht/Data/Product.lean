import BtDht.Data.System

/-!
# BtDht.Data.Product

Systems side by side.  `prod` gives every event to both of its systems, and a
run of it is a run of each (`trace_prod_iff`).  A system that ignores some
events has the same runs without them (`Ignores.trace_filter_iff`).  And two
systems whose states correspond have the same runs (`trace_iff_of_split`).

Together they take a system apart into components that do not interfere.
-/

namespace BtDht.System

universe u v w

variable {σ τ : Type u} {ε : Type v} {φ : Type w} {h : List ε}

/-! ## the product -/

/-- Both systems take every event. -/
def prod (S : System σ ε φ) (T : System τ ε φ) : System (σ × τ) ε φ where
  init := (S.init, T.init)
  allowed p e := S.allowed p.1 e ∧ T.allowed p.2 e
  step p e := (S.step p.1 e).bind fun s => (T.step p.2 e).map fun t => (s, t)

variable {S : System σ ε φ} {T : System τ ε φ}

theorem prod_step_iff {p p' : σ × τ} {e : ε} :
    (S.prod T).step p e = .ok p' ↔ S.step p.1 e = .ok p'.1 ∧ T.step p.2 e = .ok p'.2 := by
  obtain ⟨s', t'⟩ := p'
  show ((S.step p.1 e).bind fun s => (T.step p.2 e).map fun t => (s, t)) = .ok (s', t') ↔ _
  cases hs : S.step p.1 e with
  | error f => simp [Except.bind]
  | ok s =>
      cases ht : T.step p.2 e with
      | error f => simp [Except.bind, Except.map]
      | ok t => simp [Except.bind, Except.map]

/-- A run of both is a run of each. -/
theorem trace_prod_iff {s : σ} {t : τ} :
    (S.prod T).Trace h (s, t) ↔ S.Trace h s ∧ T.Trace h t := by
  constructor
  · intro ht
    refine ht.history (fun h p => S.Trace h p.1 ∧ T.Trace h p.2) ⟨.nil, .nil⟩ ?_
    intro h p e p' _ hi ha hs
    obtain ⟨hs, ht⟩ := prod_step_iff.mp hs
    exact ⟨hi.1.snoc ha.1 hs, hi.2.snoc ha.2 ht⟩
  · intro hboth
    obtain ⟨hs, ht⟩ := hboth
    induction h using List.reverseRecOn generalizing s t with
    | nil =>
        rw [hs.functional .nil, ht.functional .nil]
        exact .nil
    | append_singleton h e ih =>
        obtain ⟨s₀, hs₀, has, hstep⟩ := hs.snoc_inv
        obtain ⟨t₀, ht₀, hat, hstep'⟩ := ht.snoc_inv
        exact (ih hs₀ ht₀).snoc ⟨has, hat⟩ (prod_step_iff.mpr ⟨hstep, hstep'⟩)

/-! ## events that are ignored -/

/-- An event outside `p` is always admitted and does nothing. -/
def Ignores (S : System σ ε φ) (p : ε → Bool) : Prop :=
  ∀ s e, p e = false → S.allowed s e ∧ S.step s e = .ok s

/-- The runs are those of the events that are not ignored. -/
theorem Ignores.trace_filter_iff {p : ε → Bool} (hp : S.Ignores p) {s : σ} :
    S.Trace h s ↔ S.Trace (h.filter p) s := by
  induction h using List.reverseRecOn generalizing s with
  | nil => exact Iff.rfl
  | append_singleton h e ih =>
      rw [List.filter_append]
      cases he : p e with
      | false =>
          obtain ⟨ha, hstep⟩ := hp s e he
          rw [List.filter_cons_of_neg (by simp [he]), List.filter_nil, List.append_nil]
          constructor
          · intro ht
            obtain ⟨s₀, ht₀, -, hs₀⟩ := ht.snoc_inv
            obtain rfl := Except.ok.inj ((hp s₀ e he).2.symm.trans hs₀)
            exact ih.mp ht₀
          · exact fun ht => (ih.mpr ht).snoc ha hstep
      | true =>
          rw [List.filter_cons_of_pos he, List.filter_nil]
          constructor
          · intro ht
            obtain ⟨s₀, ht₀, ha, hs₀⟩ := ht.snoc_inv
            exact (ih.mp ht₀).snoc ha hs₀
          · intro ht
            obtain ⟨s₀, ht₀, ha, hs₀⟩ := ht.snoc_inv
            exact (ih.mpr ht₀).snoc ha hs₀

/-! ## corresponding states -/

/-- Two systems whose states correspond wherever the first one gets to have
the same runs. -/
theorem trace_iff_of_split {split : σ → τ} (hinj : Function.Injective split)
    (hinit : split S.init = T.init)
    (hallowed : ∀ s e, S.Reachable s → (S.allowed s e ↔ T.allowed (split s) e))
    (hstep : ∀ s e, S.Reachable s → (S.step s e).map split = T.step (split s) e) {s : σ} :
    S.Trace h s ↔ T.Trace h (split s) := by
  have hback : ∀ {h : List ε} {t : τ}, T.Trace h t → ∃ s, S.Trace h s ∧ split s = t := by
    intro h t ht
    refine ht.history (fun h t => ∃ s, S.Trace h s ∧ split s = t) ⟨S.init, .nil, hinit⟩ ?_
    intro h t e t' _ hi ha hs
    obtain ⟨s, hts, rfl⟩ := hi
    rw [← hstep s e ⟨h, hts⟩] at hs
    obtain ⟨s', hs', rfl⟩ := map_eq_ok_iff.mp hs
    exact ⟨s', hts.snoc ((hallowed s e ⟨h, hts⟩).mpr ha) hs', rfl⟩
  constructor
  · intro ht
    have hboth := ht.history (fun h s => S.Trace h s ∧ T.Trace h (split s))
      ⟨.nil, hinit ▸ .nil⟩ fun h s e s' _ hi ha hs => by
        refine ⟨hi.1.snoc ha hs, hi.2.snoc ((hallowed s e ⟨h, hi.1⟩).mp ha) ?_⟩
        rw [← hstep s e ⟨h, hi.1⟩, hs]
        rfl
    exact hboth.2
  · intro ht
    obtain ⟨s', ht', heq⟩ := hback ht
    rwa [← hinj heq]

end BtDht.System
