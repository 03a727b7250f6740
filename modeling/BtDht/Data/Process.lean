/-!
# BtDht.Data.Process

Processes that may end themselves.  `Process σ ε α` works on a state `σ` and
either returns an `α` or exits with an `ε`; the state at the moment of the
exit is kept, because what was written before it stays written.

`Ensures x s Q E` is the total-correctness rule of such a process: started in
`s`, it returns in a way that meets `Q` or exits in a way that meets `E`.  The
`ensures_*` lemmas compute it along the program text, so a specification is
proved by one lemma for each function and `Ensures.mono` at its calls.
-/

namespace BtDht

universe u

/-- A process over the state `σ`, which exits with an `ε`. -/
abbrev Process (σ ε α : Type u) := EStateM ε σ α

variable {σ ε α β : Type u}

/-- Started in `s`, the process returns with `Q` or exits with `E`. -/
def Ensures (x : Process σ ε α) (s : σ) (Q : α → σ → Prop) (E : ε → σ → Prop) : Prop :=
  match x.run s with
  | .ok a s' => Q a s'
  | .error e s' => E e s'

variable {x : Process σ ε α} {f : α → Process σ ε β} {s : σ} {E : ε → σ → Prop}

@[simp] theorem ensures_pure {a : α} {Q : α → σ → Prop} :
    Ensures (pure a : Process σ ε α) s Q E ↔ Q a s := by
  simp [Ensures]

@[simp] theorem ensures_bind {Q : β → σ → Prop} :
    Ensures (x >>= f) s Q E ↔ Ensures x s (fun a s' => Ensures (f a) s' Q E) E := by
  simp only [Ensures, EStateM.run_bind]
  cases x.run s with
  | ok a s' => simp
  | error e s' => simp

@[simp] theorem ensures_map {g : α → β} {Q : β → σ → Prop} :
    Ensures (g <$> x) s Q E ↔ Ensures x s (fun a s' => Q (g a) s') E := by
  rw [map_eq_pure_bind, ensures_bind]
  simp only [ensures_pure]

@[simp] theorem ensures_get {Q : σ → σ → Prop} :
    Ensures (get : Process σ ε σ) s Q E ↔ Q s s := by
  simp [Ensures]

@[simp] theorem ensures_modifyGet {g : σ → α × σ} {Q : α → σ → Prop} :
    Ensures (modifyGet g : Process σ ε α) s Q E ↔ Q (g s).1 (g s).2 := by
  simp [Ensures]

@[simp] theorem ensures_modify {g : σ → σ} {Q : PUnit → σ → Prop} :
    Ensures (modify g : Process σ ε PUnit) s Q E ↔ Q .unit (g s) :=
  ensures_modifyGet

@[simp] theorem ensures_throw {e : ε} {Q : α → σ → Prop} :
    Ensures (throw e : Process σ ε α) s Q E ↔ E e s :=
  Iff.rfl

/-- A process that ensures something ensures everything it implies. -/
theorem Ensures.mono {Q Q' : α → σ → Prop} {E' : ε → σ → Prop} (h : Ensures x s Q E)
    (hq : ∀ a s', Q a s' → Q' a s') (he : ∀ e s', E e s' → E' e s') : Ensures x s Q' E' := by
  unfold Ensures at h ⊢
  cases hx : x.run s with
  | ok a s' => rw [hx] at h; exact hq a s' h
  | error e s' => rw [hx] at h; exact he e s' h

/-- The rule for a call: what the callee ensures is what the rest starts from. -/
theorem Ensures.bind {R : α → σ → Prop} {Q : β → σ → Prop} (hx : Ensures x s R E)
    (hf : ∀ a s', R a s' → Ensures (f a) s' Q E) : Ensures (x >>= f) s Q E :=
  ensures_bind.mpr (hx.mono hf fun _ _ he => he)

/-- What a process ensures holds when it returns. -/
theorem Ensures.of_ok {Q : α → σ → Prop} {a : α} {s' : σ} (h : Ensures x s Q E)
    (hx : x.run s = .ok a s') : Q a s' := by
  unfold Ensures at h
  rwa [hx] at h

/-- A process that cannot exit returns. -/
theorem Ensures.returns {Q : α → σ → Prop} (h : Ensures x s Q fun _ _ => False) :
    ∃ a s', x.run s = .ok a s' ∧ Q a s' := by
  unfold Ensures at h
  cases hx : x.run s with
  | ok a s' => rw [hx] at h; exact ⟨a, s', rfl, h⟩
  | error e s' => rw [hx] at h; exact h.elim

/-- A process that cannot return exits. -/
theorem Ensures.exits {E : ε → σ → Prop} (h : Ensures x s (fun _ _ => False) E) :
    ∃ e s', x.run s = .error e s' ∧ E e s' := by
  unfold Ensures at h
  cases hx : x.run s with
  | ok a s' => rw [hx] at h; exact h.elim
  | error e s' => rw [hx] at h; exact ⟨e, s', rfl, h⟩

/-- A process that returns exactly under a condition. -/
theorem Ensures.returns_iff {p : Prop} {Q : α → σ → Prop}
    (h : Ensures x s (fun a s' => p ∧ Q a s') fun _ _ => ¬ p) :
    (∃ a s', x.run s = .ok a s' ∧ Q a s') ↔ p := by
  unfold Ensures at h
  cases hx : x.run s with
  | ok a s' =>
      rw [hx] at h
      exact ⟨fun _ => h.1, fun _ => ⟨a, s', rfl, h.2⟩⟩
  | error e s' =>
      rw [hx] at h
      exact ⟨fun ⟨_, _, hok, _⟩ => (nomatch hok), fun hp => absurd hp h⟩

/-! ## loops -/

/-- The rule for a loop over a list: the invariant speaks of the elements that
are done, and each round does one more. -/
theorem Ensures.forM {body : α → Process σ ε PUnit} {I : List α → σ → Prop}
    (hbody : ∀ done a s, I done s → Ensures (body a) s (fun _ => I (done ++ [a])) E)
    (l done : List α) {s : σ} (h : I done s) :
    Ensures (l.forM body) s (fun _ => I (done ++ l)) E := by
  induction l generalizing done s with
  | nil => simpa [List.forM] using h
  | cons a l ih =>
      rw [List.append_cons]
      exact (hbody done a s h).bind fun _ s' hs' => ih _ hs'

/-! ## parts of a state -/

/-- A process on a part of a larger state. -/
def Process.within {τ : Type u} (part : τ → σ) (put : τ → σ → τ) (x : Process σ ε α) :
    Process τ ε α := fun t =>
  match x (part t) with
  | .ok a s => .ok a (put t s)
  | .error e s => .error e (put t s)

@[simp] theorem ensures_within {τ : Type u} {part : τ → σ} {put : τ → σ → τ} {t : τ}
    {Q : α → τ → Prop} {E : ε → τ → Prop} :
    Ensures (Process.within part put x) t Q E ↔
      Ensures x (part t) (fun a s => Q a (put t s)) fun e s => E e (put t s) := by
  simp only [Ensures, Process.within, EStateM.run]
  cases x (part t) with
  | ok a s => rfl
  | error e s => rfl

end BtDht
