import BtDht.Data.Process
import Mathlib.Logic.Function.Iterate

/-!
# BtDht.Data.Steps

A process in the middle of its run.  A `Process` says where a piece of code
ends; `Steps` is the code with the *atomic* parts it is made of, so that other
threads can look on, and the machine can stop, between any two of them.

`run` is the code without interruptions, and taking one part after the other
ends as it does (`exists_iterate_next`).  `Throughout` is the specification of
code that is looked at: an invariant of all states between its parts, and what
it ends with.
-/

namespace BtDht

universe u

/-- Code that is finished, or ends the process, or goes on with an atomic
part. -/
inductive Steps (σ ε α : Type u) : Type (u + 1)
  | pure (a : α)
  | throw (e : ε)
  | atomic {β : Type u} (x : Process σ ε β) (k : β → Steps σ ε α)

namespace Steps

variable {σ ε α β : Type u}

def bind (x : Steps σ ε α) (f : α → Steps σ ε β) : Steps σ ε β :=
  match x with
  | .pure a => f a
  | .throw e => .throw e
  | .atomic x k => .atomic x fun b => (k b).bind f

instance : Monad (Steps σ ε) where
  pure := .pure
  bind := .bind

/-- A process as one part. -/
def atomically (x : Process σ ε α) : Steps σ ε α := .atomic x .pure

/-- The code without interruptions. -/
def run : Steps σ ε α → Process σ ε α
  | .pure a => Pure.pure a
  | .throw e => MonadExcept.throw e
  | .atomic x k => x >>= fun b => (k b).run

variable {x : Steps σ ε α} {f : α → Steps σ ε β} {s : σ}

@[simp] theorem run_pure (a : α) : (Pure.pure a : Steps σ ε α).run = Pure.pure a := rfl

@[simp] theorem run_throw (e : ε) : (throw e : Steps σ ε α).run = MonadExcept.throw e := rfl

@[simp] theorem run_atomically (x : Process σ ε α) : (atomically x).run = x := bind_pure x

@[simp] theorem run_ite {p : Prop} [Decidable p] (y : Steps σ ε α) :
    (if p then x else y).run = if p then x.run else y.run := apply_ite run p x y

@[simp] theorem run_bind : (x >>= f).run = x.run >>= fun a => (f a).run := by
  induction x with
  | pure a => rfl
  | throw e => rfl
  | atomic x k ih =>
      show (x >>= fun b => (k b >>= f).run) = (x >>= fun b => (k b).run) >>= fun a => (f a).run
      rw [bind_assoc]
      exact congrArg (x >>= ·) (funext ih)

/-! ## one part after the other -/

/-- The next part.  Code that has ended stays where it is. -/
def next : Steps σ ε α × σ → Steps σ ε α × σ
  | (.atomic x k, s) =>
      match x.run s with
      | .ok b s' => (k b, s')
      | .error e s' => (.throw e, s')
  | (x, s) => (x, s)

/-- There is a part left to be taken. -/
def GoesOn : Steps σ ε α → Prop
  | .atomic _ _ => True
  | _ => False

/-- Where code is when it has ended. -/
def ended : EStateM.Result ε σ α → Steps σ ε α × σ
  | .ok a s => (.pure a, s)
  | .error e s => (.throw e, s)

/-- Part after part, the code comes to the end of its run. -/
theorem exists_iterate_next (x : Steps σ ε α) (s : σ) :
    ∃ n, next^[n] (x, s) = ended (x.run.run s) := by
  induction x generalizing s with
  | pure a => exact ⟨0, rfl⟩
  | throw e => exact ⟨0, rfl⟩
  | atomic x k ih =>
      have hrun : (Steps.atomic x k).run.run s = EStateM.bind x (fun b => (k b).run) s := rfl
      rw [EStateM.bind] at hrun
      cases hx : x.run s with
      | ok b s' =>
          obtain ⟨n, hn⟩ := ih b s'
          have hnext : next (.atomic x k, s) = (k b, s') := by
            rw [next, hx]
          rw [show x s = .ok b s' from hx] at hrun
          exact ⟨n + 1, by rw [Function.iterate_succ_apply, hnext, hn, hrun]; rfl⟩
      | error e s' =>
          rw [show x s = .error e s' from hx] at hrun
          exact ⟨1, by rw [Function.iterate_one, next, hx, hrun, ended]⟩

/-- The code has the same run before it from each of its parts. -/
theorem run_next (x : Steps σ ε α) (s : σ) :
    (next (x, s)).1.run.run (next (x, s)).2 = x.run.run s := by
  cases x with
  | pure a => rfl
  | throw e => rfl
  | atomic x k =>
      have hrun : (Steps.atomic x k).run.run s = EStateM.bind x (fun b => (k b).run) s := rfl
      rw [hrun, EStateM.bind]
      cases hx : x.run s with
      | ok b s' =>
          rw [next, hx, show x s = .ok b s' from hx]
          rfl
      | error e s' =>
          rw [next, hx, show x s = .error e s' from hx]
          rfl

/-! ## specifications -/

/-- `I` holds between any two parts of the code, and in the end `Q` or `E`
does. -/
def Throughout (I : σ → Prop) (x : Steps σ ε α) (s : σ) (Q : α → σ → Prop) (E : ε → σ → Prop) :
    Prop :=
  match x with
  | .pure a => Q a s
  | .throw e => E e s
  | .atomic x k => I s ∧ Ensures x s (fun b s' => (k b).Throughout I s' Q E) E

variable {I I' : σ → Prop} {Q Q' : α → σ → Prop} {E E' : ε → σ → Prop}

theorem Throughout.mono (h : x.Throughout I s Q E) (hi : ∀ s, I s → I' s)
    (hq : ∀ a s, Q a s → Q' a s) (he : ∀ e s, E e s → E' e s) : x.Throughout I' s Q' E' := by
  induction x generalizing s with
  | pure a => exact hq a s h
  | throw e => exact he e s h
  | atomic x k ih => exact ⟨hi s h.1, h.2.mono (fun b s' hb => ih b hb) he⟩

theorem Throughout.bind {R : β → σ → Prop} (h : x.Throughout I s Q E)
    (hf : ∀ a s', Q a s' → (f a).Throughout I s' R E) : (x >>= f).Throughout I s R E := by
  induction x generalizing s with
  | pure a => exact hf a s h
  | throw e => exact h
  | atomic x k ih => exact ⟨h.1, h.2.mono (fun b s' hb => ih b hb) fun _ _ he => he⟩

/-- A part on its own. -/
theorem throughout_atomically {x : Process σ ε α} (hi : I s) (h : Ensures x s Q E) :
    (atomically x).Throughout I s Q E :=
  ⟨hi, h⟩

/-- What is kept throughout holds after one part more, and when the code has
ended it has ended well. -/
theorem Throughout.next (h : x.Throughout I s Q E) :
    (next (x, s)).1.Throughout I (next (x, s)).2 Q E := by
  cases x with
  | pure a => exact h
  | throw e => exact h
  | atomic x k =>
      have hx := h.2
      unfold Ensures at hx
      rw [Steps.next]
      split
      · next b s' hok => rwa [hok] at hx
      · next e s' herr => rwa [herr] at hx

/-- Every part of the code keeps `I`. -/
def Keeps (I : σ → Prop) : Steps σ ε α → Prop
  | .pure _ => True
  | .throw _ => True
  | .atomic x k => (∀ s, I s → Ensures x s (fun _ => I) fun _ => I) ∧ ∀ b, (k b).Keeps I

theorem keeps_pure (a : α) : (Pure.pure a : Steps σ ε α).Keeps I := trivial

theorem keeps_atomically {x : Process σ ε α}
    (h : ∀ s, I s → Ensures x s (fun _ => I) fun _ => I) : (atomically x).Keeps I :=
  ⟨h, fun _ => trivial⟩

theorem Keeps.bind (h : x.Keeps I) (hf : ∀ a, (f a).Keeps I) : (x >>= f).Keeps I := by
  induction x with
  | pure a => exact hf a
  | throw e => trivial
  | atomic x k ih => exact ⟨h.1, fun b => ih b (h.2 b)⟩

/-- Code that keeps `I` with every part has it throughout; for what it ends
with one may think of it as running without interruptions. -/
theorem Keeps.throughout (h : x.Keeps I) (hi : I s) (hx : Ensures x.run s Q E) :
    x.Throughout I s (fun a s' => Q a s' ∧ I s') fun e s' => E e s' ∧ I s' := by
  induction x generalizing s with
  | pure a => exact ⟨hx, hi⟩
  | throw e => exact ⟨hx, hi⟩
  | atomic x k ih =>
      refine ⟨hi, ?_⟩
      have hkeep := h.1 s hi
      have hrun : Ensures x s (fun b s' => Ensures (k b).run s' Q E) E := ensures_bind.mp hx
      unfold Ensures at hkeep hrun ⊢
      cases hres : x.run s with
      | ok b s' =>
          rw [hres] at hkeep hrun
          exact ih b (h.2 b) hkeep hrun
      | error e s' =>
          rw [hres] at hkeep hrun
          exact ⟨hrun, hkeep⟩

end Steps

end BtDht
