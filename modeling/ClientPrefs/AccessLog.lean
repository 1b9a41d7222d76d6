import Mathlib.Tactic.Common
import Mathlib.Data.Nat.Notation

/-!
# Programs that list their accesses

A program on a state that lists what it accesses, also what it accesses last before it is not
defined any further.
-/
namespace ClientPrefs.AccessLog

/-- The accesses, oldest first; then the answer and the last state, or `none`. -/
def Logged (σ ι α : Type) := σ → List ι × Option (α × σ)

variable {σ ι α β : Type} {P : ι → Prop} {x : Logged σ ι α} {f : α → Logged σ ι β}
  {s t u : σ} {a : α} {b : β}

namespace Logged

protected def pure (a : α) : Logged σ ι α := fun s => ([], some (a, s))

protected def bind (x : Logged σ ι α) (f : α → Logged σ ι β) : Logged σ ι β := fun s =>
  match x s with
  | (log, none) => (log, none)
  | (log, some (a, t)) => (log ++ (f a t).1, (f a t).2)

instance : Monad (Logged σ ι) where
  pure := Logged.pure
  bind := Logged.bind

def read : Logged σ ι σ := fun s => ([], some (s, s))

def change (f : σ → σ) : Logged σ ι Unit := fun s => ([], some ((), f s))

/-- Nothing is defined after an access that is not in order. -/
def access (i : ι) (inOrder : Bool) : Logged σ ι Unit := fun s =>
  ([i], if inOrder then some ((), s) else none)

def cutOff : Logged σ ι α := fun _ => ([], none)

end Logged

/-- The accesses of the program satisfy `P`, and it returns `a` in the state `t`. -/
structure Computes (P : ι → Prop) (x : Logged σ ι α) (s : σ) (a : α) (t : σ) : Prop where
  log : ∀ i ∈ (x s).1, P i
  answer : (x s).2 = some (a, t)

lemma Computes.pure (a : α) (s : σ) : Computes P (pure a) s a s :=
  ⟨fun _ h => (by cases h), rfl⟩

lemma Computes.bind (first : Computes P x s a t) (second : Computes P (f a) t b u) :
    Computes P (x >>= f) s b u := by
  obtain ⟨log, answer⟩ := first
  have run : (x >>= f) s = ((x s).1 ++ (f a t).1, (f a t).2) := by
    change Logged.bind x f s = _
    unfold Logged.bind
    cases hx : x s with
    | mk before result =>
      rw [hx] at answer
      obtain rfl : result = some (a, t) := answer
      rfl
  refine ⟨fun i hi => ?_, ?_⟩
  · rw [run] at hi
    exact (List.mem_append.mp hi).elim (log i) (second.log i)
  · rw [run]
    exact second.answer

lemma Computes.read (s : σ) : Computes P Logged.read s s s := ⟨fun _ h => (by cases h), rfl⟩

lemma Computes.change (f : σ → σ) (s : σ) : Computes P (Logged.change f) s () (f s) :=
  ⟨fun _ h => (by cases h), rfl⟩

lemma Computes.access {i : ι} (inOrder : P i) (s : σ) :
    Computes P (Logged.access i true) s () s :=
  ⟨fun j h => by rwa [List.mem_singleton.mp h], rfl⟩

lemma Computes.bind_answer (first : Computes P x s a t) :
    ((x >>= f) s).2 = (f a t).2 := by
  have answer := first.answer
  change (Logged.bind x f s).2 = _
  unfold Logged.bind
  cases hx : x s with
  | mk before result =>
    rw [hx] at answer
    obtain rfl : result = some (a, t) := answer
    rfl

lemma bind_undefined (h : (x s).2 = none) : ((x >>= f) s).2 = none := by
  change (Logged.bind x f s).2 = none
  unfold Logged.bind
  cases hx : x s with
  | mk before result =>
    rw [hx] at h
    obtain rfl : result = none := h
    rfl

lemma mem_log_of_first {i : ι} (h : i ∈ (x s).1) : i ∈ ((x >>= f) s).1 := by
  change i ∈ (Logged.bind x f s).1
  unfold Logged.bind
  cases hx : x s with
  | mk before result =>
    rw [hx] at h
    cases result with
    | none => exact h
    | some last => exact List.mem_append_left _ h

lemma mem_log_of_second {i : ι} (first : Computes P x s a t) (h : i ∈ (f a t).1) :
    i ∈ ((x >>= f) s).1 := by
  have answer := first.answer
  change i ∈ (Logged.bind x f s).1
  unfold Logged.bind
  cases hx : x s with
  | mk before result =>
    rw [hx] at answer
    obtain rfl : result = some (a, t) := answer
    exact List.mem_append_right _ h

end ClientPrefs.AccessLog
