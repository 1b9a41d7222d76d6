import ClientPrefs.Transition
import Mathlib.Data.Finset.Card

/-!
# A semaphore that hands its permits over

A thread that finds no free permit joins the waiting ones. Signalled permits are granted to
waiting threads first and are kept for them; only what is left over is free for whoever comes.
-/
namespace ClientPrefs.HandOff
open Transition

variable {ι : Type*}

@[ext]
structure Hall (ι : Type*) where
  free : ℕ
  /-- Permits that are kept for waiting threads. -/
  granted : ℕ
  waiting : Finset ι
  kept : granted ≤ waiting.card
  served : free = 0 ∨ granted = waiting.card

def Hall.start (free : ℕ) : Hall ι where
  free := free
  granted := 0
  waiting := ∅
  kept := Nat.zero_le _
  served := .inr rfl

inductive Label (ι : Type*)
  | signal (n : ℕ)
  | acquire (w : ι) (k : ℕ)
  | enter (w : ι)
  | wake (w : ι)
  /-- A waiting thread leaves without a permit. -/
  | giveUp (w : ι)
  deriving DecidableEq, Repr

/-- How many waiting threads have no permit kept for them. -/
def Hall.unserved (h : Hall ι) : ℕ := h.waiting.card - h.granted

def Hall.signal (h : Hall ι) (n : ℕ) : Hall ι where
  free := h.free + (n - min n h.unserved)
  granted := h.granted + min n h.unserved
  waiting := h.waiting
  kept := by
    have := h.kept
    simp only [Hall.unserved]
    omega
  served := by
    have := h.kept
    have := h.served
    simp only [Hall.unserved]
    omega

def Hall.acquire (h : Hall ι) (k : ℕ) : Hall ι where
  free := h.free - k
  granted := h.granted
  waiting := h.waiting
  kept := h.kept
  served := h.served.imp_left fun none => by rw [none, Nat.zero_sub]

def Label.signalled : Label ι → ℕ
  | .signal n => n
  | _ => 0

def Label.taken : Label ι → ℕ
  | .acquire _ k => k
  | .wake _ => 1
  | _ => 0

def signalled (trace : List (Hall ι × Label ι)) : ℕ :=
  trace.foldl (fun n x => n + x.2.signalled) 0

def taken (trace : List (Hall ι × Label ι)) : ℕ :=
  trace.foldl (fun n x => n + x.2.taken) 0

lemma signalled_snoc (trace : List (Hall ι × Label ι)) (a : Hall ι) (l : Label ι) :
    signalled (trace ++ [(a, l)]) = signalled trace + l.signalled := by
  simp [signalled]

lemma taken_snoc (trace : List (Hall ι × Label ι)) (a : Hall ι) (l : Label ι) :
    taken (trace ++ [(a, l)]) = taken trace + l.taken := by
  simp [taken]

section Waiting
variable [DecidableEq ι]

def Hall.enter (h : Hall ι) (w : ι) (none : h.free = 0) : Hall ι where
  free := h.free
  granted := h.granted
  waiting := insert w h.waiting
  kept := h.kept.trans (Finset.card_le_card (Finset.subset_insert w _))
  served := .inl none

def Hall.wake (h : Hall ι) (w : ι) (waits : w ∈ h.waiting) : Hall ι where
  free := h.free
  granted := h.granted - 1
  waiting := h.waiting.erase w
  kept := by
    rw [Finset.card_erase_of_mem waits]
    exact Nat.sub_le_sub_right h.kept 1
  served := h.served.imp_right fun all => by rw [Finset.card_erase_of_mem waits, all]

def Hall.giveUp (h : Hall ι) (w : ι) (waits : w ∈ h.waiting)
    (unserved : h.granted < h.waiting.card) : Hall ι where
  free := h.free
  granted := h.granted
  waiting := h.waiting.erase w
  kept := by
    rw [Finset.card_erase_of_mem waits]
    exact Nat.le_sub_one_of_lt unserved
  served := h.served.imp_right fun all => (unserved.ne all).elim

def step (h : Hall ι) : Label ι → Option (Hall ι)
  | .signal n => some (h.signal n)
  | .acquire w k => if w ∉ h.waiting ∧ k ≤ h.free then some (h.acquire k) else none
  | .enter w => if ok : w ∉ h.waiting ∧ h.free = 0 then some (h.enter w ok.2) else none
  | .wake w => if ok : w ∈ h.waiting ∧ 0 < h.granted then some (h.wake w ok.1) else none
  | .giveUp w =>
    if ok : w ∈ h.waiting ∧ h.granted < h.waiting.card then some (h.giveUp w ok.1 ok.2) else none

abbrev Step (h : Hall ι) (l : Label ι) (h' : Hall ι) : Prop := step h l = some h'

inductive Steps (h : Hall ι) : Label ι → Hall ι → Prop
  | signal (n : ℕ) : Steps h (.signal n) (h.signal n)
  | acquire (w : ι) (k : ℕ) (outside : w ∉ h.waiting) (enough : k ≤ h.free) :
      Steps h (.acquire w k) (h.acquire k)
  | enter (w : ι) (outside : w ∉ h.waiting) (none : h.free = 0) :
      Steps h (.enter w) (h.enter w none)
  | wake (w : ι) (waits : w ∈ h.waiting) (some : 0 < h.granted) :
      Steps h (.wake w) (h.wake w waits)
  | giveUp (w : ι) (waits : w ∈ h.waiting) (unserved : h.granted < h.waiting.card) :
      Steps h (.giveUp w) (h.giveUp w waits unserved)

variable {h h' : Hall ι} {l : Label ι} {trace : List (Hall ι × Label ι)}

theorem step_cases (hl : step h l = some h') : Steps h l h' := by
  cases l with
  | signal n =>
    obtain rfl := Option.some.inj hl
    exact .signal n
  | acquire w k =>
    simp only [step] at hl
    split at hl
    · next ok =>
      obtain rfl := Option.some.inj hl
      exact .acquire w k ok.1 ok.2
    · cases hl
  | enter w =>
    simp only [step] at hl
    split at hl
    · next ok =>
      obtain rfl := Option.some.inj hl
      exact .enter w ok.1 ok.2
    · cases hl
  | wake w =>
    simp only [step] at hl
    split at hl
    · next ok =>
      obtain rfl := Option.some.inj hl
      exact .wake w ok.1 ok.2
    · cases hl
  | giveUp w =>
    simp only [step] at hl
    split at hl
    · next ok =>
      obtain rfl := Option.some.inj hl
      exact .giveUp w ok.1 ok.2
    · cases hl

theorem step_of_cases (hs : Steps h l h') : step h l = some h' := by
  cases hs with
  | signal n => rfl
  | acquire w k outside enough => exact if_pos ⟨outside, enough⟩
  | enter w outside none => exact dif_pos ⟨outside, none⟩
  | wake w waits some => exact dif_pos ⟨waits, some⟩
  | giveUp w waits unserved => exact dif_pos ⟨waits, unserved⟩

theorem conserved_step (hl : step h l = some h') :
    h'.free + h'.granted + l.taken = h.free + h.granted + l.signalled := by
  cases step_cases hl with
  | signal n =>
    simp only [Hall.signal, Label.taken, Label.signalled]
    omega
  | acquire w k outside enough =>
    simp only [Hall.acquire, Label.taken, Label.signalled]
    omega
  | enter w outside none => rfl
  | wake w waits some =>
    simp only [Hall.wake, Label.taken, Label.signalled]
    omega
  | giveUp w waits unserved => rfl

/-- Every permit was there at the start or signalled, and is free, kept or taken. -/
theorem conserved_of_run {n : ℕ} (run : Run Step (Hall.start n) trace h) :
    h.free + h.granted + taken trace = n + signalled trace := by
  have preserved : ∀ (past : List (Hall ι × Label ι)) (a : Hall ι) (l : Label ι) (b : Hall ι),
      a.free + a.granted + taken past = n + signalled past → Step a l b →
      b.free + b.granted + taken (past ++ [(a, l)]) = n + signalled (past ++ [(a, l)]) := by
    intro past a l b ih hl
    have one := conserved_step hl
    rw [taken_snoc, signalled_snoc]
    omega
  exact run.stable_history (J := fun past a => a.free + a.granted + taken past =
    n + signalled past) rfl preserved

end Waiting

end ClientPrefs.HandOff
