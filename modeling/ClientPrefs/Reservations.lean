import Mathlib.Algebra.BigOperators.Fin
import Mathlib.Algebra.Order.BigOperators.Group.Finset
import Mathlib.Tactic.Lemma

/-!
# Reservations

Takers reserve amounts of a supply one after another, each without knowing what the others will
get, and each is later given what it reserved or less. What all are given together stays within
the supply if each looks only at what those before it may get.
-/
namespace ClientPrefs.Reservations

variable {ι : Type*}

/-- A reservation, and what was given for it once that is settled. -/
structure Entry (ι : Type*) where
  owner : ι
  desired : ℕ
  given : Option ℕ
  deriving DecidableEq, Repr

/-- What the owner may get or has got. -/
def Entry.weight (e : Entry ι) : ℕ := e.given.getD e.desired

def Entry.handed (e : Entry ι) : ℕ := e.given.getD 0

def desired (l : List (Entry ι)) : ℕ := (l.map Entry.desired).sum

def weight (l : List (Entry ι)) : ℕ := (l.map Entry.weight).sum

def handed (l : List (Entry ι)) : ℕ := (l.map Entry.handed).sum

/-- Whatever was given is there even if all before it get what they may. -/
def Fits (supply : ℕ) : ℕ → List (Entry ι) → Prop
  | _, [] => True
  | base, e :: l => (e.handed = 0 ∨ base + e.handed ≤ supply) ∧ Fits supply (base + e.weight) l

variable {w : ι} {e : Entry ι} {l l₁ l₂ : List (Entry ι)} {supply base n : ℕ}

lemma weight_append : weight (l₁ ++ l₂) = weight l₁ + weight l₂ := by simp [weight]

lemma handed_append : handed (l₁ ++ l₂) = handed l₁ + handed l₂ := by simp [handed]

lemma desired_reserve (w : ι) (n : ℕ) : desired (l ++ [⟨w, n, none⟩]) = desired l + n := by
  simp [desired]

lemma weight_reserve (w : ι) (n : ℕ) : weight (l ++ [⟨w, n, none⟩]) = weight l + n := by
  simp [weight, Entry.weight]

lemma handed_reserve (w : ι) (n : ℕ) : handed (l ++ [⟨w, n, none⟩]) = handed l := by
  simp [handed, Entry.handed]

lemma desired_cons : desired (e :: l) = e.desired + desired l := by simp [desired]

lemma weight_cons : weight (e :: l) = e.weight + weight l := by simp [weight]

lemma handed_cons : handed (e :: l) = e.handed + handed l := by simp [handed]

lemma Entry.handed_le_weight (e : Entry ι) : e.handed ≤ e.weight := by
  obtain ⟨w, d, none | a⟩ := e <;> simp [handed, weight]

lemma Fits.handed_le (h : Fits supply base l) : handed l = 0 ∨ base + handed l ≤ supply := by
  induction l generalizing base with
  | nil => exact .inl rfl
  | cons e l ih =>
    obtain ⟨first, rest⟩ := h
    have room := e.handed_le_weight
    rw [handed_cons]
    rcases ih rest with none | within <;> omega

lemma Fits.mono {supply' base' : ℕ} (h : Fits supply base l) (more : supply ≤ supply')
    (lower : base' ≤ base) : Fits supply' base' l := by
  induction l generalizing base base' with
  | nil => trivial
  | cons e l ih => exact ⟨by have := h.1; omega, ih h.2 (by omega)⟩

lemma fits_append :
    Fits supply base (l₁ ++ l₂) ↔ Fits supply base l₁ ∧ Fits supply (base + weight l₁) l₂ := by
  induction l₁ generalizing base with
  | nil => simp [Fits, weight]
  | cons e l₁ ih =>
    rw [List.cons_append, Fits, Fits, ih, weight_cons, and_assoc, Nat.add_assoc]

lemma Fits.reserve (h : Fits supply base l) (w : ι) (n : ℕ) :
    Fits supply base (l ++ [⟨w, n, none⟩]) :=
  fits_append.mpr ⟨h, .inl rfl, trivial⟩

lemma Fits.settle {d a : ℕ} (h : Fits supply base (l₁ ++ ⟨w, d, none⟩ :: l₂)) (less : a ≤ d)
    (room : a = 0 ∨ base + weight l₁ + a ≤ supply) :
    Fits supply base (l₁ ++ ⟨w, d, some a⟩ :: l₂) := by
  obtain ⟨before, _, after⟩ := fits_append.mp h
  exact fits_append.mpr ⟨before, room, after.mono (Nat.le_refl _) (Nat.add_le_add_left less _)⟩

/-- All that `w` has reserved is settled. -/
def Closed (w : ι) (l : List (Entry ι)) : Prop := ∀ e ∈ l, e.owner = w → e.given ≠ none

/-- The only reservation of `w` that is not settled is one of `n`. What was reserved before it is
`before`, of which at most `most` can still be given. -/
def Open (w : ι) (n before most : ℕ) (l : List (Entry ι)) : Prop :=
  ∃ l₁ l₂, l = l₁ ++ ⟨w, n, none⟩ :: l₂ ∧ desired l₁ = before ∧ weight l₁ ≤ most ∧
    Closed w l₁ ∧ Closed w l₂

lemma closed_append : Closed w (l₁ ++ l₂) ↔ Closed w l₁ ∧ Closed w l₂ := List.forall_mem_append

lemma Closed.reserve_other {v : ι} (h : Closed w l) (other : v ≠ w) (n : ℕ) :
    Closed w (l ++ [⟨v, n, none⟩]) := by
  refine closed_append.mpr ⟨h, fun e he owner => ?_⟩
  obtain rfl := List.mem_singleton.mp he
  exact absurd owner other

lemma Closed.reserve {most : ℕ} (h : Closed w l) (room : weight l ≤ most) (n : ℕ) :
    Open w n (desired l) most (l ++ [⟨w, n, none⟩]) :=
  ⟨l, [], rfl, rfl, room, h, nofun⟩

lemma Open.reserve_other {v : ι} {before most : ℕ} (h : Open w n before most l) (other : v ≠ w)
    (m : ℕ) : Open w n before most (l ++ [⟨v, m, none⟩]) := by
  obtain ⟨l₁, l₂, rfl, hbefore, hmost, first, second⟩ := h
  exact ⟨l₁, l₂ ++ [⟨v, m, none⟩], by simp, hbefore, hmost, first, second.reserve_other other m⟩

section Settle
variable [DecidableEq ι]

def Entry.settle (w : ι) (a : ℕ) (e : Entry ι) : Entry ι :=
  if e.owner = w ∧ e.given = none then { e with given := some (min a e.desired) } else e

/-- `w` is given `a` for what it has reserved. -/
def settle (w : ι) (a : ℕ) (l : List (Entry ι)) : List (Entry ι) := l.map (Entry.settle w a)

variable {a : ℕ}

lemma settle_append : settle w a (l₁ ++ l₂) = settle w a l₁ ++ settle w a l₂ := List.map_append

lemma Closed.settle_same (h : Closed w l) : settle w a l = l := by
  induction l with
  | nil => rfl
  | cons e l ih =>
    have kept : Entry.settle w a e = e := by
      refine if_neg fun unsettled => ?_
      exact h e List.mem_cons_self unsettled.1 unsettled.2
    exact congrArg₂ List.cons kept (ih fun e he => h e (List.mem_cons_of_mem _ he))

lemma Entry.settle_desired (w : ι) (a : ℕ) (e : Entry ι) : (e.settle w a).desired = e.desired := by
  unfold settle
  split_ifs <;> rfl

lemma Entry.settle_weight (w : ι) (a : ℕ) (e : Entry ι) : (e.settle w a).weight ≤ e.weight := by
  unfold settle
  split_ifs with unsettled
  · simp [weight, unsettled.2]
  · exact Nat.le_refl _

lemma desired_settle (w : ι) (a : ℕ) (l : List (Entry ι)) : desired (settle w a l) = desired l := by
  induction l with
  | nil => rfl
  | cons e l ih =>
    show desired (e.settle w a :: settle w a l) = _
    rw [desired_cons, desired_cons, ih, e.settle_desired]

lemma weight_settle (w : ι) (a : ℕ) (l : List (Entry ι)) : weight (settle w a l) ≤ weight l := by
  induction l with
  | nil => exact Nat.le_refl _
  | cons e l ih =>
    show weight (e.settle w a :: settle w a l) ≤ _
    rw [weight_cons, weight_cons]
    exact Nat.add_le_add (e.settle_weight w a) ih

lemma Closed.settle {v : ι} (h : Closed w l) : Closed w (settle v a l) := by
  intro e he owner
  obtain ⟨d, hd, rfl⟩ := List.mem_map.mp he
  unfold Entry.settle at owner ⊢
  split_ifs at owner ⊢
  · exact Option.some_ne_none _
  · exact h d hd owner

lemma Open.settle_other {v : ι} {before most : ℕ} (h : Open w n before most l) (other : v ≠ w) :
    Open w n before most (Reservations.settle v a l) := by
  obtain ⟨l₁, l₂, rfl, rfl, hmost, first, second⟩ := h
  have same : Entry.settle v a ⟨w, n, none⟩ = ⟨w, n, none⟩ := if_neg fun h => other h.1.symm
  refine ⟨settle v a l₁, settle v a l₂, ?_, desired_settle v a l₁,
    Nat.le_trans (weight_settle v a l₁) hmost, first.settle, second.settle⟩
  rw [settle_append]
  exact congrArg (_ ++ · :: _) same

lemma Open.settle {before most : ℕ} (h : Open w n before most l) (less : a ≤ n) :
    Closed w (settle w a l) ∧ weight (settle w a l) + (n - a) = weight l ∧
      handed (settle w a l) = handed l + a ∧
      (Fits supply base l → a = 0 ∨ base + most + a ≤ supply →
        Fits supply base (settle w a l)) := by
  obtain ⟨l₁, l₂, rfl, -, hmost, first, second⟩ := h
  have given : Entry.settle w a ⟨w, n, none⟩ = ⟨w, n, some a⟩ := by
    simp [Entry.settle, Nat.min_eq_left less]
  have settled : Reservations.settle w a (l₁ ++ ⟨w, n, none⟩ :: l₂) =
      l₁ ++ ⟨w, n, some a⟩ :: l₂ := by
    rw [settle_append, first.settle_same]
    exact congrArg (l₁ ++ ·) (congrArg₂ List.cons given second.settle_same)
  rw [settled]
  refine ⟨closed_append.mpr ⟨first, ?_⟩, ?_, ?_, fun fits room => fits.settle less (by omega)⟩
  · refine List.forall_mem_cons.mpr ⟨fun _ => Option.some_ne_none a, second⟩
  · simp only [weight_append, weight_cons, Entry.weight, Option.getD_some, Option.getD_none]
    omega
  · simp only [handed_append, handed_cons, Entry.handed, Option.getD_some, Option.getD_none]
    omega

end Settle

end ClientPrefs.Reservations
