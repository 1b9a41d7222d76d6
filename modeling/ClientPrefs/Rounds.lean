import Mathlib.Data.List.Basic
import Mathlib.Data.List.Count
import Mathlib.Data.List.Flatten
import Mathlib.Tactic.SplitIfs
import Mathlib.Tactic.Set
import Mathlib.Tactic.ByContra

/-!
# A buffer that is filled in rounds

Every round writes what it brings over the first elements of the buffer.
-/
namespace ClientPrefs.Rounds

variable {α : Type*}

/-- The round is written from the start of the buffer. -/
def write (buffer round : List α) : List α := round ++ buffer.drop round.length

def fill (buffer : List α) (rounds : List (List α)) : List α := rounds.foldl write buffer

def AtMostOne (sizes : List ℕ) : Prop := sizes.countP (0 < ·) ≤ 1

instance (sizes : List ℕ) : Decidable (AtMostOne sizes) := inferInstanceAs (Decidable (_ ≤ _))

variable {buffer round : List α} {rounds : List (List α)}

@[simp] lemma write_nil (buffer : List α) : write buffer [] = buffer := rfl

lemma length_write (h : round.length ≤ buffer.length) :
    (write buffer round).length = buffer.length := by
  simp only [write, List.length_append, List.length_drop]
  omega

@[simp] lemma fill_concat (buffer : List α) (rounds : List (List α)) (round : List α) :
    fill buffer (rounds ++ [round]) = write (fill buffer rounds) round := by
  simp [fill]

lemma getElem?_fill {i : ℕ} (h : ∀ round ∈ rounds, round.length ≤ i) :
    (fill buffer rounds)[i]? = buffer[i]? := by
  induction rounds generalizing buffer with
  | nil => rfl
  | cons round rounds ih =>
    have hround := h round (by simp)
    have rest := @ih (write buffer round) fun r hr => h r (by simp [hr])
    rw [show fill buffer (round :: rounds) = fill (write buffer round) rounds from rfl, rest, write,
      List.getElem?_append_right hround, List.getElem?_drop, Nat.add_sub_cancel' hround]

lemma countP_eq_zero (h : rounds.flatten = []) :
    (rounds.map List.length).countP (0 < ·) = 0 := by
  rw [List.countP_eq_zero]
  intro n hn
  obtain ⟨round, hround, rfl⟩ := List.mem_map.mp hn
  simp [List.flatten_eq_nil_iff.mp h round hround]

lemma atMostOne_of_length (h : round ∈ rounds) (all : rounds.flatten.length ≤ round.length) :
    AtMostOne (rounds.map List.length) := by
  obtain ⟨before, after, rfl⟩ := List.append_of_mem h
  simp only [List.flatten_append, List.flatten_cons, List.length_append] at all
  have hbefore : before.flatten = [] := List.length_eq_zero_iff.mp (by omega)
  have hafter : after.flatten = [] := List.length_eq_zero_iff.mp (by omega)
  simp only [AtMostOne, List.map_append, List.map_cons, List.countP_append, List.countP_cons,
    countP_eq_zero hbefore, countP_eq_zero hafter]
  split_ifs <;> omega

lemma fill_of_flatten_eq_nil (h : rounds.flatten = []) (buffer : List α) :
    fill buffer rounds = buffer := by
  have empty := List.flatten_eq_nil_iff.mp h
  refine List.ext_getElem? fun i => getElem?_fill fun round hround => ?_
  rw [empty round hround]
  exact Nat.zero_le i

lemma take_fill_of_atMostOne (h : AtMostOne (rounds.map List.length)) (buffer : List α) :
    (fill buffer rounds).take rounds.flatten.length = rounds.flatten := by
  induction rounds generalizing buffer with
  | nil => rfl
  | cons round rounds ih =>
    cases round with
    | nil => exact ih (by simpa [AtMostOne] using h) buffer
    | cons x round =>
      have none : rounds.flatten = [] := by
        rw [List.flatten_eq_nil_iff]
        intro r hr
        have zero : (rounds.map List.length).countP (0 < ·) = 0 := by
          simpa [AtMostOne] using h
        simpa using List.countP_eq_zero.mp zero r.length (List.mem_map_of_mem hr)
      have same : fill buffer ((x :: round) :: rounds) = write buffer (x :: round) :=
        fill_of_flatten_eq_nil none _
      rw [same, List.flatten_cons, none, List.append_nil, write, List.take_left]

/-- The first elements of the buffer are what the rounds brought exactly when at most one of
them brought anything; otherwise one of these elements was never written. -/
theorem take_fill_iff {blank : α} {n : ℕ} (room : rounds.flatten.length ≤ n)
    (used : blank ∉ rounds.flatten) :
    (fill (List.replicate n blank) rounds).take rounds.flatten.length = rounds.flatten ↔
      AtMostOne (rounds.map List.length) := by
  refine ⟨fun h => ?_, fun h => take_fill_of_atMostOne h _⟩
  by_contra many
  have short : ∀ round ∈ rounds, round.length < rounds.flatten.length := by
    intro round hround
    by_contra long
    exact many (atMostOne_of_length hround (by omega))
  have pos : 0 < rounds.flatten.length := by
    rcases rounds with _ | ⟨round, rounds⟩
    · exact absurd (Nat.zero_le 1) many
    · exact Nat.zero_lt_of_lt (short round (by simp))
  set last := rounds.flatten.length - 1
  have untouched : (fill (List.replicate n blank) rounds)[last]? = some blank := by
    rw [getElem?_fill fun round hround => Nat.le_sub_one_of_lt (short round hround),
      List.getElem?_replicate_of_lt (by omega)]
  have hmem : some blank = rounds.flatten[last]? := by
    rw [← untouched, ← List.getElem?_take_of_lt (show last < rounds.flatten.length by omega), h]
  exact used (List.mem_of_getElem? hmem.symm)

end ClientPrefs.Rounds
