import Mathlib.Data.List.Flatten
import Mathlib.Logic.Function.Basic
import Mathlib.Tactic.Common

/-!
# Self-delimiting encodings

A reader takes one value off the front of a word and returns what follows it. An encoding that
some reader undoes, whatever follows, can be written one after the other without separators.
-/
namespace ClientPrefs.Framing

universe u

variable {α β : Type u}

abbrev Reader (α : Type u) (β : Type*) := List α → Option (β × List α)

/-- The reader undoes the encoding and leaves what follows it. -/
def Reads {β : Type*} (read : Reader α β) (encode : β → List α) : Prop :=
  ∀ b rest, read (encode b ++ rest) = some (b, rest)

def expect [DecidableEq α] (word : List α) : Reader α Unit := fun w =>
  if word <+: w then some ((), w.drop word.length) else none

def readTake (n : ℕ) : Reader α (List α) := fun w =>
  if n ≤ w.length then some (w.take n, w.drop n) else none

def readTimes (read : Reader α β) : ℕ → Reader α (List β)
  | 0, w => some ([], w)
  | n + 1, w => do
    let (b, w) ← read w
    let (bs, w) ← readTimes read n w
    some (b :: bs, w)

def readCounted (readCount : Reader α ℕ) (read : Reader α β) : Reader α (List β) := fun w => do
  let (n, w) ← readCount w
  readTimes read n w

/-- Read at most `fuel` values, and the whole word. -/
def readWithin (read : Reader α β) : ℕ → List α → Option (List β)
  | _, [] => some []
  | 0, _ :: _ => none
  | fuel + 1, a :: w => do
    let (b, rest) ← read (a :: w)
    let bs ← readWithin read fuel rest
    some (b :: bs)

/-- The length of the word is enough fuel for values that take a symbol at least. -/
def readAll (read : Reader α β) (w : List α) : Option (List β) := readWithin read w.length w

@[simp] lemma expect_append [DecidableEq α] (word rest : List α) :
    expect word (word ++ rest) = some ((), rest) := by
  simp [expect]

@[simp] lemma readTake_append (w rest : List α) :
    readTake w.length (w ++ rest) = some (w, rest) := by
  simp [readTake]

variable {read : Reader α β} {encode : β → List α}

theorem Reads.prefix_iff (h : Reads read encode) {b c : β} :
    encode b <+: encode c ↔ b = c := by
  constructor
  · rintro ⟨rest, hrest⟩
    have hb : read (encode c) = some (b, rest) := hrest ▸ h b rest
    have hc : read (encode c) = some (c, []) := by simpa using h c []
    exact congrArg Prod.fst (Option.some.inj (hb.symm.trans hc))
  · rintro rfl
    exact List.prefix_rfl

lemma Reads.times (h : Reads read encode) (bs : List β) (rest : List α) :
    readTimes read bs.length (bs.flatMap encode ++ rest) = some (bs, rest) := by
  induction bs with
  | nil => rfl
  | cons b bs ih =>
    rw [List.flatMap_cons, List.append_assoc, List.length_cons, readTimes, h b]
    simp [ih]

/-- A count that can be read makes a list self-delimiting. -/
theorem Reads.counted {readCount : Reader α ℕ} {encodeCount : ℕ → List α}
    (count : Reads readCount encodeCount) (h : Reads read encode) :
    Reads (readCounted readCount read)
      fun bs => encodeCount bs.length ++ bs.flatMap encode := by
  intro bs rest
  rw [List.append_assoc, readCounted, count]
  simp [h.times]

lemma Reads.within (h : Reads read encode) (nonempty : ∀ b, encode b ≠ []) {fuel : ℕ}
    (bs : List β) (enough : bs.length ≤ fuel) :
    readWithin read fuel (bs.flatMap encode) = some bs := by
  induction bs generalizing fuel with
  | nil => cases fuel <;> rfl
  | cons b bs ih =>
    cases fuel with
    | zero => simp at enough
    | succ fuel =>
      have hread := h b (bs.flatMap encode)
      have hrest := ih (by simpa using enough)
      rw [List.flatMap_cons]
      cases hword : encode b ++ bs.flatMap encode with
      | nil => exact absurd (List.append_eq_nil_iff.mp hword).1 (nonempty b)
      | cons a w =>
        rw [hword] at hread
        simp [readWithin, hread, hrest]

lemma length_le_flatMap (nonempty : ∀ b, encode b ≠ []) (bs : List β) :
    bs.length ≤ (bs.flatMap encode).length := by
  induction bs with
  | nil => exact Nat.le_refl _
  | cons b bs ih =>
    have := List.length_pos_iff.mpr (nonempty b)
    rw [List.flatMap_cons, List.length_append, List.length_cons]
    omega

/-- A stream of values is read back. -/
theorem Reads.all (h : Reads read encode) (nonempty : ∀ b, encode b ≠ []) (bs : List β) :
    readAll read (bs.flatMap encode) = some bs :=
  h.within nonempty bs (length_le_flatMap nonempty bs)

theorem Reads.flatMap_injective (h : Reads read encode) (nonempty : ∀ b, encode b ≠ []) :
    Function.Injective fun bs : List β => bs.flatMap encode := by
  intro bs cs hbs
  have hread := congrArg (readAll read) hbs
  simpa only [h.all nonempty, Option.some.injEq] using hread

end ClientPrefs.Framing
