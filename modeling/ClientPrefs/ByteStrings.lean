import Mathlib

/-!
# C strings, bounded copies and decimal texts

Strings of the program are byte lists. A `char` buffer is modelled by the bytes
before its terminator, so `cstr` is what `strlen` and `strcmp` see of a string.
-/
namespace ClientPrefs.ByteStrings

abbrev Bytes := List UInt8

instance : LawfulBEq Bytes := inferInstance

def bytes (s : String) : Bytes := s.toList.map fun c => c.toNat.toUInt8

/-- The part of a byte string that a C string function reads. -/
def cstr (b : Bytes) : Bytes := b.takeWhile (· ≠ 0)

/-- `UTIL_strncpy(destination, source, num)`: what `destination` holds afterwards. -/
def utilStrncpy (source : Option Bytes) (num : ℕ) : Bytes :=
  match source with
  | none => []
  | some source =>
    let req := (cstr source).length
    if req = 0 then []
    else if num ≤ req then (cstr source).take (num - 1)
    else (cstr source).take req

lemma utilStrncpy_some (source : Bytes) {num : ℕ} (h : 0 < num) :
    utilStrncpy (some source) num = (cstr source).take (num - 1) := by
  simp only [utilStrncpy]
  split_ifs with h0 hn
  · rw [List.length_eq_zero_iff.mp h0, List.take_nil]
  · rfl
  · rw [List.take_of_length_le le_rfl, List.take_of_length_le (by omega)]

lemma cstr_append_zero_free {b : Bytes} (h : ∀ x ∈ b, x ≠ 0) : cstr b = b := by
  simpa [cstr, List.takeWhile_eq_self_iff] using h

lemma zero_free_cstr (b : Bytes) : ∀ x ∈ cstr b, x ≠ 0 := by
  intro x hx
  simpa using List.mem_takeWhile_imp hx

@[simp] lemma cstr_cstr (b : Bytes) : cstr (cstr b) = cstr b :=
  cstr_append_zero_free (zero_free_cstr b)

lemma cstr_take_cstr (b : Bytes) (n : ℕ) : cstr ((cstr b).take n) = (cstr b).take n :=
  cstr_append_zero_free fun x hx => zero_free_cstr b x (List.mem_of_mem_take hx)

lemma cstr_utilStrncpy (source : Option Bytes) (num : ℕ) :
    cstr (utilStrncpy source num) = utilStrncpy source num := by
  cases source with
  | none => rfl
  | some source =>
    simp only [utilStrncpy]
    split_ifs
    · rfl
    · exact cstr_take_cstr _ _
    · exact cstr_take_cstr _ _

lemma utilStrncpy_idem (source : Option Bytes) {num : ℕ} (h : 0 < num) :
    utilStrncpy (some (utilStrncpy source num)) num = utilStrncpy source num := by
  rw [utilStrncpy_some _ h, cstr_utilStrncpy]
  cases source with
  | none => simp [utilStrncpy]
  | some source => rw [utilStrncpy_some _ h, List.take_take, min_self]

def digit (d : ℕ) : UInt8 := (48 + d).toUInt8

def isDigit (c : UInt8) : Bool := 48 ≤ c ∧ c ≤ 57

def natText (n : ℕ) : Bytes :=
  if n = 0 then [digit 0] else (Nat.digits 10 n).reverse.map digit

/-- `std::to_string` of an `int`. -/
def toText (z : ℤ) : Bytes :=
  if z < 0 then 45 :: natText z.natAbs else natText z.natAbs

lemma digit_toNat {d : ℕ} (h : d < 10) : (digit d).toNat = 48 + d := by
  simp only [digit, Nat.toUInt8_eq, UInt8.toNat_ofNat']
  omega

lemma isDigit_digit {d : ℕ} (h : d < 10) : isDigit (digit d) = true := by
  have := digit_toNat h
  simp only [isDigit, UInt8.le_iff_toNat_le, this]
  simp
  omega

lemma natText_isDigit (n : ℕ) : ∀ c ∈ natText n, isDigit c = true := by
  intro c hc
  unfold natText at hc
  split_ifs at hc with h
  · simp only [List.mem_singleton] at hc
    subst hc
    decide
  · simp only [List.mem_map, List.mem_reverse] at hc
    obtain ⟨d, hd, rfl⟩ := hc
    exact isDigit_digit (Nat.digits_lt_base (by norm_num) hd)

lemma natText_ne_nil (n : ℕ) : natText n ≠ [] := by
  unfold natText
  split_ifs with h
  · simp
  · simpa using Nat.digits_ne_nil_iff_ne_zero.mpr h

lemma mem_toText {z : ℤ} {c : UInt8} (h : c ∈ toText z) : c = 45 ∨ isDigit c = true := by
  unfold toText at h
  split_ifs at h
  · rcases List.mem_cons.mp h with rfl | h
    · exact .inl rfl
    · exact .inr (natText_isDigit _ c h)
  · exact .inr (natText_isDigit _ c h)

lemma toText_no_dot (z : ℤ) : (46 : UInt8) ∉ toText z := by
  intro h
  have hbyte := mem_toText h
  revert hbyte
  decide

lemma cstr_toText (z : ℤ) : cstr (toText z) = toText z := by
  apply cstr_append_zero_free
  rintro c hc rfl
  have hbyte := mem_toText hc
  revert hbyte
  decide

def digitsValue (ds : Bytes) : ℕ := ds.foldl (fun acc c => acc * 10 + (c.toNat - 48)) 0

lemma digitsValue_map_digit (ds : List ℕ) (h : ∀ d ∈ ds, d < 10) :
    digitsValue (ds.reverse.map digit) = Nat.ofDigits 10 ds := by
  induction ds with
  | nil => rfl
  | cons d ds ih =>
    have hd := digit_toNat (h d (by simp))
    have ht := ih fun x hx => h x (by simp [hx])
    simp only [digitsValue, List.reverse_cons, List.map_append, List.foldl_append] at ht ⊢
    simp only [List.map_cons, List.map_nil, List.foldl_cons, List.foldl_nil, ht, hd,
      Nat.ofDigits_cons]
    omega

lemma digitsValue_natText (n : ℕ) : digitsValue (natText n) = n := by
  unfold natText
  split_ifs with h
  · subst h
    decide
  · rw [digitsValue_map_digit _ fun d hd => Nat.digits_lt_base (by norm_num) hd,
      Nat.ofDigits_digits]

theorem natText_injective : Function.Injective natText := fun m n h => by
  rw [← digitsValue_natText m, h, digitsValue_natText]

/-- Different numbers have different texts. -/
theorem toText_injective : Function.Injective toText := by
  have hsign : ∀ m n : ℕ, natText m ≠ 45 :: natText n := by
    intro m n h
    have := natText_isDigit m 45 (by simp [h])
    revert this
    decide
  intro x y h
  unfold toText at h
  split_ifs at h with hx hy hy
  · have := natText_injective (List.cons.inj h).2
    omega
  · exact absurd h.symm (hsign _ _)
  · exact absurd h (hsign _ _)
  · have := natText_injective h
    omega

inductive StoiError
  | invalidArgument
  | outOfRange
  deriving DecidableEq, Repr

def isSpace (c : UInt8) : Bool := c = 32 ∨ (9 ≤ c ∧ c ≤ 13)

/-- The optional sign that `strtol` accepts, and the rest of the text. -/
def splitSign : Bytes → Bool × Bytes
  | 45 :: rest => (true, rest)
  | 43 :: rest => (false, rest)
  | rest => (false, rest)

/-- `std::stoi`: leading blanks, a sign, a longest run of digits; the rest is ignored. -/
def stoi (s : Bytes) : Except StoiError ℤ :=
  let (negative, rest) := splitSign (s.dropWhile isSpace)
  let ds := rest.takeWhile isDigit
  if ds = [] then .error .invalidArgument
  else
    let n : ℤ := digitsValue ds
    let z := if negative then -n else n
    if -2 ^ 31 ≤ z ∧ z < 2 ^ 31 then .ok z else .error .outOfRange

lemma stoi_range {s : Bytes} {z : ℤ} (h : stoi s = .ok z) : -2 ^ 31 ≤ z ∧ z < 2 ^ 31 := by
  simp only [stoi] at h
  generalize splitSign (s.dropWhile isSpace) = parts at h
  by_cases hnone : parts.2.takeWhile isDigit = []
  · rw [if_pos hnone] at h
    cases h
  · rw [if_neg hnone] at h
    split_ifs at h with hsign hrange hrange
    · obtain rfl := Except.ok.inj h
      exact hrange
    · obtain rfl := Except.ok.inj h
      exact hrange

lemma isSpace_of_isDigit {c : UInt8} (h : isDigit c = true) : isSpace c = false := by
  have h32 : UInt8.toNat 32 = 32 := rfl
  have h48 : UInt8.toNat 48 = 48 := rfl
  have h13 : UInt8.toNat 13 = 13 := rfl
  simp only [isDigit, isSpace, UInt8.le_iff_toNat_le, decide_eq_true_eq,
    decide_eq_false_iff_not, ← UInt8.toNat_inj] at h ⊢
  omega

lemma splitSign_of_isDigit {c : UInt8} (h : isDigit c = true) (rest : Bytes) :
    splitSign (c :: rest) = (false, c :: rest) := by
  have h45 : c ≠ 45 := by rintro rfl; revert h; decide
  have h43 : c ≠ 43 := by rintro rfl; revert h; decide
  unfold splitSign
  split <;> simp_all

lemma splitSign_natText (n : ℕ) :
    splitSign ((natText n).dropWhile isSpace) = (false, natText n) := by
  cases htext : natText n with
  | nil => exact absurd htext (natText_ne_nil n)
  | cons c rest =>
    have hc : isDigit c = true := natText_isDigit n c (by simp [htext])
    rw [List.dropWhile_cons_of_neg (by simp [isSpace_of_isDigit hc]),
      splitSign_of_isDigit hc]

lemma takeWhile_natText (n : ℕ) : (natText n).takeWhile isDigit = natText n := by
  simpa [List.takeWhile_eq_self_iff] using natText_isDigit n

/-- Every `int` that is printed parses back to itself. -/
theorem stoi_toText {z : ℤ} (hlo : -2 ^ 31 ≤ z) (hhi : z < 2 ^ 31) : stoi (toText z) = .ok z := by
  have hne := natText_ne_nil z.natAbs
  by_cases hz : z < 0
  · have hs : splitSign ((toText z).dropWhile isSpace) = (true, natText z.natAbs) := by
      simp only [toText, hz, if_true]
      rfl
    simp only [stoi, hs, takeWhile_natText, hne, if_false, digitsValue_natText, if_true]
    rw [if_pos (by omega)]
    congr 1
    omega
  · have hs : splitSign ((toText z).dropWhile isSpace) = (false, natText z.natAbs) := by
      simp only [toText, hz, if_false, splitSign_natText]
    simp only [stoi, hs, takeWhile_natText, hne, if_false, digitsValue_natText,
      Bool.false_eq_true]
    rw [if_pos (by omega)]
    congr 1
    omega

end ClientPrefs.ByteStrings
