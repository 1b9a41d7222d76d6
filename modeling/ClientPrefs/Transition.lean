import Mathlib.Logic.Relation
import Mathlib.Data.List.Induction

/-!
# Runs of a labelled transition relation

A run records every step taken together with the state it was taken in, so that
a property of a run can speak about its past.
-/
namespace ClientPrefs.Transition

variable {σ ι : Type*} {step : σ → ι → σ → Prop}

/-- `Run step s trace t`: the steps of `trace`, oldest first, lead from `s` to `t`. -/
inductive Run (step : σ → ι → σ → Prop) (s : σ) : List (σ × ι) → σ → Prop
  | refl : Run step s [] s
  | snoc {trace : List (σ × ι)} {t u : σ} {e : ι} :
      Run step s trace t → step t e u → Run step s (trace ++ [(t, e)]) u

lemma Run.one {s t : σ} {e : ι} (h : step s e t) : Run step s [(s, e)] t := .snoc .refl h

lemma Run.trans {s t u : σ} {before after : List (σ × ι)} (first : Run step s before t)
    (second : Run step t after u) : Run step s (before ++ after) u := by
  induction second with
  | refl => simpa using first
  | snoc _ h ih => simpa [List.append_assoc] using ih.snoc h

/-- A property that every step allowed by `ok` preserves holds at the end of every run
whose steps are all allowed. -/
theorem Run.invariant {s t : σ} {trace : List (σ × ι)} {I : σ → Prop} {ok : σ → ι → Prop}
    (run : Run step s trace t) (start : I s)
    (preserved : ∀ a e b, I a → ok a e → step a e b → I b)
    (allowed : ∀ x ∈ trace, ok x.1 x.2) : I t := by
  induction run with
  | refl => exact start
  | snoc _ h ih =>
    refine preserved _ _ _ (ih fun x hx => allowed x (by simp [hx])) ?_ h
    exact allowed (_, _) (List.mem_append_right _ (List.mem_singleton_self _))

/-- The same rule for a property of the past and the present state. -/
theorem Run.history {s t : σ} {trace : List (σ × ι)} {J : List (σ × ι) → σ → Prop}
    {ok : σ → ι → Prop} (run : Run step s trace t) (start : J [] s)
    (preserved : ∀ past a e b, J past a → ok a e → step a e b → J (past ++ [(a, e)]) b)
    (allowed : ∀ x ∈ trace, ok x.1 x.2) : J trace t := by
  induction run with
  | refl => exact start
  | snoc _ h ih =>
    refine preserved _ _ _ _ (ih fun x hx => allowed x (by simp [hx])) ?_ h
    exact allowed (_, _) (List.mem_append_right _ (List.mem_singleton_self _))

/-- The rules for a property that every step preserves. -/
theorem Run.stable {s t : σ} {trace : List (σ × ι)} {I : σ → Prop} (run : Run step s trace t)
    (start : I s) (preserved : ∀ a e b, I a → step a e b → I b) : I t :=
  run.invariant start (fun a e b h (_ : True) => preserved a e b h) fun _ _ => trivial

lemma Run.stable_history {s t : σ} {trace : List (σ × ι)} {J : List (σ × ι) → σ → Prop}
    (run : Run step s trace t) (start : J [] s)
    (preserved : ∀ past a e b, J past a → step a e b → J (past ++ [(a, e)]) b) : J trace t :=
  run.history start (fun past a e b h (_ : True) => preserved past a e b h) fun _ _ => trivial

/-- Every recorded step splits the run. -/
theorem Run.split {s u : σ} {trace : List (σ × ι)} (run : Run step s trace u) {t : σ} {e : ι}
    (h : (t, e) ∈ trace) : ∃ before after v, trace = before ++ (t, e) :: after ∧
      Run step s before t ∧ step t e v ∧ Run step v after u := by
  induction run with
  | refl => simp at h
  | @snoc past a b f prior last ih =>
    rcases List.mem_append.mp h with h | h
    · obtain ⟨before, after, v, rfl, h₁, h₂, h₃⟩ := ih h
      exact ⟨before, after ++ [(a, f)], v, by simp, h₁, h₂, h₃.snoc last⟩
    · obtain ⟨rfl, rfl⟩ : t = a ∧ e = f := by simpa using h
      exact ⟨past, [], b, by simp, prior, last, .refl⟩

lemma Run.of_snoc {s u : σ} {trace : List (σ × ι)} {x : σ × ι}
    (run : Run step s (trace ++ [x]) u) : Run step s trace x.1 ∧ step x.1 x.2 u := by
  generalize htrace : trace ++ [x] = whole at run
  cases run with
  | refl => simp at htrace
  | snoc prior last =>
    obtain ⟨rfl, hlast⟩ := List.append_inj' htrace rfl
    obtain rfl := List.singleton_inj.mp hlast
    exact ⟨prior, last⟩

lemma Run.of_append {s u : σ} {before after : List (σ × ι)}
    (run : Run step s (before ++ after) u) :
    ∃ t, Run step s before t ∧ Run step t after u := by
  induction after using List.reverseRecOn generalizing u with
  | nil => exact ⟨u, by simpa using run, .refl⟩
  | append_singleton after x ih =>
    rw [← List.append_assoc] at run
    obtain ⟨prior, last⟩ := run.of_snoc
    obtain ⟨t, first, second⟩ := ih prior
    exact ⟨t, first, second.snoc last⟩

/-- The states a run passes through, its last state included. -/
def visited (trace : List (σ × ι)) (last : σ) : List σ := trace.map Prod.fst ++ [last]

lemma Run.of_visited {s u t : σ} {trace : List (σ × ι)} (run : Run step s trace u)
    (h : t ∈ visited trace u) :
    ∃ before after, trace = before ++ after ∧ Run step s before t ∧ Run step t after u := by
  rcases List.mem_append.mp h with h | h
  · obtain ⟨⟨a, e⟩, hmem, rfl⟩ := List.mem_map.mp h
    obtain ⟨before, after, v, rfl, h₁, h₂, h₃⟩ := run.split hmem
    exact ⟨before, (a, e) :: after, rfl, h₁, by simpa using (Run.one h₂).trans h₃⟩
  · obtain rfl : t = u := by simpa using h
    exact ⟨trace, [], by simp, run, .refl⟩

lemma Run.first_visited {s u : σ} {trace : List (σ × ι)} (run : Run step s trace u) :
    s ∈ visited trace u := by
  induction run with
  | refl => exact List.mem_singleton_self _
  | snoc prior last ih =>
    simp only [visited, List.map_append, List.mem_append] at ih ⊢
    exact .inl (by simpa using ih)

lemma Run.next_visited {s u : σ} {trace : List (σ × ι)} (run : Run step s trace u) {t : σ} {e : ι}
    (h : (t, e) ∈ trace) : ∃ v ∈ visited trace u, step t e v := by
  induction run with
  | refl => simp at h
  | @snoc past a b f prior last ih =>
    rcases List.mem_append.mp h with h | h
    · obtain ⟨v, hv, hstep⟩ := ih h
      refine ⟨v, ?_, hstep⟩
      simp only [visited, List.map_append, List.mem_append] at hv ⊢
      exact .inl (by simpa using hv)
    · obtain ⟨rfl, rfl⟩ : t = a ∧ e = f := by simpa using h
      exact ⟨b, by simp [visited], last⟩

lemma visited_of_mem {u : σ} {trace : List (σ × ι)} {x : σ × ι} (h : x ∈ trace) :
    x.1 ∈ visited trace u := List.mem_append_left _ (List.mem_map_of_mem h)

lemma visited_append_right {u t : σ} {after : List (σ × ι)} (before : List (σ × ι))
    (h : t ∈ visited after u) : t ∈ visited (before ++ after) u := by
  rw [visited, List.map_append, List.append_assoc]
  exact List.mem_append_right _ h

/-- An invariant holds in every state that a run passes through. -/
theorem Run.invariant_visited {s t u : σ} {trace : List (σ × ι)} {I : σ → Prop}
    {ok : σ → ι → Prop} (run : Run step s trace t) (start : I s)
    (preserved : ∀ a e b, I a → ok a e → step a e b → I b)
    (allowed : ∀ x ∈ trace, ok x.1 x.2) (hu : u ∈ visited trace t) : I u := by
  obtain ⟨before, after, rfl, first, _⟩ := run.of_visited hu
  exact first.invariant start preserved fun x hx => allowed x (List.mem_append_left _ hx)

section Enact
variable (apply : σ → ι → σ) (allowed : σ → ι → Prop)

def enact (s : σ) (es : List ι) : σ := es.foldl apply s

def enactTrace : σ → List ι → List (σ × ι)
  | _, [] => []
  | s, e :: es => (s, e) :: enactTrace (apply s e) es

def Enactable : σ → List ι → Prop
  | _, [] => True
  | s, e :: es => allowed s e ∧ Enactable (apply s e) es

variable {apply allowed} {s : σ} {es fs : List ι}

theorem enact_run (h : Enactable apply allowed s es) :
    Run (fun a e b => allowed a e ∧ b = apply a e) s (enactTrace apply s es)
      (enact apply s es) := by
  induction es generalizing s with
  | nil => exact .refl
  | cons e es ih =>
    have first : Run (fun a e b => allowed a e ∧ b = apply a e) s [(s, e)] (apply s e) :=
      .one ⟨h.1, rfl⟩
    exact first.trans (ih h.2)

lemma Enactable.append (h : Enactable apply allowed s es)
    (h' : Enactable apply allowed (enact apply s es) fs) :
    Enactable apply allowed s (es ++ fs) := by
  induction es generalizing s with
  | nil => exact h'
  | cons e es ih => exact ⟨h.1, ih h.2 h'⟩

lemma enactTrace_concat (s : σ) (es : List ι) (e : ι) : enactTrace apply s (es ++ [e]) =
    enactTrace apply s es ++ [(enact apply s es, e)] := by
  induction es generalizing s with
  | nil => rfl
  | cons d es ih =>
    simp only [List.cons_append, enactTrace, ih]
    rfl

lemma map_snd_enactTrace (s : σ) (es : List ι) :
    (enactTrace apply s es).map Prod.snd = es := by
  induction es generalizing s with
  | nil => rfl
  | cons e es ih => exact congrArg (e :: ·) (ih (apply s e))

end Enact

section Advance
variable (next : σ → ι → Option σ)

/-- The state after the steps, if all of them are possible. -/
def advance : σ → List ι → Option σ
  | s, [] => some s
  | s, e :: es => (next s e).bind fun t => advance t es

def advanceTrace : σ → List ι → List (σ × ι)
  | _, [] => []
  | s, e :: es =>
    match next s e with
    | none => []
    | some t => (s, e) :: advanceTrace t es

variable {next} {s t : σ} {es : List ι}

theorem advance_run (h : advance next s es = some t) :
    Run (fun a e b => next a e = some b) s (advanceTrace next s es) t := by
  induction es generalizing s with
  | nil =>
    obtain rfl : s = t := by simpa [advance] using h
    exact .refl
  | cons e es ih =>
    obtain ⟨m, hm, hrest⟩ := Option.bind_eq_some_iff.mp h
    have first : Run (fun a e b => next a e = some b) s [(s, e)] m := .one hm
    simp only [advanceTrace, hm]
    exact first.trans (ih hrest)

lemma advance_append (s : σ) (es fs : List ι) :
    advance next s (es ++ fs) = (advance next s es).bind fun t => advance next t fs := by
  induction es generalizing s with
  | nil => rfl
  | cons e es ih =>
    simp only [List.cons_append, advance, Option.bind_assoc]
    congr 1
    funext t
    exact ih t

end Advance

end ClientPrefs.Transition
