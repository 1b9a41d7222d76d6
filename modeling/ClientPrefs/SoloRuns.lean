import ClientPrefs.WorkerPool

/-!
# Conversations that run alone

What a conversation does to a store that serves nobody else meanwhile, and the steps of
a pool that do the same.
-/
namespace ClientPrefs.SoloRuns
open Conversation Conv Transition WorkerPool

variable {ι J Cmd Rep α β S : Type} (exec : S → Cmd → S × Rep)

/-- The store after the commands, and their replies. -/
def serveAll : S → List Cmd → S × List (Option Rep)
  | s, [] => (s, [])
  | s, c :: cs =>
    let rest := serveAll (exec s c).1 cs
    (rest.1, some (exec s c).2 :: rest.2)

/-- The store after the conversation, and what it returned, if it did. -/
def solo : S → Conv Cmd Rep α → S × Option α
  | s, .done a => (s, some a)
  | s, .died => (s, none)
  | s, .tell cmds next => solo (serveAll exec s cmds).1 next
  | s, .ask cmds next => solo (serveAll exec s cmds).1 (next (serveAll exec s cmds).2)

variable {exec} {s : S}

lemma serveAll_length (cmds : List Cmd) : (serveAll exec s cmds).2.length = cmds.length := by
  induction cmds generalizing s with
  | nil => rfl
  | cons c cs ih => simp [serveAll, ih]

lemma solo_command_bind (c : Cmd) (f : Option Rep → Conv Cmd Rep β) :
    solo exec s (Conv.command c >>= f) = solo exec (exec s c).1 (f (some (exec s c).2)) := rfl

lemma solo_append_bind (cmds : List Cmd) (f : Unit → Conv Cmd Rep β) :
    solo exec s (Conv.append cmds >>= f) = solo exec (serveAll exec s cmds).1 (f ()) := rfl

section Contract
variable {sto : Cmd → Option Rep → Prop} {C : Cmd → Prop} {I : S → Prop}

lemma serveAll_keeps (hI : I s) (hexec : ∀ s c, I s → C c → I (exec s c).1)
    (hsto : ∀ s c, I s → sto c (some (exec s c).2)) {cmds : List Cmd} (hC : ∀ c ∈ cmds, C c) :
    I (serveAll exec s cmds).1 ∧ List.Forall₂ sto cmds (serveAll exec s cmds).2 := by
  induction cmds generalizing s with
  | nil => exact ⟨hI, .nil⟩
  | cons c cs ih =>
    have hnext : I (exec s c).1 := hexec s c hI (hC c (List.mem_cons_self ..))
    obtain ⟨hlast, hreplies⟩ := ih hnext fun d hd => hC d (List.mem_cons_of_mem _ hd)
    exact ⟨hlast, .cons (hsto s c hI) hreplies⟩

/-- A conversation that keeps its contract keeps every invariant of the store that its
commands keep, as long as the invariant allows only replies of the contract. -/
theorem solo_keeps {c : Conv Cmd Rep α} {post : α → Prop} (h : c.Keeps sto C post) (hI : I s)
    (hexec : ∀ s c, I s → C c → I (exec s c).1) (hsto : ∀ s c, I s → sto c (some (exec s c).2)) :
    I (solo exec s c).1 ∧ ∀ a, (solo exec s c).2 = some a → post a := by
  induction c generalizing s with
  | done a =>
    refine ⟨hI, fun b hb => ?_⟩
    obtain rfl := Option.some.inj hb
    exact h
  | died => exact ⟨hI, fun b hb => nomatch hb⟩
  | tell cmds next ih => exact ih h.2 (serveAll_keeps hI hexec hsto h.1).1
  | ask cmds next ih =>
    obtain ⟨hlast, hreplies⟩ := serveAll_keeps hI hexec hsto h.1
    exact ih _ (h.2 _ hreplies) hlast

end Contract

section Pool
variable [DecidableEq ι] {start : J → Conv Cmd Rep α} {p : Pool ι J Cmd Rep α S} {w : ι}

/-- `q` is `p` with another store and another worker at `w`. -/
def At (p : Pool ι J Cmd Rep α S) (w : ι) (x : Worker J Cmd Rep α) (s : S) :
    Pool ι J Cmd Rep α S :=
  { p.set w x with store := s }

abbrev PoolStep (start : J → Conv Cmd Rep α) (exec : S → Cmd → S × Rep)
    (p : Pool ι J Cmd Rep α S) (l : Label ι J) (q : Pool ι J Cmd Rep α S) : Prop :=
  step start exec p l = some q

theorem told_run (start : J → Conv Cmd Rep α) (p : Pool ι J Cmd Rep α S) (w : ι) (s : S)
    (phase : Phase J Cmd Rep α) (cmds : List Cmd) :
    ∃ trace, Run (PoolStep start exec) (At p w ⟨phase, cmds.map (·, false)⟩ s) trace
      (At p w ⟨phase, []⟩ (serveAll exec s cmds).1) := by
  induction cmds generalizing s with
  | nil => exact ⟨[], .refl⟩
  | cons c cs ih =>
    obtain ⟨trace, hrest⟩ := ih (exec s c).1
    have hstep : PoolStep start exec (At p w ⟨phase, (c :: cs).map (·, false)⟩ s) (.exec w)
        (At p w ⟨phase, cs.map (·, false)⟩ (exec s c).1) := by
      simp [PoolStep, step, At, Pool.set]
    exact ⟨_, (Run.one hstep).trans hrest⟩

theorem asked_run (start : J → Conv Cmd Rep α) (p : Pool ι J Cmd Rep α S) (w : ι) (s : S)
    (t : ℕ) (j : J) (all cmds : List Cmd) (got : List (Option Rep))
    (next : List (Option Rep) → Conv Cmd Rep α) :
    ∃ trace, Run (PoolStep start exec)
      (At p w ⟨.waiting t j all got next, cmds.map (·, true)⟩ s) trace
      (At p w ⟨.waiting t j all (got ++ (serveAll exec s cmds).2) next, []⟩
        (serveAll exec s cmds).1) := by
  induction cmds generalizing s got with
  | nil => exact ⟨[], by simpa [serveAll] using Run.refl⟩
  | cons c cs ih =>
    obtain ⟨trace, hrest⟩ := ih (exec s c).1 (got ++ [some (exec s c).2])
    rw [List.append_assoc] at hrest
    have hstep : PoolStep start exec
        (At p w ⟨.waiting t j all got next, (c :: cs).map (·, true)⟩ s) (.exec w)
        (At p w ⟨.waiting t j all (got ++ [some (exec s c).2]) next, cs.map (·, true)⟩
          (exec s c).1) := by
      simp [PoolStep, step, At, Pool.set, Phase.receive]
    exact ⟨_, (Run.one hstep).trans hrest⟩

/-- A worker alone takes its conversation to the end. -/
theorem conversation_run (start : J → Conv Cmd Rep α) (p : Pool ι J Cmd Rep α S) (w : ι) (t : ℕ)
    (j : J) (c : Conv Cmd Rep α) {a : α}
    (h : (solo exec s c).2 = some a) :
    ∃ trace, Run (PoolStep start exec) (At p w ⟨.running t j c, []⟩ s) trace
      { At p w ⟨.idle, []⟩ (solo exec s c).1 with results := p.results ++ [(t, j, a)] } := by
  induction c generalizing s with
  | done b =>
    obtain rfl : b = a := Option.some.inj h
    refine ⟨_, .one (e := .finish w) ?_⟩
    simp [PoolStep, step, At, Pool.set, solo]
  | died => cases h
  | tell cmds next ih =>
    obtain ⟨later, hlater⟩ := ih h
    obtain ⟨told, htold⟩ := told_run start p w s (.running t j next) cmds
    have hsend : PoolStep start exec (At p w ⟨.running t j (.tell cmds next), []⟩ s) (.send w)
        (At p w ⟨.running t j next, cmds.map (·, false)⟩ s) := by
      simp [PoolStep, step, At, Pool.set]
    exact ⟨_, (Run.one hsend).trans (htold.trans hlater)⟩
  | ask cmds next ih =>
    obtain ⟨later, hlater⟩ := ih _ h
    obtain ⟨asked, hasked⟩ := asked_run start p w s t j cmds cmds [] next
    have hsend : PoolStep start exec (At p w ⟨.running t j (.ask cmds next), []⟩ s) (.send w)
        (At p w ⟨.waiting t j cmds [] next, cmds.map (·, true)⟩ s) := by
      simp [PoolStep, step, At, Pool.set]
    have hresume : PoolStep start exec
        (At p w ⟨.waiting t j cmds (serveAll exec s cmds).2 next, []⟩ (serveAll exec s cmds).1)
        (.resume w)
        (At p w ⟨.running t j (next (serveAll exec s cmds).2), []⟩ (serveAll exec s cmds).1) := by
      simp [PoolStep, step, At, Pool.set, serveAll_length]
    exact ⟨_, (Run.one hsend).trans (hasked.trans ((Run.one hresume).trans hlater))⟩

/-- A worker with nothing to do takes the next job and finishes it before anybody moves. -/
theorem solo_run {j : J} {a : α} (idle : p.workers w = ⟨.idle, []⟩)
    (next : p.issued[p.taken]? = some j) (h : (solo exec p.store (start j)).2 = some a) :
    ∃ trace, Run (PoolStep start exec) p trace
      { p with
        taken := p.taken + 1
        store := (solo exec p.store (start j)).1
        results := p.results ++ [(p.taken, j, a)] } := by
  let p' : Pool ι J Cmd Rep α S := { p with taken := p.taken + 1 }
  obtain ⟨trace, hrun⟩ := conversation_run start p' w p.taken j _ h
  have htake : PoolStep start exec p (.take w)
      (At p' w ⟨.running p.taken j (start j), []⟩ p.store) := by
    simp [PoolStep, step, At, Pool.set, idle, next, p']
  have hback : Function.update p.workers w ⟨.idle, []⟩ = p.workers := by
    rw [← idle, Function.update_eq_self]
  have hall : Run (PoolStep start exec) p _ _ := (Run.one htake).trans hrun
  simp only [At, Pool.set, p', hback] at hall
  exact ⟨_, hall⟩

end Pool

end ClientPrefs.SoloRuns
