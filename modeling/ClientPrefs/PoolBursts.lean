import ClientPrefs.WorkerPool
import Mathlib.Tactic.Common

/-!
# Bursts

What a worker has to do grows only by whole bursts: the commands that a conversation
tells between two awaited replies.
-/
namespace ClientPrefs.PoolBursts
open Conversation WorkerPool

variable {ι J Cmd Rep α S : Type} {B : List Cmd → Prop}

def LaterBursts (B : List Cmd → Prop) : Conv Cmd Rep α → Prop
  | .tell _ next => LaterBursts B next
  | .ask cmds next => B cmds ∧ ∀ replies, replies.length = cmds.length →
      B (next replies).burst ∧ LaterBursts B (next replies)
  | _ => True

def Bursts (B : List Cmd → Prop) (c : Conv Cmd Rep α) : Prop := B c.burst ∧ LaterBursts B c

lemma Bursts.command_bind {β : Type} {x : Cmd} {f : Option Rep → Conv Cmd Rep β}
    (hnil : B []) (hx : B [x]) (h : ∀ r, Bursts B (f r)) : Bursts B (Conv.command x >>= f) :=
  ⟨hnil, hx, fun replies _ => h (replies.headD none)⟩

def PhaseBursts (B : List Cmd → Prop) : Phase J Cmd Rep α → Prop
  | .idle => True
  | .running _ _ conv => LaterBursts B conv
  | .waiting _ _ cmds _ next => ∀ replies, replies.length = cmds.length → Bursts B (next replies)

/-- The store as it was, and at most one burst more for each worker. -/
structure Grows (B : List Cmd → Prop) (p q : Pool ι J Cmd Rep α S) : Prop where
  store : q.store = p.store
  todo : ∀ v, (q.workers v).todo = (p.workers v).todo ∨
    ∃ b, B b ∧ (q.workers v).todo = (p.workers v).todo ++ b

structure Executes (exec : S → Cmd → S × Rep) (w : ι) (c : Cmd) (p q : Pool ι J Cmd Rep α S) :
    Prop where
  head : ∃ awaited rest, (p.workers w).pipe = (c, awaited) :: rest
  store : q.store = (exec p.store c).1
  todo : (p.workers w).todo = c :: (q.workers w).todo
  others : ∀ v, v ≠ w → (q.workers v).todo = (p.workers v).todo

lemma bursts_of_keeps {C : Cmd → Prop} {post : α → Prop} (hB : ∀ b, (∀ c ∈ b, C c) → B b)
    {c : Conv Cmd Rep α} (h : c.Keeps (fun _ _ => True) C post) : Bursts B c := by
  have hburst : ∀ {c : Conv Cmd Rep α}, c.Keeps (fun _ _ => True) C post →
      ∀ x ∈ c.burst, C x := by
    intro c h
    induction c with
    | tell cmds next ih =>
      intro x hx
      rcases List.mem_append.mp hx with hx | hx
      · exact h.1 x hx
      · exact ih h.2 x hx
    | _ => simp [Conv.burst]
  refine ⟨hB _ (hburst h), ?_⟩
  induction c with
  | tell cmds next ih => exact ih h.2
  | ask cmds next ih =>
    refine ⟨hB _ h.1, fun replies hlen => ?_⟩
    have hnext := h.2 replies (List.forall₂_iff_zip.mpr ⟨hlen.symm, fun _ => trivial⟩)
    exact ⟨hB _ (hburst hnext), ih replies hnext⟩
  | _ => trivial

variable [DecidableEq ι] {start : J → Conv Cmd Rep α} {exec : S → Cmd → S × Rep}
  {p q : Pool ι J Cmd Rep α S}

lemma phaseBursts_set {w : ι} {x : Worker J Cmd Rep α}
    (h : ∀ v, PhaseBursts B (p.workers v).phase) (hx : PhaseBursts B x.phase) :
    ∀ v, PhaseBursts B ((p.set w x).workers v).phase :=
  forall_workers_set (P := fun _ v => PhaseBursts B v.phase) hx fun v _ => h v

lemma Grows.set {w : ι} {x : Worker J Cmd Rep α}
    (h : x.todo = (p.workers w).todo ∨ ∃ b, B b ∧ x.todo = (p.workers w).todo ++ b) :
    Grows B p (p.set w x) where
  store := rfl
  todo := forall_workers_set (P := fun v y => y.todo = (p.workers v).todo ∨
    ∃ b, B b ∧ y.todo = (p.workers v).todo ++ b) h fun _ _ => .inl rfl

/-- One step lets the todo lists grow by bursts or executes one command. -/
theorem grows_or_executes (h : ∀ v, PhaseBursts B (p.workers v).phase) {l : Label ι J}
    (hl : step start exec p l = some q) (hstart : ∀ j ∈ p.issued, Bursts B (start j)) :
    (∀ v, PhaseBursts B (q.workers v).phase) ∧
      (Grows B p q ∨ ∃ w c, l = .exec w ∧ Executes exec w c p q) := by
  cases step_cases hl with
  | enqueue j => exact ⟨h, .inl ⟨rfl, fun v => .inl rfl⟩⟩
  | take w j pipe idle next =>
    obtain ⟨hburst, hlater⟩ := hstart j (List.mem_of_getElem? next)
    let p' : Pool ι J Cmd Rep α S := { p with taken := p.taken + 1 }
    have hgrows : Grows B p' (p'.set w ⟨.running p.taken j (start j), pipe⟩) := by
      apply Grows.set
      refine .inr ⟨_, hburst, ?_⟩
      rw [show (p'.workers w) = _ from idle]
      simp [Worker.todo, Phase.unsent]
    exact ⟨phaseBursts_set (show ∀ v, PhaseBursts B (p'.workers v).phase from h) hlater,
      .inl ⟨hgrows.store, hgrows.todo⟩⟩
  | tell w t j cmds next pipe at_tell =>
    have hw := h w
    rw [at_tell] at hw
    refine ⟨phaseBursts_set h hw, .inl (Grows.set (.inl ?_))⟩
    rw [at_tell]
    simp [Worker.todo, Phase.unsent, Conv.burst, Function.comp_def]
  | ask w t j cmds next pipe at_ask =>
    have hw := h w
    rw [at_ask] at hw
    refine ⟨phaseBursts_set h hw.2, .inl (Grows.set (.inr ⟨cmds, hw.1, ?_⟩))⟩
    rw [at_ask]
    simp [Worker.todo, Phase.unsent, Conv.burst, Function.comp_def]
  | exec w phase c awaited rest head =>
    have hw := h w
    rw [head] at hw
    have hphase : PhaseBursts B
        (if awaited then phase.receive (some (exec p.store c).2) else phase) := by
      cases awaited <;> cases phase <;> exact hw
    have hunsent : (if awaited then phase.receive (some (exec p.store c).2) else phase).unsent =
        phase.unsent := by cases awaited <;> cases phase <;> rfl
    let p' : Pool ι J Cmd Rep α S := { p with store := (exec p.store c).1 }
    refine ⟨phaseBursts_set (show ∀ v, PhaseBursts B (p'.workers v).phase from h) hphase,
      .inr ⟨w, c, rfl, ⟨awaited, rest, by rw [head]⟩, rfl, ?_, fun v hv => ?_⟩⟩
    · rw [set_workers_same, head]
      simp [Worker.todo, hunsent]
    · rw [set_workers_of_ne _ _ hv]
  | resume w t j cmds got next pipe all len =>
    have hw := h w
    rw [all] at hw
    obtain ⟨hburst, hlater⟩ := hw got len
    refine ⟨phaseBursts_set h hlater, .inl (Grows.set (.inr ⟨_, hburst, ?_⟩))⟩
    rw [all]
    simp [Worker.todo, Phase.unsent]
  | finish w t j a pipe at_done =>
    let p' : Pool ι J Cmd Rep α S := { p with results := p.results ++ [(t, j, a)] }
    have hgrows : Grows B p' (p'.set w ⟨.idle, pipe⟩) := by
      apply Grows.set
      left
      rw [show (p'.workers w) = _ from at_done]
      simp [Worker.todo, Phase.unsent, Conv.burst]
    exact ⟨phaseBursts_set (show ∀ v, PhaseBursts B (p'.workers v).phase from h) trivial,
      .inl ⟨hgrows.store, hgrows.todo⟩⟩

end ClientPrefs.PoolBursts
