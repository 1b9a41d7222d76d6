import ClientPrefs.WorkerPool
import Mathlib.Data.List.Lattice
import Mathlib.Tactic.Common

/-!
# Order of the writes to one cell

A cell is a part of the store that some commands write. When a job that writes the
cell, or reads it, is taken only while no other worker is engaged with the cell, its
writes take effect in the order in which the jobs were issued.
-/
namespace ClientPrefs.PoolOrder
open Conversation WorkerPool

variable {ι J Cmd Rep α S V : Type}

/-- `look` is the cell, `writes` the value that a command puts there. -/
structure Cell (exec : S → Cmd → S × Rep) (V : Type) where
  look : S → Option V
  writes : Cmd → Option V
  look_exec : ∀ s c, look (exec s c).1 = (writes c).or (look s)

variable {exec : S → Cmd → S × Rep} (cell : Cell exec V)

namespace Cell

abbrev Touches (c : Cmd) : Prop := (cell.writes c).isSome

def promises (start : J → Conv Cmd Rep α) (j : J) : List V := (start j).burst.filterMap cell.writes

/-- The values a worker has still to write: told or about to be told, not yet executed. -/
def owes (x : Worker J Cmd Rep α) : List V := x.todo.filterMap cell.writes

def queuedIn (pipe : List (Cmd × Bool)) : List V := (pipe.map Prod.fst).filterMap cell.writes

@[simp] lemma owes_idle (pipe : List (Cmd × Bool)) :
    cell.owes (⟨.idle, pipe⟩ : Worker J Cmd Rep α) = cell.queuedIn pipe := by
  simp [owes, queuedIn, Worker.todo, Phase.unsent]

@[simp] lemma owes_running (t : ℕ) (j : J) (conv : Conv Cmd Rep α)
    (pipe : List (Cmd × Bool)) : cell.owes ⟨.running t j conv, pipe⟩ =
      cell.queuedIn pipe ++ conv.burst.filterMap cell.writes := by
  simp [owes, queuedIn, Worker.todo, Phase.unsent, List.filterMap_append]

@[simp] lemma owes_waiting (t : ℕ) (j : J) (cmds : List Cmd) (got : List (Option Rep))
    (next : List (Option Rep) → Conv Cmd Rep α) (pipe : List (Cmd × Bool)) :
    cell.owes ⟨.waiting t j cmds got next, pipe⟩ = cell.queuedIn pipe := by
  simp [owes, queuedIn, Worker.todo, Phase.unsent]

lemma queuedIn_append (pipe : List (Cmd × Bool)) (cmds : List Cmd) (awaited : Bool) :
    cell.queuedIn (pipe ++ cmds.map (·, awaited)) =
      cell.queuedIn pipe ++ cmds.filterMap cell.writes := by
  simp [queuedIn, List.filterMap_append, Function.comp_def]

end Cell

variable {cell} {start : J → Conv Cmd Rep α} {p q : Pool ι J Cmd Rep α S} {pend : List V}

/-- The writes `pend` that have been taken and not executed are all with one worker. -/
def Held (cell : Cell exec V) (pend : List V) (p : Pool ι J Cmd Rep α S) : Prop :=
  (∀ w, cell.owes (p.workers w) = [] ∨
    cell.owes (p.workers w) = pend ∧ ∀ v, v ≠ w → cell.owes (p.workers v) = []) ∧
  ((∀ w, cell.owes (p.workers w) = []) → pend = [])

lemma Held.congr (h : Held cell pend p)
    (same : ∀ w, cell.owes (q.workers w) = cell.owes (p.workers w)) : Held cell pend q := by
  simpa only [Held, same] using h

lemma Held.only {w : ι} (h : Held cell pend p)
    (others : ∀ v, v ≠ w → cell.owes (p.workers v) = []) : pend = cell.owes (p.workers w) := by
  rcases h.1 w with hw | hw
  · rw [hw]
    apply h.2
    intro v
    by_cases hv : v = w
    · rw [hv, hw]
    · exact others v hv
  · exact hw.1.symm

lemma Held.of_others {w : ι} (others : ∀ v, v ≠ w → cell.owes (p.workers v) = []) :
    Held cell (cell.owes (p.workers w)) p := by
  refine ⟨fun v => ?_, fun h => h w⟩
  by_cases hv : v = w
  · subst hv
    exact .inr ⟨rfl, others⟩
  · exact .inl (others v hv)

lemma Held.others {w : ι} (h : Held cell pend p) (hw : cell.owes (p.workers w) ≠ []) :
    ∀ v, v ≠ w → cell.owes (p.workers v) = [] :=
  ((h.1 w).resolve_left hw).2

/-- A conversation writes the cell only before its first awaited reply. -/
def Phase.Early (cell : Cell exec V) : Phase J Cmd Rep α → Prop
  | .idle => True
  | .running _ _ conv => conv.EarlyOnly cell.Touches
  | .waiting _ _ cmds _ next =>
    ∀ replies : List (Option Rep), replies.length = cmds.length →
      (next replies).Quiet cell.Touches

/-- The log of issued writes splits into executed, held and queued ones, in this order. -/
structure Ordered (cell : Cell exec V) (start : J → Conv Cmd Rep α) (init : Option V)
    (p : Pool ι J Cmd Rep α S) : Prop where
  taken_le : p.taken ≤ p.issued.length
  early : ∀ w, Phase.Early cell (p.workers w).phase
  log : ∃ past pend, p.issued.flatMap (cell.promises start) =
      past ++ pend ++ (p.issued.drop p.taken).flatMap (cell.promises start) ∧
    cell.look p.store = past.getLast?.or init ∧ Held cell pend p

/-- A job is taken while no other worker still owes a write to the cell it writes. -/
def OrderlyTake (cell : Cell exec V) (start : J → Conv Cmd Rep α)
    (p : Pool ι J Cmd Rep α S) : Label ι J → Prop
  | .take w => ∀ j, p.issued[p.taken]? = some j → cell.promises start j ≠ [] →
    ∀ v, v ≠ w → cell.owes (p.workers v) = []
  | _ => True

lemma Ordered.initial (store : S) :
    Ordered cell start (cell.look store) (Pool.initial store : Pool ι J Cmd Rep α S) where
  taken_le := Nat.le_refl 0
  early w := trivial
  log := by
    refine ⟨[], [], rfl, rfl, fun w => .inl rfl, fun _ => rfl⟩

lemma drop_flatMap {f : J → List V} {js : List J} {n : ℕ} {j : J} (h : js[n]? = some j) :
    (js.drop n).flatMap f = f j ++ (js.drop (n + 1)).flatMap f := by
  obtain ⟨hn, rfl⟩ := List.getElem?_eq_some_iff.mp h
  rw [List.drop_eq_getElem_cons hn, List.flatMap_cons]

variable [DecidableEq ι]

lemma owes_set {w : ι} {x : Worker J Cmd Rep α} (h : cell.owes x = cell.owes (p.workers w))
    (v : ι) : cell.owes ((p.set w x).workers v) = cell.owes (p.workers v) :=
  forall_workers_set (P := fun v y => cell.owes y = cell.owes (p.workers v)) h (fun _ _ => rfl) v

lemma early_set {w : ι} {x : Worker J Cmd Rep α}
    (h : ∀ v, Phase.Early cell (p.workers v).phase) (hx : Phase.Early cell x.phase) :
    ∀ v, Phase.Early cell ((p.set w x).workers v).phase :=
  forall_workers_set (P := fun _ v => Phase.Early cell v.phase) hx fun v _ => h v

lemma Ordered.set {init : Option V} (h : Ordered cell start init p) {w : ι}
    {x : Worker J Cmd Rep α} (howes : cell.owes x = cell.owes (p.workers w))
    (hearly : Phase.Early cell x.phase) : Ordered cell start init (p.set w x) := by
  obtain ⟨past, pend, hlog, hlook, held⟩ := h.log
  exact ⟨h.taken_le, early_set h.early hearly,
    past, pend, hlog, hlook, held.congr fun v => owes_set howes v⟩

lemma filterMap_eq_nil_of_quiet {cmds : List Cmd} (h : ∀ c ∈ cmds, ¬ cell.Touches c) :
    cmds.filterMap cell.writes = [] := by
  rw [List.filterMap_eq_nil_iff]
  intro c hc
  simpa using h c hc

lemma Ordered.take {init : Option V} (h : Ordered cell start init p) {w : ι} {j : J}
    {pipe : List (Cmd × Bool)} (idle : p.workers w = ⟨.idle, pipe⟩)
    (next : p.issued[p.taken]? = some j) (orderly : OrderlyTake cell start p (.take w))
    (hstart : (start j).EarlyOnly cell.Touches) :
    Ordered cell start init ({ p with taken := p.taken + 1 }.set w
      ⟨.running p.taken j (start j), pipe⟩) := by
  obtain ⟨past, pend, hlog, hlook, held⟩ := h.log
  have hold : cell.owes (p.workers w) = cell.queuedIn pipe := by rw [idle, Cell.owes_idle]
  have htaken : p.taken + 1 ≤ p.issued.length := (List.getElem?_eq_some_iff.mp next).1
  rw [drop_flatMap next, ← List.append_assoc] at hlog
  let p' : Pool ι J Cmd Rep α S := { p with taken := p.taken + 1 }
  have hearly : ∀ v, Phase.Early cell (p'.workers v).phase := h.early
  refine ⟨htaken, early_set hearly hstart, past, ?_⟩
  by_cases hj : cell.promises start j = []
  · have howes : cell.owes (⟨.running p.taken j (start j), pipe⟩ : Worker J Cmd Rep α) =
        cell.owes (p'.workers w) := by
      rw [Cell.owes_running, show cell.owes (p'.workers w) = cell.queuedIn pipe from hold,
        show (start j).burst.filterMap cell.writes = [] from hj, List.append_nil]
    rw [hj, List.append_nil] at hlog
    exact ⟨pend, hlog, hlook, Held.congr (held : Held cell pend p') fun v => owes_set howes v⟩
  · have others := orderly j next hj
    have hpend : pend = cell.queuedIn pipe := (held.only others).trans hold
    refine ⟨cell.queuedIn pipe ++ cell.promises start j, ?_, hlook, ?_⟩
    · rw [← List.append_assoc, ← hpend]
      exact hlog
    · have howes : cell.owes ((p'.set w ⟨.running p.taken j (start j), pipe⟩).workers w) =
          cell.queuedIn pipe ++ cell.promises start j := by
        rw [set_workers_same, Cell.owes_running]
        rfl
      rw [← howes]
      apply Held.of_others
      intro v hv
      rw [set_workers_of_ne _ _ hv]
      exact others v hv

lemma Ordered.execute {init : Option V} (h : Ordered cell start init p) {w : ι}
    {phase phase' : Phase J Cmd Rep α} {c : Cmd} {awaited : Bool} {rest : List (Cmd × Bool)}
    (head : p.workers w = ⟨phase, (c, awaited) :: rest⟩) (hunsent : phase'.unsent = phase.unsent)
    (hearly : Phase.Early cell phase') :
    Ordered cell start init ({ p with store := (exec p.store c).1 }.set w ⟨phase', rest⟩) := by
  obtain ⟨past, pend, hlog, hlook, held⟩ := h.log
  let p' : Pool ι J Cmd Rep α S := { p with store := (exec p.store c).1 }
  have hold : cell.owes (p.workers w) =
      [c].filterMap cell.writes ++ cell.owes ⟨phase', rest⟩ := by
    rw [head]
    simp only [Cell.owes, Worker.todo, hunsent, List.map_cons, List.cons_append, ← List.filterMap_append,
      List.nil_append]
  have hearlyAll : ∀ v, Phase.Early cell (p'.workers v).phase := h.early
  refine ⟨h.taken_le, early_set hearlyAll hearly, ?_⟩
  cases hc : cell.writes c with
  | none =>
    have howes : cell.owes ⟨phase', rest⟩ = cell.owes (p'.workers w) := by
      rw [show cell.owes (p'.workers w) = _ from hold]
      simp [hc]
    refine ⟨past, pend, hlog, ?_, Held.congr (held : Held cell pend p') fun v => owes_set howes v⟩
    rw [set_store, cell.look_exec, hc, Option.none_or, hlook]
  | some v =>
    simp only [List.filterMap_cons, hc, List.filterMap_nil, List.cons_append,
      List.nil_append] at hold
    have others := held.others (w := w) (by rw [hold]; simp)
    have hpend : pend = v :: cell.owes ⟨phase', rest⟩ := (held.only others).trans hold
    refine ⟨past ++ [v], cell.owes ⟨phase', rest⟩, ?_, ?_, ?_⟩
    · rw [hpend] at hlog
      simpa using hlog
    · rw [set_store, cell.look_exec, hc]
      simp
    · have howes : cell.owes ((p'.set w ⟨phase', rest⟩).workers w) =
          cell.owes ⟨phase', rest⟩ := by rw [set_workers_same]
      rw [← howes]
      apply Held.of_others
      intro u hu
      rw [set_workers_of_ne _ _ hu]
      exact others u hu

lemma unsent_receive (phase : Phase J Cmd Rep α) (awaited : Bool) (reply : Option Rep) :
    (if awaited then phase.receive reply else phase).unsent = phase.unsent := by
  cases awaited <;> cases phase <;> rfl

lemma early_receive {phase : Phase J Cmd Rep α} (h : Phase.Early cell phase) (awaited : Bool)
    (reply : Option Rep) :
    Phase.Early cell (if awaited then phase.receive reply else phase) := by
  cases awaited <;> cases phase <;> exact h

/-- One step keeps the order when jobs are taken orderly. -/
theorem Ordered.step {init : Option V} (h : Ordered cell start init p) {l : Label ι J}
    (hl : WorkerPool.step start exec p l = some q)
    (hstart : ∀ j, (start j).EarlyOnly cell.Touches) (orderly : OrderlyTake cell start p l) :
    Ordered cell start init q := by
  cases step_cases hl with
  | enqueue j =>
    obtain ⟨past, pend, hlog, hlook, held⟩ := h.log
    have hle := h.taken_le
    refine ⟨?_, h.early, past, pend, ?_, hlook, held⟩
    · simp only [List.length_append]
      omega
    · rw [List.drop_append_of_le_length hle, List.flatMap_append, List.flatMap_append, hlog,
        List.append_assoc (past ++ pend)]
  | take w j pipe idle next => exact h.take idle next orderly (hstart j)
  | tell w t j cmds next pipe at_tell =>
    have he := h.early w
    rw [at_tell] at he
    refine h.set ?_ he
    rw [at_tell, Cell.owes_running, Cell.owes_running, Cell.queuedIn_append, Conv.burst,
      List.filterMap_append, List.append_assoc]
  | ask w t j cmds next pipe at_ask =>
    have he := h.early w
    rw [at_ask] at he
    have hquiet : cmds.filterMap cell.writes = [] := filterMap_eq_nil_of_quiet he.1
    refine h.set ?_ ?_
    · rw [at_ask, Cell.owes_waiting, Cell.owes_running, Cell.queuedIn_append, hquiet, Conv.burst,
        List.filterMap_nil]
    · intro replies hlen
      exact he.2 replies (List.forall₂_iff_zip.mpr ⟨hlen.symm, fun _ => trivial⟩)
  | exec w phase c awaited rest head =>
    have he := h.early w
    rw [head] at he
    exact h.execute head (unsent_receive ..) (early_receive he ..)
  | resume w t j cmds got next pipe all len =>
    have he := h.early w
    rw [all] at he
    have hquiet := he got len
    refine h.set ?_ hquiet.earlyOnly
    rw [all, Cell.owes_waiting, Cell.owes_running, filterMap_eq_nil_of_quiet hquiet.burst,
      List.append_nil]
  | finish w t j a pipe at_done =>
    have howes : cell.owes (⟨.idle, pipe⟩ : Worker J Cmd Rep α) = cell.owes (p.workers w) := by
      simp [at_done, Conv.burst]
    let p' : Pool ι J Cmd Rep α S := { p with results := p.results ++ [(t, j, a)] }
    have h' : Ordered cell start init p' := ⟨h.taken_le, h.early, h.log⟩
    exact h'.set howes trivial

omit [DecidableEq ι] in
lemma Ordered.prefix_value {init : Option V} (h : Ordered cell start init p) :
    ∃ past, past <+: p.issued.flatMap (cell.promises start) ∧
      cell.look p.store = past.getLast?.or init := by
  obtain ⟨past, pend, hlog, hlook, _⟩ := h.log
  exact ⟨past, ⟨pend ++ (p.issued.drop p.taken).flatMap (cell.promises start), by simp [hlog]⟩,
    hlook⟩

omit [DecidableEq ι] in
/-- When no write is queued or held any more, the cell has the value issued last. -/
theorem Ordered.last_value {init : Option V} (h : Ordered cell start init p)
    (empty : (p.issued.drop p.taken).flatMap (cell.promises start) = [])
    (idle : ∀ w, cell.owes (p.workers w) = []) :
    cell.look p.store = (p.issued.flatMap (cell.promises start)).getLast?.or init := by
  obtain ⟨past, pend, hlog, hlook, held⟩ := h.log
  rw [held.2 idle, empty] at hlog
  simpa [hlog] using hlook

end ClientPrefs.PoolOrder
