import ClientPrefs.PoolOrder

/-!
# Reads of one cell

When the jobs that write a cell and those that read it are taken in turn, every read
sees the last write that was issued before the reading job.
-/
namespace ClientPrefs.PoolReads
open Conversation PoolOrder WorkerPool

variable {ι J Cmd Rep α S V : Type}

def Phase.job? : Phase J Cmd Rep α → Option (ℕ × J)
  | .idle => none
  | .running t j _ => some (t, j)
  | .waiting t j _ _ _ => some (t, j)

variable {exec : S → Cmd → S × Rep} (cell : Cell exec V) (start : J → Conv Cmd Rep α)
  (reads : J → Prop) (p : Pool ι J Cmd Rep α S)

def Reading (w : ι) : Prop := ∃ t j, Phase.job? (p.workers w).phase = some (t, j) ∧ reads j

/-- A job that writes the cell is taken while no other worker owes a write or reads; a job that
reads it is taken while no other worker owes a write. -/
def TakenInTurn : Label ι J → Prop
  | .take w => ∀ j, p.issued[p.taken]? = some j →
    (cell.promises start j ≠ [] → ∀ v, v ≠ w →
      cell.owes (p.workers v) = [] ∧ ¬ Reading reads p v) ∧
    (reads j → ∀ v, v ≠ w → cell.owes (p.workers v) = [])
  | _ => True

/-- Since the job `t` was taken, no write was; and no other worker owes one from before. -/
structure Undisturbed (w : ι) (t : ℕ) : Prop where
  later : ∀ k j, t < k → k < p.taken → p.issued[k]? = some j → cell.promises start j = []
  others : ∀ v, v ≠ w → cell.owes (p.workers v) = []

structure Calm : Prop where
  tickets : ∀ w t j, Phase.job? (p.workers w).phase = some (t, j) →
    t < p.taken ∧ p.issued[t]? = some j
  awaited : ∀ w, ∀ x ∈ (p.workers w).pipe, x.2 = true → ¬ cell.Touches x.1
  readers : ∀ w t j, Phase.job? (p.workers w).phase = some (t, j) → reads j →
    Undisturbed cell start p w t

variable {cell start reads p} {q : Pool ι J Cmd Rep α S} {l : Label ι J} {w : ι}

lemma Calm.initial (store : S) :
    Calm cell start reads (Pool.initial store : Pool ι J Cmd Rep α S) := by
  refine ⟨fun w t j h => ?_, fun w x hx => ?_, fun w t j h => ?_⟩
  · cases h
  · cases hx
  · cases h

variable [DecidableEq ι]

theorem queue_of_step (hl : step start exec p l = some q) : p.issued <+: q.issued ∧
    (q.taken = p.taken ∨ ∃ w, l = .take w ∧ q.taken = p.taken + 1) := by
  cases step_cases hl with
  | enqueue j => exact ⟨List.prefix_append _ _, .inl rfl⟩
  | take w j pipe idle next => exact ⟨List.prefix_rfl, .inr ⟨w, rfl, rfl⟩⟩
  | _ => exact ⟨List.prefix_rfl, .inl rfl⟩

lemma getElem?_extended {xs ys : List J} (h : xs <+: ys) {k : ℕ} {j : J}
    (hj : xs[k]? = some j) : ys[k]? = some j := by
  obtain ⟨zs, rfl⟩ := h
  rw [List.getElem?_append_left (List.getElem?_eq_some_iff.mp hj).1, hj]

theorem job_of_step (hl : step start exec p l = some q) {v : ι} {t : ℕ} {j : J}
    (hj : Phase.job? (q.workers v).phase = some (t, j)) :
    Phase.job? (p.workers v).phase = some (t, j) ∨
      l = .take v ∧ t = p.taken ∧ p.issued[p.taken]? = some j ∧
        Phase.job? (p.workers v).phase = none := by
  have hset : ∀ {w : ι} {x : Worker J Cmd Rep α} {p' : Pool ι J Cmd Rep α S},
      p'.workers = p.workers → Phase.job? ((p'.set w x).workers v).phase = some (t, j) →
      (v = w ∧ Phase.job? x.phase = some (t, j)) ∨
        Phase.job? (p.workers v).phase = some (t, j) := by
    intro w x p' hsame h
    by_cases hv : v = w
    · subst hv
      rw [set_workers_same] at h
      exact .inl ⟨rfl, h⟩
    · rw [set_workers_of_ne _ _ hv, hsame] at h
      exact .inr h
  cases step_cases hl with
  | enqueue i => exact .inl hj
  | take w i pipe idle next =>
    rcases hset (by rfl) hj with ⟨rfl, h⟩ | h
    · obtain ⟨rfl, rfl⟩ : p.taken = t ∧ i = j := by simpa [Phase.job?] using h
      exact .inr ⟨rfl, rfl, next, by rw [idle]; rfl⟩
    · exact .inl h
  | tell w k i cmds next pipe at_tell =>
    rcases hset rfl hj with ⟨rfl, h⟩ | h
    · exact .inl (at_tell ▸ h)
    · exact .inl h
  | ask w k i cmds next pipe at_ask =>
    rcases hset rfl hj with ⟨rfl, h⟩ | h
    · exact .inl (at_ask ▸ h)
    · exact .inl h
  | exec w phase c awaited rest head =>
    rcases hset (by rfl) hj with ⟨rfl, h⟩ | h
    · left
      rw [head]
      cases awaited <;> cases phase <;> exact h
    · exact .inl h
  | resume w k i cmds got next pipe all len =>
    rcases hset rfl hj with ⟨rfl, h⟩ | h
    · exact .inl (all ▸ h)
    · exact .inl h
  | finish w k i a pipe at_done =>
    rcases hset (by rfl) hj with ⟨rfl, h⟩ | h
    · cases h
    · exact .inl h

theorem owes_nil_of_step (early : ∀ w, Phase.Early cell (p.workers w).phase)
    (hl : step start exec p l = some q) {v : ι} (hv : cell.owes (p.workers v) = []) :
    cell.owes (q.workers v) = [] ∨
      ∃ j, l = .take v ∧ p.issued[p.taken]? = some j ∧ cell.promises start j ≠ [] := by
  have hset : ∀ {w : ι} {x : Worker J Cmd Rep α} {p' : Pool ι J Cmd Rep α S},
      p'.workers = p.workers → (v = w → cell.owes x = []) →
      cell.owes ((p'.set w x).workers v) = [] := by
    intro w x p' hsame hx
    refine forall_workers_set (P := fun u y => v = u → cell.owes y = []) hx ?_ v rfl
    rintro u _ rfl
    exact hsame ▸ hv
  cases step_cases hl with
  | enqueue j => exact .inl hv
  | take w j pipe idle next =>
    by_cases hj : cell.promises start j = []
    · left
      apply hset (by rfl)
      rintro rfl
      rw [idle, Cell.owes_idle] at hv
      rw [Cell.owes_running, hv, List.nil_append]
      exact hj
    · by_cases heq : v = w
      · subst heq
        exact .inr ⟨j, rfl, next, hj⟩
      · exact .inl (hset (by rfl) fun h => absurd h heq)
  | tell w t j cmds next pipe at_tell =>
    left
    apply hset rfl
    rintro rfl
    rw [at_tell, Cell.owes_running, Conv.burst, List.filterMap_append] at hv
    rw [Cell.owes_running, Cell.queuedIn_append, List.append_assoc]
    exact hv
  | ask w t j cmds next pipe at_ask =>
    left
    apply hset rfl
    rintro rfl
    have he := early v
    rw [at_ask] at hv he
    rw [Cell.owes_running, Conv.burst, List.filterMap_nil, List.append_nil] at hv
    rw [Cell.owes_waiting, Cell.queuedIn_append, hv, filterMap_eq_nil_of_quiet he.1]
    rfl
  | exec w phase c awaited rest head =>
    left
    apply hset (by rfl)
    rintro rfl
    rw [head] at hv
    have htail : cell.owes (⟨phase, rest⟩ : Worker J Cmd Rep α) = [] := by
      simp only [Cell.owes, Worker.todo, List.map_cons, List.cons_append,
        List.filterMap_eq_nil_iff, List.mem_cons, forall_eq_or_imp] at hv ⊢
      exact hv.2
    simpa only [Cell.owes, Worker.todo, unsent_receive] using htail
  | resume w t j cmds got next pipe all len =>
    left
    apply hset rfl
    rintro rfl
    have he := early v
    rw [all] at hv he
    rw [Cell.owes_waiting] at hv
    rw [Cell.owes_running, hv, filterMap_eq_nil_of_quiet (he got len).burst]
    rfl
  | finish w t j a pipe at_done =>
    left
    apply hset (by rfl)
    rintro rfl
    rw [at_done, Cell.owes_running, Conv.burst, List.filterMap_nil, List.append_nil] at hv
    rw [Cell.owes_idle, hv]

theorem awaited_of_step (early : ∀ w, Phase.Early cell (p.workers w).phase)
    (hl : step start exec p l = some q)
    (h : ∀ w, ∀ x ∈ (p.workers w).pipe, x.2 = true → ¬ cell.Touches x.1) :
    ∀ w, ∀ x ∈ (q.workers w).pipe, x.2 = true → ¬ cell.Touches x.1 := by
  have hset : ∀ {w : ι} {x : Worker J Cmd Rep α} {p' : Pool ι J Cmd Rep α S},
      p'.workers = p.workers → (∀ y ∈ x.pipe, y.2 = true → ¬ cell.Touches y.1) →
      ∀ v, ∀ y ∈ ((p'.set w x).workers v).pipe, y.2 = true → ¬ cell.Touches y.1 := by
    intro w x p' hsame hx
    apply forall_workers_set (P := fun _ v => ∀ y ∈ v.pipe, y.2 = true → ¬ cell.Touches y.1) hx
    exact fun v _ => hsame ▸ h v
  cases step_cases hl with
  | enqueue j => exact h
  | take w j pipe idle next =>
    have hw := h w
    rw [idle] at hw
    exact hset (by rfl) hw
  | tell w t j cmds next pipe at_tell =>
    have hw := h w
    rw [at_tell] at hw
    apply hset rfl
    intro y hy htrue
    rcases List.mem_append.mp hy with hy | hy
    · exact hw y hy htrue
    · obtain ⟨c, _, rfl⟩ := List.mem_map.mp hy
      cases htrue
  | ask w t j cmds next pipe at_ask =>
    have hw := h w
    have he := early w
    rw [at_ask] at hw he
    apply hset rfl
    intro y hy htrue
    rcases List.mem_append.mp hy with hy | hy
    · exact hw y hy htrue
    · obtain ⟨c, hc, rfl⟩ := List.mem_map.mp hy
      exact he.1 c hc
  | exec w phase c awaited rest head =>
    have hw := h w
    rw [head] at hw
    exact hset (by rfl) fun y hy => hw y (List.mem_cons_of_mem _ hy)
  | resume w t j cmds got next pipe all len =>
    have hw := h w
    rw [all] at hw
    exact hset rfl hw
  | finish w t j a pipe at_done =>
    have hw := h w
    rw [at_done] at hw
    exact hset (by rfl) hw

theorem Calm.readers_step (h : Calm cell start reads p)
    (early : ∀ w, Phase.Early cell (p.workers w).phase) (taken_le : p.taken ≤ p.issued.length)
    (hl : step start exec p l = some q) (inTurn : TakenInTurn cell start reads p l) {t : ℕ} {j : J}
    (hj : Phase.job? (q.workers w).phase = some (t, j)) (hreads : reads j) :
    Undisturbed cell start q w t := by
  obtain ⟨hissued, htaken⟩ := queue_of_step hl
  rcases job_of_step hl hj with hold | ⟨rfl, rfl, hnext, _⟩
  · -- The reader was there before: a job taken now does not write.
    have und := h.readers w t j hold hreads
    have hquiet : ∀ v i, l = .take v → p.issued[p.taken]? = some i →
        cell.promises start i = [] := by
      rintro v i rfl hi
      by_contra hne
      have hw : w ≠ v := by
        rintro rfl
        cases step_cases hl with
        | take _ _ pipe idle next =>
          rw [idle] at hold
          cases hold
      exact ((inTurn i hi).1 hne w hw).2 ⟨t, j, hold, hreads⟩
    constructor
    · intro k i hlo hhi hi
      have hdone : ∀ i', k < p.taken → q.issued[k]? = some i' →
          cell.promises start i' = [] := by
        intro i' hk hi'
        obtain ⟨i'', hi''⟩ : ∃ i'', p.issued[k]? = some i'' :=
          ⟨_, List.getElem?_eq_getElem (Nat.lt_of_lt_of_le hk taken_le)⟩
        have hsame := getElem?_extended hissued hi''
        rw [hi'] at hsame
        exact Option.some.inj hsame ▸ und.later k i'' hlo hk hi''
      rcases htaken with hsame | ⟨v, rfl, hsucc⟩
      · exact hdone i (hsame ▸ hhi) hi
      · rcases Nat.lt_succ_iff_lt_or_eq.mp (hsucc ▸ hhi) with hk | rfl
        · exact hdone i hk hi
        · cases step_cases hl with
          | take _ _ pipe idle next => exact hquiet v i rfl hi
    · intro v hv
      rcases owes_nil_of_step early hl (und.others v hv) with hnil | ⟨i, rfl, hi, hne⟩
      · exact hnil
      · exact absurd (hquiet v i rfl hi) hne
  · -- The reader is the job taken now.
    have hothers := (inTurn j hnext).2 hreads
    constructor
    · intro k i hlo hhi _
      rcases htaken with hsame | ⟨_, _, hsucc⟩ <;> omega
    · intro v hv
      rcases owes_nil_of_step early hl (hothers v hv) with hnil | ⟨i, heq, _, _⟩
      · exact hnil
      · exact absurd (Label.take.inj heq).symm hv

theorem Calm.step (h : Calm cell start reads p)
    (early : ∀ w, Phase.Early cell (p.workers w).phase) (taken_le : p.taken ≤ p.issued.length)
    (hl : WorkerPool.step start exec p l = some q) (inTurn : TakenInTurn cell start reads p l) :
    Calm cell start reads q := by
  obtain ⟨hissued, htaken⟩ := queue_of_step hl
  refine ⟨fun w t j hj => ?_, awaited_of_step early hl h.awaited,
    fun w t j hj hreads => h.readers_step early taken_le hl inTurn hj hreads⟩
  rcases job_of_step hl hj with hold | ⟨rfl, rfl, hnext, _⟩
  · obtain ⟨hlt, hget⟩ := h.tickets w t j hold
    refine ⟨?_, getElem?_extended hissued hget⟩
    rcases htaken with hsame | ⟨_, _, hsucc⟩ <;> omega
  · refine ⟨?_, getElem?_extended hissued hnext⟩
    cases step_cases hl with
    | take _ _ pipe idle next => exact Nat.lt_succ_self _

omit [DecidableEq ι] in
/-- An awaited command of a reader finds the last write issued before the reader. -/
theorem read_value {init : Option V} (ordered : Ordered cell start init p)
    (calm : Calm cell start reads p) {sto : ℕ → Cmd → Option Rep → Prop} {C : Cmd → Prop}
    {post : ℕ → J → α → Prop} (inv : p.Inv sto C post) {t : ℕ} {j : J} {cmds : List Cmd}
    {got : List (Option Rep)} {next : List (Option Rep) → Conv Cmd Rep α} {c : Cmd}
    {rest : List (Cmd × Bool)} (head : p.workers w = ⟨.waiting t j cmds got next, (c, true) :: rest⟩)
    (hreads : reads j) (hquiet : cell.promises start j = []) :
    cell.look p.store =
      ((p.issued.take t).flatMap (cell.promises start)).getLast?.or init := by
  have hjob : Phase.job? (p.workers w).phase = some (t, j) := by rw [head]; rfl
  obtain ⟨hlt, hget⟩ := calm.tickets w t j hjob
  have und := calm.readers w t j hjob hreads
  -- What is left of the reader's pipeline is awaited, so it owes nothing either.
  have howes : cell.owes (p.workers w) = [] := by
    have hw := inv.workers w
    have hawaited := calm.awaited w
    rw [head] at hw hawaited ⊢
    obtain ⟨told, answered, left, hpipe, _⟩ := hw
    dsimp only at hpipe hawaited
    have htold : told = [] := by
      cases told with
      | nil => rfl
      | cons d told => simp at hpipe
    rw [Cell.owes_waiting, hpipe, htold]
    simp only [Cell.queuedIn, List.map_nil, List.nil_append, List.map_map]
    apply filterMap_eq_nil_of_quiet
    intro d hd
    obtain ⟨d', hd', rfl⟩ := List.mem_map.mp hd
    apply hawaited (d', true) _ rfl
    rw [hpipe, htold]
    exact List.mem_map_of_mem hd'
  have hall : ∀ v, cell.owes (p.workers v) = [] := by
    intro v
    by_cases hv : v = w
    · exact hv ▸ howes
    · exact und.others v hv
  obtain ⟨past, pend, hlog, hlook, held⟩ := ordered.log
  have hsplit : p.issued.flatMap (cell.promises start) =
      (p.issued.take p.taken).flatMap (cell.promises start) ++
        (p.issued.drop p.taken).flatMap (cell.promises start) := by
    rw [← List.flatMap_append, List.take_append_drop]
  rw [held.2 hall, List.append_nil, hsplit] at hlog
  have hpast := List.append_cancel_right hlog
  -- Between the reader and the end of the taken jobs nothing writes.
  have htaken : p.issued.take p.taken =
      p.issued.take t ++ (p.issued.take p.taken).drop t := by
    conv_lhs => rw [← List.take_append_drop t (p.issued.take p.taken)]
    rw [List.take_take, Nat.min_eq_left (Nat.le_of_lt hlt)]
  have hnone : ((p.issued.take p.taken).drop t).flatMap (cell.promises start) = [] := by
    rw [List.flatMap_eq_nil_iff]
    intro i hi
    obtain ⟨k, hk⟩ := List.getElem?_of_mem hi
    rw [List.getElem?_drop, List.getElem?_take] at hk
    split_ifs at hk with hlt'
    rcases Nat.eq_zero_or_pos k with rfl | hpos
    · rw [Nat.add_zero, hget] at hk
      exact Option.some.inj hk ▸ hquiet
    · exact und.later (t + k) i (by omega) hlt' hk
  rw [htaken, List.flatMap_append, hnone, List.append_nil] at hpast
  rw [hlook, hpast]

end ClientPrefs.PoolReads
