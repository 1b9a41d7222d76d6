import ClientPrefs.CookieManager
import ClientPrefs.Sentinels
import Mathlib.Data.Fintype.BigOperators

/-!
# The unload handshake

`SDK_OnUnload` enqueues a null query for each worker thread, waits while `worker_exit` is not 0
and deletes the queue. A worker that takes a null query decrements `worker_exit` and leaves.
-/
namespace ClientPrefs.UnloadHandshake
open CookieManager Sentinels Transition

/-- A `TQueryOp` in the queue; the number tells two queries apart that look the same. -/
abbrev Op := Query × ℕ

def opsOf (queries : List Query) : List Op := queries.zipIdx

/-- What the main thread enqueues: the queries, then `worker` sentinels. -/
def unloading (worker : ℕ) (queries : List Query) : List (Option Op) :=
  (opsOf queries).map some ++ List.replicate worker none

/-- What the sentinels are for. -/
structure Drains {worker : ℕ} (queries : List Query)
    (trace : List (Crew (Fin worker) Op × Label (Fin worker) Op)) (s : Crew (Fin worker) Op) :
    Prop where
  /-- A worker takes at most one sentinel, and nothing after it. -/
  sentinel : ∀ w before after, ofWorker w (took trace) = before ++ none :: after →
    none ∉ before ∧ after = []
  queue : (∀ w, s.workers w = .left) → s.queue = []
  once : (∀ w, s.workers w = .left) → ∀ op ∈ opsOf queries,
    ∃ w, (ran trace).filter (·.2 = op) = [(w, op)]
  results : (∀ w, s.workers w = .left) → s.results.Perm (opsOf queries)

/-- Where the main thread is; it enqueues queries until `SDK_OnUnload` is called. -/
inductive Main
  | loaded
  /-- In the loop that enqueues the sentinels. -/
  | pushing (i : ℕ)
  /-- At `_InterlockedCompareExchange(&worker_exit, 0, 0)`. -/
  | waiting
  /-- At `delete tqq`. -/
  | deleting
  | deleted
  deriving DecidableEq, Repr

structure State (worker : ℕ) where
  crew : Crew (Fin worker) Op
  workerExit : ℤ
  main : Main

inductive Move (worker : ℕ)
  | enqueue (op : Op)
  | unload
  | push
  | check
  | delete
  | work (l : Label (Fin worker) Op)

def pushLoop (worker i : ℕ) : Main := if i < worker then .pushing i else .waiting

/-- The steps of a worker that use `tqq`. -/
def UsesQueue {ι J : Type} : Label ι J → Bool
  | .take _ => true
  | .finish _ => true
  | _ => false

def IsEnqueue {ι J : Type} : Label ι J → Bool
  | .enqueue _ => true
  | _ => false

def exitAfter {ι J : Type} (exit : ℤ) : Label ι J → ℤ
  | .leave _ => exit - 1
  | _ => exit

variable {worker : ℕ}

def State.addToThreadQueue (s : State worker) (op : Option Op) : State worker :=
  { s with crew := { s.crew with queue := s.crew.queue ++ [op] } }

/-- One step of a thread. What a worker does with a deleted queue is left open: it does not go
on. -/
def step (s : State worker) : Move worker → Option (State worker)
  | .enqueue op =>
    match s.main with
    | .loaded => some (s.addToThreadQueue (some op))
    | _ => none
  | .unload =>
    match s.main with
    | .loaded => some { s with main := pushLoop worker 0 }
    | _ => none
  | .push =>
    match s.main with
    | .pushing i => some { s.addToThreadQueue none with main := pushLoop worker (i + 1) }
    | _ => none
  | .check =>
    match s.main with
    | .waiting => some { s with main := if s.workerExit = 0 then .deleting else .waiting }
    | _ => none
  | .delete =>
    match s.main with
    | .deleting => some { s with main := .deleted }
    | _ => none
  | .work l =>
    if IsEnqueue l || (decide (s.main = .deleted) && UsesQueue l) then none
    else (Sentinels.step s.crew l).map fun crew =>
      { s with crew := crew, workerExit := exitAfter s.workerExit l }

abbrev Step (s : State worker) (m : Move worker) (t : State worker) : Prop := step s m = some t

/-- The extension as it is loaded; some of its workers may have connected already. -/
def start (inLoop : Fin worker → Bool) : State worker := ⟨fresh inLoop, 0, .loaded⟩

def AllLeft (s : State worker) : Prop := ∀ w, s.crew.workers w = .left

def Main.reached : Main → Bool
  | .deleting | .deleted => true
  | _ => false

/-- The deletion is reached only after all workers have left, and when all have left, the loop
that waits for them can exit. -/
structure Handshake (s : State worker) : Prop where
  deletes : s.main.reached = true → AllLeft s
  free : s.main = .waiting → AllLeft s → s.workerExit = 0

/-- Where the workers are at a step: when the loop condition reads `worker_exit`, some worker has
left its loop already, and a worker that leaves leaves another one behind. -/
def Staggered (s : State worker) : Move worker → Prop
  | .check => ∃ w, s.crew.workers w = .left
  | .work (.leave w) => ∃ v, v ≠ w ∧ s.crew.workers v ≠ .left
  | _ => True

instance (s : State worker) : ∀ m, Decidable (Staggered s m)
  | .check => inferInstanceAs (Decidable (∃ w, s.crew.workers w = .left))
  | .work (.leave w) => inferInstanceAs (Decidable (∃ v, v ≠ w ∧ s.crew.workers v ≠ .left))
  | .enqueue _ | .unload | .push | .delete => isTrue trivial
  | .work (.enqueue _) | .work (.enter _) | .work (.take _) | .work (.finish _) => isTrue trivial

inductive Steps (s : State worker) : Move worker → State worker → Prop
  | enqueue (op : Op) (loaded : s.main = .loaded) :
      Steps s (.enqueue op) (s.addToThreadQueue (some op))
  | unload (loaded : s.main = .loaded) : Steps s .unload { s with main := pushLoop worker 0 }
  | push (i : ℕ) (pushing : s.main = .pushing i) :
      Steps s .push { s.addToThreadQueue none with main := pushLoop worker (i + 1) }
  | check (waiting : s.main = .waiting) :
      Steps s .check { s with main := if s.workerExit = 0 then .deleting else .waiting }
  | delete (deleting : s.main = .deleting) : Steps s .delete { s with main := .deleted }
  | work (l : Label (Fin worker) Op) (crew : Crew (Fin worker) Op) (works : l.Works)
      (live : s.main = .deleted → UsesQueue l = false)
      (hl : Sentinels.step s.crew l = some crew) :
      Steps s (.work l) { s with crew := crew, workerExit := exitAfter s.workerExit l }

lemma opsOf_nodup (queries : List Query) : (opsOf queries).Nodup := by
  apply List.Nodup.of_map Prod.snd
  rw [opsOf, List.zipIdx_map_snd]
  exact List.nodup_range'

lemma filter_of_perm {ι J : Type*} [DecidableEq J] {l : List (ι × J)} {jobs : List J} {j : J}
    (perm : (l.map Prod.snd).Perm jobs) (nodup : jobs.Nodup) (mem : j ∈ jobs) :
    ∃ w, l.filter (·.2 = j) = [(w, j)] := by
  have count : (l.map Prod.snd).count j = 1 := by
    rw [perm.count_eq]
    exact List.count_eq_one_of_mem nodup mem
  have len : (l.filter (·.2 = j)).length = 1 := by
    rw [← count, List.count_eq_countP, List.countP_map, List.countP_eq_length_filter]
    rfl
  obtain ⟨x, hx⟩ := List.length_eq_one_iff.mp len
  have hmem : x ∈ l.filter (·.2 = j) := by simp [hx]
  obtain ⟨w, i⟩ := x
  obtain rfl : i = j := by simpa using (List.mem_filter.mp hmem).2
  exact ⟨w, hx⟩

/-- The number of workers is not 0: then, whatever the order of the workers' steps, the
sentinels see to it that every query is run, by one worker, before all workers have left. -/
theorem sentinels_drain {inLoop : Fin worker → Bool} {queries : List Query}
    {trace : List (Crew (Fin worker) Op × Label (Fin worker) Op)} {s : Crew (Fin worker) Op}
    (some_worker : 0 < worker) (run : Run Sentinels.Step (fresh inLoop) trace s)
    (sent : enqueued trace <+: unloading worker queries) : Drains queries trace s := by
  have accounts := accounts_of_run run
  obtain ⟨rest, hrest⟩ := sent
  have card : 0 < Fintype.card (Fin worker) := by rwa [Fintype.card_fin]
  have hsent : enqueued trace ++ rest =
      (opsOf queries).map some ++ List.replicate (Fintype.card (Fin worker)) none := by
    rw [hrest, Fintype.card_fin, unloading]
  constructor
  · intro w before after split
    have := accounts.one_sentinel w split
    exact ⟨this.1, this.2.1⟩
  · exact fun left => (accounts.drained hsent card left).1
  · intro left op hop
    obtain ⟨_, _, perm, _⟩ := accounts.drained hsent card left
    exact filter_of_perm perm (opsOf_nodup queries) hop
  · exact fun left => (accounts.drained hsent card left).2.2.2

/-- One of two workers runs the query, and both leave. -/
theorem sentinels_drain_two : ∃ (trace : List (Crew (Fin 2) Op × Label (Fin 2) Op))
    (s : Crew (Fin 2) Op), (∀ w, s.workers w = .left) ∧ Drains [.selectData 7 []] trace s := by
  let op : Op := (.selectData 7 [], 0)
  let labels : List (Label (Fin 2) Op) := [.enqueue (some op), .enqueue none, .take 0, .enqueue none,
    .take 1, .leave 1, .finish 0, .take 0, .leave 0]
  let s := (advance Sentinels.step (fresh fun _ => true) labels).get rfl
  have run : Run Sentinels.Step (fresh fun _ => true) (advanceTrace Sentinels.step _ labels) s :=
    advance_run (Option.some_get _).symm
  exact ⟨_, s, by decide, sentinels_drain two_pos run ⟨[], rfl⟩⟩

/-- Without a worker a query stays in the queue. -/
theorem no_worker_no_drain : ¬ ∀ (worker : ℕ) (inLoop : Fin worker → Bool) (queries : List Query)
    (trace : List (Crew (Fin worker) Op × Label (Fin worker) Op)) (s : Crew (Fin worker) Op),
    Run Sentinels.Step (fresh inLoop) trace s → enqueued trace <+: unloading worker queries →
    Drains queries trace s := by
  intro h
  let op : Op := (Query.selectData 7 [], 0)
  let s : Crew (Fin 0) Op := (Sentinels.step (fresh fun _ => true) (.enqueue (some op))).get rfl
  have run : Run Sentinels.Step (fresh fun _ => true) [(_, .enqueue (some op))] s :=
    Run.one (Option.some_get _).symm
  have queue : s.queue = [] :=
    (h 0 (fun _ => true) [.selectData 7 []] _ s run ⟨[], rfl⟩).queue fun w => w.elim0
  cases queue

variable {s t : State worker} {m : Move worker} {inLoop : Fin worker → Bool}
  {trace : List (State worker × Move worker)}

theorem step_cases (h : step s m = some t) : Steps s m t := by
  cases m with
  | enqueue op =>
    simp only [step] at h
    split at h
    · next loaded =>
      obtain rfl := Option.some.inj h
      exact .enqueue op loaded
    · cases h
  | unload =>
    simp only [step] at h
    split at h
    · next loaded =>
      obtain rfl := Option.some.inj h
      exact .unload loaded
    · cases h
  | push =>
    simp only [step] at h
    split at h
    · next i pushing =>
      obtain rfl := Option.some.inj h
      exact .push i pushing
    · cases h
  | check =>
    simp only [step] at h
    split at h
    · next waiting =>
      obtain rfl := Option.some.inj h
      exact .check waiting
    · cases h
  | delete =>
    simp only [step] at h
    split at h
    · next deleting =>
      obtain rfl := Option.some.inj h
      exact .delete deleting
    · cases h
  | work l =>
    simp only [step] at h
    split_ifs at h with blocked
    obtain ⟨crew, hcrew, rfl⟩ := Option.map_eq_some_iff.mp h
    refine .work l crew ?_ (fun deleted => ?_) hcrew
    · cases l with
      | enqueue x => simp [IsEnqueue] at blocked
      | _ => trivial
    · cases huse : UsesQueue l with
      | false => rfl
      | true => simp [huse, deleted] at blocked

def Main.pushed (worker : ℕ) : Main → ℕ
  | .loaded => 0
  | .pushing i => i
  | _ => worker

lemma pushed_pushLoop {i : ℕ} (h : i ≤ worker) : (pushLoop worker i).pushed worker = i := by
  unfold pushLoop
  split_ifs with hlt
  · rfl
  · exact le_antisymm (not_lt.mp hlt) h

lemma lt_of_pushLoop {i j : ℕ} (h : pushLoop worker i = .pushing j) : j < worker := by
  unfold pushLoop at h
  split_ifs at h with hlt
  cases h
  exact hlt

/-- `worker_exit` counts down from 0, and sentinels are neither lost nor made up. -/
structure Counts (s : State worker) : Prop where
  exit : s.workerExit = -departed s.crew
  sentinels : sentinels s.crew = s.main.pushed worker
  pushing : ∀ i, s.main = .pushing i → i < worker

lemma Counts.start (inLoop : Fin worker → Bool) : Counts (start inLoop) where
  exit := by
    have none : ∀ w, (((fresh inLoop : Crew (Fin worker) Op).workers w).gone) = 0 := by
      intro w
      simp only [fresh]
      split_ifs <;> rfl
    simp [UnloadHandshake.start, departed, none]
  sentinels := by
    have none : ∀ w, (((fresh inLoop : Crew (Fin worker) Op).workers w).sentinels) = 0 := by
      intro w
      simp only [fresh]
      split_ifs <;> rfl
    simp only [UnloadHandshake.start, Sentinels.sentinels, none, Finset.sum_const_zero]
    rfl
  pushing i h := by cases h

lemma departed_work {l : Label (Fin worker) Op} {crew crew' : Crew (Fin worker) Op} {exit : ℤ}
    (h : exit = -departed crew) (hl : Sentinels.step crew l = some crew') :
    exitAfter exit l = -departed crew' := by
  cases l with
  | leave w =>
    rw [departed_leave hl]
    simp only [exitAfter]
    omega
  | _ =>
    rw [departed_stay (by simp) hl]
    exact h

theorem Counts.step (h : Counts s) (hm : step s m = some t) : Counts t := by
  obtain ⟨exit, hsent, pushing⟩ := h
  cases step_cases hm with
  | enqueue op loaded =>
    refine ⟨exit, Eq.trans ?_ hsent, pushing⟩
    simp [State.addToThreadQueue, Sentinels.sentinels]
  | unload loaded =>
    refine ⟨exit, ?_, fun i hi => lt_of_pushLoop hi⟩
    rw [pushed_pushLoop (Nat.zero_le _), hsent, loaded]
    rfl
  | push i hi =>
    refine ⟨exit, ?_, fun j hj => lt_of_pushLoop hj⟩
    rw [pushed_pushLoop (pushing i hi)]
    rw [hi] at hsent
    have more : Sentinels.sentinels (s.addToThreadQueue none).crew =
        Sentinels.sentinels s.crew + 1 := by
      simp [State.addToThreadQueue, Sentinels.sentinels, add_assoc]
    rw [more, hsent]
    rfl
  | check waiting =>
    refine ⟨exit, ?_, ?_⟩
    · rw [hsent, waiting]
      dsimp only
      split_ifs <;> rfl
    · intro i hi
      dsimp only at hi
      split_ifs at hi
  | delete deleting =>
    refine ⟨exit, ?_, fun i hi => by cases hi⟩
    rw [hsent, deleting]
    rfl
  | work l crew works _ hl =>
    exact ⟨departed_work exit hl, (sentinels_step works hl).trans hsent, pushing⟩

lemma Counts.allLeft (h : Counts s) : AllLeft s ↔ s.workerExit = -worker := by
  unfold AllLeft
  rw [← departed_eq_card_iff, Fintype.card_fin, h.exit]
  omega

/-- All workers have left only when the main thread has enqueued all sentinels. -/
theorem Counts.late (h : Counts s) (some_worker : 0 < worker) (left : AllLeft s) :
    s.main = .waiting ∨ s.main = .deleting ∨ s.main = .deleted := by
  have all : worker ≤ s.main.pushed worker := by
    rw [← h.sentinels]
    have := departed_le (s := s.crew)
    rw [departed_eq_card_iff.mpr left, Fintype.card_fin] at this
    unfold Sentinels.sentinels
    omega
  cases hmain : s.main with
  | loaded =>
    rw [hmain] at all
    exact absurd all (by simpa [Main.pushed] using some_worker.ne')
  | pushing i =>
    rw [hmain] at all
    exact absurd (h.pushing i hmain) (by simpa [Main.pushed] using all)
  | waiting => simp
  | deleting => simp
  | deleted => simp

lemma counts_of_visited (run : Run Step (start inLoop) trace s) (ht : t ∈ visited trace s) :
    Counts t := by
  have preserved : ∀ (a : State worker) (m : Move worker) (b : State worker), Counts a → True →
      Step a m b → Counts b := fun _ _ _ counts _ step => counts.step step
  exact run.invariant_visited (.start inLoop) preserved (fun _ _ => trivial) ht

lemma waits_on (waiting : s.main = .waiting) (negative : s.workerExit < 0)
    (hm : step s m = some t) : t.main = .waiting ∧ t.workerExit < 0 := by
  cases step_cases hm with
  | enqueue op loaded => simp [loaded] at waiting
  | unload loaded => simp [loaded] at waiting
  | push i pushing => simp [pushing] at waiting
  | check _ => exact ⟨by simp [negative.ne], negative⟩
  | delete deleting => simp [deleting] at waiting
  | work l crew works _ hl =>
    refine ⟨waiting, ?_⟩
    have le : exitAfter s.workerExit l ≤ s.workerExit := by cases l <;> simp [exitAfter]
    exact le.trans_lt negative

theorem stuck_of_run (waiting : s.main = .waiting) (negative : s.workerExit < 0)
    (run : Run Step s trace t) : t.main = .waiting := by
  have preserved : ∀ (a : State worker) (m : Move worker) (b : State worker),
      (a.main = .waiting ∧ a.workerExit < 0) → Step a m b →
      (b.main = .waiting ∧ b.workerExit < 0) := fun _ _ _ h step => waits_on h.1 h.2 step
  exact (run.stable ⟨waiting, negative⟩ preserved).1

lemma Counts.exit_zero (h : Counts s) : s.workerExit = 0 ↔ ∀ w, s.crew.workers w ≠ .left := by
  rw [h.exit, ← departed_eq_zero_iff]
  omega

/-- The main thread is in front of the deletion, and some worker is there. -/
structure Pending (s : State worker) : Prop where
  before : s.main.reached = false
  behind : ∃ w, s.crew.workers w ≠ .left

lemma Pending.handshake (h : Pending s) : Handshake s := by
  obtain ⟨w, hw⟩ := h.behind
  refine ⟨fun reached => ?_, fun _ left => absurd (left w) hw⟩
  rw [h.before] at reached
  cases reached

lemma reached_pushLoop (i : ℕ) : (pushLoop worker i).reached = false := by
  unfold pushLoop
  split_ifs <;> rfl

theorem behind_of_step {l : Label (Fin worker) Op} {crew crew' : Crew (Fin worker) Op}
    (hl : Sentinels.step crew l = some crew') {v : Fin worker} (stays : l ≠ .leave v)
    (there : crew.workers v ≠ .left) : crew'.workers v ≠ .left := by
  have at_others : ∀ (w : Fin worker) (phase : Phase Op) (c : Crew (Fin worker) Op),
      c.workers = crew.workers → (v = w → phase ≠ .left) → (c.set w phase).workers v ≠ .left := by
    intro w phase c same hphase
    by_cases hv : v = w
    · subst hv
      simpa [Crew.set] using hphase rfl
    · simpa [Crew.set, hv, same] using there
  cases Sentinels.step_cases hl with
  | enqueue x => exact there
  | enter w starting => exact at_others w _ crew rfl fun _ => by simp
  | take w x queue free head =>
    exact at_others w _ { crew with queue := queue } rfl fun _ => by cases x <;> simp [Phase.taking]
  | finish w j running =>
    exact at_others w _ { crew with results := crew.results ++ [j] } rfl fun _ => by simp
  | leave w leaving =>
    refine at_others w _ crew rfl fun hv => ?_
    subst hv
    exact absurd rfl stays

theorem Pending.step (counts : Counts s) (h : Pending s) (staggered : Staggered s m)
    (hm : step s m = some t) : Pending t := by
  obtain ⟨before, behind⟩ := h
  cases step_cases hm with
  | enqueue op loaded => exact ⟨before, behind⟩
  | unload loaded => exact ⟨reached_pushLoop 0, behind⟩
  | push i pushing => exact ⟨reached_pushLoop (i + 1), behind⟩
  | check waiting =>
    have not_zero : s.workerExit ≠ 0 := by
      obtain ⟨w, hw⟩ := staggered
      intro zero
      exact counts.exit_zero.mp zero w hw
    rw [if_neg not_zero]
    exact ⟨rfl, behind⟩
  | delete deleting =>
    rw [deleting] at before
    cases before
  | work l crew works _ hl =>
    refine ⟨before, ?_⟩
    by_cases leaves : ∃ w, l = .leave w
    · obtain ⟨w, rfl⟩ := leaves
      obtain ⟨v, other, there⟩ := staggered
      exact ⟨v, behind_of_step hl (by simpa using other.symm) there⟩
    · obtain ⟨v, there⟩ := behind
      exact ⟨v, behind_of_step hl (fun same => leaves ⟨v, same⟩) there⟩

lemma pending_of_visited (some_worker : 0 < worker) (run : Run Step (start inLoop) trace s)
    (staggered : ∀ x ∈ trace, Staggered x.1 x.2) (ht : t ∈ visited trace s) : Pending t := by
  have preserved : ∀ (a : State worker) (m : Move worker) (b : State worker),
      (Counts a ∧ Pending a) → Staggered a m → Step a m b → (Counts b ∧ Pending b) :=
    fun _ _ _ both staggered step => ⟨both.1.step step, both.2.step both.1 staggered step⟩
  have first : Pending (start inLoop) := by
    refine ⟨rfl, ⟨0, some_worker⟩, ?_⟩
    simp only [UnloadHandshake.start, fresh]
    split_ifs <;> simp
  exact (run.invariant_visited ⟨.start inLoop, first⟩ preserved staggered ht).2

lemma staggered_of_handshake (some_worker : 0 < worker) (counts : Counts s) (now : Handshake s)
    (later : Handshake t) (hm : step s m = some t) : Staggered s m := by
  have counts' := counts.step hm
  cases step_cases hm with
  | check waiting =>
    by_contra none
    have nobody : ∀ w, s.crew.workers w ≠ .left := fun w hw => none ⟨w, hw⟩
    have zero := counts.exit_zero.mpr nobody
    have left := later.deletes (by rw [if_pos zero]; rfl)
    exact nobody ⟨0, some_worker⟩ (left ⟨0, some_worker⟩)
  | work l crew works _ hl =>
    cases l with
    | leave w =>
      by_contra alone
      have others : ∀ v, v ≠ w → s.crew.workers v = .left := by
        intro v hv
        by_contra there
        exact alone ⟨v, hv, there⟩
      have leaving : s.crew.workers w = .leaving := by
        cases Sentinels.step_cases hl with
        | leave _ leaving => exact leaving
      obtain rfl : crew = s.crew.set w .left := by
        cases Sentinels.step_cases hl with
        | leave _ _ => rfl
      have left : ∀ v, (s.crew.set w .left).workers v = .left := by
        intro v
        by_cases hv : v = w
        · simp [Crew.set, hv]
        · simpa [Crew.set, hv] using others v hv
      have all : exitAfter s.workerExit (Label.leave w : Label (Fin worker) Op) = -worker :=
        counts'.allLeft.mp left
      have here : s.main.reached = false := by
        by_contra reached
        have gone := now.deletes (by simpa using reached) w
        rw [leaving] at gone
        cases gone
      rcases counts'.late some_worker left with hmain | hmain | hmain
      · have zero := later.free hmain left
        dsimp only at zero
        omega
      · rw [show s.main = .deleting from hmain] at here
        cases here
      · rw [show s.main = .deleted from hmain] at here
        cases here
    | _ => trivial
  | _ => trivial

/-- With at least one worker, the handshake holds throughout a run exactly when at all its steps
the workers are where `Staggered` says. -/
theorem handshake_iff (some_worker : 0 < worker) (run : Run Step (start inLoop) trace s) :
    (∀ t ∈ visited trace s, Handshake t) ↔ ∀ x ∈ trace, Staggered x.1 x.2 := by
  constructor
  · intro all ⟨t, m⟩ hx
    obtain ⟨u, hu, step⟩ := run.next_visited hx
    have ht : t ∈ visited trace s := visited_of_mem hx
    exact staggered_of_handshake some_worker (counts_of_visited run ht) (all t ht) (all u hu) step
  · intro staggered t ht
    exact (pending_of_visited some_worker run staggered ht).handshake

/-- The first of two workers leaves before the loop condition is read. -/
def oneBehind : List (Move 2) :=
  [.unload, .push, .push, .work (.take 0), .work (.leave 0), .check, .work (.take 1), .check]

theorem handshake_one_behind : ∃ trace s, Run Step (start fun _ : Fin 2 => true) trace s ∧
    s.crew.workers 0 = .left ∧ ∀ t ∈ visited trace s, Handshake t := by
  have run := advance_run (Option.some_get
    (rfl : (advance step (start fun _ => true) oneBehind).isSome = true)).symm
  exact ⟨_, _, run, by decide, (handshake_iff two_pos run).mpr (by decide)⟩

def soleWorker : Fin 1 := 0

def unloadWith (moves : List (Move 1)) : Option (State 1) :=
  advance step (start fun _ => true) moves

/-- The only worker waits for a query: `worker_exit` is still 0, and the deletion is reached. -/
theorem deleted_under_worker : ¬ ∀ (worker : ℕ) (inLoop : Fin worker → Bool)
    (trace : List (State worker × Move worker)) (s : State worker), 0 < worker →
    Run Step (start inLoop) trace s → ∀ t ∈ visited trace s, Handshake t := by
  intro h
  let moves : List (Move 1) := [.unload, .push, .check]
  have run := advance_run (Option.some_get (rfl : (unloadWith moves).isSome = true)).symm
  have last := h 1 _ _ _ one_pos run _ (List.mem_append_right _ (List.mem_singleton_self _))
  have left : ∀ w, ((unloadWith moves).get rfl).crew.workers w = .left := last.deletes rfl
  exact absurd (left 0) (by decide)

end ClientPrefs.UnloadHandshake
