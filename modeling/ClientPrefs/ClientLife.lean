import ClientPrefs.Transition
import Mathlib.Data.Nat.Notation

/-!
# The life of a client

One `client` object from its construction on, with the thread that owns it, which calls
`Connect`, `Disconnect` and the destructor, and the worker threads that `Connect` starts. What
they share is `stopped`, `ctx` and the error flag of the context; a worker sets the flag while
it uses the context and then stops by itself.
-/
namespace ClientPrefs.ClientLife
open Transition

/-- A `redisContext *`, numbered as they are allocated. -/
abbrev ContextRef := ℕ

inductive Worker
  /-- At `while (!stopped)`. -/
  | loop
  /-- At `!ctx || ctx->err`. -/
  | checking
  /-- At `stopped = true`. -/
  | stopping
  /-- In the rest of its turn, where it uses the context. -/
  | serving
  | exited
  deriving DecidableEq, Repr

inductive Call
  | connect
  | disconnect
  | destroy
  deriving DecidableEq, Repr

inductive Caller
  | ready
  /-- In the `IsConnected` of `Connect`: at `ctx && ctx->err == 0`; and at `!stopped`. -/
  | readingErr
  | readingStopped
  /-- In the `Disconnect` of a call: at `stopped = true`, at the join, at `redisFree`. -/
  | disconnecting (call : Call)
  | joining (call : Call)
  | freeing (call : Call)
  /-- At `redisConnect`; at the test of its result; at `worker = std::thread(..)`. -/
  | opening
  | testing
  | launching
  | destroyed
  deriving DecidableEq, Repr

/-- What `redisConnect` returns. -/
inductive Opened
  | null
  | failed
  | connected
  deriving DecidableEq, Repr

structure State where
  ctx : Option ContextRef
  /-- The contexts whose `err` is set; those allocated and not freed; the number of all. -/
  failed : List ContextRef
  live : List ContextRef
  allocated : ℕ
  stopped : Bool
  /-- Every thread started so far, and the one that `worker` is joinable with. -/
  threads : List Worker
  worker : Option ℕ
  caller : Caller
  /-- No connection was opened since the latest `Disconnect`. -/
  disconnected : Bool
  /-- `std::terminate` was called. -/
  terminated : Bool
  deriving DecidableEq, Repr

def new : State where
  ctx := none
  failed := []
  live := []
  allocated := 0
  stopped := true
  threads := []
  worker := none
  caller := .ready
  disconnected := false
  terminated := false

inductive Event
  /-- The owner calls, and makes the steps of its call. -/
  | call (c : Call)
  | readErr
  | readStopped
  | setStopped
  | join
  | free
  | redisConnect (r : Opened)
  | testCtx
  | launch
  /-- Worker thread `i` makes a step. -/
  | check (i : ℕ)
  | testErr (i : ℕ)
  | stop (i : ℕ)
  | useCtx (i : ℕ) (ok : Bool)
  | finish (i : ℕ)
  deriving DecidableEq, Repr

/-- `ctx && ctx->err == 0` -/
def State.good (s : State) : Bool := s.ctx.any fun c => decide (c ∉ s.failed)

def State.setWorker (s : State) (i : ℕ) (w : Worker) : State :=
  { s with threads := s.threads.set i w }

/-- `redisFree(ctx); ctx = nullptr`, if there is a context. -/
def State.freeCtx (s : State) : State :=
  { s with live := s.live.filter fun c => s.ctx ≠ some c, ctx := none }

/-- `ctx = redisConnect(..)` -/
def State.openCtx (s : State) : Opened → State
  | .null => { s with ctx := none }
  | .failed => { s with
      ctx := some s.allocated
      live := s.live ++ [s.allocated]
      failed := s.failed ++ [s.allocated]
      allocated := s.allocated + 1 }
  | .connected => { s with
      ctx := some s.allocated
      live := s.live ++ [s.allocated]
      allocated := s.allocated + 1 }

/-- Where a call goes on after its `Disconnect`. -/
def Call.next : Call → Caller
  | .connect => .opening
  | .disconnect => .ready
  | .destroy => .destroyed

def Call.first : Call → Caller
  | .connect => .readingErr
  | .disconnect => .disconnecting .disconnect
  | .destroy => .disconnecting .destroy

def ownerStep (s : State) : Event → Option State
  | .call c =>
    match s.caller with
    | .ready => some { s with caller := c.first }
    | _ => none
  | .readErr =>
    match s.caller with
    | .readingErr => some { s with caller := if s.good then .readingStopped else .opening }
    | _ => none
  | .readStopped =>
    match s.caller with
    | .readingStopped => some { s with
        caller := if s.stopped then .opening else .disconnecting .connect }
    | _ => none
  | .setStopped =>
    match s.caller with
    | .disconnecting c => some { s with stopped := true, caller := .joining c }
    | _ => none
  | .join =>
    match s.caller, s.worker with
    | .joining c, none => some { s with caller := .freeing c }
    | .joining c, some i =>
      if s.threads[i]? = some .exited then some { s with worker := none, caller := .freeing c }
      else none
    | _, _ => none
  | .free =>
    match s.caller with
    | .freeing c => some { s.freeCtx with caller := c.next, disconnected := true }
    | _ => none
  | .redisConnect r =>
    match s.caller with
    | .opening => some { s.openCtx r with caller := .testing, disconnected := false }
    | _ => none
  | .testCtx =>
    match s.caller with
    | .testing => some (if s.good then { s with stopped := false, caller := .launching }
        else { s.freeCtx with caller := .ready })
    | _ => none
  | .launch =>
    match s.caller, s.worker with
    | .launching, none => some { s with
        threads := s.threads ++ [.loop], worker := some s.threads.length, caller := .ready }
    | .launching, some _ => some { s with terminated := true }
    | _, _ => none
  | _ => none

/-- A step of worker thread `i`; a worker that goes on with a null `ctx` is not defined. -/
def workerStep (s : State) : Event → Option State
  | .check i =>
    match s.threads[i]? with
    | some .loop => some (s.setWorker i (if s.stopped then .exited else .checking))
    | _ => none
  | .testErr i =>
    match s.threads[i]? with
    | some .checking => some (s.setWorker i (if s.good then .serving else .stopping))
    | _ => none
  | .stop i =>
    match s.threads[i]? with
    | some .stopping => some { s.setWorker i .exited with stopped := true }
    | _ => none
  | .useCtx i ok =>
    match s.threads[i]?, s.ctx with
    | some .serving, some c => some { s with failed := if ok then s.failed else s.failed ++ [c] }
    | _, _ => none
  | .finish i =>
    match s.threads[i]? with
    | some .serving => some (s.setWorker i .loop)
    | _ => none
  | _ => none

def step (s : State) (e : Event) : Option State :=
  if s.terminated then none else (ownerStep s e).orElse fun _ => workerStep s e

abbrev Step (s : State) (e : Event) (t : State) : Prop := step s e = some t

inductive Steps (s : State) : Event → State → Prop
  | call (c : Call) (ready : s.caller = .ready) : Steps s (.call c) { s with caller := c.first }
  | readErr (reading : s.caller = .readingErr) :
      Steps s .readErr { s with caller := if s.good then .readingStopped else .opening }
  | readStopped (reading : s.caller = .readingStopped) :
      Steps s .readStopped { s with
        caller := if s.stopped then .opening else .disconnecting .connect }
  | setStopped (c : Call) (disconnecting : s.caller = .disconnecting c) :
      Steps s .setStopped { s with stopped := true, caller := .joining c }
  | notJoinable (c : Call) (joining : s.caller = .joining c) (none : s.worker = none) :
      Steps s .join { s with caller := .freeing c }
  | join (c : Call) (i : ℕ) (joining : s.caller = .joining c) (worker : s.worker = some i)
      (exited : s.threads[i]? = some .exited) :
      Steps s .join { s with worker := none, caller := .freeing c }
  | free (c : Call) (freeing : s.caller = .freeing c) :
      Steps s .free { s.freeCtx with caller := c.next, disconnected := true }
  | redisConnect (r : Opened) (opening : s.caller = .opening) :
      Steps s (.redisConnect r) { s.openCtx r with caller := .testing, disconnected := false }
  | connected (testing : s.caller = .testing) (good : s.good = true) :
      Steps s .testCtx { s with stopped := false, caller := .launching }
  | notConnected (testing : s.caller = .testing) (bad : s.good = false) :
      Steps s .testCtx { s.freeCtx with caller := .ready }
  | launch (launching : s.caller = .launching) (none : s.worker = none) :
      Steps s .launch { s with
        threads := s.threads ++ [.loop], worker := some s.threads.length, caller := .ready }
  | terminate (i : ℕ) (launching : s.caller = .launching) (worker : s.worker = some i) :
      Steps s .launch { s with terminated := true }
  | check (i : ℕ) (loop : s.threads[i]? = some .loop) :
      Steps s (.check i) (s.setWorker i (if s.stopped then .exited else .checking))
  | testErr (i : ℕ) (checking : s.threads[i]? = some .checking) :
      Steps s (.testErr i) (s.setWorker i (if s.good then .serving else .stopping))
  | stop (i : ℕ) (stopping : s.threads[i]? = some .stopping) :
      Steps s (.stop i) { s.setWorker i .exited with stopped := true }
  | useCtx (i : ℕ) (ok : Bool) (c : ContextRef) (serving : s.threads[i]? = some .serving)
      (ctx : s.ctx = some c) :
      Steps s (.useCtx i ok) { s with failed := if ok then s.failed else s.failed ++ [c] }
  | finish (i : ℕ) (serving : s.threads[i]? = some .serving) :
      Steps s (.finish i) (s.setWorker i .loop)

def Running (s : State) (i : ℕ) : Prop := ∃ w, s.threads[i]? = some w ∧ w ≠ .exited

structure Sound (s : State) : Prop where
  /-- No thread was assigned over a joinable one. -/
  joined : s.terminated = false
  /-- No context was overwritten before it was freed. -/
  freed : ∀ c ∈ s.live, s.ctx = some c
  single : ∀ i j, Running s i → Running s j → i = j
  disconnected : s.disconnected = true → s.ctx = none ∧ ∀ i, ¬ Running s i

/-- When `Connect` asks, there is no context, or it has no error and the worker has not
stopped. -/
def Meets (s : State) : Event → Prop
  | .readErr => s.ctx = none ∨ s.good = true
  | .readStopped => s.stopped = false
  | _ => True

instance (s : State) : (e : Event) → Decidable (Meets s e)
  | .readErr => inferInstanceAs (Decidable (_ ∨ _))
  | .readStopped => inferInstanceAs (Decidable (_ = _))
  | .call _ | .setStopped | .join | .free | .redisConnect _ | .testCtx | .launch | .check _
  | .testErr _ | .stop _ | .useCtx _ _ | .finish _ => .isTrue trivial

variable {s t : State} {e : Event} {i : ℕ}

theorem step_cases (h : step s e = some t) : s.terminated = false ∧ Steps s e t := by
  unfold step at h
  by_cases terminated : s.terminated = true
  · rw [if_pos terminated] at h
    cases h
  refine ⟨eq_false_of_ne_true terminated, ?_⟩
  rw [if_neg terminated] at h
  cases e with
  | call c =>
    simp only [ownerStep, workerStep] at h
    split at h
    · next ready =>
      obtain rfl := Option.some.inj h
      exact .call c ready
    · cases h
  | readErr =>
    simp only [ownerStep, workerStep] at h
    split at h
    · next reading =>
      obtain rfl := Option.some.inj h
      exact .readErr reading
    · cases h
  | readStopped =>
    simp only [ownerStep, workerStep] at h
    split at h
    · next reading =>
      obtain rfl := Option.some.inj h
      exact .readStopped reading
    · cases h
  | setStopped =>
    simp only [ownerStep, workerStep] at h
    split at h
    · next c disconnecting =>
      obtain rfl := Option.some.inj h
      exact .setStopped c disconnecting
    · cases h
  | join =>
    simp only [ownerStep, workerStep] at h
    split at h
    · next c joining none =>
      obtain rfl := Option.some.inj h
      exact .notJoinable c joining none
    · next c i joining worker =>
      split_ifs at h with exited
      · obtain rfl := Option.some.inj h
        exact .join c i joining worker exited
      · cases h
    · cases h
  | free =>
    simp only [ownerStep, workerStep] at h
    split at h
    · next c freeing =>
      obtain rfl := Option.some.inj h
      exact .free c freeing
    · cases h
  | redisConnect r =>
    simp only [ownerStep, workerStep] at h
    split at h
    · next opening =>
      obtain rfl := Option.some.inj h
      exact .redisConnect r opening
    · cases h
  | testCtx =>
    simp only [ownerStep, workerStep] at h
    split at h
    · next testing =>
      obtain rfl := Option.some.inj h
      split_ifs with good
      · exact .connected testing good
      · exact .notConnected testing (eq_false_of_ne_true good)
    · cases h
  | launch =>
    simp only [ownerStep, workerStep] at h
    split at h
    · next launching none =>
      obtain rfl := Option.some.inj h
      exact .launch launching none
    · next i launching worker =>
      obtain rfl := Option.some.inj h
      exact .terminate i launching worker
    · cases h
  | check i =>
    simp only [ownerStep, workerStep] at h
    split at h
    · next loop =>
      obtain rfl := Option.some.inj h
      exact .check i loop
    · cases h
  | testErr i =>
    simp only [ownerStep, workerStep] at h
    split at h
    · next checking =>
      obtain rfl := Option.some.inj h
      exact .testErr i checking
    · cases h
  | stop i =>
    simp only [ownerStep, workerStep] at h
    split at h
    · next stopping =>
      obtain rfl := Option.some.inj h
      exact .stop i stopping
    · cases h
  | useCtx i ok =>
    simp only [ownerStep, workerStep] at h
    split at h
    · next c serving ctx =>
      obtain rfl := Option.some.inj h
      exact .useCtx i ok c serving ctx
    · cases h
  | finish i =>
    simp only [ownerStep, workerStep] at h
    split at h
    · next serving =>
      obtain rfl := Option.some.inj h
      exact .finish i serving
    · cases h

theorem step_of_cases (alive : s.terminated = false) (h : Steps s e t) : Step s e t := by
  unfold Step step
  rw [if_neg (ne_true_of_eq_false alive)]
  cases h with
  | useCtx i ok c serving ctx => simp only [ownerStep, workerStep, serving, ctx]; rfl
  | connected testing good => simp only [ownerStep, testing, if_pos good]; rfl
  | notConnected testing bad =>
    simp only [ownerStep, testing, if_neg (ne_true_of_eq_false bad)]
    rfl
  | notJoinable c joining none => simp only [ownerStep, joining, none]; rfl
  | join c i joining worker exited => simp only [ownerStep, joining, worker, if_pos exited]; rfl
  | launch launching none => simp only [ownerStep, launching, none]; rfl
  | terminate i launching worker => simp only [ownerStep, launching, worker]; rfl
  | call c ready => simp only [ownerStep, ready]; rfl
  | _ => simp only [ownerStep, workerStep, *]; rfl

lemma running_setWorker {w : Worker} {j : ℕ} (running : Running s i)
    (h : Running (s.setWorker i w) j) : Running s j := by
  obtain ⟨v, hv, hne⟩ := h
  by_cases hij : i = j
  · exact hij ▸ running
  · refine ⟨v, ?_, hne⟩
    rwa [State.setWorker, List.getElem?_set_ne hij] at hv

def Placed (s : State) : Caller → Prop
  | .freeing _ => s.worker = none
  | .opening => s.ctx = none
  | .testing => s.worker = none
  | .launching => s.worker = none ∧ s.ctx ≠ none
  | _ => True

/-- The invariant: the thread in the handle is the only one that may run, the context is the only
one that is not freed, and without a context there is no thread. -/
structure Tidy (s : State) : Prop where
  alive : s.terminated = false
  freed : ∀ c ∈ s.live, s.ctx = some c
  handled : ∀ i, Running s i → s.worker = some i
  joined : s.ctx = none → s.worker = none
  placed : Placed s s.caller
  disconnected : s.disconnected = true → s.ctx = none

lemma Tidy.new : Tidy new where
  alive := rfl
  freed := fun c hc => (List.not_mem_nil hc).elim
  handled := fun i ⟨w, hw, _⟩ => by cases hw
  joined := fun _ => rfl
  placed := trivial
  disconnected := fun h => by cases h

lemma Tidy.sound (h : Tidy s) : Sound s where
  joined := h.alive
  freed := h.freed
  single i j hi hj := Option.some.inj ((h.handled i hi).symm.trans (h.handled j hj))
  disconnected hd := by
    refine ⟨h.disconnected hd, fun i hi => ?_⟩
    have hworker := h.handled i hi
    rw [h.joined (h.disconnected hd)] at hworker
    cases hworker

lemma Tidy.threads {threads : List Worker} (h : Tidy s) (stopped : Bool)
    (failed : List ContextRef)
    (fewer : ∀ i, Running { s with threads := threads } i → Running s i) :
    Tidy { s with threads := threads, stopped := stopped, failed := failed } where
  alive := h.alive
  freed := h.freed
  handled i hi := h.handled i (fewer i hi)
  joined := h.joined
  placed := h.placed
  disconnected := h.disconnected

lemma Tidy.caller (h : Tidy s) (stopped : Bool) {k : Caller} (placed : Placed s k) :
    Tidy { s with stopped := stopped, caller := k } where
  alive := h.alive
  freed := h.freed
  handled := h.handled
  joined := h.joined
  placed := placed
  disconnected := h.disconnected

lemma live_freeCtx (h : Tidy s) : s.freeCtx.live = [] := by
  refine List.filter_eq_nil_iff.mpr fun c hc => ?_
  simp [h.freed c hc]

lemma ctx_of_good (good : s.good = true) : s.ctx ≠ none := by
  intro h
  simp [State.good, h] at good

lemma Tidy.freeCtx (h : Tidy s) (none : s.worker = none) {k : Caller} (disconnected : Bool)
    (placed : Placed s.freeCtx k) :
    Tidy { s.freeCtx with caller := k, disconnected := disconnected } where
  alive := h.alive
  freed c hc := by
    change c ∈ s.freeCtx.live at hc
    rw [live_freeCtx h] at hc
    exact (List.not_mem_nil hc).elim
  handled := h.handled
  joined := fun _ => none
  placed := placed
  disconnected := fun _ => rfl

lemma Tidy.openCtx (h : Tidy s) (ctx : s.ctx = none) (r : Opened) :
    Tidy { s.openCtx r with caller := .testing, disconnected := false } := by
  have empty : s.live = [] := by
    refine List.eq_nil_iff_forall_not_mem.mpr fun c hc => ?_
    have hsome := h.freed c hc
    rw [ctx] at hsome
    cases hsome
  have none : s.worker = none := h.joined ctx
  cases r with
  | null => exact ⟨h.alive, fun c hc => by simp [State.openCtx, empty] at hc, h.handled,
      fun _ => none, none, fun hd => by cases hd⟩
  | failed => exact ⟨h.alive, fun c hc => by simpa [State.openCtx, empty, eq_comm] using hc,
      h.handled, fun _ => none, none, fun hd => by cases hd⟩
  | connected => exact ⟨h.alive, fun c hc => by simpa [State.openCtx, empty, eq_comm] using hc,
      h.handled, fun _ => none, none, fun hd => by cases hd⟩

lemma Tidy.launch (h : Tidy s) (launching : s.caller = .launching) :
    Tidy { s with
      threads := s.threads ++ [.loop], worker := some s.threads.length, caller := .ready } := by
  have hplaced := h.placed
  rw [launching] at hplaced
  obtain ⟨none, ctx⟩ := hplaced
  refine ⟨h.alive, h.freed, fun i hi => ?_, fun hctx => (ctx hctx).elim, trivial, h.disconnected⟩
  obtain ⟨w, hw, hne⟩ := hi
  change (s.threads ++ [.loop])[i]? = some w at hw
  rcases Nat.lt_trichotomy i s.threads.length with hlt | heq | hgt
  · rw [List.getElem?_append_left hlt] at hw
    have hworker := h.handled i ⟨w, hw, hne⟩
    rw [none] at hworker
    cases hworker
  · rw [heq]
  · have hnone : (s.threads ++ [Worker.loop])[i]? = Option.none :=
      List.getElem?_eq_none (by rw [List.length_append, List.length_singleton]; omega)
    rw [hnone] at hw
    cases hw

theorem Tidy.step (h : Tidy s) (meets : Meets s e) (hstep : Step s e t) : Tidy t := by
  have hplaced := h.placed
  cases (step_cases hstep).2 with
  | call c ready => exact h.caller s.stopped (by cases c <;> trivial)
  | readErr reading =>
    by_cases good : s.good = true
    · rw [if_pos good]
      exact h.caller s.stopped trivial
    · rw [if_neg good]
      exact h.caller s.stopped (meets.resolve_right good)
  | readStopped reading =>
    have running : ¬ s.stopped = true := ne_true_of_eq_false meets
    rw [if_neg running]
    exact h.caller s.stopped trivial
  | setStopped c disconnecting => exact h.caller true trivial
  | notJoinable c joining none => exact h.caller s.stopped none
  | join c i joining worker exited =>
    refine ⟨h.alive, h.freed, fun j hj => ?_, fun _ => rfl, rfl, h.disconnected⟩
    obtain ⟨w, hw, hne⟩ := hj
    have hij : i = j := Option.some.inj (worker.symm.trans (h.handled j ⟨w, hw, hne⟩))
    rw [← hij] at hw
    exact (hne (Option.some.inj (hw.symm.trans exited))).elim
  | free c freeing =>
    rw [freeing] at hplaced
    exact h.freeCtx hplaced true (by cases c <;> trivial)
  | redisConnect r opening =>
    rw [opening] at hplaced
    exact h.openCtx hplaced r
  | connected testing good =>
    rw [testing] at hplaced
    exact h.caller false ⟨hplaced, ctx_of_good good⟩
  | notConnected testing bad =>
    rw [testing] at hplaced
    exact h.freeCtx hplaced s.disconnected trivial
  | launch launching none => exact h.launch launching
  | terminate i launching worker =>
    rw [launching] at hplaced
    cases worker.symm.trans hplaced.1
  | check i loop =>
    exact h.threads s.stopped s.failed fun j => running_setWorker ⟨_, loop, by simp⟩
  | testErr i checking =>
    exact h.threads s.stopped s.failed fun j => running_setWorker ⟨_, checking, by simp⟩
  | stop i stopping =>
    exact h.threads true s.failed fun j => running_setWorker ⟨_, stopping, by simp⟩
  | useCtx i ok c serving ctx => exact h.threads s.stopped _ fun j hj => hj
  | finish i serving =>
    exact h.threads s.stopped s.failed fun j => running_setWorker ⟨_, serving, by simp⟩

/-- What holds in every run: a context that the object has was allocated and is not freed, an
error is one of an allocated context, and `IsConnected` reads `stopped` only if there is a
context. -/
structure Owned (s : State) : Prop where
  live : ∀ c, s.ctx = some c → c ∈ s.live ∧ c < s.allocated
  failed : ∀ c ∈ s.failed, c < s.allocated
  reading : s.caller = .readingStopped → s.ctx ≠ none

lemma Owned.new : Owned new :=
  ⟨fun c hc => (by cases hc), fun c hc => (by cases hc), fun h => (by cases h)⟩

lemma Owned.caller (h : Owned s) (stopped : Bool) {k : Caller} (hk : k ≠ .readingStopped) :
    Owned { s with stopped := stopped, caller := k } :=
  ⟨h.live, h.failed, fun hread => (hk hread).elim⟩

lemma Owned.freeCtx (h : Owned s) (disconnected : Bool) {k : Caller}
    (hk : k ≠ .readingStopped) :
    Owned { s.freeCtx with caller := k, disconnected := disconnected } :=
  ⟨fun c hc => (by cases hc), h.failed, fun hread => (hk hread).elim⟩

lemma Owned.openCtx (h : Owned s) (r : Opened) :
    Owned { s.openCtx r with caller := .testing, disconnected := false } := by
  have hlive : ∀ c, some s.allocated = some c → c ∈ s.live ++ [s.allocated] ∧
      c < s.allocated + 1 := by
    rintro c hc
    obtain rfl := Option.some.inj hc
    exact ⟨List.mem_append_right _ (List.mem_singleton_self _), Nat.lt_succ_self _⟩
  have hfailed : ∀ c ∈ s.failed, c < s.allocated + 1 := fun c hc =>
    Nat.lt_succ_of_lt (h.failed c hc)
  cases r with
  | null => exact ⟨fun c hc => (by cases hc), h.failed, fun hread => by cases hread⟩
  | connected => exact ⟨hlive, hfailed, fun hread => by cases hread⟩
  | failed =>
    refine ⟨hlive, fun c hc => ?_, fun hread => by cases hread⟩
    rcases List.mem_append.mp hc with hc | hc
    · exact hfailed c hc
    · rw [List.mem_singleton.mp hc]
      exact Nat.lt_succ_self _

theorem Owned.step (h : Owned s) (hstep : Step s e t) : Owned t := by
  cases (step_cases hstep).2 with
  | call c ready => exact h.caller s.stopped (by cases c <;> simp [Call.first])
  | readErr reading =>
    by_cases good : s.good = true
    · rw [if_pos good]
      exact ⟨h.live, h.failed, fun _ => ctx_of_good good⟩
    · rw [if_neg good]
      exact h.caller s.stopped (by simp)
  | readStopped reading =>
    refine h.caller s.stopped ?_
    split_ifs <;> simp
  | setStopped c disconnecting => exact h.caller true (by simp)
  | notJoinable c joining none => exact h.caller s.stopped (by simp)
  | join c i joining worker exited => exact ⟨h.live, h.failed, fun hread => by cases hread⟩
  | free c freeing => exact h.freeCtx true (by cases c <;> simp [Call.next])
  | redisConnect r opening => exact h.openCtx r
  | connected testing good => exact h.caller false (by simp)
  | notConnected testing bad => exact h.freeCtx s.disconnected (by simp)
  | launch launching none => exact ⟨h.live, h.failed, fun hread => by cases hread⟩
  | useCtx i ok c serving ctx =>
    refine ⟨h.live, fun d hd => ?_, h.reading⟩
    cases ok with
    | true => exact h.failed d hd
    | false =>
      rcases List.mem_append.mp hd with hd | hd
      · exact h.failed d hd
      · rw [List.mem_singleton.mp hd]
        exact (h.live c ctx).2
  | _ => exact ⟨h.live, h.failed, h.reading⟩

def Overwriting (s : State) : Prop := s.caller = .opening ∧ s.ctx ≠ none

lemma overwriting_of_not_meets (h : Owned s) (hstep : Step s e t) (fails : ¬ Meets s e) :
    Overwriting t := by
  cases (step_cases hstep).2 with
  | readErr reading =>
    obtain ⟨ctx, bad⟩ := not_or.mp fails
    exact ⟨if_neg bad, ctx⟩
  | readStopped reading => exact ⟨if_pos (eq_true_of_ne_false fails), h.reading reading⟩
  | _ => exact (fails trivial).elim

theorem Overwriting.step (h : Overwriting s) (owned : Owned s) (hstep : Step s e t) :
    Overwriting t ∨ ¬ Sound t := by
  obtain ⟨opening, ctx⟩ := h
  obtain ⟨c, hc⟩ := Option.ne_none_iff_exists'.mp ctx
  obtain ⟨hlive, hlt⟩ := owned.live c hc
  cases (step_cases hstep).2 with
  | redisConnect r =>
    refine .inr fun sound => ?_
    cases r with
    | null => cases sound.freed c hlive
    | failed =>
      have hnew : s.allocated = c := Option.some.inj (sound.freed c (List.mem_append_left _ hlive))
      exact Nat.ne_of_lt hlt hnew.symm
    | connected =>
      have hnew : s.allocated = c := Option.some.inj (sound.freed c (List.mem_append_left _ hlive))
      exact Nat.ne_of_lt hlt hnew.symm
  | call c other => cases opening.symm.trans other
  | readErr other => cases opening.symm.trans other
  | readStopped other => cases opening.symm.trans other
  | setStopped c other => cases opening.symm.trans other
  | notJoinable c other => cases opening.symm.trans other
  | join c i other => cases opening.symm.trans other
  | free c other => cases opening.symm.trans other
  | connected other => cases opening.symm.trans other
  | notConnected other => cases opening.symm.trans other
  | launch other => cases opening.symm.trans other
  | terminate i other => cases opening.symm.trans other
  | _ => exact .inl ⟨opening, ctx⟩

variable {trace : List (State × Event)}

/-- Without a sign of it in the states, the condition was never missed before the last
`Connect`. -/
theorem meets_or_overwriting (run : Run Step new trace s) :
    Owned s ∧ ((∀ u ∈ visited trace s, Sound u) →
      (∀ x ∈ trace, Meets x.1 x.2) ∨ Overwriting s) := by
  refine run.stable_history (J := fun trace s => Owned s ∧ ((∀ u ∈ visited trace s, Sound u) →
    (∀ x ∈ trace, Meets x.1 x.2) ∨ Overwriting s)) ?_ ?_
  · exact ⟨Owned.new, fun _ => .inl fun x hx => (List.not_mem_nil hx).elim⟩
  · rintro past a e b ⟨owned, before⟩ hstep
    refine ⟨owned.step hstep, fun sound => ?_⟩
    have hb : Sound b := sound b (List.mem_append_right _ (List.mem_singleton_self _))
    have hpast : ∀ u ∈ visited past a, Sound u := by
      intro u hu
      refine sound u (List.mem_append_left _ ?_)
      rwa [List.map_append]
    rcases before hpast with meets | overwriting
    · by_cases last : Meets a e
      · refine .inl fun x hx => ?_
        rcases List.mem_append.mp hx with hx | hx
        · exact meets x hx
        · rw [List.mem_singleton.mp hx]
          exact last
      · exact .inr (overwriting_of_not_meets owned hstep last)
    · rcases overwriting.step owned hstep with again | unsound
      · exact .inr again
      · exact (unsound hb).elim

/-- The life cycle is sound in every run in which `Connect` asks under the condition, and in no
other, except that the last `Connect` may still be waiting in `redisConnect`. -/
theorem life_sound_iff (run : Run Step new trace s) :
    ((∀ x ∈ trace, Meets x.1 x.2) → ∀ u ∈ visited trace s, Sound u) ∧
    ((∀ u ∈ visited trace s, Sound u) → (∀ x ∈ trace, Meets x.1 x.2) ∨ Overwriting s) := by
  constructor
  · intro meets u hu
    have tidy : Tidy u := run.invariant_visited Tidy.new (fun _ _ _ h => h.step) meets hu
    exact tidy.sound
  · exact (meets_or_overwriting run).2

def connects : List Event := [.call .connect, .readErr, .redisConnect .connected, .testCtx, .launch]

def disconnects : List Event :=
  [.call .disconnect, .setStopped, .check 0, .join, .free]

theorem life_sound_reconnects : ∃ s, advance step new (connects ++ disconnects ++ connects) = some s ∧
    Sound s := by
  obtain ⟨s, hs⟩ := Option.isSome_iff_exists.mp
    (show (advance step new (connects ++ disconnects ++ connects)).isSome = true by decide)
  have run := advance_run hs
  refine ⟨s, hs, (life_sound_iff run).1 ?_ s (List.mem_append_right _ (List.mem_singleton_self _))⟩
  decide

def loses : List Event :=
  [.check 0, .testErr 0, .useCtx 0 false, .finish 0, .check 0, .testErr 0, .stop 0]

/-- The second `Connect` overwrites the context, and the thread that was never joined. -/
theorem reconnect_terminates : ¬ ∀ (trace : List (State × Event)) (s : State),
    Run Step new trace s → Sound s := by
  intro h
  obtain ⟨s, hs⟩ := Option.isSome_iff_exists.mp
    (show (advance step new (connects ++ loses ++ connects)).isSome = true by decide)
  have alive := (h _ s (advance_run hs)).joined
  have terminated : (advance step new (connects ++ loses ++ connects)).map State.terminated =
      some true := by decide
  rw [hs, Option.map_some, alive] at terminated
  cases terminated

end ClientPrefs.ClientLife
