import ClientPrefs.ClientLife
import ClientPrefs.ClientLoop

/-!
# One connection in the life of a client

From the return of a `Connect` that succeeded to the end of the `Disconnect` that follows, the
life of a client is a run of its worker loop, in which the worker only uses the context or not.
-/
namespace ClientPrefs.LifeRefinement
open ByteStrings ClientLife Transition

/-- Where the worker is in the life of the client. -/
def workerOf : ClientLoop.Worker → Worker
  | .loop => .loop
  | .checking => .checking
  | .exited => .exited
  | _ => .serving

/-- The connection `c` of a client that has started the threads `old` before. -/
structure Sim (c : ContextRef) (old : List Worker) (s : ClientLoop.State) (u : State) : Prop where
  alive : u.terminated = false
  threads : u.threads = old ++ [workerOf s.worker]
  stopped : u.stopped = s.stopped
  calling : s.caller ≠ .joining → u.caller = .ready
  joining : s.caller = .joining → u.caller = .joining .disconnect
  freed : s.caller = .freed → s.worker = .exited ∧ u.ctx = none ∧ u.worker = none
  held : s.caller ≠ .freed → u.ctx = some c ∧ u.worker = some old.length ∧
    (c ∈ u.failed ↔ s.err = true)

variable {cfg : ClientLoop.Config} {c : ContextRef} {old : List Worker}
  {s t : ClientLoop.State} {u v : State} {e : ClientLoop.Event}

lemma Sim.thread (h : Sim c old s u) : u.threads[old.length]? = some (workerOf s.worker) := by
  rw [h.threads]
  simp

lemma Sim.setWorker (h : Sim c old s u) (w : Worker) :
    (u.setWorker old.length w).threads = old ++ [w] := by
  simp [State.setWorker, h.threads]

lemma Sim.good (h : Sim c old s u) (held : s.caller ≠ .freed) : u.good = !s.err := by
  obtain ⟨ctx, _, failed⟩ := h.held held
  rw [State.good, ctx, Option.any_some, decide_not, ← Bool.eq_iff_iff.mpr
    (decide_eq_true_iff.trans failed)]

lemma Sim.not_freed (h : Sim c old s u) (running : s.worker ≠ .exited) : s.caller ≠ .freed :=
  fun freed => running (h.freed freed).1

lemma Sim.moved (h : Sim c old s u) (running : s.worker ≠ .exited) (caller : t.caller = s.caller)
    (threads : v.threads = old ++ [workerOf t.worker]) (stopped : v.stopped = t.stopped)
    (err : (c ∈ u.failed ↔ s.err = true) → (c ∈ v.failed ↔ t.err = true))
    (frame : v.terminated = u.terminated ∧ v.caller = u.caller ∧ v.ctx = u.ctx ∧
      v.worker = u.worker) : Sim c old t v := by
  obtain ⟨hterminated, hcaller, hctx, hworker⟩ := frame
  have held := h.not_freed running
  obtain ⟨ctx, worker, failed⟩ := h.held held
  refine ⟨hterminated.trans h.alive, threads, stopped, ?_, ?_, ?_, ?_⟩
  · rw [caller, hcaller]
    exact h.calling
  · rw [caller, hcaller]
    exact h.joining
  · rw [caller]
    exact fun freed => (held freed).elim
  · rw [hctx, hworker]
    exact fun _ => ⟨ctx, worker, err failed⟩

lemma Sim.same (h : Sim c old s u) (running : s.worker ≠ .exited) (caller : t.caller = s.caller)
    (worker : workerOf t.worker = workerOf s.worker) (stopped : t.stopped = s.stopped)
    (err : t.err = s.err) : ∃ trace v, Run Step u trace v ∧ Sim c old t v := by
  refine ⟨[], u, .refl, h.moved running caller ?_ ?_ ?_ ⟨rfl, rfl, rfl, rfl⟩⟩
  · rw [worker]
    exact h.threads
  · rw [stopped]
    exact h.stopped
  · rw [err]
    exact id

lemma Sim.finish (h : Sim c old s u) (serving : workerOf s.worker = .serving)
    (caller : t.caller = s.caller) (worker : t.worker = .loop) (stopped : t.stopped = s.stopped)
    (err : t.err = s.err) : ∃ trace v, Run Step u trace v ∧ Sim c old t v := by
  have running : s.worker ≠ .exited := fun hw => by
    rw [hw] at serving
    cases serving
  have hthread := h.thread
  rw [serving] at hthread
  refine ⟨_, _, .one (step_of_cases h.alive (.finish old.length hthread)),
    h.moved running caller ?_ ?_ ?_ ⟨rfl, rfl, rfl, rfl⟩⟩
  · rw [worker]
    exact h.setWorker .loop
  · rw [stopped]
    exact h.stopped
  · rw [err]
    exact id

lemma Sim.useCtx (h : Sim c old s u) (serving : workerOf s.worker = .serving) (ok : Bool)
    (caller : t.caller = s.caller) (worker : workerOf t.worker = .serving)
    (stopped : t.stopped = s.stopped) (err : t.err = (s.err || !ok)) :
    ∃ trace v, Run Step u trace v ∧ Sim c old t v := by
  have running : s.worker ≠ .exited := fun hw => by
    rw [hw] at serving
    cases serving
  obtain ⟨ctx, _, _⟩ := h.held (h.not_freed running)
  have hthread := h.thread
  rw [serving] at hthread
  refine ⟨_, _, .one (step_of_cases h.alive (.useCtx old.length ok c hthread ctx)),
    h.moved running caller ?_ ?_ ?_ ⟨rfl, rfl, rfl, rfl⟩⟩
  · rw [worker, ← serving]
    exact h.threads
  · rw [stopped]
    exact h.stopped
  · intro failed
    rw [err]
    cases ok with
    | true => simpa using failed
    | false => simp

lemma Sim.calls (h : Sim c old s u) (before : s.caller ≠ .joining ∧ s.caller ≠ .freed)
    (after : t.caller ≠ .joining ∧ t.caller ≠ .freed) (worker : t.worker = s.worker)
    (stopped : t.stopped = s.stopped) (err : t.err = s.err) :
    ∃ trace v, Run Step u trace v ∧ Sim c old t v := by
  refine ⟨[], u, .refl, h.alive, ?_, ?_, fun _ => h.calling before.1, ?_, ?_, ?_⟩
  · rw [worker]
    exact h.threads
  · rw [stopped]
    exact h.stopped
  · exact fun joining => (after.1 joining).elim
  · exact fun freed => (after.2 freed).elim
  · rw [err]
    exact fun _ => h.held before.2

lemma Sim.disconnect (h : Sim c old s u) (ready : s.caller = .ready) :
    ∃ trace v, Run Step u trace v ∧
      Sim c old { s with stopped := true, caller := .joining } v := by
  have hready : u.caller = .ready := h.calling (by simp [ready])
  have first := step_of_cases h.alive (.call .disconnect hready)
  have second := step_of_cases (s := { u with caller := .disconnecting .disconnect }) h.alive
    (.setStopped .disconnect rfl)
  refine ⟨_, _, (Run.one first).snoc second, h.alive, h.threads, rfl, ?_, fun _ => rfl, ?_, ?_⟩
  · exact fun notJoining => (notJoining rfl).elim
  · exact fun freed => by cases freed
  · exact fun _ => h.held (by simp [ready])

lemma Sim.join (h : Sim c old s u) (joining : s.caller = .joining)
    (exited : s.worker = .exited) :
    ∃ trace v, Run Step u trace v ∧ Sim c old { s with caller := .freed } v := by
  obtain ⟨_, worker, _⟩ := h.held (by simp [joining])
  have hthread := h.thread
  rw [exited] at hthread
  have first := step_of_cases h.alive (.join .disconnect _ (h.joining joining) worker hthread)
  have second := step_of_cases (s := { u with worker := none, caller := .freeing .disconnect })
    h.alive (.free .disconnect rfl)
  refine ⟨_, _, (Run.one first).snoc second, h.alive, h.threads, h.stopped, fun _ => rfl, ?_,
    fun _ => ⟨exited, rfl, rfl⟩, fun held => (held rfl).elim⟩
  exact fun joining => by cases joining

lemma Sim.check (h : Sim c old s u) (loop : s.worker = .loop) :
    ∃ trace v, Run Step u trace v ∧
      Sim c old { s with worker := if s.stopped then .exited else .checking } v := by
  have hthread := h.thread
  rw [loop] at hthread
  refine ⟨_, _, .one (step_of_cases h.alive (.check old.length hthread)),
    h.moved (by simp [loop]) rfl ?_ h.stopped id ⟨rfl, rfl, rfl, rfl⟩⟩
  rw [h.setWorker, h.stopped]
  cases s.stopped with
  | true => rfl
  | false => rfl

lemma Sim.testErr (h : Sim c old s u) (checking : s.worker = .checking) (good : s.err = false)
    {w : ClientLoop.Worker} (serving : workerOf w = .serving) :
    ∃ trace v, Run Step u trace v ∧ Sim c old { s with worker := w } v := by
  have running : s.worker ≠ .exited := by simp [checking]
  have hthread := h.thread
  rw [checking] at hthread
  have hgood : u.good = true := by rw [h.good (h.not_freed running), good]; rfl
  refine ⟨_, _, .one (step_of_cases h.alive (.testErr old.length hthread)),
    h.moved running rfl ?_ h.stopped id ⟨rfl, rfl, rfl, rfl⟩⟩
  rw [h.setWorker, if_pos hgood, serving]

lemma Sim.failed (h : Sim c old s u) (checking : s.worker = .checking) (failed : s.err = true) :
    ∃ trace v, Run Step u trace v ∧ Sim c old { s with stopped := true, worker := .exited } v := by
  have running : s.worker ≠ .exited := by simp [checking]
  have hthread := h.thread
  rw [checking] at hthread
  have hbad : ¬ u.good = true := by
    rw [h.good (h.not_freed running), failed]
    exact Bool.false_ne_true
  have first := step_of_cases h.alive (.testErr old.length hthread)
  rw [if_neg hbad] at first
  have hstopping : (u.setWorker old.length .stopping).threads[old.length]? = some .stopping := by
    rw [h.setWorker]
    simp
  have second := step_of_cases (s := u.setWorker old.length .stopping) h.alive
    (.stop old.length hstopping)
  refine ⟨_, _, (Run.one first).snoc second,
    h.moved running rfl ?_ rfl id ⟨rfl, rfl, rfl, rfl⟩⟩
  change ((u.setWorker old.length .stopping).setWorker old.length .exited).threads = _
  rw [State.setWorker, h.setWorker]
  simp [workerOf]

/-- Every step of the worker loop is a step or two in the life of the client, or none. -/
theorem Sim.step (h : Sim c old s u) (hstep : ClientLoop.Step cfg s e t) :
    ∃ trace v, Run Step u trace v ∧ Sim c old t v := by
  cases ClientLoop.step_cases hstep with
  | append redisCmd callback ready => exact h.calls (by simp [ready]) (by simp [ready]) rfl rfl rfl
  | commit ready => exact h.calls (by simp [ready]) (by simp) rfl rfl rfl
  | isConnected committing =>
    refine h.calls (by simp [committing]) ?_ rfl rfl rfl
    dsimp only
    split_ifs <;> simp
  | signal signalling => exact h.calls (by simp [signalling]) (by simp) rfl rfl rfl
  | disconnect ready => exact h.disconnect ready
  | join joining exited => exact h.join joining exited
  | stop loop stopped =>
    have hcheck := h.check loop
    rwa [if_pos stopped] at hcheck
  | check loop running =>
    have hcheck := h.check loop
    rwa [if_neg (ne_true_of_eq_false running)] at hcheck
  | failed checking failed => exact h.failed checking failed
  | testErr checking good =>
    refine h.testErr checking good ?_
    split_ifs <;> rfl
  | wake n waiting signalled => exact h.same (by simp [waiting]) rfl (by rw [waiting]; rfl) rfl rfl
  | timeout waiting silent => exact h.finish (by rw [waiting]; rfl) rfl rfl rfl rfl
  | sleep sizing none => exact h.finish (by rw [sizing]; rfl) rfl rfl rfl rfl
  | size sizing some => exact h.same (by simp [sizing]) rfl (by rw [sizing]; rfl) rfl rfl
  | dequeue b k dequeuing available room =>
    refine h.same (by simp [dequeuing]) rfl ?_ rfl rfl
    rw [dequeuing]
    dsimp only
    split_ifs <;> rfl
  | again b testing running short =>
    exact h.same (by simp [testing]) rfl (by rw [testing]; rfl) rfl rfl
  | enough b testing full => exact h.same (by simp [testing]) rfl (by rw [testing]; rfl) rfl rfl
  | flush b testing =>
    refine h.same (by simp [testing]) rfl ?_ rfl rfl
    rw [testing]
    dsimp only
    split_ifs <;> rfl
  | nothing b assembled none => exact h.finish (by rw [assembled]; rfl) rfl rfl rfl rfl
  | assemble b assembled some =>
    exact h.same (by simp [assembled]) rfl (by rw [assembled]; rfl) rfl rfl
  | appendFormattedCommand b appended ok appending more =>
    exact h.useCtx (by rw [appending]; rfl) ok rfl rfl rfl rfl
  | allAppended b appended appending all =>
    exact h.same (by simp [appending]) rfl (by rw [appending]; rfl) rfl rfl
  | getReply b appended i ok reading more =>
    -- A command that was not appended is not waited for.
    cases hsent : appended.getD i false with
    | true =>
      refine h.useCtx (by rw [reading]; rfl) ok rfl rfl rfl ?_
      simp only [ClientLoop.State.readReply, ClientLoop.State.invoke, hsent, Bool.true_and]
    | false =>
      refine h.same (by simp [reading]) rfl (by rw [reading]; rfl) rfl ?_
      simp only [ClientLoop.State.readReply, ClientLoop.State.invoke, hsent, Bool.false_and,
        Bool.or_false]
  | allRead b appended i reading all => exact h.finish (by rw [reading]; rfl) rfl rfl rfl rfl

/-- `Connect` succeeds where there is no context: what follows begins as the worker loop does. -/
theorem sim_of_connect (tidy : Tidy u) (owned : Owned u) (opening : u.caller = .opening)
    (commands : List (List Bytes × Option ℕ)) (sem : ℕ) (flush : Bool) :
    ∃ trace v, Run Step u trace v ∧
      Sim u.allocated u.threads (ClientLoop.start commands sem flush) v := by
  have hplaced := tidy.placed
  rw [opening] at hplaced
  have none : u.worker = Option.none := tidy.joined hplaced
  have fresh : u.allocated ∉ u.failed := fun hmem => Nat.lt_irrefl _ (owned.failed _ hmem)
  have first := step_of_cases tidy.alive (.redisConnect .connected opening)
  have second := step_of_cases (s := { u.openCtx .connected with
    caller := .testing, disconnected := false }) tidy.alive
    (.connected rfl (by simp [State.good, State.openCtx, fresh]))
  have third := step_of_cases (s := { u.openCtx .connected with
    stopped := false, caller := .launching, disconnected := false }) tidy.alive (.launch rfl none)
  refine ⟨_, _, ((Run.one first).snoc second).snoc third, tidy.alive, rfl, rfl, fun _ => rfl, ?_,
    ?_, fun _ => ⟨rfl, rfl, ?_⟩⟩
  · exact fun joining => by cases joining
  · exact fun freed => by cases freed
  · exact ⟨fun hmem => (fresh hmem).elim, fun err => by cases err⟩

/-- A run of the worker loop is a part of the life of the client. -/
theorem sim_run {trace : List (ClientLoop.State × ClientLoop.Event)} (h : Sim c old s u)
    (run : Run (ClientLoop.Step cfg) s trace t) : ∃ life v, Run Step u life v ∧ Sim c old t v := by
  induction run with
  | refl => exact ⟨[], u, .refl, h⟩
  | snoc prior last ih =>
    obtain ⟨first, v, hfirst, hv⟩ := ih
    obtain ⟨second, w, hsecond, hw⟩ := hv.step last
    exact ⟨first ++ second, w, hfirst.trans hsecond, hw⟩

end ClientPrefs.LifeRefinement
