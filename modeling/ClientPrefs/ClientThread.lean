import ClientPrefs.ConnectionSetup
import ClientPrefs.Transition

/-!
# The thread of a client

An `async_redis::client` from its `Connect` to its deletion: the queue `m_commands`, the
worker thread that empties it and reads the replies, and the query thread that issues commands
and waits for their callbacks. Each `Command` has a number, its callback.
-/
namespace ClientPrefs.ClientThread
open ByteStrings Conversation Conv ConnectionSetup QueryThread RedisReply RedisStore Transition

structure CommandRequest where
  command : Request
  callback : Option ℕ
  deriving DecidableEq, Repr

inductive Worker
  /-- At the tests of `stopped` and `ctx->err`. -/
  | loop
  /-- At `pipeline_sem.wait`. -/
  | waiting
  /-- In `send`, before the queue is emptied. -/
  | sending
  /-- The requests are appended to the connection, and their replies are read. -/
  | reading (reqs : List CommandRequest)
  | exited
  deriving DecidableEq, Repr

/-- Where the query thread is; the callbacks are those of the commands it asks or waits for. -/
inductive Thread
  | idle
  | running (callbacks : List ℕ) (conv : WorkerTalk)
  | blocked (callbacks : List ℕ) (next : List (Option Reply) → WorkerTalk)

structure State where
  /-- `m_commands` -/
  commands : List CommandRequest
  pipelineSem : ℕ
  /-- `ctx->err` -/
  err : Bool
  worker : Worker
  thread : Thread
  /-- How many `Command`s there have been, and the callbacks that were invoked, in order. -/
  issued : ℕ
  invoked : List (ℕ × Option Reply)

/-- `IsConnected`; the worker thread sets `stopped` when it exits. -/
def State.isConnected (s : State) : Bool := !s.err && !decide (s.worker = .exited)

/-- `Commit`, with the default cache size 0. -/
def State.commit (s : State) : State :=
  if s.isConnected then { s with pipelineSem := s.pipelineSem + 1 } else s

def State.invoke (s : State) (req : CommandRequest) (r : Option Reply) : State :=
  match req.callback with
  | none => s
  | some n => { s with invoked := s.invoked ++ [(n, r)] }

def State.replyTo (s : State) (n : ℕ) : Option Reply := (s.invoked.lookup n).join

inductive Move
  | take (j : Job)
  /-- The query thread puts a request into the queue, or calls `Commit`. -/
  | put
  | commit
  | resume
  | finish
  | check
  | wake
  | timeout
  | dequeue
  /-- `redisGetReply` succeeds; it fails and sets `ctx->err`; it fails again. -/
  | reply (r : Reply)
  | fail
  | null
  | done

/-- The worker commits before it runs a query. -/
def runQuery (hash : Bytes → ℕ) (j : Job) : WorkerTalk := do
  append []
  runThreadPart hash j

/-- The client when `Connect` has returned; the worker sets it up, and has a query for it when
it was made for a query. -/
def start (settings : Settings) (hash : Bytes → ℕ) (query : Option Job) : State where
  commands := []
  pipelineSem := 0
  err := false
  worker := .loop
  thread := .running [] (setupThen settings
    (match query with
    | none => .done none
    | some j => runQuery hash j))
  issued := 0
  invoked := []

def step (hash : Bytes → ℕ) (s : State) : Move → Option State
  | .take j =>
    match s.thread with
    | .idle => if s.isConnected then some { s with thread := .running [] (runQuery hash j) } else none
    | _ => none
  | .put =>
    match s.thread with
    | .running callbacks (.tell (c :: cs) next) => some
      { s with commands := s.commands ++ [⟨c, none⟩], thread := .running callbacks (.tell cs next) }
    | .running callbacks (.ask (c :: cs) next) => some
      { s with
        commands := s.commands ++ [⟨c, some s.issued⟩]
        issued := s.issued + 1
        thread := .running (callbacks ++ [s.issued]) (.ask cs next) }
    | _ => none
  | .commit =>
    match s.thread with
    | .running _ (.tell [] next) => some { s.commit with thread := .running [] next }
    | .running callbacks (.ask [] next) => some { s.commit with thread := .blocked callbacks next }
    | _ => none
  | .resume =>
    match s.thread with
    | .blocked callbacks next =>
      if ∀ n ∈ callbacks, n ∈ s.invoked.map Prod.fst then
        some { s with thread := .running [] (next (callbacks.map s.replyTo)) }
      else none
    | _ => none
  | .finish =>
    match s.thread with
    | .running _ (.done _) => some { s with thread := .idle }
    | _ => none
  | .check =>
    match s.worker with
    | .loop => some { s with worker := if s.err then .exited else .waiting }
    | _ => none
  | .wake =>
    match s.worker, s.pipelineSem with
    | .waiting, n + 1 => some { s with pipelineSem := n, worker := .sending }
    | _, _ => none
  | .timeout =>
    match s.worker, s.pipelineSem with
    | .waiting, 0 => some { s with worker := .loop }
    | _, _ => none
  | .dequeue =>
    match s.worker, s.commands with
    | .sending, [] => some { s with worker := .loop }
    | .sending, reqs => some { s with commands := [], worker := .reading reqs }
    | _, _ => none
  | .reply r =>
    match s.worker, s.err with
    | .reading (req :: reqs), false => some { s.invoke req (some r) with worker := .reading reqs }
    | _, _ => none
  | .fail =>
    match s.worker, s.err with
    | .reading (req :: reqs), false =>
      some { s.invoke req none with err := true, worker := .reading reqs }
    | _, _ => none
  | .null =>
    match s.worker, s.err with
    | .reading (req :: reqs), true => some { s.invoke req none with worker := .reading reqs }
    | _, _ => none
  | .done =>
    match s.worker with
    | .reading [] => some { s with worker := .loop }
    | _ => none

inductive Steps (hash : Bytes → ℕ) (s : State) : Move → State → Prop
  | take (j : Job) (idle : s.thread = .idle) (connected : s.isConnected = true) :
      Steps hash s (.take j) { s with thread := .running [] (runQuery hash j) }
  | tell (callbacks : List ℕ) (c : Request) (cs : List Request) (next : WorkerTalk)
      (at_tell : s.thread = .running callbacks (.tell (c :: cs) next)) :
      Steps hash s .put { s with
        commands := s.commands ++ [⟨c, none⟩], thread := .running callbacks (.tell cs next) }
  | ask (callbacks : List ℕ) (c : Request) (cs : List Request)
      (next : List (Option Reply) → WorkerTalk)
      (at_ask : s.thread = .running callbacks (.ask (c :: cs) next)) :
      Steps hash s .put
        { s with
          commands := s.commands ++ [⟨c, some s.issued⟩]
          issued := s.issued + 1
          thread := .running (callbacks ++ [s.issued]) (.ask cs next) }
  | told (callbacks : List ℕ) (next : WorkerTalk)
      (at_tell : s.thread = .running callbacks (.tell [] next)) :
      Steps hash s .commit { s.commit with thread := .running [] next }
  | asked (callbacks : List ℕ) (next : List (Option Reply) → WorkerTalk)
      (at_ask : s.thread = .running callbacks (.ask [] next)) :
      Steps hash s .commit { s.commit with thread := .blocked callbacks next }
  | resume (callbacks : List ℕ) (next : List (Option Reply) → WorkerTalk)
      (blocked : s.thread = .blocked callbacks next)
      (all : ∀ n ∈ callbacks, n ∈ s.invoked.map Prod.fst) :
      Steps hash s .resume { s with thread := .running [] (next (callbacks.map s.replyTo)) }
  | finish (callbacks : List ℕ) (outcome : Option Outcome)
      (at_done : s.thread = .running callbacks (.done outcome)) :
      Steps hash s .finish { s with thread := .idle }
  | check (loop : s.worker = .loop) :
      Steps hash s .check { s with worker := if s.err then .exited else .waiting }
  | wake (n : ℕ) (waiting : s.worker = .waiting) (signalled : s.pipelineSem = n + 1) :
      Steps hash s .wake { s with pipelineSem := n, worker := .sending }
  | timeout (waiting : s.worker = .waiting) (silent : s.pipelineSem = 0) :
      Steps hash s .timeout { s with worker := .loop }
  | empty (sending : s.worker = .sending) (none : s.commands = []) :
      Steps hash s .dequeue { s with worker := .loop }
  | dequeue (sending : s.worker = .sending) (some : s.commands ≠ []) :
      Steps hash s .dequeue { s with commands := [], worker := .reading s.commands }
  | reply (r : Reply) (req : CommandRequest) (reqs : List CommandRequest)
      (reading : s.worker = .reading (req :: reqs)) (good : s.err = false) :
      Steps hash s (.reply r) { s.invoke req (some r) with worker := .reading reqs }
  | fail (req : CommandRequest) (reqs : List CommandRequest)
      (reading : s.worker = .reading (req :: reqs)) (good : s.err = false) :
      Steps hash s .fail { s.invoke req none with err := true, worker := .reading reqs }
  | null (req : CommandRequest) (reqs : List CommandRequest)
      (reading : s.worker = .reading (req :: reqs)) (failed : s.err = true) :
      Steps hash s .null { s.invoke req none with worker := .reading reqs }
  | done (reading : s.worker = .reading []) : Steps hash s .done { s with worker := .loop }

def callbacks (reqs : List CommandRequest) : List ℕ := reqs.filterMap CommandRequest.callback

/-- The requests that the worker thread has taken and not answered. -/
def Worker.taken : Worker → List CommandRequest
  | .reading reqs => reqs
  | _ => []

def Thread.waitsFor : Thread → List ℕ
  | .blocked callbacks _ => callbacks
  | _ => []

def Blocked (s : State) (n : ℕ) : Prop := n ∈ s.thread.waitsFor ∧ n ∉ s.invoked.map Prod.fst

/-- The next request that the query thread puts into the queue has a callback. -/
def Thread.asks : Thread → Bool
  | .running _ (.ask (_ :: _) _) => true
  | _ => false

/-- The query thread puts commands into the queue and has a `Commit` ahead. -/
def Putting : Thread → Prop
  | .running _ (.tell _ _) => True
  | .running _ (.ask _ _) => True
  | _ => False

/-- The worker thread does nothing of its own any more, or only waits for a signal again and again. -/
def AtRest (s : State) : Prop :=
  s.worker = .exited ∨ s.err = false ∧ s.pipelineSem = 0 ∧ (s.worker = .loop ∨ s.worker = .waiting)

def Move.Own : Move → Prop
  | take _ => False
  | put => False
  | commit => False
  | resume => False
  | finish => False
  | _ => True

def work (s : State) : ℕ := 4 * s.pipelineSem + s.commands.length +
  match s.worker with
  | .loop => 2
  | .waiting => 1
  | .sending => 4
  | .reading reqs => 3 + reqs.length
  | .exited => 0

/-- No callback is invoked twice; none waits for a thread that has exited; and the worker thread,
which comes to rest unless a new signal arrives, has then invoked all of them. -/
structure Served (hash : Bytes → ℕ) (s : State) : Prop where
  once : (s.invoked.map Prod.fst).Nodup
  issued : ∀ n ∈ s.invoked.map Prod.fst, n < s.issued
  stranded : s.worker = .exited → callbacks s.commands = []
  moves : ¬ AtRest s → ∃ m, m.Own ∧ (step hash s m).isSome = true
  works : ∀ m t, ¬ AtRest s → m.Own → step hash s m = some t → work t < work s
  all : AtRest s → ¬ Putting s.thread → ∀ n < s.issued, n ∈ s.invoked.map Prod.fst

/-- The connection fails only when no callback waits in the queue, and afterwards no `Command` is
issued. -/
def failsClean (s : State) : Move → Bool
  | .fail => callbacks s.commands = []
  | .put => !(s.err && s.thread.asks)
  | _ => true

variable {settings : Settings} {hash : Bytes → ℕ} {s t : State} {m : Move}

theorem step_cases (h : step hash s m = some t) : Steps hash s m t := by
  cases m with
  | take j =>
    simp only [step] at h
    split at h
    · next idle =>
      split_ifs at h with connected
      obtain rfl := Option.some.inj h
      exact .take j idle connected
    · cases h
  | put =>
    simp only [step] at h
    split at h
    · next callbacks c cs next at_tell =>
      obtain rfl := Option.some.inj h
      exact .tell callbacks c cs next at_tell
    · next callbacks c cs next at_ask =>
      obtain rfl := Option.some.inj h
      exact .ask callbacks c cs next at_ask
    · cases h
  | commit =>
    simp only [step] at h
    split at h
    · next callbacks next at_tell =>
      obtain rfl := Option.some.inj h
      exact .told callbacks next at_tell
    · next callbacks next at_ask =>
      obtain rfl := Option.some.inj h
      exact .asked callbacks next at_ask
    · cases h
  | resume =>
    simp only [step] at h
    split at h
    · next callbacks next blocked =>
      split_ifs at h with all
      obtain rfl := Option.some.inj h
      exact .resume callbacks next blocked all
    · cases h
  | finish =>
    simp only [step] at h
    split at h
    · next callbacks outcome at_done =>
      obtain rfl := Option.some.inj h
      exact .finish callbacks outcome at_done
    · cases h
  | check =>
    simp only [step] at h
    split at h
    · next loop =>
      obtain rfl := Option.some.inj h
      exact .check loop
    · cases h
  | wake =>
    simp only [step] at h
    split at h
    · next n waiting signalled =>
      obtain rfl := Option.some.inj h
      exact .wake n waiting signalled
    · cases h
  | timeout =>
    simp only [step] at h
    split at h
    · next waiting silent =>
      obtain rfl := Option.some.inj h
      exact .timeout waiting silent
    · cases h
  | dequeue =>
    simp only [step] at h
    split at h
    · next sending none =>
      obtain rfl := Option.some.inj h
      exact .empty sending none
    · next sending some =>
      obtain rfl := Option.some.inj h
      exact .dequeue sending fun none => some none
    · cases h
  | reply r =>
    simp only [step] at h
    split at h
    · next req reqs reading good =>
      obtain rfl := Option.some.inj h
      exact .reply r req reqs reading good
    · cases h
  | fail =>
    simp only [step] at h
    split at h
    · next req reqs reading good =>
      obtain rfl := Option.some.inj h
      exact .fail req reqs reading good
    · cases h
  | null =>
    simp only [step] at h
    split at h
    · next req reqs reading failed =>
      obtain rfl := Option.some.inj h
      exact .null req reqs reading failed
    · cases h
  | done =>
    simp only [step] at h
    split at h
    · next reading =>
      obtain rfl := Option.some.inj h
      exact .done reading
    · cases h

structure Accounts (s : State) : Prop where
  /-- Callbacks are invoked in the order of their commands. -/
  order : s.invoked.map Prod.fst ++ callbacks s.worker.taken ++ callbacks s.commands =
    List.range s.issued
  exited : s.worker = .exited → s.err = true
  waits : s.err = true → s.worker ≠ .waiting ∧ s.worker ≠ .sending
  /-- Whatever was committed is taken, or a signal for it is pending. -/
  signalled : s.err = false → s.commands = [] ∨ Putting s.thread ∨ 0 < s.pipelineSem ∨
    s.worker = .sending
  clean : s.err = true → callbacks s.commands = []

@[simp] lemma callbacks_nil : callbacks [] = [] := rfl

lemma callbacks_cons (req : CommandRequest) (reqs : List CommandRequest) :
    callbacks (req :: reqs) = req.callback.toList ++ callbacks reqs := by
  cases h : req.callback <;> simp [callbacks, h]

lemma callbacks_append (reqs more : List CommandRequest) :
    callbacks (reqs ++ more) = callbacks reqs ++ callbacks more := List.filterMap_append

lemma invoked_invoke (s : State) (req : CommandRequest) (r : Option Reply) :
    (s.invoke req r).invoked.map Prod.fst = s.invoked.map Prod.fst ++ req.callback.toList := by
  cases h : req.callback <;> simp [State.invoke, h]

lemma invoke_eq (s : State) (req : CommandRequest) (r : Option Reply) :
    s.invoke req r = { s with invoked := (s.invoke req r).invoked } := by
  unfold State.invoke
  split <;> rfl

lemma commit_eq (s : State) : s.commit =
    { s with pipelineSem := if s.isConnected then s.pipelineSem + 1 else s.pipelineSem } := by
  unfold State.commit
  split_ifs <;> rfl

lemma Accounts.invoked_order (h : Accounts s) {req : CommandRequest} {reqs : List CommandRequest}
    (reading : s.worker = .reading (req :: reqs)) (r : Option Reply) :
    (s.invoke req r).invoked.map Prod.fst ++ callbacks reqs ++ callbacks s.commands =
      List.range s.issued := by
  have horder := h.order
  rw [reading, Worker.taken, callbacks_cons] at horder
  rw [invoked_invoke, ← horder]
  simp only [List.append_assoc]

lemma accounts_start (settings : Settings) (hash : Bytes → ℕ) (query : Option Job) :
    Accounts (start settings hash query) := by
  constructor <;> simp [start, Worker.taken]

lemma Accounts.thread (h : Accounts s) {thread : Thread} (signalled : s.err = false →
    s.commands = [] ∨ Putting thread ∨ 0 < s.pipelineSem ∨ s.worker = .sending) :
    Accounts { s with thread := thread } :=
  ⟨h.order, h.exited, h.waits, signalled, h.clean⟩

lemma Accounts.same_signals (h : Accounts s) (settled : ¬ Putting s.thread) (thread : Thread) :
    Accounts { s with thread := thread } := by
  apply h.thread
  intro good
  rcases h.signalled good with hnone | hputting | hsignal
  · exact .inl hnone
  · exact absurd hputting settled
  · exact .inr (.inr hsignal)

lemma Accounts.commit (h : Accounts s) (thread : Thread) :
    Accounts { s.commit with thread := thread } := by
  rw [commit_eq]
  refine ⟨h.order, h.exited, h.waits, fun good => ?_, h.clean⟩
  have hgood : s.err = false := good
  have halive : s.worker ≠ .exited := fun hexited => by
    have herr := h.exited hexited
    rw [hgood] at herr
    cases herr
  have hconnected : s.isConnected = true := by simp [State.isConnected, hgood, halive]
  simp [hconnected]

theorem Accounts.step (h : Accounts s) (clean : failsClean s m = true)
    (hm : ClientThread.step hash s m = some t) : Accounts t := by
  cases step_cases hm with
  | take j idle connected => exact h.thread fun _ => .inr (.inl trivial)
  | tell callbacks c cs next at_tell =>
    refine ⟨?_, h.exited, h.waits, fun _ => .inr (.inl trivial), fun failed => ?_⟩
    · simpa [callbacks_append, callbacks_cons] using h.order
    · simpa [callbacks_append, callbacks_cons] using h.clean failed
  | ask callbacks c cs next at_ask =>
    refine ⟨?_, h.exited, h.waits, fun _ => .inr (.inl trivial), fun failed => ?_⟩
    · rw [callbacks_append, ← List.append_assoc, h.order, List.range_succ]
      rfl
    · have hfailed : s.err = true := failed
      simp [failsClean, hfailed, at_ask, Thread.asks] at clean
  | told callbacks next at_tell => exact h.commit _
  | asked callbacks next at_ask => exact h.commit _
  | resume callbacks next blocked all => exact h.same_signals (by simp [blocked, Putting]) _
  | finish callbacks outcome at_done => exact h.same_signals (by simp [at_done, Putting]) _
  | check loop =>
    have horder := h.order
    rw [loop] at horder
    by_cases failed : s.err = true
    · rw [if_pos failed]
      exact ⟨horder, fun _ => failed, by simp, fun good => by simp [failed] at good, h.clean⟩
    · rw [if_neg failed]
      refine ⟨horder, by simp, fun hfailed => absurd hfailed failed, fun good => ?_, h.clean⟩
      simpa [loop] using h.signalled good
  | wake n waiting signalled =>
    have hgood : s.err ≠ true := fun failed => (h.waits failed).1 waiting
    have horder := h.order
    rw [waiting] at horder
    exact ⟨horder, by simp, fun failed => absurd failed hgood, fun _ => .inr (.inr (.inr rfl)),
      h.clean⟩
  | timeout waiting silent =>
    have horder := h.order
    rw [waiting] at horder
    refine ⟨horder, by simp, by simp, fun good => ?_, h.clean⟩
    simpa [waiting] using h.signalled good
  | empty sending none =>
    have horder := h.order
    rw [sending] at horder
    exact ⟨horder, by simp, by simp, fun _ => .inl none, h.clean⟩
  | dequeue sending some =>
    have horder := h.order
    rw [sending] at horder
    refine ⟨?_, by simp, by simp, fun _ => .inl rfl, fun _ => rfl⟩
    simpa [Worker.taken] using horder
  | reply r req reqs reading good =>
    rw [invoke_eq]
    refine ⟨h.invoked_order reading _, by simp, by simp, fun _ => ?_, h.clean⟩
    simpa [reading] using h.signalled good
  | fail req reqs reading good =>
    rw [invoke_eq]
    exact ⟨h.invoked_order reading _, by simp, by simp, by simp, fun _ => of_decide_eq_true clean⟩
  | null req reqs reading failed =>
    rw [invoke_eq]
    exact ⟨h.invoked_order reading _, by simp, by simp, by simp [failed], h.clean⟩
  | done reading =>
    have horder := h.order
    rw [reading] at horder
    refine ⟨horder, by simp, by simp, fun good => ?_, h.clean⟩
    simpa [reading] using h.signalled good

lemma work_decreases (waits : s.err = true → s.worker ≠ .waiting) (busy : ¬ AtRest s)
    (own : m.Own) (hm : step hash s m = some t) : work t < work s := by
  cases step_cases hm with
  | check loop =>
    by_cases failed : s.err = true
    · simp [work, loop, failed]
    · simp [work, loop, failed]
  | wake n waiting signalled =>
    simp only [work, waiting, signalled]
    omega
  | timeout waiting silent =>
    have good : s.err = false := by simpa using fun failed => waits failed waiting
    exact absurd (.inr ⟨good, silent, .inr waiting⟩) busy
  | empty sending none =>
    simp only [work, sending, none]
    omega
  | dequeue sending some =>
    simp only [work, sending, List.length_nil]
    omega
  | reply r req reqs reading good =>
    rw [invoke_eq]
    simp only [work, reading, List.length_cons]
    omega
  | fail req reqs reading good =>
    rw [invoke_eq]
    simp only [work, reading, List.length_cons]
    omega
  | null req reqs reading failed =>
    rw [invoke_eq]
    simp only [work, reading, List.length_cons]
    omega
  | done reading =>
    simp only [work, reading, List.length_nil]
    omega
  | _ => exact own.elim

lemma own_move (busy : ¬ AtRest s) : ∃ m : Move, m.Own ∧ (step hash s m).isSome = true := by
  cases hworker : s.worker with
  | loop => exact ⟨.check, trivial, by simp [step, hworker]⟩
  | waiting =>
    cases hsem : s.pipelineSem with
    | zero => exact ⟨.timeout, trivial, by simp [step, hworker, hsem]⟩
    | succ n => exact ⟨.wake, trivial, by simp [step, hworker, hsem]⟩
  | sending =>
    cases hcommands : s.commands with
    | nil => exact ⟨.dequeue, trivial, by simp [step, hworker, hcommands]⟩
    | cons req reqs => exact ⟨.dequeue, trivial, by simp [step, hworker, hcommands]⟩
  | reading reqs =>
    cases reqs with
    | nil => exact ⟨.done, trivial, by simp [step, hworker]⟩
    | cons req reqs =>
      cases herr : s.err with
      | false => exact ⟨.reply .nil, trivial, by simp [step, hworker, herr]⟩
      | true => exact ⟨.null, trivial, by simp [step, hworker, herr]⟩
  | exited => exact absurd (.inl hworker) busy

/-- At rest nothing is left, neither taken nor in the queue. -/
theorem Accounts.rest (h : Accounts s) (rest : AtRest s) (settled : ¬ Putting s.thread) :
    callbacks s.worker.taken = [] ∧ callbacks s.commands = [] := by
  rcases rest with exited | ⟨good, silent, hworker⟩
  · rw [exited]
    exact ⟨rfl, h.clean (h.exited exited)⟩
  · have hnot : s.worker ≠ .sending := by
      rcases hworker with hworker | hworker
      · simp [hworker]
      · simp [hworker]
    have hnone : s.commands = [] := by
      rcases h.signalled good with hnone | hputting | hsignal | hsending
      · exact hnone
      · exact absurd hputting settled
      · omega
      · exact absurd hsending hnot
    rw [hnone]
    rcases hworker with hworker | hworker
    · exact ⟨by rw [hworker]; rfl, rfl⟩
    · exact ⟨by rw [hworker]; rfl, rfl⟩

lemma Accounts.served (h : Accounts s) : Served hash s where
  once := by
    have hall : (List.range s.issued).Nodup := List.nodup_range
    rw [← h.order, List.append_assoc] at hall
    exact (List.nodup_append.mp hall).1
  issued := by
    intro n hn
    have hmem : n ∈ List.range s.issued := by
      rw [← h.order, List.append_assoc]
      exact List.mem_append_left _ hn
    exact List.mem_range.mp hmem
  stranded := fun exited => h.clean (h.exited exited)
  moves := own_move
  works := fun m t busy own hm => work_decreases (fun failed => (h.waits failed).1) busy own hm
  all := by
    intro rest settled n hn
    obtain ⟨htaken, hqueue⟩ := h.rest rest settled
    have horder := h.order
    rw [htaken, hqueue, List.append_nil, List.append_nil] at horder
    rw [horder]
    exact List.mem_range.mpr hn

/-- In every run in which the connection fails cleanly, the client serves the query thread. -/
theorem commands_served {query : Option Job} {trace : List (State × Move)}
    (run : Run (fun a m b => step hash a m = some b) (start settings hash query) trace t)
    (clean : ∀ x ∈ trace, failsClean x.1 x.2 = true) : Served hash t := by
  have preserved : ∀ (a : State) (m : Move) (b : State), Accounts a → failsClean a m = true →
      step hash a m = some b → Accounts b := fun _ _ _ h hclean hm => h.step hclean hm
  exact (run.invariant (accounts_start settings hash query) preserved clean).served

def setupMoves : List Move :=
  [.put, .commit, .check, .wake, .dequeue, .reply (.status (bytes "OK")), .done, .resume,
    .put, .commit, .put, .commit, .check, .wake, .dequeue, .reply (.status (bytes "OK")),
    .reply (.string scriptSha), .done, .resume]

def saveFails : List Move :=
  setupMoves ++ [.commit, .put, .commit, .finish, .check, .wake, .dequeue, .fail, .done, .check]

def saving : State := start ⟨bytes "secret", 3⟩ List.length
  (some (.insertData (bytes "STEAM_1:0:7") 5 (bytes "on")))

lemma saveFails_isSome : (advance (step List.length) saving saveFails).isSome = true := by
  decide +kernel

theorem commands_served_saveFails : Served List.length (Option.get _ saveFails_isSome) := by
  have run := advance_run (Option.some_get saveFails_isSome).symm
  have clean : (advanceTrace (step List.length) saving saveFails).all
      (fun x => failsClean x.1 x.2) = true := by decide +kernel
  exact commands_served run (List.all_eq_true.mp clean)

def scriptFails : List Move :=
  setupMoves ++ [.commit, .put, .commit, .check, .wake, .dequeue, .fail, .resume, .put, .commit,
    .done, .check]

def loading : State := start ⟨bytes "secret", 3⟩ List.length
  (some (.selectData (bytes "STEAM_1:0:7")))

lemma scriptFails_isSome : (advance (step List.length) loading scriptFails).isSome = true := by
  decide +kernel

theorem keys_never_answered : ¬ ∀ (settings : Settings) (hash : Bytes → ℕ) (query : Option Job)
    (trace : List (State × Move)) (t : State),
    Run (fun a m b => step hash a m = some b) (start settings hash query) trace t →
    ∀ n, Blocked t n → n ∈ callbacks t.commands → t.worker ≠ .exited := by
  intro h
  have run := advance_run (Option.some_get scriptFails_isSome).symm
  have hblocked : 3 ∈ (Option.get _ scriptFails_isSome).thread.waitsFor ∧
      3 ∉ (Option.get _ scriptFails_isSome).invoked.map Prod.fst := by decide +kernel
  have hwaiting : 3 ∈ callbacks (Option.get _ scriptFails_isSome).commands := by decide +kernel
  have hexited : (Option.get _ scriptFails_isSome).worker = .exited := by decide +kernel
  exact h _ _ _ _ _ run 3 hblocked hwaiting hexited

end ClientPrefs.ClientThread
