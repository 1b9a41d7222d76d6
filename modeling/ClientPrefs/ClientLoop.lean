import ClientPrefs.ByteStrings
import ClientPrefs.Rounds
import ClientPrefs.Transition

/-!
# The worker loop of a client

The worker thread that `client::Connect` starts, and the thread that owns the client and calls
`Append`, `Commit` and `Disconnect`. They share the queue `m_commands`, the semaphore
`pipeline_sem` and the flags `flush_pipeline` and `stopped`; every read or write of one of these
is a step of its own.
-/
namespace ClientPrefs.ClientLoop
open ByteStrings Rounds Transition

def crlf : Bytes := [13, 10]

/-- One turn of the loop of `client::formatCommand`. -/
def bulkString (cmdPart : Bytes) : Bytes :=
  bytes "$" ++ natText cmdPart.length ++ crlf ++ cmdPart ++ crlf

/-- `client::formatCommand`. -/
def formatCommand (redisCmd : List Bytes) : Bytes :=
  bytes "*" ++ natText redisCmd.length ++ crlf ++ redisCmd.flatMap bulkString

lemma formatCommand_ne_nil (redisCmd : List Bytes) : formatCommand redisCmd ≠ [] := by
  simp [formatCommand, bytes]

structure Config where
  cacheSize : ℕ
  pipeTimeout : ℕ
  deriving DecidableEq, Repr

structure CommandRequest where
  command : Bytes
  callback : Option ℕ
  deriving DecidableEq, Repr

def CommandRequest.blank : CommandRequest := ⟨[], none⟩

/-- What `Append` enqueues. -/
def request (redisCmd : List Bytes) (callback : Option ℕ) : CommandRequest :=
  ⟨formatCommand redisCmd, callback⟩

/-- The vector and the count of `send`; `rounds` is what each `wait_dequeue_bulk_timed` took
from the queue, which the source does not keep. -/
structure Batch where
  reqs : List CommandRequest
  dequeued : ℕ
  rounds : List (List CommandRequest)
  filled : reqs = fill (List.replicate reqs.length .blank) rounds
  counted : dequeued = rounds.flatten.length
  room : dequeued ≤ reqs.length

namespace Batch

/-- `reqs.clear(); reqs.resize(queue_size)`. -/
def resize (queueSize : ℕ) : Batch where
  reqs := List.replicate queueSize .blank
  dequeued := 0
  rounds := []
  filled := by rw [List.length_replicate]; rfl
  counted := rfl
  room := Nat.zero_le _

/-- `dequeued += wait_dequeue_bulk_timed(reqs.begin(), reqs.size() - dequeued, ..)`. -/
def waitDequeueBulkTimed (b : Batch) (got : List CommandRequest)
    (h : got.length ≤ b.reqs.length - b.dequeued) : Batch where
  reqs := write b.reqs got
  dequeued := b.dequeued + got.length
  rounds := b.rounds ++ [got]
  filled := by rw [length_write (by omega), fill_concat, ← b.filled]
  counted := by simp [b.counted]
  room := by
    have := b.room
    rw [length_write (by omega)]
    omega

def req (b : Batch) (i : ℕ) : CommandRequest := b.reqs.getD i .blank

/-- The part of the vector that the two loops of `send` go through. -/
def toSend (b : Batch) : List CommandRequest := b.reqs.take b.dequeued

end Batch

inductive Worker
  /-- At `while (!stopped)`. -/
  | loop
  /-- At the test of `ctx->err`. -/
  | checking
  /-- At `pipeline_sem.wait`. -/
  | waiting
  /-- At `size_approx`. -/
  | sizing
  /-- At `wait_dequeue_bulk_timed`. -/
  | dequeuing (b : Batch)
  /-- At `!stopped && dequeued < queue_size`, and then at `!flush_pipeline`. -/
  | testing (b : Batch)
  | testingFlush (b : Batch)
  /-- The batch is taken from the queue. -/
  | assembled (b : Batch)
  /-- In the first loop of `send`, with the vector `appended`. -/
  | appending (b : Batch) (appended : List Bool)
  /-- In the second loop, before its turn `i`. -/
  | reading (b : Batch) (appended : List Bool) (i : ℕ)
  | exited

inductive Caller
  | ready
  /-- In `Commit`, after the assignment; and after the test has succeeded. -/
  | committing
  | signalling
  /-- In `Disconnect`, at `worker.join()`. -/
  | joining
  /-- After `redisFree`. -/
  | freed
  deriving DecidableEq, Repr

structure State where
  commands : List CommandRequest
  pipelineSem : ℕ
  flushPipeline : Bool
  stopped : Bool
  /-- `ctx->err` -/
  err : Bool
  worker : Worker
  caller : Caller
  /-- The commands handed to the connection, and the callbacks that were invoked. -/
  sent : List CommandRequest
  invoked : List ℕ
  /-- All commands appended so far, and those taken out of the queue. -/
  appended : List CommandRequest
  removed : List CommandRequest
  /-- How many commands were appended before the latest `Commit` that signalled. -/
  committed : ℕ

/-- A client when its `Connect` returns; an earlier connection may have left commands, signals
and the flag. -/
def start (commands : List (List Bytes × Option ℕ)) (pipelineSem : ℕ) (flushPipeline : Bool) :
    State where
  commands := commands.map fun c => request c.1 c.2
  pipelineSem := pipelineSem
  flushPipeline := flushPipeline
  stopped := false
  err := false
  worker := .loop
  caller := .ready
  sent := []
  invoked := []
  appended := commands.map fun c => request c.1 c.2
  removed := []
  committed := 0

inductive Event
  | append (redisCmd : List Bytes) (callback : Option ℕ)
  /-- `Commit`: the assignment, `IsConnected() && cache_size == 0`, the signal. -/
  | commit
  | isConnected
  | signal
  /-- `Disconnect`: the assignment, and what follows when the worker is joined. -/
  | disconnect
  | join
  | check
  | testErr
  | wake
  | timeout
  | size
  /-- The queue hands out `k` commands. -/
  | dequeue (k : ℕ)
  | test
  | testFlush
  | assemble
  | appendFormattedCommand (ok : Bool)
  | allAppended
  | getReply (ok : Bool)
  | allRead
  deriving DecidableEq, Repr

/-- `if (req.callback) req.callback(..)`. -/
def State.invoke (s : State) (req : CommandRequest) : State :=
  { s with invoked := s.invoked ++ req.callback.toList }

/-- One turn of the first loop. -/
def State.appendCommand (s : State) (b : Batch) (appended : List Bool) (ok : Bool) : State :=
  { s with
    sent := if ok then s.sent ++ [b.req appended.length] else s.sent
    err := s.err || !ok
    worker := .appending b (appended ++ [ok]) }

/-- One turn of the second loop; `redisGetReply` is called for an appended command only. -/
def State.readReply (s : State) (b : Batch) (appended : List Bool) (i : ℕ) (ok : Bool) : State :=
  { s.invoke (b.req i) with
    err := s.err || (appended.getD i false && !ok)
    worker := .reading b appended (i + 1) }

def step (cfg : Config) (s : State) : Event → Option State
  | .append redisCmd callback =>
    match s.caller with
    | .ready => some { s with
        commands := s.commands ++ [request redisCmd callback]
        appended := s.appended ++ [request redisCmd callback] }
    | _ => none
  | .commit =>
    match s.caller with
    | .ready => some { s with flushPipeline := true, caller := .committing }
    | _ => none
  | .isConnected =>
    match s.caller with
    | .committing => some { s with
        caller := if !s.err && !s.stopped && cfg.cacheSize = 0 then .signalling else .ready }
    | _ => none
  | .signal =>
    match s.caller with
    | .signalling => some { s with
        pipelineSem := s.pipelineSem + 1
        committed := s.appended.length
        caller := .ready }
    | _ => none
  | .disconnect =>
    match s.caller with
    | .ready => some { s with stopped := true, caller := .joining }
    | _ => none
  | .join =>
    match s.caller, s.worker with
    | .joining, .exited => some { s with caller := .freed }
    | _, _ => none
  | .check =>
    match s.worker with
    | .loop => some { s with worker := if s.stopped then .exited else .checking }
    | _ => none
  | .testErr =>
    match s.worker with
    | .checking =>
      some (if s.err then { s with stopped := true, worker := .exited }
        else { s with worker := if cfg.cacheSize = 0 then .waiting else .sizing })
    | _ => none
  | .wake =>
    match s.worker, s.pipelineSem with
    | .waiting, n + 1 => some { s with pipelineSem := n, worker := .sizing }
    | _, _ => none
  | .timeout =>
    match s.worker, s.pipelineSem with
    | .waiting, 0 => some { s with worker := .loop }
    | _, _ => none
  | .size =>
    match s.worker with
    | .sizing => some { s with
        worker := if s.commands.length = 0 then .loop
          else .dequeuing (.resize (if cfg.cacheSize < s.commands.length then s.commands.length
            else cfg.cacheSize)) }
    | _ => none
  | .dequeue k =>
    match s.worker with
    | .dequeuing b =>
      if h : k ≤ s.commands.length ∧ (s.commands.take k).length ≤ b.reqs.length - b.dequeued then
        some { s with
          commands := s.commands.drop k
          removed := s.removed ++ s.commands.take k
          worker := (if cfg.pipeTimeout = 0 then Worker.testing else Worker.assembled)
            (b.waitDequeueBulkTimed (s.commands.take k) h.2) }
      else none
    | _ => none
  | .test =>
    match s.worker with
    | .testing b => some { s with
        worker := if !s.stopped && b.dequeued < b.reqs.length then .testingFlush b
          else .assembled b }
    | _ => none
  | .testFlush =>
    match s.worker with
    | .testingFlush b => some { s with
        worker := if s.flushPipeline then .assembled b else .dequeuing b }
    | _ => none
  | .assemble =>
    match s.worker with
    | .assembled b =>
      some (if b.dequeued = 0 then { s with worker := .loop }
        else { s with flushPipeline := false, worker := .appending b [] })
    | _ => none
  | .appendFormattedCommand ok =>
    match s.worker with
    | .appending b appended =>
      if appended.length < b.dequeued then some (s.appendCommand b appended ok) else none
    | _ => none
  | .allAppended =>
    match s.worker with
    | .appending b appended =>
      if appended.length = b.dequeued then some { s with worker := .reading b appended 0 } else none
    | _ => none
  | .getReply ok =>
    match s.worker with
    | .reading b appended i =>
      if i < b.dequeued then some (s.readReply b appended i ok) else none
    | _ => none
  | .allRead =>
    match s.worker with
    | .reading b _ i => if i = b.dequeued then some { s with worker := .loop } else none
    | _ => none

abbrev Step (cfg : Config) (s : State) (e : Event) (t : State) : Prop := step cfg s e = some t

inductive Steps (cfg : Config) (s : State) : Event → State → Prop
  | append (redisCmd : List Bytes) (callback : Option ℕ) (ready : s.caller = .ready) :
      Steps cfg s (.append redisCmd callback) { s with
        commands := s.commands ++ [request redisCmd callback]
        appended := s.appended ++ [request redisCmd callback] }
  | commit (ready : s.caller = .ready) :
      Steps cfg s .commit { s with flushPipeline := true, caller := .committing }
  | isConnected (committing : s.caller = .committing) :
      Steps cfg s .isConnected { s with
        caller := if !s.err && !s.stopped && cfg.cacheSize = 0 then .signalling else .ready }
  | signal (signalling : s.caller = .signalling) :
      Steps cfg s .signal { s with
        pipelineSem := s.pipelineSem + 1, committed := s.appended.length, caller := .ready }
  | disconnect (ready : s.caller = .ready) :
      Steps cfg s .disconnect { s with stopped := true, caller := .joining }
  | join (joining : s.caller = .joining) (exited : s.worker = .exited) :
      Steps cfg s .join { s with caller := .freed }
  | stop (loop : s.worker = .loop) (stopped : s.stopped = true) :
      Steps cfg s .check { s with worker := .exited }
  | check (loop : s.worker = .loop) (running : s.stopped = false) :
      Steps cfg s .check { s with worker := .checking }
  | failed (checking : s.worker = .checking) (failed : s.err = true) :
      Steps cfg s .testErr { s with stopped := true, worker := .exited }
  | testErr (checking : s.worker = .checking) (good : s.err = false) :
      Steps cfg s .testErr { s with worker := if cfg.cacheSize = 0 then .waiting else .sizing }
  | wake (n : ℕ) (waiting : s.worker = .waiting) (signalled : s.pipelineSem = n + 1) :
      Steps cfg s .wake { s with pipelineSem := n, worker := .sizing }
  | timeout (waiting : s.worker = .waiting) (silent : s.pipelineSem = 0) :
      Steps cfg s .timeout { s with worker := .loop }
  | sleep (sizing : s.worker = .sizing) (none : s.commands = []) :
      Steps cfg s .size { s with worker := .loop }
  | size (sizing : s.worker = .sizing) (some : s.commands ≠ []) :
      Steps cfg s .size { s with
        worker := .dequeuing (.resize (max s.commands.length cfg.cacheSize)) }
  | dequeue (b : Batch) (k : ℕ) (dequeuing : s.worker = .dequeuing b)
      (available : k ≤ s.commands.length)
      (room : (s.commands.take k).length ≤ b.reqs.length - b.dequeued) :
      Steps cfg s (.dequeue k) { s with
        commands := s.commands.drop k
        removed := s.removed ++ s.commands.take k
        worker := (if cfg.pipeTimeout = 0 then Worker.testing else Worker.assembled)
          (b.waitDequeueBulkTimed (s.commands.take k) room) }
  | again (b : Batch) (testing : s.worker = .testing b) (running : s.stopped = false)
      (short : b.dequeued < b.reqs.length) : Steps cfg s .test { s with worker := .testingFlush b }
  | enough (b : Batch) (testing : s.worker = .testing b)
      (full : s.stopped = true ∨ b.reqs.length ≤ b.dequeued) :
      Steps cfg s .test { s with worker := .assembled b }
  | flush (b : Batch) (testing : s.worker = .testingFlush b) :
      Steps cfg s .testFlush { s with
        worker := if s.flushPipeline then .assembled b else .dequeuing b }
  | nothing (b : Batch) (assembled : s.worker = .assembled b) (none : b.dequeued = 0) :
      Steps cfg s .assemble { s with worker := .loop }
  | assemble (b : Batch) (assembled : s.worker = .assembled b) (some : b.dequeued ≠ 0) :
      Steps cfg s .assemble { s with flushPipeline := false, worker := .appending b [] }
  | appendFormattedCommand (b : Batch) (appended : List Bool) (ok : Bool)
      (appending : s.worker = .appending b appended) (more : appended.length < b.dequeued) :
      Steps cfg s (.appendFormattedCommand ok) (s.appendCommand b appended ok)
  | allAppended (b : Batch) (appended : List Bool) (appending : s.worker = .appending b appended)
      (all : appended.length = b.dequeued) :
      Steps cfg s .allAppended { s with worker := .reading b appended 0 }
  | getReply (b : Batch) (appended : List Bool) (i : ℕ) (ok : Bool)
      (reading : s.worker = .reading b appended i) (more : i < b.dequeued) :
      Steps cfg s (.getReply ok) (s.readReply b appended i ok)
  | allRead (b : Batch) (appended : List Bool) (i : ℕ) (reading : s.worker = .reading b appended i)
      (all : i = b.dequeued) : Steps cfg s .allRead { s with worker := .loop }

def Worker.batch : Worker → Option Batch
  | .dequeuing b => some b
  | .testing b => some b
  | .testingFlush b => some b
  | .assembled b => some b
  | .appending b _ => some b
  | .reading b _ _ => some b
  | _ => none

/-- `wait_dequeue_bulk_timed` hands out as many commands as there are, up to its bound; its
semaphore counts them. -/
def greedy (s : State) (e : Event) : Bool :=
  match s.worker, e with
  | .dequeuing b, .dequeue k => k = min s.commands.length (b.reqs.length - b.dequeued)
  | _, _ => true

abbrev Greedy (s : State) (e : Event) : Prop := greedy s e = true

variable {cfg : Config} {s t : State} {e : Event} {b : Batch} {trace : List (State × Event)}
  {commands : List (List Bytes × Option ℕ)} {sem : ℕ} {flush : Bool}

theorem step_cases (h : step cfg s e = some t) : Steps cfg s e t := by
  cases e with
  | append redisCmd callback =>
    simp only [step] at h
    split at h
    · next ready =>
      obtain rfl := Option.some.inj h
      exact .append redisCmd callback ready
    · cases h
  | commit =>
    simp only [step] at h
    split at h
    · next ready =>
      obtain rfl := Option.some.inj h
      exact .commit ready
    · cases h
  | isConnected =>
    simp only [step] at h
    split at h
    · next committing =>
      obtain rfl := Option.some.inj h
      exact .isConnected committing
    · cases h
  | signal =>
    simp only [step] at h
    split at h
    · next signalling =>
      obtain rfl := Option.some.inj h
      exact .signal signalling
    · cases h
  | disconnect =>
    simp only [step] at h
    split at h
    · next ready =>
      obtain rfl := Option.some.inj h
      exact .disconnect ready
    · cases h
  | join =>
    simp only [step] at h
    split at h
    · next joining exited =>
      obtain rfl := Option.some.inj h
      exact .join joining exited
    · cases h
  | check =>
    simp only [step] at h
    split at h
    · next loop =>
      obtain rfl := Option.some.inj h
      split_ifs with stopped
      · exact .stop loop stopped
      · exact .check loop (Bool.eq_false_iff.mpr stopped)
    · cases h
  | testErr =>
    simp only [step] at h
    split at h
    · next checking =>
      obtain rfl := Option.some.inj h
      by_cases failed : s.err = true
      · rw [if_pos failed]
        exact .failed checking failed
      · rw [if_neg failed]
        exact .testErr checking (Bool.eq_false_iff.mpr failed)
    · cases h
  | wake =>
    simp only [step] at h
    split at h
    · next n waiting signalled =>
      obtain rfl := Option.some.inj h
      exact .wake n waiting signalled
    · cases h
  | timeout =>
    simp only [step] at h
    split at h
    · next waiting silent =>
      obtain rfl := Option.some.inj h
      exact .timeout waiting silent
    · cases h
  | size =>
    simp only [step] at h
    split at h
    · next sizing =>
      obtain rfl := Option.some.inj h
      split_ifs with none more
      · exact .sleep sizing (List.length_eq_zero_iff.mp none)
      · rw [← max_eq_left more.le]
        exact .size sizing fun h => none (by rw [h, List.length_nil])
      · rw [← max_eq_right (not_lt.mp more)]
        exact .size sizing fun h => none (by rw [h, List.length_nil])
    · cases h
  | dequeue k =>
    simp only [step] at h
    split at h
    · next b dequeuing =>
      by_cases fits : k ≤ s.commands.length ∧
          (s.commands.take k).length ≤ b.reqs.length - b.dequeued
      · rw [dif_pos fits] at h
        obtain rfl := Option.some.inj h
        exact .dequeue b k dequeuing fits.1 fits.2
      · rw [dif_neg fits] at h
        cases h
    · cases h
  | test =>
    simp only [step] at h
    split at h
    · next b testing =>
      obtain rfl := Option.some.inj h
      split_ifs with short
      · simp only [Bool.and_eq_true, Bool.not_eq_true', decide_eq_true_eq] at short
        exact .again b testing short.1 short.2
      · refine .enough b testing ?_
        by_contra full
        rw [not_or, Bool.not_eq_true, not_le] at full
        exact short (by simp [full])
    · cases h
  | testFlush =>
    simp only [step] at h
    split at h
    · next b testing =>
      obtain rfl := Option.some.inj h
      exact .flush b testing
    · cases h
  | assemble =>
    simp only [step] at h
    split at h
    · next b assembled =>
      obtain rfl := Option.some.inj h
      split_ifs with none
      · exact .nothing b assembled none
      · exact .assemble b assembled none
    · cases h
  | appendFormattedCommand ok =>
    simp only [step] at h
    split at h
    · next b appended appending =>
      split_ifs at h with more
      obtain rfl := Option.some.inj h
      exact .appendFormattedCommand b appended ok appending more
    · cases h
  | allAppended =>
    simp only [step] at h
    split at h
    · next b appended appending =>
      split_ifs at h with all
      obtain rfl := Option.some.inj h
      exact .allAppended b appended appending all
    · cases h
  | getReply ok =>
    simp only [step] at h
    split at h
    · next b appended i reading =>
      split_ifs at h with more
      obtain rfl := Option.some.inj h
      exact .getReply b appended i ok reading more
    · cases h
  | allRead =>
    simp only [step] at h
    split at h
    · next b appended i reading =>
      split_ifs at h with all
      obtain rfl := Option.some.inj h
      exact .allRead b appended i reading all
    · cases h

lemma toSend_drop {i : ℕ} (h : i < b.dequeued) :
    b.toSend.drop i = b.req i :: b.toSend.drop (i + 1) := by
  have inside : i < b.reqs.length := h.trans_le b.room
  have hi : i < b.toSend.length := by
    rw [Batch.toSend, List.length_take]
    omega
  rw [List.drop_eq_getElem_cons hi, Batch.req, List.getD_eq_getElem _ _ inside]
  simp only [Batch.toSend, List.getElem_take]

lemma length_toSend (b : Batch) : b.toSend.length = b.dequeued := by
  rw [Batch.toSend, List.length_take, min_eq_left b.room]

lemma toSend_drop_all {i : ℕ} (h : i = b.dequeued) : b.toSend.drop i = [] := by
  rw [Batch.toSend, List.drop_eq_nil_iff, List.length_take]
  omega

lemma toSend_nothing (h : b.dequeued = 0) : b.toSend = [] := by
  rw [Batch.toSend, h, List.take_zero]

lemma toSend_got {got : List CommandRequest}
    (room : got.length ≤ b.reqs.length - b.dequeued) (none : b.dequeued = 0) :
    (b.waitDequeueBulkTimed got room).toSend = got := by
  simp only [Batch.toSend, Batch.waitDequeueBulkTimed, write, none, zero_add, List.take_left]

lemma Greedy.dequeue {k : ℕ} (h : Greedy s (.dequeue k)) (dequeuing : s.worker = .dequeuing b) :
    k = min s.commands.length (b.reqs.length - b.dequeued) := by
  simpa only [Greedy, greedy, dequeuing, decide_eq_true_eq] using h

end ClientPrefs.ClientLoop
