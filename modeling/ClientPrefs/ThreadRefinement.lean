import ClientPrefs.ClientThread
import ClientPrefs.Commits

/-!
# The thread of a client, taken apart

`ClientThread` empties the queue in one step and reads no flags. Here every step of the worker
loop, in manual mode and before `Disconnect`, is one of its moves or none.
-/
namespace ClientPrefs.ThreadRefinement
open BatchAssembly ByteStrings ClientLoop Commits ConnectionSetup Transition

def redisCmd : Request → List Bytes
  | .auth pass => [bytes "AUTH", pass]
  | .select index => [bytes "SELECT", toText index]
  | .scriptLoad script => [bytes "SCRIPT", bytes "LOAD", script]
  | .query (.get key) => [bytes "GET", key]
  | .query (.set key value) => [bytes "SET", key, value]
  | .query (.setEx key value seconds) => [bytes "SET", key, value, bytes "EX", natText seconds]
  | .query (.sadd key member) => [bytes "SADD", key, member]
  | .query (.keys stem) => [bytes "KEYS", stem ++ bytes "*"]
  | .query (.evalsha sha key) => [bytes "EVALSHA", sha, bytes "1", key]

def encode (req : ClientThread.CommandRequest) : CommandRequest :=
  request (redisCmd req.command) req.callback

/-- The commands of the batch whose callbacks are still to be invoked. -/
def inHand (s : State) : List CommandRequest :=
  match s.worker with
  | .dequeuing b => s.commands.take b.reqs.length
  | .testing b => b.toSend
  | .assembled b => b.toSend
  | .appending b _ => b.toSend
  | .reading b _ i => b.toSend.drop i
  | _ => []

/-- The commands that are not in the snapshot of a batch. -/
def queued (s : State) : List CommandRequest :=
  match s.worker with
  | .dequeuing b => s.commands.drop b.reqs.length
  | _ => s.commands

/-- Where the thread of `ClientThread` is. -/
def Place (s : State) (w : ClientThread.Worker) : Prop :=
  match s.worker with
  | .loop => w = .loop
  | .checking => w = .loop
  | .waiting => w = .waiting
  | .sizing => w = .sending
  | .exited => w = .exited
  | _ => ∃ reqs, w = .reading reqs ∧ reqs.map encode = inHand s

/-- What the worker has seen succeed where it is. -/
def Intact (s : State) : Prop :=
  match s.worker with
  | .loop => s.stopped = false
  | .checking => s.stopped = false
  | .appending _ appended => s.err = false ∧ s.stopped = false ∧ ∀ ok ∈ appended, ok = true
  | .reading b appended _ => s.stopped = false ∧ appended = List.replicate b.dequeued true
  | .exited => s.stopped = true
  | _ => s.err = false ∧ s.stopped = false

/-- The two models agree; the replies are left open by the worker loop. -/
structure Sim (s : State) (u : ClientThread.State) : Prop where
  place : Place s u.worker
  intact : Intact s
  queue : u.commands.map encode = queued s
  err : u.err = s.err
  signals : s.err = false → u.pipelineSem = s.pipelineSem
  invoked : u.invoked.map Prod.fst = s.invoked

def Event.Own : Event → Prop
  | .append _ _ => False
  | .commit => False
  | .isConnected => False
  | .signal => False
  | .disconnect => False
  | .join => False
  | _ => True

/-- Appending does not run out of memory, and a failed connection stays so. -/
def Lawful (s : State) : Event → Prop
  | .appendFormattedCommand ok => ok = true
  | .getReply ok => ok = true → s.err = false
  | _ => True

variable {hash : Bytes → ℕ} {s t : State} {u v : ClientThread.State} {e : Event}

/-- One move of `ClientThread`, or none. -/
def MovesTo (hash : Bytes → ℕ) (u v : ClientThread.State) : Prop :=
  v = u ∨ ∃ m : ClientThread.Move, m.Own ∧ ClientThread.step hash u m = some v

lemma Sim.append (h : Sim s u) (one : OneRound manual s) (req : ClientThread.CommandRequest) :
    Sim { s with
      commands := s.commands ++ [encode req]
      appended := s.appended ++ [encode req] } { u with commands := u.commands ++ [req] } := by
  obtain ⟨place, intact, queue, err, signals, invoked⟩ := h
  unfold Place at place
  unfold queued at queue
  refine ⟨?_, intact, ?_, err, signals, invoked⟩
  · cases hw : s.worker with
    | dequeuing b =>
      have whole := (one.snapshot b hw).2 rfl
      simp only [hw, inHand] at place
      simp only [Place, inHand, List.take_append_of_le_length whole]
      exact place
    | _ =>
      simp only [hw, inHand] at place
      simp only [Place, inHand]
      exact place
  · cases hw : s.worker with
    | dequeuing b =>
      have whole := (one.snapshot b hw).2 rfl
      simp only [hw] at queue
      simp only [queued, List.drop_append_of_le_length whole, List.map_append, queue,
        List.map_cons, List.map_nil]
    | _ =>
      simp only [hw] at queue
      simp only [queued, List.map_append, queue, List.map_cons, List.map_nil]

lemma invoke_reading (u : ClientThread.State) (req : ClientThread.CommandRequest)
    (r : Option RedisReply.Reply) (rest : List ClientThread.CommandRequest) :
    { u.invoke req r with worker := .reading rest } =
      { u with invoked := (u.invoke req r).invoked, worker := .reading rest } := by
  rw [ClientThread.State.invoke]
  split <;> rfl

lemma Sim.appendCommand (h : Sim s u) {b : Batch} {appended : List Bool}
    (appending : s.worker = .appending b appended) : Sim (s.appendCommand b appended true) u := by
  obtain ⟨place, intact, queue, err, signals, invoked⟩ := h
  simp only [Place, appending, inHand] at place
  simp only [Intact, appending] at intact
  simp only [queued, appending] at queue
  obtain ⟨good, running, all⟩ := intact
  have still : (s.appendCommand b appended true).err = false := by
    simp [State.appendCommand, good]
  refine ⟨place, ⟨still, running, fun ok hok => ?_⟩, queue, ?_, fun _ => signals good, invoked⟩
  · rcases List.mem_append.mp hok with hok | hok
    · exact all ok hok
    · exact List.mem_singleton.mp hok
  · rw [err, still, good]

lemma Sim.next (h : Sim s u) {b : Batch} {appended : List Bool} {i : ℕ}
    (reading : s.worker = .reading b appended i) (more : i < b.dequeued) :
    ∃ req rest, u.worker = .reading (req :: rest) ∧ encode req = b.req i ∧
      rest.map encode = b.toSend.drop (i + 1) := by
  have place := h.place
  simp only [Place, reading, inHand, toSend_drop more] at place
  obtain ⟨reqs, at_reading, hand⟩ := place
  obtain ⟨req, rest, rfl, hreq, hrest⟩ := List.map_eq_cons_iff.mp hand
  exact ⟨req, rest, at_reading, hreq, hrest⟩

lemma Sim.readReply (h : Sim s u) {b : Batch} {appended : List Bool} {i : ℕ} {ok : Bool}
    (reading : s.worker = .reading b appended i) (more : i < b.dequeued)
    (lawful : ok = true → s.err = false) :
    ∃ v, MovesTo hash u v ∧ Sim (s.readReply b appended i ok) v := by
  obtain ⟨req, rest, at_reading, hreq, hrest⟩ := h.next reading more
  obtain ⟨_, intact, queue, err, signals, invoked⟩ := h
  simp only [Intact, reading] at intact
  simp only [queued, reading] at queue
  obtain ⟨running, hall⟩ := intact
  have own_reply : appended.getD i false = true := by
    rw [hall, List.getD_replicate _ more]
  have callbacks : ∀ r, (u.invoke req r).invoked.map Prod.fst =
      s.invoked ++ (b.req i).callback.toList := by
    intro r
    rw [ClientThread.invoked_invoke, invoked, ← hreq]
    rfl
  cases ok with
  | true =>
    have good := lawful rfl
    have still : (s.readReply b appended i true).err = s.err := by simp [State.readReply]
    refine ⟨{ u with
        invoked := (u.invoke req (Option.some .nil)).invoked, worker := .reading rest },
      .inr ⟨.reply .nil, trivial, ?_⟩, ⟨rest, rfl, hrest⟩, ⟨running, hall⟩, queue,
      err.trans still.symm, fun _ => signals good, callbacks _⟩
    simp only [ClientThread.step, at_reading, err, good, invoke_reading]
  | false =>
    have broken : (s.readReply b appended i false).err = true := by
      simp only [State.readReply, own_reply, Bool.not_false, Bool.and_self, Bool.or_true]
    refine ⟨{ u with
        invoked := (u.invoke req none).invoked, err := true, worker := .reading rest }, ?_,
      ⟨rest, rfl, hrest⟩, ⟨running, hall⟩, queue, broken.symm, fun good => ?_, callbacks _⟩
    · cases failed : s.err with
      | false =>
        refine .inr ⟨.fail, trivial, ?_⟩
        simp only [ClientThread.step, at_reading, err, failed]
        exact congrArg (fun v : ClientThread.State => Option.some { v with err := true })
          (invoke_reading u req none rest)
      | true =>
        refine .inr ⟨.null, trivial, ?_⟩
        simp only [ClientThread.step, at_reading, err, failed, invoke_reading]
    · rw [broken] at good
      cases good

/-- Each step of the worker thread is a move of `ClientThread` or none. -/
theorem Sim.step (h : Sim s u) (one : OneRound manual s) (greedy : Greedy s e)
    (lawful : Lawful s e) (own : Event.Own e) (hstep : Step manual s e t) :
    ∃ v, MovesTo hash u v ∧ Sim t v := by
  have ⟨place, intact, queue, err, signals, invoked⟩ := h
  unfold Place at place
  unfold Intact at intact
  unfold queued at queue
  cases step_cases hstep with
  | append => exact own.elim
  | commit => exact own.elim
  | isConnected => exact own.elim
  | signal => exact own.elim
  | disconnect => exact own.elim
  | join => exact own.elim
  | stop loop stopped =>
    simp only [loop] at intact
    exact absurd (intact.symm.trans stopped) (by decide)
  | check loop =>
    simp only [loop] at place intact queue
    exact ⟨u, .inl rfl, place, intact, queue, err, signals, invoked⟩
  | failed checking failed =>
    simp only [checking] at place intact queue
    refine ⟨{ u with worker := .exited }, .inr ⟨.check, trivial, ?_⟩, rfl, rfl, queue, err,
      signals, invoked⟩
    simp only [ClientThread.step, place, err, failed, if_pos]
  | testErr checking good =>
    simp only [checking] at place intact queue
    refine ⟨{ u with worker := .waiting }, .inr ⟨.check, trivial, ?_⟩, rfl, ⟨good, intact⟩, queue,
      err, signals, invoked⟩
    simp only [ClientThread.step, place, err, good, Bool.false_eq_true, if_false]
  | wake n waiting signalled =>
    simp only [waiting] at place intact queue
    refine ⟨{ u with pipelineSem := n, worker := .sending }, .inr ⟨.wake, trivial, ?_⟩, rfl, intact,
      queue, err, fun _ => rfl, invoked⟩
    simp only [ClientThread.step, place, signals intact.1, signalled]
  | timeout waiting silent =>
    simp only [waiting] at place intact queue
    refine ⟨{ u with worker := .loop }, .inr ⟨.timeout, trivial, ?_⟩, rfl, intact.2, queue, err,
      signals, invoked⟩
    simp only [ClientThread.step, place, signals intact.1, silent]
  | sleep sizing none =>
    simp only [sizing] at place intact queue
    rw [none, List.map_eq_nil_iff] at queue
    refine ⟨{ u with worker := .loop }, .inr ⟨.dequeue, trivial, ?_⟩, rfl, intact.2, ?_, err,
      signals, invoked⟩
    · simp only [ClientThread.step, place, queue]
    · simp only [queue, queued, none, List.map_nil]
  | size sizing some =>
    simp only [sizing] at place intact queue
    have hlength : max s.commands.length manual.cacheSize = s.commands.length :=
      max_eq_left (Nat.zero_le _)
    refine ⟨{ u with commands := [], worker := .reading u.commands },
      .inr ⟨.dequeue, trivial, ?_⟩, ⟨u.commands, rfl, ?_⟩, intact, ?_, err, signals, invoked⟩
    · cases hu : u.commands with
      | nil => simp [hu] at queue; exact absurd queue some
      | cons req reqs => simp only [ClientThread.step, place, hu]
    · simp only [inHand, Batch.resize, hlength, List.length_replicate, List.take_length, queue]
    · simp only [queued, Batch.resize, hlength, List.length_replicate, List.drop_length,
        List.map_nil]
  | dequeue b k dequeuing available room =>
    simp only [dequeuing, inHand] at place intact queue
    obtain ⟨zero, whole, _⟩ := one.dequeued greedy dequeuing rfl
    obtain ⟨reqs, at_reading, hand⟩ := place
    refine ⟨u, .inl rfl, ?_, ?_, ?_, err, signals, invoked⟩
    · simp only [manual_next, Place, inHand, toSend_got room zero]
      exact ⟨reqs, at_reading, by rw [hand, whole]⟩
    · simp only [manual_next, Intact]
      exact intact
    · simp only [manual_next, queued, whole]
      exact queue
  | again b testing running short => exact absurd (one.full b testing) short.ne
  | enough b testing =>
    simp only [testing, inHand] at place intact queue
    exact ⟨u, .inl rfl, place, intact, queue, err, signals, invoked⟩
  | flush b testing => exact absurd testing (one.through b)
  | nothing b assembled none =>
    simp only [assembled, inHand, toSend_nothing none] at place intact queue
    obtain ⟨reqs, at_reading, hand⟩ := place
    obtain rfl := List.map_eq_nil_iff.mp hand
    refine ⟨{ u with worker := .loop }, .inr ⟨.done, trivial, ?_⟩, rfl, intact.2, queue, err,
      signals, invoked⟩
    simp only [ClientThread.step, at_reading]
  | assemble b assembled =>
    simp only [assembled, inHand] at place intact queue
    exact ⟨u, .inl rfl, place, ⟨intact.1, intact.2, fun ok h => by cases h⟩, queue, err, signals,
      invoked⟩
  | appendFormattedCommand b appended ok appending =>
    obtain rfl : ok = true := lawful
    exact ⟨u, .inl rfl, h.appendCommand appending⟩
  | allAppended b appended appending all =>
    simp only [appending, inHand] at place intact queue
    refine ⟨u, .inl rfl, place, ⟨intact.2.1, ?_⟩, queue, err, signals, invoked⟩
    exact List.eq_replicate_iff.mpr ⟨all, intact.2.2⟩
  | getReply b appended i ok reading more => exact h.readReply reading more lawful
  | allRead b appended i reading all =>
    simp only [reading, inHand, toSend_drop_all all] at place intact queue
    obtain ⟨reqs, at_reading, hand⟩ := place
    obtain rfl := List.map_eq_nil_iff.mp hand
    refine ⟨{ u with worker := .loop }, .inr ⟨.done, trivial, ?_⟩, rfl, intact.1, queue, err,
      signals, invoked⟩
    simp only [ClientThread.step, at_reading]

lemma Sim.put (h : Sim s u) (one : OneRound manual s) (ready : s.caller = .ready)
    (hput : ClientThread.step hash u .put = some v) : ∃ redisCmd callback t,
      Step manual s (.append redisCmd callback) t ∧ t.caller = .ready ∧ Sim t v := by
  have appended : ∃ req thread issued, v =
      { u with commands := u.commands ++ [req], thread := thread, issued := issued } := by
    cases ClientThread.step_cases hput with
    | tell => exact ⟨_, _, _, rfl⟩
    | ask => exact ⟨_, _, _, rfl⟩
  obtain ⟨req, thread, issued, rfl⟩ := appended
  obtain ⟨place, intact, queue, err, signals, invoked⟩ := h.append one req
  refine ⟨redisCmd req.command, req.callback, _, ?_, ?_, place, intact, queue, err, signals,
    invoked⟩
  · simp only [Step, ClientLoop.step, ready]
    rfl
  · exact ready

theorem Sim.exited_iff (h : Sim s u) : u.worker = .exited ↔ s.stopped = true := by
  have place := h.place
  have intact := h.intact
  unfold Place at place
  unfold Intact at intact
  cases hw : s.worker with
  | loop =>
    simp only [hw] at place intact
    simp [place, intact]
  | checking =>
    simp only [hw] at place intact
    simp [place, intact]
  | waiting =>
    simp only [hw] at place intact
    simp [place, intact.2]
  | sizing =>
    simp only [hw] at place intact
    simp [place, intact.2]
  | appending b appended =>
    simp only [hw] at place intact
    obtain ⟨reqs, at_reading, _⟩ := place
    simp [at_reading, intact.2.1]
  | reading b appended i =>
    simp only [hw] at place intact
    obtain ⟨reqs, at_reading, _⟩ := place
    simp [at_reading, intact.1]
  | exited =>
    simp only [hw] at place intact
    simp [place, intact]
  | _ =>
    simp only [hw] at place intact
    obtain ⟨reqs, at_reading, _⟩ := place
    simp [at_reading, intact.2]

lemma Sim.connected (h : Sim s u) : u.isConnected = (!s.err && !s.stopped) := by
  have exited : decide (u.worker = .exited) = s.stopped := by
    rw [Bool.eq_iff_iff, decide_eq_true_eq]
    exact h.exited_iff
  rw [ClientThread.State.isConnected, h.err, exited]

lemma Sim.commit (h : Sim s u) (ready : s.caller = .ready)
    (hcommit : ClientThread.step hash u .commit = some v) : ∃ trace t,
      Run (Step manual) s trace t ∧ t.caller = .ready ∧ Sim t v := by
  have signalled : ∃ thread, v = { u with
      pipelineSem := if u.isConnected then u.pipelineSem + 1 else u.pipelineSem
      thread := thread } := by
    cases ClientThread.step_cases hcommit with
    | told => exact ⟨_, by rw [ClientThread.commit_eq]⟩
    | asked => exact ⟨_, by rw [ClientThread.commit_eq]⟩
  obtain ⟨thread, rfl⟩ := signalled
  rw [h.connected]
  obtain ⟨place, intact, queue, err, signals, invoked⟩ := h
  have first : Step manual s .commit { s with flushPipeline := true, caller := .committing } := by
    simp only [Step, ClientLoop.step, ready]
  by_cases here : (!s.err && !s.stopped) = true
  · rw [if_pos here]
    have second : Step manual { s with flushPipeline := true, caller := .committing } .isConnected
        { s with flushPipeline := true, caller := .signalling } := by
      simp [Step, ClientLoop.step, manual, here]
    have third : Step manual { s with flushPipeline := true, caller := .signalling } .signal
        { s with
          flushPipeline := true
          pipelineSem := s.pipelineSem + 1
          committed := s.appended.length
          caller := .ready } := rfl
    exact ⟨_, _, ((Run.one first).snoc second).snoc third, rfl, place, intact, queue, err,
      fun good => congrArg (· + 1) (signals good), invoked⟩
  · rw [if_neg here]
    have second : Step manual { s with flushPipeline := true, caller := .committing } .isConnected
        { s with flushPipeline := true, caller := .ready } := by
      simp [Step, ClientLoop.step, manual, here]
    exact ⟨_, _, (Run.one first).snoc second, rfl, place, intact, queue, err, signals, invoked⟩

/-- The worker loop refines the worker thread of `ClientThread`. -/
theorem Sim.run (h : Sim s u) (one : OneRound manual s) {trace : List (State × Event)}
    (run : Run (Step manual) s trace t)
    (allowed : ∀ x ∈ trace, Greedy x.1 x.2 ∧ Lawful x.1 x.2 ∧ Event.Own x.2) :
    ∃ moves v, Run (fun a m b => ClientThread.step hash a m = some b) u moves v ∧
      (∀ x ∈ moves, x.2.Own) ∧ Sim t v ∧ OneRound manual t := by
  induction run with
  | refl => exact ⟨[], u, .refl, nofun, h, one⟩
  | snoc prior last ih =>
    obtain ⟨moves, v, run, owns, sim, one'⟩ := ih fun x hx => allowed x (List.mem_append_left _ hx)
    obtain ⟨greedy, lawful, own⟩ :=
      allowed (_, _) (List.mem_append_right _ (List.mem_singleton_self _))
    obtain ⟨w, move, sim'⟩ : ∃ w, MovesTo hash v w ∧ Sim _ w :=
      sim.step one' greedy lawful own last
    have next := one'.step (.inr (Nat.zero_le 1)) greedy last
    rcases move with rfl | ⟨m, hm, hstep⟩
    · exact ⟨moves, _, run, owns, sim', next⟩
    · refine ⟨moves ++ [(v, m)], w, run.snoc hstep, fun x hx => ?_, sim', next⟩
      rcases List.mem_append.mp hx with hx | hx
      · exact owns x hx
      · obtain rfl := List.mem_singleton.mp hx
        exact hm

lemma Sim.start (settings : Settings) (query : Option QueryThread.Job) (flush : Bool) :
    Sim (start [] 0 flush) (ClientThread.start settings hash query) :=
  ⟨rfl, rfl, rfl, rfl, fun _ => rfl, rfl⟩

end ClientPrefs.ThreadRefinement
