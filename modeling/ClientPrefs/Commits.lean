import ClientPrefs.BatchAssembly

/-!
# Commits in manual mode

With the default arguments of the constructor the worker sends only what `Commit` signals. The
semaphore counts the commits and the queue its commands, and a signal may find the queue empty or
commands of later commits in it.
-/
namespace ClientPrefs.Commits
open BatchAssembly ByteStrings ClientLoop Transition

/-- `client()`, the client of every query worker. -/
def manual : Config := ⟨0, 0⟩

/-- The commands of the batch that are not handed to the connection yet. -/
def unwritten : Worker → List CommandRequest
  | .testing b => b.toSend
  | .testingFlush b => b.toSend
  | .assembled b => b.toSend
  | .appending b appended => b.toSend.drop appended.length
  | _ => []

/-- The commands of the batch whose turn in the second loop is still to come. -/
def unread : Worker → List CommandRequest
  | .testing b => b.toSend
  | .testingFlush b => b.toSend
  | .assembled b => b.toSend
  | .appending b _ => b.toSend
  | .reading b _ i => b.toSend.drop i
  | _ => []

/-- How many commands the worker takes from the queue without a further signal. -/
def taking (s : State) : ℕ :=
  match s.worker with
  | .sizing => s.commands.length
  | .dequeuing b => b.reqs.length - b.dequeued
  | _ => 0

/-- How many of the appended commands the worker has taken or will take without a signal. -/
def reach (s : State) : ℕ := s.removed.length + taking s

/-- What was taken from the queue is handed over in order, and its callbacks are invoked in
order. -/
structure Handed (s : State) : Prop where
  sent : s.sent ++ unwritten s.worker = s.removed
  invoked : s.invoked ++ (unread s.worker).filterMap (·.callback) =
    s.removed.filterMap (·.callback)

/-- Committed commands in the queue are announced by a signal, or already counted by the
worker. -/
structure Announced (s : State) : Prop where
  bound : s.committed ≤ s.appended.length
  signal : s.pipelineSem = 0 → s.committed ≤ reach s

structure Sound (s : State) : Prop where
  fifo : Fifo s
  one : OneRound manual s
  handed : s.err = false → Handed s
  announced : Announced s

variable {s t : State} {e : Event} {b : Batch} {trace : List (State × Event)}
  {commands : List (List Bytes × Option ℕ)} {sem : ℕ} {flush : Bool}

lemma manual_next (b : Batch) :
    (if manual.pipeTimeout = 0 then Worker.testing else Worker.assembled) b = .testing b := rfl

theorem Handed.step (h : Handed s) (one : OneRound manual s) (greedy : Greedy s e)
    (good : t.err = false) (hstep : Step manual s e t) : Handed t := by
  obtain ⟨sent, invoked⟩ := h
  cases step_cases hstep with
  | append => exact ⟨sent, invoked⟩
  | commit => exact ⟨sent, invoked⟩
  | isConnected => exact ⟨sent, invoked⟩
  | signal => exact ⟨sent, invoked⟩
  | disconnect => exact ⟨sent, invoked⟩
  | join => exact ⟨sent, invoked⟩
  | stop loop =>
    rw [loop] at sent invoked
    exact ⟨sent, invoked⟩
  | check loop =>
    rw [loop] at sent invoked
    exact ⟨sent, invoked⟩
  | failed checking failed => exact absurd (failed.symm.trans good) (by decide)
  | testErr checking =>
    rw [checking] at sent invoked
    exact ⟨sent, invoked⟩
  | wake n waiting =>
    rw [waiting] at sent invoked
    exact ⟨sent, invoked⟩
  | timeout waiting =>
    rw [waiting] at sent invoked
    exact ⟨sent, invoked⟩
  | sleep sizing =>
    rw [sizing] at sent invoked
    exact ⟨sent, invoked⟩
  | size sizing =>
    rw [sizing] at sent invoked
    exact ⟨sent, invoked⟩
  | dequeue b k dequeuing available room =>
    have got := toSend_got room (one.dequeued greedy dequeuing rfl).1
    rw [dequeuing] at sent invoked
    simp only [unwritten, unread, List.append_nil, List.filterMap_nil] at sent invoked
    constructor
    · simp only [manual_next, unwritten, got, sent]
    · simp only [manual_next, unread, got, invoked, List.filterMap_append]
  | again b testing =>
    rw [testing] at sent invoked
    exact ⟨sent, invoked⟩
  | enough b testing =>
    rw [testing] at sent invoked
    exact ⟨sent, invoked⟩
  | flush b testing => exact absurd testing (one.through b)
  | nothing b assembled none =>
    rw [assembled] at sent invoked
    simp only [unwritten, unread, toSend_nothing none] at sent invoked
    exact ⟨sent, invoked⟩
  | assemble b assembled =>
    rw [assembled] at sent invoked
    exact ⟨sent, invoked⟩
  | appendFormattedCommand b appended ok appending more =>
    rw [appending] at sent invoked
    obtain rfl : ok = true := by
      simp only [State.appendCommand, Bool.or_eq_false_iff, Bool.not_eq_false'] at good
      exact good.2
    refine ⟨?_, invoked⟩
    simp only [unwritten, toSend_drop more] at sent
    simp only [State.appendCommand, unwritten, List.length_append, List.length_singleton, if_pos,
      List.append_assoc, List.singleton_append, sent]
  | allAppended b appended appending all =>
    rw [appending] at sent invoked
    simp only [unwritten, toSend_drop_all all] at sent
    exact ⟨sent, invoked⟩
  | getReply b appended i ok reading more =>
    rw [reading] at sent invoked
    refine ⟨sent, ?_⟩
    simp only [unread, toSend_drop more, List.filterMap_cons] at invoked
    simp only [State.readReply, State.invoke, unread, ← invoked]
    cases (b.req i).callback <;> simp
  | allRead b appended i reading all =>
    rw [reading] at sent invoked
    simp only [unread, toSend_drop_all all] at invoked
    exact ⟨sent, invoked⟩

lemma reach_append (redisCmd : List Bytes) (callback : Option ℕ) : reach s ≤ reach { s with
    commands := s.commands ++ [request redisCmd callback]
    appended := s.appended ++ [request redisCmd callback] } := by
  simp only [reach, taking, List.length_append]
  cases s.worker with
  | sizing => simp only; omega
  | _ => exact le_rfl

theorem reach_step (one : OneRound manual s) (greedy : Greedy s e) (wake : e ≠ .wake)
    (append : ∀ redisCmd callback, e ≠ .append redisCmd callback)
    (hstep : Step manual s e t) : reach t = reach s := by
  cases step_cases hstep with
  | append redisCmd callback => exact absurd rfl (append redisCmd callback)
  | wake => exact absurd rfl wake
  | stop loop => simp only [reach, taking, loop]
  | check loop => simp only [reach, taking, loop]
  | failed checking => simp only [reach, taking, checking]
  | testErr checking => simp only [reach, taking, checking, manual, if_pos]
  | timeout waiting => simp only [reach, taking, waiting]
  | sleep sizing none => simp only [reach, taking, sizing, none, List.length_nil]
  | size sizing =>
    simp only [reach, taking, sizing, manual, Batch.resize, List.length_replicate]
    omega
  | dequeue b k dequeuing available room =>
    obtain ⟨zero, whole, _⟩ := one.dequeued greedy dequeuing rfl
    simp only [manual_next, reach, taking, dequeuing, List.length_append, List.length_take]
    omega
  | again b testing => simp only [reach, taking, testing]
  | enough b testing => simp only [reach, taking, testing]
  | flush b testing => exact absurd testing (one.through b)
  | nothing b assembled => simp only [reach, taking, assembled]
  | assemble b assembled => simp only [reach, taking, assembled]
  | appendFormattedCommand b appended ok appending =>
    simp only [State.appendCommand, reach, taking, appending]
  | allAppended b appended appending => simp only [reach, taking, appending]
  | getReply b appended i ok reading =>
    simp only [State.readReply, State.invoke, reach, taking, reading]
  | allRead b appended i reading => simp only [reach, taking, reading]
  | _ => rfl

theorem Announced.step (h : Announced s) (fifo : Fifo s) (one : OneRound manual s)
    (greedy : Greedy s e) (hstep : Step manual s e t) : Announced t := by
  obtain ⟨bound, signal⟩ := h
  cases step_cases hstep with
  | append redisCmd callback =>
    refine ⟨?_, fun silent => (signal silent).trans (reach_append redisCmd callback)⟩
    simp only [List.length_append]
    omega
  | signal => exact ⟨le_rfl, nofun⟩
  | wake =>
    refine ⟨bound, fun _ => bound.trans_eq ?_⟩
    rw [← fifo.queue, List.length_append]
    rfl
  | _ =>
    exact ⟨bound, fun silent =>
      (signal silent).trans_eq (reach_step one greedy nofun nofun hstep).symm⟩

lemma Sound.start : Sound (start commands sem flush) where
  fifo := .start
  one := .start
  handed _ := ⟨rfl, rfl⟩
  announced := ⟨Nat.zero_le _, fun _ => Nat.zero_le _⟩

theorem err_step (hstep : Step manual s e t) (good : t.err = false) : s.err = false := by
  cases step_cases hstep with
  | failed checking failed => exact good
  | appendFormattedCommand b appended ok =>
    simp only [State.appendCommand, Bool.or_eq_false_iff] at good
    exact good.1
  | getReply b appended i ok =>
    simp only [State.readReply, Bool.or_eq_false_iff] at good
    exact good.1
  | _ => exact good

theorem Sound.step (h : Sound s) (greedy : Greedy s e) (hstep : Step manual s e t) : Sound t where
  fifo := h.fifo.step hstep
  one := h.one.step (.inr (Nat.zero_le 1)) greedy hstep
  handed good := (h.handed (err_step hstep good)).step h.one greedy good hstep
  announced := h.announced.step h.fifo h.one greedy hstep

theorem sound_of_run (run : Run (Step manual) (start commands sem flush) trace s)
    (greedy : ∀ x ∈ trace, Greedy x.1 x.2) : Sound s := by
  have preserved : ∀ (a : State) (e : Event) (b : State), Sound a → Greedy a e →
      Step manual a e b → Sound b := fun _ _ _ h g hstep => h.step g hstep
  exact run.invariant .start preserved greedy

/-- As long as the connection has not failed, the commands are sent in the order in which they
were appended, and their callbacks are invoked in that order. -/
theorem Sound.ordered (h : Sound s) (good : s.err = false) :
    s.sent <+: s.appended ∧ s.invoked <+: s.appended.filterMap (·.callback) := by
  have removed : s.removed <+: s.appended := ⟨s.commands, h.fifo.queue⟩
  obtain ⟨sent, invoked⟩ := h.handed good
  exact ⟨List.IsPrefix.trans ⟨_, sent⟩ removed,
    List.IsPrefix.trans ⟨_, invoked⟩ (removed.filterMap _)⟩

/-- A worker that waits without a signal has sent everything that was committed. -/
theorem Sound.served (h : Sound s) (good : s.err = false) (waiting : s.worker = .waiting)
    (silent : s.pipelineSem = 0) : s.appended.take s.committed <+: s.sent ∧
      (s.appended.take s.committed).filterMap (·.callback) <+: s.invoked := by
  obtain ⟨sent, invoked⟩ := h.handed good
  rw [waiting] at sent invoked
  simp only [unwritten, unread, List.append_nil, List.filterMap_nil] at sent invoked
  have covered : s.committed ≤ s.removed.length := by
    simpa only [reach, taking, waiting, add_zero] using h.announced.signal silent
  have first : s.appended.take s.committed <+: s.removed := by
    rw [← h.fifo.queue, List.take_append_of_le_length covered]
    exact List.take_prefix _ _
  rw [sent, invoked]
  exact ⟨first, first.filterMap _⟩

/-- No commit is lost in manual mode. -/
theorem no_lost_commit (run : Run (Step manual) (start commands sem flush) trace s)
    (greedy : ∀ x ∈ trace, Greedy x.1 x.2) (good : s.err = false) :
    (s.sent <+: s.appended ∧ s.invoked <+: s.appended.filterMap (·.callback)) ∧
    (s.worker = .waiting → s.pipelineSem = 0 → s.appended.take s.committed <+: s.sent ∧
      (s.appended.take s.committed).filterMap (·.callback) <+: s.invoked) :=
  have sound := sound_of_run run greedy
  ⟨sound.ordered good, sound.served good⟩

def waits : Worker → Bool
  | .waiting => true
  | _ => false

lemma waiting_of_waits {w : Worker} (h : waits w = true) : w = .waiting := by
  cases w with
  | waiting => rfl
  | _ => cases h

def exchange : List Event :=
  [.append [bytes "PING"] (some 0), .commit, .isConnected, .signal, .check, .testErr, .wake, .size,
    .dequeue 1, .test, .assemble, .append [bytes "PING"] (some 1), .appendFormattedCommand true,
    .allAppended, .getReply true, .allRead, .check, .testErr]

theorem no_lost_commit_exchange : ∃ s : State, s.worker = .waiting ∧ s.pipelineSem = 0 ∧
    s.committed = 1 ∧ s.commands.length = 1 ∧ s.appended.take 1 <+: s.sent ∧
    (s.appended.take 1).filterMap (·.callback) <+: s.invoked := by
  have plays : (advance (step manual) (start [] 0 false) exchange).any (fun s =>
      waits s.worker && s.pipelineSem = 0 && s.committed = 1 && s.commands.length = 1 &&
        !s.err) = true := by decide
  have greedy : ∀ x ∈ advanceTrace (step manual) (start [] 0 false) exchange,
      Greedy x.1 x.2 := by decide
  obtain ⟨s, hs, hend⟩ := (Option.any_eq_true ..).mp plays
  simp only [Bool.and_eq_true, decide_eq_true_eq, Bool.not_eq_true'] at hend
  obtain ⟨⟨⟨⟨hwaits, silent⟩, one⟩, rest⟩, good⟩ := hend
  have waiting := waiting_of_waits hwaits
  obtain ⟨sent, invoked⟩ := (no_lost_commit (advance_run hs) greedy good).2 waiting silent
  rw [one] at sent invoked
  exact ⟨s, waiting, silent, one, rest, sent, invoked⟩

end ClientPrefs.Commits
