import ClientPrefs.Commits

/-!
# Stopping a client

`Disconnect` raises `stopped` and joins the worker. What is committed at that moment is sent only
where the worker is past its test of the flag and has not counted the queue without it.
-/
namespace ClientPrefs.ClientStop
open BatchAssembly ByteStrings ClientLoop Commits Transition

def Event.good : Event → Bool
  | .appendFormattedCommand ok => ok
  | .getReply ok => ok
  | _ => true

/-- Past `while (!stopped)`, and not yet woken. -/
def tested : Worker → Bool
  | .checking => true
  | .waiting => true
  | _ => false

/-- The worker has passed `while (!stopped)` and still looks at the semaphore, or no committed
command is in the queue beyond those that it takes now. -/
def Covered (s : State) : Prop := tested s.worker = true ∨ s.committed ≤ reach s

instance (s : State) : Decidable (Covered s) := inferInstanceAs (Decidable (_ ∨ _))

/-- The committed commands are handed to the connection. -/
def Flushed (s : State) : Prop := s.appended.take s.committed <+: s.sent

def Stopping (s : State) : Prop :=
  s.stopped = true ∧ (s.caller = .joining ∨ s.caller = .freed ∧ s.worker = .exited)

def Using (s : State) : Prop :=
  s.stopped = false ∧ s.caller ≠ .joining ∧ s.caller ≠ .freed

/-- Before `Disconnect` nothing is recorded; afterwards it is settled what will be sent. -/
structure Settled (trace : List (State × Event)) (s : State) : Prop where
  sound : Sound s
  good : s.err = false
  phase : Using s ∧ (∀ x ∈ trace, x.2 ≠ .disconnect) ∨
    Stopping s ∧ (Covered s ↔ ∀ x ∈ trace, x.2 = .disconnect → Covered x.1)

variable {s t : State} {e : Event} {trace : List (State × Event)}
  {commands : List (List Bytes × Option ℕ)} {sem : ℕ} {flush : Bool}

theorem good_step (good : s.err = false) (ok : Event.good e = true)
    (hstep : Step manual s e t) : t.err = false := by
  cases step_cases hstep with
  | failed checking failed => exact good
  | appendFormattedCommand b appended sent =>
    have : sent = true := ok
    simp [State.appendCommand, good, this]
  | getReply b appended i read =>
    have : read = true := ok
    simp [State.readReply, good, this]
  | _ => exact good

theorem exited_step (h : s.worker = .exited) (hstep : Step manual s e t) :
    t.worker = .exited := by
  have at_exit : ∀ {w : Worker}, s.worker = w → w = .exited := fun hw => hw.symm.trans h
  cases step_cases hstep with
  | append => exact h
  | commit => exact h
  | isConnected => exact h
  | signal => exact h
  | disconnect => exact h
  | join => exact h
  | stop => rfl
  | failed => rfl
  | check loop => cases at_exit loop
  | testErr checking => cases at_exit checking
  | wake n waiting => cases at_exit waiting
  | timeout waiting => cases at_exit waiting
  | sleep sizing => cases at_exit sizing
  | size sizing => cases at_exit sizing
  | dequeue b k dequeuing => cases at_exit dequeuing
  | again b testing => cases at_exit testing
  | enough b testing => cases at_exit testing
  | flush b testing => cases at_exit testing
  | nothing b assembled => cases at_exit assembled
  | assemble b assembled => cases at_exit assembled
  | appendFormattedCommand b appended ok appending => cases at_exit appending
  | allAppended b appended appending => cases at_exit appending
  | getReply b appended i ok reading => cases at_exit reading
  | allRead b appended i reading => cases at_exit reading

theorem Stopping.step (h : Stopping s) (hstep : Step manual s e t) : Stopping t ∧
    e ≠ .signal ∧ e ≠ .disconnect ∧ ∀ redisCmd callback, e ≠ .append redisCmd callback := by
  obtain ⟨stopped, caller⟩ := h
  have not_using : s.caller = .joining ∨ s.caller = .freed := caller.imp id And.left
  have kept : t.caller = s.caller →
      t.caller = .joining ∨ t.caller = .freed ∧ t.worker = .exited := by
    intro same
    rw [same]
    exact caller.imp id fun freed => ⟨freed.1, exited_step freed.2 hstep⟩
  cases step_cases hstep with
  | append redisCmd callback ready => simp [ready] at not_using
  | commit ready => simp [ready] at not_using
  | isConnected committing => simp [committing] at not_using
  | signal signalling => simp [signalling] at not_using
  | disconnect ready => simp [ready] at not_using
  | join joining exited => exact ⟨⟨stopped, .inr ⟨rfl, exited⟩⟩, nofun, nofun, nofun⟩
  | failed => exact ⟨⟨rfl, kept rfl⟩, nofun, nofun, nofun⟩
  | _ => exact ⟨⟨stopped, kept rfl⟩, nofun, nofun, nofun⟩

theorem committed_step (signal : e ≠ .signal) (hstep : Step manual s e t) :
    t.committed = s.committed := by
  cases step_cases hstep with
  | signal => exact absurd rfl signal
  | _ => rfl

theorem covered_step (sound : Sound s) (good : s.err = false) (greedy : Greedy s e)
    (stopping : Stopping s) (hstep : Step manual s e t) : Covered t ↔ Covered s := by
  obtain ⟨_, signal, _, append⟩ := stopping.step hstep
  have committed := committed_step signal hstep
  have quiet : e ≠ .wake → tested s.worker = false → tested t.worker = false →
      (Covered t ↔ Covered s) := by
    intro wake before after
    rw [Covered, Covered, before, after, committed,
      reach_step sound.one greedy wake append hstep]
  cases step_cases hstep with
  | append redisCmd callback => exact absurd rfl (append redisCmd callback)
  | signal => exact absurd rfl signal
  | check loop running => exact absurd (running.symm.trans stopping.1) (by decide)
  | failed checking failed => exact absurd (good.symm.trans failed) (by decide)
  | testErr checking => exact iff_of_true (.inl rfl) (.inl (by rw [checking]; rfl))
  | wake n waiting =>
    refine iff_of_true (.inr ?_) (.inl (by rw [waiting]; rfl))
    refine sound.announced.bound.trans_eq ?_
    rw [← sound.fifo.queue, List.length_append]
    rfl
  | timeout waiting silent =>
    -- Without a signal there is nothing committed in the queue.
    refine iff_of_true (.inr ?_) (.inl (by rw [waiting]; rfl))
    rw [reach_step sound.one greedy nofun nofun hstep]
    exact sound.announced.signal silent
  | stop loop => exact quiet nofun (by rw [loop]; rfl) rfl
  | sleep sizing => exact quiet nofun (by rw [sizing]; rfl) rfl
  | size sizing => exact quiet nofun (by rw [sizing]; rfl) rfl
  | dequeue b k dequeuing => exact quiet nofun (by rw [dequeuing]; rfl) rfl
  | again b testing => exact quiet nofun (by rw [testing]; rfl) rfl
  | enough b testing => exact quiet nofun (by rw [testing]; rfl) rfl
  | flush b testing => exact absurd testing (sound.one.through b)
  | nothing b assembled => exact quiet nofun (by rw [assembled]; rfl) rfl
  | assemble b assembled => exact quiet nofun (by rw [assembled]; rfl) rfl
  | appendFormattedCommand b appended ok appending =>
    exact quiet nofun (by rw [appending]; rfl) rfl
  | allAppended b appended appending => exact quiet nofun (by rw [appending]; rfl) rfl
  | getReply b appended i ok reading => exact quiet nofun (by rw [reading]; rfl) rfl
  | allRead b appended i reading => exact quiet nofun (by rw [reading]; rfl) rfl
  | _ => exact Iff.rfl

lemma Using.start : Using (start commands sem flush) := ⟨rfl, nofun, nofun⟩

theorem Using.step (h : Using s) (good : s.err = false) (hstep : Step manual s e t) :
    (e = .disconnect ∧ Stopping t) ∨ e ≠ .disconnect ∧ Using t := by
  obtain ⟨running, joining, freed⟩ := h
  cases step_cases hstep with
  | append => exact .inr ⟨nofun, running, joining, freed⟩
  | commit => exact .inr ⟨nofun, running, nofun, nofun⟩
  | isConnected =>
    dsimp only [Using]
    split_ifs <;> exact .inr ⟨nofun, running, nofun, nofun⟩
  | signal => exact .inr ⟨nofun, running, nofun, nofun⟩
  | disconnect => exact .inl ⟨rfl, rfl, .inl rfl⟩
  | join here => exact absurd here joining
  | failed checking failed => exact absurd (good.symm.trans failed) (by decide)
  | _ => exact .inr ⟨nofun, running, joining, freed⟩

lemma Settled.start : Settled [] (start commands sem flush) where
  sound := .start
  good := rfl
  phase := .inl ⟨.start, fun x hx => by cases hx⟩

theorem Settled.step (h : Settled trace s) (greedy : Greedy s e) (ok : Event.good e = true)
    (hstep : Step manual s e t) : Settled (trace ++ [(s, e)]) t := by
  refine ⟨h.sound.step greedy hstep, good_step h.good ok hstep, ?_⟩
  simp only [List.forall_mem_append, List.forall_mem_singleton]
  rcases h.phase with ⟨user, never⟩ | ⟨stopping, settled⟩
  · rcases user.step h.good hstep with ⟨rfl, stopping⟩ | ⟨other, user⟩
    · refine .inr ⟨stopping, ?_⟩
      have same : Covered t ↔ Covered s := by
        cases step_cases hstep with
        | disconnect => exact Iff.rfl
      rw [same]
      exact ⟨fun here => ⟨fun x hx he => absurd he (never x hx), fun _ => here⟩,
        fun all => all.2 rfl⟩
    · exact .inl ⟨user, never, other⟩
  · obtain ⟨stopping', _, other, _⟩ := stopping.step hstep
    refine .inr ⟨stopping', ?_⟩
    rw [covered_step h.sound h.good greedy stopping hstep, settled]
    exact ⟨fun all => ⟨all, fun he => absurd he other⟩, fun both => both.1⟩

theorem settled_of_run (run : Run (Step manual) (start commands sem flush) trace s)
    (greedy : ∀ x ∈ trace, Greedy x.1 x.2) (ok : ∀ x ∈ trace, Event.good x.2 = true) :
    Settled trace s := by
  have preserved : ∀ past (a : State) (e : Event) (b : State), Settled past a →
      (Greedy a e ∧ Event.good e = true) → Step manual a e b → Settled (past ++ [(a, e)]) b :=
    fun _ _ _ _ h both hstep => h.step both.1 both.2 hstep
  exact run.history .start preserved fun x hx => ⟨greedy x hx, ok x hx⟩

/-- When the worker has exited, what it sent is what it took from the queue. -/
theorem flushed_iff_covered (h : Sound s) (good : s.err = false) (exited : s.worker = .exited) :
    Flushed s ↔ Covered s := by
  have sent := (h.handed good).sent
  rw [exited] at sent
  simp only [unwritten, List.append_nil] at sent
  have covered : Covered s ↔ s.committed ≤ s.removed.length := by
    simp [Covered, tested, reach, taking, exited]
  rw [covered, Flushed, sent]
  constructor
  · intro first
    have := first.length_le
    rw [List.length_take, min_eq_left h.announced.bound] at this
    exact this
  · intro all
    rw [← h.fifo.queue, List.take_append_of_le_length all]
    exact List.take_prefix _ _

/-- The committed commands are sent before the context is freed exactly when they were covered at
the moment of `Disconnect`. -/
theorem flushed_iff (run : Run (Step manual) (start commands sem flush) trace s)
    (greedy : ∀ x ∈ trace, Greedy x.1 x.2) (ok : ∀ x ∈ trace, Event.good x.2 = true)
    (freed : s.caller = .freed) :
    Flushed s ↔ ∀ x ∈ trace, x.2 = .disconnect → Covered x.1 := by
  obtain ⟨sound, good, phase⟩ := settled_of_run run greedy ok
  rcases phase with ⟨user, _⟩ | ⟨⟨_, caller⟩, settled⟩
  · exact absurd freed user.2.2
  · have exited : s.worker = .exited := by
      rcases caller with joining | both
      · rw [joining] at freed
        cases freed
      · exact both.2
    rw [flushed_iff_covered sound good exited, settled]

def insertData : List Event :=
  [.append [bytes "SET", bytes "7.1", bytes "on", bytes "EX", bytes "1209600"] none, .commit,
    .isConnected, .signal]

def goesToWait : List Event := [.check, .testErr]
def timesOut : List Event := [.check, .testErr, .timeout]

def stopsWaiting : List Event :=
  [.disconnect, .wake, .size, .dequeue 1, .test, .assemble, .appendFormattedCommand true,
    .allAppended, .getReply true, .allRead, .check, .join]
def stopsBetween : List Event := [.disconnect, .check, .join]

/-- The worker waits when the value is committed; the sentinel comes before it wakes up. -/
def stoppedWaiting : List Event := goesToWait ++ insertData ++ stopsWaiting

theorem flushed_iff_stoppedWaiting : ∃ s : State, s.committed = 1 ∧ s.sent.length = 1 ∧
    Flushed s := by
  have plays : (advance (step manual) (start [] 0 false) stoppedWaiting).any (fun s =>
      s.caller = .freed && s.committed = 1 && s.sent.length = 1) = true := by decide +kernel
  have greedy : ∀ x ∈ advanceTrace (step manual) (start [] 0 false) stoppedWaiting,
      Greedy x.1 x.2 := by decide +kernel
  have ok : ∀ x ∈ advanceTrace (step manual) (start [] 0 false) stoppedWaiting,
      Event.good x.2 = true := by decide +kernel
  have covered : ∀ x ∈ advanceTrace (step manual) (start [] 0 false) stoppedWaiting,
      x.2 = .disconnect → Covered x.1 := by decide +kernel
  obtain ⟨s, hs, hend⟩ := (Option.any_eq_true ..).mp plays
  simp only [Bool.and_eq_true, decide_eq_true_eq] at hend
  exact ⟨s, hend.1.2, hend.2, (flushed_iff (advance_run hs) greedy ok hend.1.1).mpr covered⟩

/-- The wait has timed out when the value is committed, and the flag is raised before the worker
tests it again. -/
def stoppedBetween : List Event := timesOut ++ insertData ++ stopsBetween

theorem committed_dropped : ¬ ∀ (commands : List (List Bytes × Option ℕ)) (sem : ℕ) (flush : Bool)
    (trace : List (State × Event)) (s : State),
    Run (Step manual) (start commands sem flush) trace s → (∀ x ∈ trace, Greedy x.1 x.2) →
      (∀ x ∈ trace, Event.good x.2 = true) → s.caller = .freed → Flushed s := by
  intro h
  have plays : (advance (step manual) (start [] 0 false) stoppedBetween).any (fun s =>
      s.caller = .freed && s.committed = 1 && s.appended.length = 1 && s.sent.length = 0) =
      true := by decide +kernel
  obtain ⟨s, hs, hend⟩ := (Option.any_eq_true ..).mp plays
  simp only [Bool.and_eq_true, decide_eq_true_eq] at hend
  obtain ⟨⟨⟨freed, one⟩, appended⟩, none⟩ := hend
  have flushed := h [] 0 false _ s (advance_run hs) (by decide +kernel) (by decide +kernel) freed
  have := flushed.length_le
  rw [List.length_take] at this
  omega

end ClientPrefs.ClientStop
