import ClientPrefs.ClientLoop

/-!
# The batches that `send` assembles

Every `wait_dequeue_bulk_timed` writes to `reqs.begin()`, so that a batch is what was taken from
the queue only when a single round brought all of it.
-/
namespace ClientPrefs.BatchAssembly
open ByteStrings ClientLoop Rounds Transition

/-- `reqs[0..dequeued)` is what was taken from the queue last, and the queue is first in, first
out. -/
structure Lossless (s : State) (b : Batch) : Prop where
  count : b.toSend.length = b.dequeued
  slots : b.toSend <:+ s.removed
  queue : s.removed ++ s.commands = s.appended

/-- How many commands the queue has handed out in each round since `size_approx` was read. -/
def handedOut (trace : List (State × Event)) : List ℕ :=
  trace.foldl (fun sizes x =>
    match x.2 with
    | .size => []
    | .dequeue k => sizes ++ [k]
    | _ => sizes) []

structure Fifo (s : State) : Prop where
  queue : s.removed ++ s.commands = s.appended
  texts : ∀ req ∈ s.appended, req.command ≠ []
  batch : ∀ b, s.worker.batch = some b → b.rounds.flatten <:+ s.removed

variable {cfg : Config} {s t : State} {e : Event} {b : Batch} {trace : List (State × Event)}
  {commands : List (List Bytes × Option ℕ)} {sem : ℕ} {flush : Bool}

inductive From (s : State) (b : Batch) (e : Event) (t : State) : Prop
  | kept (batch : s.worker.batch = some b) (removed : t.removed = s.removed)
      (size : e ≠ .size) (dequeue : ∀ k, e ≠ .dequeue k)
  | resized (size : e = .size) (rounds : b.rounds = []) (removed : t.removed = s.removed)
  | filled (k : ℕ) (a : Batch) (dequeue : e = .dequeue k) (dequeuing : s.worker = .dequeuing a)
      (available : k ≤ s.commands.length) (rounds : b.rounds = a.rounds ++ [s.commands.take k])
      (removed : t.removed = s.removed ++ s.commands.take k)

theorem batch_cases (h : Steps cfg s e t) (hb : t.worker.batch = some b) : From s b e t := by
  cases h with
  | append => exact .kept hb rfl (by simp) (by simp)
  | commit => exact .kept hb rfl (by simp) (by simp)
  | isConnected => exact .kept hb rfl (by simp) (by simp)
  | signal => exact .kept hb rfl (by simp) (by simp)
  | disconnect => exact .kept hb rfl (by simp) (by simp)
  | join => exact .kept hb rfl (by simp) (by simp)
  | stop => cases hb
  | check => cases hb
  | failed => cases hb
  | testErr =>
    dsimp only at hb
    split_ifs at hb <;> cases hb
  | wake => cases hb
  | timeout => cases hb
  | sleep => cases hb
  | size =>
    obtain rfl := Option.some.inj hb
    exact .resized rfl rfl rfl
  | dequeue a k dequeuing available room =>
    refine .filled k a rfl dequeuing available ?_ rfl
    dsimp only at hb
    split_ifs at hb <;>
    · obtain rfl := Option.some.inj hb
      rfl
  | again a testing => exact .kept (by rw [testing]; exact hb) rfl (by simp) (by simp)
  | enough a testing => exact .kept (by rw [testing]; exact hb) rfl (by simp) (by simp)
  | flush a testing =>
    refine .kept ?_ rfl (by simp) (by simp)
    rw [testing, ← hb]
    dsimp only
    split_ifs <;> rfl
  | nothing => cases hb
  | assemble a assembled => exact .kept (by rw [assembled]; exact hb) rfl (by simp) (by simp)
  | appendFormattedCommand a oks ok appending =>
    exact .kept (by rw [appending]; exact hb) rfl (by simp) (by simp)
  | allAppended a oks appending => exact .kept (by rw [appending]; exact hb) rfl (by simp) (by simp)
  | getReply a oks i ok reading => exact .kept (by rw [reading]; exact hb) rfl (by simp) (by simp)
  | allRead => cases hb

lemma Fifo.start : Fifo (start commands sem flush) where
  queue := rfl
  texts req h := by
    obtain ⟨c, _, rfl⟩ := List.mem_map.mp h
    exact formatCommand_ne_nil c.1
  batch b h := by cases h

theorem queue_step (h : Steps cfg s e t) :
    (t.removed ++ t.commands = s.removed ++ s.commands ∧ t.appended = s.appended) ∨
      ∃ redisCmd callback, t.removed ++ t.commands =
        s.removed ++ s.commands ++ [request redisCmd callback] ∧
        t.appended = s.appended ++ [request redisCmd callback] := by
  cases h with
  | append redisCmd callback =>
    exact .inr ⟨redisCmd, callback, (List.append_assoc _ _ _).symm, rfl⟩
  | dequeue b k =>
    refine .inl ⟨?_, rfl⟩
    dsimp only
    rw [List.append_assoc, List.take_append_drop]
  | _ => exact .inl ⟨rfl, rfl⟩

theorem Fifo.step (h : Fifo s) (hstep : Step cfg s e t) : Fifo t := by
  have steps := step_cases hstep
  constructor
  · rcases queue_step steps with ⟨hq, ha⟩ | ⟨redisCmd, callback, hq, ha⟩
    · rw [hq, ha, h.queue]
    · rw [hq, ha, h.queue]
  · rcases queue_step steps with ⟨_, ha⟩ | ⟨redisCmd, callback, _, ha⟩
    · rw [ha]
      exact h.texts
    · intro req hreq
      rw [ha] at hreq
      rcases List.mem_append.mp hreq with hreq | hreq
      · exact h.texts req hreq
      · obtain rfl := List.mem_singleton.mp hreq
        exact formatCommand_ne_nil redisCmd
  · intro b hb
    cases batch_cases steps hb with
    | kept batch removed => exact removed ▸ h.batch b batch
    | resized _ rounds removed =>
      rw [rounds]
      exact List.nil_suffix
    | filled k a _ dequeuing _ rounds removed =>
      obtain ⟨before, hbefore⟩ := h.batch a (by rw [dequeuing]; rfl)
      exact ⟨before, by simp [rounds, removed, ← hbefore]⟩

theorem fifo_of_run (run : Run (Step cfg) (start commands sem flush) trace s) : Fifo s := by
  have preserved : ∀ (a : State) (e : Event) (b : State), Fifo a → Step cfg a e b →
      Fifo b := fun _ _ _ h hstep => h.step hstep
  exact run.stable .start preserved

lemma handedOut_concat (trace : List (State × Event)) (s : State) (e : Event) :
    handedOut (trace ++ [(s, e)]) =
      match e with
      | .size => []
      | .dequeue k => handedOut trace ++ [k]
      | _ => handedOut trace := by
  simp only [handedOut, List.foldl_append, List.foldl_cons, List.foldl_nil]

def Recorded (trace : List (State × Event)) (s : State) : Prop :=
  ∀ b, s.worker.batch = some b → b.rounds.map List.length = handedOut trace

theorem Recorded.step (ih : Recorded trace s) (hstep : Step cfg s e t) :
    Recorded (trace ++ [(s, e)]) t := by
  intro b hb
  rw [handedOut_concat]
  cases batch_cases (step_cases hstep) hb with
  | kept batch _ size dequeue =>
    rw [ih b batch]
    cases e with
    | size => exact absurd rfl size
    | dequeue k => exact absurd rfl (dequeue k)
    | _ => rfl
  | resized size rounds => rw [size, rounds, List.map_nil]
  | filled k a dequeue dequeuing available rounds =>
    rw [dequeue, rounds, List.map_append, ih a (by rw [dequeuing]; rfl)]
    simp [available]

theorem recorded_of_run (run : Run (Step cfg) (start commands sem flush) trace s) :
    Recorded trace s := by
  have preserved : ∀ past (a : State) (e : Event) (b : State), Recorded past a →
      Step cfg a e b → Recorded (past ++ [(a, e)]) b := fun _ _ _ _ ih hstep => ih.step hstep
  exact run.stable_history (fun b h => by cases h) preserved

lemma Fifo.lossless_iff_rounds (h : Fifo s) (hb : s.worker.batch = some b) :
    Lossless s b ↔ AtMostOne (b.rounds.map List.length) := by
  have taken := h.batch b hb
  have room : b.rounds.flatten.length ≤ b.reqs.length := b.counted ▸ b.room
  have written : CommandRequest.blank ∉ b.rounds.flatten := by
    intro hmem
    have happended : CommandRequest.blank ∈ s.appended := by
      rw [← h.queue]
      exact List.mem_append_left _ (taken.mem hmem)
    exact h.texts _ happended rfl
  have count := length_toSend b
  have slots : b.toSend = b.rounds.flatten ↔ AtMostOne (b.rounds.map List.length) := by
    rw [← take_fill_iff room written, ← b.filled, ← b.counted, Batch.toSend]
  rw [← slots]
  constructor
  · intro lossless
    have same : b.toSend.length = b.rounds.flatten.length := count.trans b.counted
    exact (List.suffix_of_suffix_length_le lossless.slots taken same.le).eq_of_length same
  · intro same
    exact ⟨count, same ▸ taken, h.queue⟩

/-- When the dequeue part of `send` is through, the batch is what was taken from the queue
exactly when at most one of its rounds brought commands. -/
theorem lossless_iff (run : Run (Step cfg) (start commands sem flush) trace s)
    (assembled : s.worker = .assembled b) : Lossless s b ↔ AtMostOne (handedOut trace) := by
  have hb : s.worker.batch = some b := by rw [assembled]; rfl
  rw [(fifo_of_run run).lossless_iff_rounds hb, recorded_of_run run b hb]

/-- No batch is filled in more than one round; the snapshot of the queue is there as a whole. -/
structure OneRound (cfg : Config) (s : State) : Prop where
  rounds : ∀ b, s.worker.batch = some b → b.rounds.length ≤ 1
  snapshot : ∀ b, s.worker = .dequeuing b → b.rounds = [] ∧
    (cfg.pipeTimeout = 0 → b.reqs.length ≤ s.commands.length)
  full : ∀ b, s.worker = .testing b → b.dequeued = b.reqs.length
  through : ∀ b, s.worker ≠ .testingFlush b

lemma OneRound.start : OneRound cfg (start commands sem flush) where
  rounds b h := by cases h
  snapshot b h := by cases h
  full b h := by cases h
  through b h := by cases h

lemma Fifo.lossless (h : Fifo s) (one : OneRound cfg s) (hb : s.worker.batch = some b) :
    Lossless s b := by
  rw [h.lossless_iff_rounds hb]
  calc (b.rounds.map List.length).countP (0 < ·) ≤ (b.rounds.map List.length).length :=
        List.countP_le_length
    _ = b.rounds.length := List.length_map ..
    _ ≤ 1 := one.rounds b hb

lemma OneRound.dequeued (h : OneRound cfg s) {k : ℕ} (greedy : Greedy s (.dequeue k))
    (dequeuing : s.worker = .dequeuing b) (none : cfg.pipeTimeout = 0) :
    b.dequeued = 0 ∧ k = b.reqs.length ∧ k ≤ s.commands.length := by
  have hk := greedy.dequeue dequeuing
  obtain ⟨rounds, whole⟩ := h.snapshot b dequeuing
  have zero : b.dequeued = 0 := by rw [b.counted, rounds]; rfl
  have := whole none
  omega

/-- A single round is enough when the pipeline has a timeout, or none of its commands is waited
for. -/
theorem OneRound.step (mode : cfg.pipeTimeout ≠ 0 ∨ cfg.cacheSize ≤ 1) (h : OneRound cfg s)
    (greedy : Greedy s e) (hstep : Step cfg s e t) : OneRound cfg t := by
  have steps := step_cases hstep
  have rounds : ∀ b, t.worker.batch = some b → b.rounds.length ≤ 1 := by
    intro b hb
    cases batch_cases steps hb with
    | kept batch => exact h.rounds b batch
    | resized _ rounds => simp [rounds]
    | filled k a _ dequeuing _ rounds => simp [rounds, (h.snapshot a dequeuing).1]
  cases steps with
  | append redisCmd callback =>
    refine ⟨rounds, fun b hb => ⟨(h.snapshot b hb).1, fun none => ?_⟩, h.full, h.through⟩
    have := (h.snapshot b hb).2 none
    simp only [List.length_append]
    omega
  | commit => exact ⟨rounds, h.snapshot, h.full, h.through⟩
  | isConnected => exact ⟨rounds, h.snapshot, h.full, h.through⟩
  | signal => exact ⟨rounds, h.snapshot, h.full, h.through⟩
  | disconnect => exact ⟨rounds, h.snapshot, h.full, h.through⟩
  | join => exact ⟨rounds, h.snapshot, h.full, h.through⟩
  | testErr =>
    dsimp only at rounds ⊢
    split_ifs at rounds ⊢ <;> exact ⟨rounds, by simp, by simp, by simp⟩
  | size sizing some =>
    refine ⟨rounds, fun b hb => ?_, by simp, by simp⟩
    obtain rfl := Worker.dequeuing.inj hb
    refine ⟨rfl, fun none => ?_⟩
    have pos : 0 < s.commands.length := List.length_pos_iff.mpr some
    have small := mode.resolve_left (absurd none)
    simp only [Batch.resize, List.length_replicate]
    omega
  | dequeue a k dequeuing available room =>
    by_cases none : cfg.pipeTimeout = 0
    · simp only [if_pos none] at rounds ⊢
      refine ⟨rounds, by simp, fun b hb => ?_, by simp⟩
      obtain rfl := Worker.testing.inj hb
      obtain ⟨zero, whole, _⟩ := h.dequeued greedy dequeuing none
      simp only [Batch.waitDequeueBulkTimed, write, List.length_append, List.length_drop,
        List.length_take]
      omega
    · simp only [if_neg none] at rounds ⊢
      exact ⟨rounds, by simp, by simp, by simp⟩
  | again a testing running short => exact absurd (h.full a testing) short.ne
  | flush a testing => exact absurd testing (h.through a)
  | appendFormattedCommand =>
    exact ⟨rounds, by simp [State.appendCommand], by simp [State.appendCommand],
      by simp [State.appendCommand]⟩
  | getReply =>
    exact ⟨rounds, by simp [State.readReply], by simp [State.readReply], by simp [State.readReply]⟩
  | _ => exact ⟨rounds, by simp, by simp, by simp⟩

theorem oneRound_of_run (mode : cfg.pipeTimeout ≠ 0 ∨ cfg.cacheSize ≤ 1)
    (run : Run (Step cfg) (start commands sem flush) trace s)
    (greedy : ∀ x ∈ trace, Greedy x.1 x.2) : OneRound cfg s := by
  have preserved : ∀ (a : State) (e : Event) (b : State), OneRound cfg a → Greedy a e →
      Step cfg a e b → OneRound cfg b := fun _ _ _ h g hstep => h.step mode g hstep
  exact run.invariant .start preserved greedy

/-- With a timeout, in manual mode and without a pipeline every batch is lossless. -/
theorem lossless_of_mode (mode : cfg.pipeTimeout ≠ 0 ∨ cfg.cacheSize ≤ 1)
    (run : Run (Step cfg) (start commands sem flush) trace s)
    (greedy : ∀ x ∈ trace, Greedy x.1 x.2) (assembled : s.worker = .assembled b) :
    Lossless s b :=
  (fifo_of_run run).lossless (oneRound_of_run mode run greedy) (by rw [assembled]; rfl)

/-- A pipeline of two: the second command is appended while the worker waits for it. -/
def secondRound : List Event :=
  [.append [bytes "PING"] (some 0), .check, .testErr, .size, .dequeue 1, .test, .testFlush,
    .append [bytes "PING"] (some 1), .dequeue 1, .test]

def oneRound : List Event :=
  [.append [bytes "PING"] (some 0), .append [bytes "PING"] (some 1), .check, .testErr, .size,
    .dequeue 2, .test]

def callbacks (s : State) : Option (List (Option ℕ) × List (Option ℕ)) :=
  match s.worker with
  | .assembled b => some (b.toSend.map (·.callback), s.removed.map (·.callback))
  | _ => none

lemma of_callbacks {slots removed : List (Option ℕ)}
    (h : callbacks s = some (slots, removed)) : ∃ b, s.worker = .assembled b ∧
      b.toSend.map (·.callback) = slots ∧ s.removed.map (·.callback) = removed := by
  unfold callbacks at h
  split at h
  · next b assembled => exact ⟨b, assembled, Prod.mk.inj (Option.some.inj h)⟩
  · cases h

theorem lossless_iff_oneRound : ∃ s b, s.worker = .assembled b ∧ b.toSend.length = 2 ∧
    (Lossless s b ↔ AtMostOne (handedOut (advanceTrace (step ⟨2, 0⟩) (start [] 0 false)
      oneRound))) := by
  have plays : (advance (step ⟨2, 0⟩) (start [] 0 false) oneRound).any (fun s =>
      callbacks s = some ([some 0, some 1], [some 0, some 1])) = true := by decide
  obtain ⟨s, hs, hcallbacks⟩ := (Option.any_eq_true ..).mp plays
  obtain ⟨b, assembled, slots, _⟩ := of_callbacks (of_decide_eq_true hcallbacks)
  have two := congrArg List.length slots
  rw [List.length_map] at two
  exact ⟨s, b, assembled, two, lossless_iff (advance_run hs) assembled⟩

/-- The second command overwrites the first, and the second slot is left empty. -/
theorem overwritten : ¬ ∀ (cfg : Config) (commands : List (List Bytes × Option ℕ)) (sem : ℕ)
    (flush : Bool) (trace : List (State × Event)) (s : State) (b : Batch),
    Run (Step cfg) (start commands sem flush) trace s → s.worker = .assembled b →
      Lossless s b := by
  intro h
  have plays : (advance (step ⟨2, 0⟩) (start [] 0 false) secondRound).any (fun s =>
      callbacks s = some ([some 1, none], [some 0, some 1])) = true := by decide
  obtain ⟨s, hs, hcallbacks⟩ := (Option.any_eq_true ..).mp plays
  obtain ⟨b, assembled, slots, removed⟩ := of_callbacks (of_decide_eq_true hcallbacks)
  have suffix := (h ⟨2, 0⟩ [] 0 false _ s b (advance_run hs) assembled).slots.map (·.callback)
  rw [slots, removed] at suffix
  exact absurd suffix (by decide)

end ClientPrefs.BatchAssembly
