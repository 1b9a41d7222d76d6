import ClientPrefs.SemaphoreRefinement

/-!
# A semaphore on which one thread waits

Where all other threads only signal, the calls of the one that waits take effect at once: each of
them takes as many permits as there are, up to what it asks for, and none only when there is none.
-/
namespace ClientPrefs.SoleWaiter
open LightweightSemaphore SemaphoreRefinement Transition
open Sentinels (sum_update)

inductive Act
  | add (n : ℕ)
  /-- A call for `max` permits that gets `r`. -/
  | take (max r : ℕ)
  deriving DecidableEq, Repr

def count (a : ℕ) : Act → Option ℕ
  | .add n => some (a + n)
  | .take max r => if r = min max a then some (a - r) else none

/-- What the calls asked for, and what they got. -/
def asked (acts : List Act) : List ℕ :=
  acts.filterMap fun act =>
    match act with
    | .take max _ => some max
    | .add _ => none

def got (acts : List Act) : List ℕ :=
  acts.filterMap fun act =>
    match act with
    | .take _ r => some r
    | .add _ => none

theorem count_cases {a b : ℕ} {acts : List Act} (run : advance count a acts = some b)
    (short : acts.length ≤ 1) : (acts = [] ∧ b = a) ∨ (∃ n, acts = [.add n] ∧ b = a + n) ∨
      ∃ max, acts = [.take max (min max a)] ∧ b = a - min max a := by
  match acts, short with
  | [], _ => exact .inl ⟨rfl, (Option.some.inj run).symm⟩
  | [.add n], _ => exact .inr (.inl ⟨n, rfl, (Option.some.inj run).symm⟩)
  | [.take max r], _ =>
    simp only [advance, count] at run
    split_ifs at run with hr
    · subst hr
      exact .inr (.inr ⟨max, rfl, (Option.some.inj run).symm⟩)
    · cases run

variable {ι : Type*} [DecidableEq ι]

/-- All threads but `c` are outside or signal. -/
def Sole (c : ι) (s : State ι) : Prop := ∀ w, w ≠ c → acquiring (s.threads w) = false

def byOne (c : ι) : Label ι → Bool
  | .tryWaitMany w _ | .waitMany w _ _ => decide (w = c)
  | _ => true

def answer : Thread → List ℕ
  | .done r => [r]
  | _ => []

def answered : Thread → ℕ
  | .done r => r
  | _ => 0

def unanswered : Thread → List ℕ
  | .outside | .adding _ | .posting _ | .done _ => []
  | p => [p.limit]

def request (c : ι) : Label ι → List ℕ
  | .tryWaitMany w max | .waitMany w max _ => if w = c then [max] else []
  | _ => []

def reply (c : ι) (s : State ι) : Label ι → List ℕ
  | .leave w => if w = c then answer (s.threads c) else []
  | _ => []

/-- The step adds permits at the addition in `signal`, and takes the permits of a call of `c` at the
access with which the call has its result. -/
def act (c : ι) (s : State ι) (l : Label ι) (t : State ι) : List Act :=
  match l with
  | .move w =>
    match s.threads w with
    | .adding n => [.add n]
    | p => if w = c then (answer (t.threads w)).map (.take p.limit) else []
  | .spurious w => if w = c then (answer (t.threads w)).map (.take (s.threads w).limit) else []
  | _ => []

/-- The steps of the counter in a run, each at its place. -/
def acts (c : ι) (trace : List (State ι × Label ι)) : List Act :=
  trace.flatMap fun x =>
    match step x.1 x.2 with
    | some t => act c x.1 x.2 t
    | none => []

/-- What `c` asks for and is answered in a run. -/
def requests (c : ι) (trace : List (State ι × Label ι)) : List ℕ :=
  trace.flatMap fun x => request c x.2

def replies (c : ι) (trace : List (State ι × Label ι)) : List ℕ :=
  trace.flatMap fun x => reply c x.1 x.2

variable {c w : ι} {s t : State ι} {l : Label ι}

theorem Sole.step (h : Sole c s) (allowed : byOne c l = true) (hl : step s l = some t) :
    Sole c t := by
  intro w hw
  by_cases moved : w = l.thread
  · subst moved
    have outside := h _ hw
    cases step_cases hl with
    | tryWaitMany w max free => exact (hw (of_decide_eq_true allowed)).elim
    | waitMany w max timed free => exact (hw (of_decide_eq_true allowed)).elim
    | signal w n free => simp [Label.thread, acquiring]
    | move w t moves => exact acquiring_of_moves outside moves
    | spurious w purpose max oldCount positive trying =>
      rw [Label.thread, trying] at outside
      cases outside
    | expire w wait sleeping timed =>
      rw [Label.thread, sleeping] at outside
      cases outside
    | leave w result done =>
      rw [Label.thread, done] at outside
      cases outside
  · rw [threads_of_step hl moved]
    exact h w hw

section Finite
variable [Fintype ι]

/-- The permits that `c` has not been given in an answer. -/
def available (c : ι) (s : State ι) : ℕ :=
  s.count.toNat + (s.kernel + pending s.threads) + ((s.threads c).holds - answered (s.threads c))

lemma answered_le (p : Thread) : answered p ≤ p.holds := by
  cases p <;> first | exact le_rfl | exact Nat.zero_le _

lemma holds_of_not_acquiring {p : Thread} (h : acquiring p = false) : p.holds = 0 := by
  cases p <;> first | rfl | cases h

lemma adds_of_acquiring {p : Thread} (h : acquiring p = true) : p.adds = 0 := by
  cases p <;> first | rfl | cases h

lemma acquiring_of_asleep {p : Thread} (h : p.asleep = true) : acquiring p = true := by
  cases p <;> first | rfl | cases h

omit [DecidableEq ι] [Fintype ι] in
lemma Sole.awake (sole : Sole c s) (other : w ≠ c) : (s.threads w).asleep = false := by
  cases hw : (s.threads w).asleep with
  | false => rfl
  | true => exact (acquiring_of_asleep hw).symm.trans (sole w other)

omit [DecidableEq ι] in
lemma held_of_sole (sole : Sole c s) : held s.threads = (s.threads c).holds :=
  Finset.sum_eq_single c (fun w _ hw => holds_of_not_acquiring (sole w hw))
    fun h => (h (Finset.mem_univ c)).elim

omit [DecidableEq ι] in
lemma stock_of_sole (sole : Sole c s) :
    stock s = available c s + answered (s.threads c) + adding s.threads := by
  have le := answered_le (s.threads c)
  simp only [stock, available, held_of_sole sole]
  omega

lemma available_of_awake (backed : Backed s) (sole : Sole c s)
    (awake : (s.threads c).asleep = false) :
    available c s = s.count.toNat + ((s.threads c).holds - answered (s.threads c)) := by
  have none : waiting s.threads = ∅ := by
    refine Finset.filter_eq_empty_iff.mpr fun w _ hw => ?_
    by_cases hc : w = c
    · subst hc
      exact ne_true_of_eq_false awake hw
    · exact ne_true_of_eq_false (sole.awake hc) hw
  simp only [Backed, none, Finset.card_empty] at backed
  simp only [available]
  omega

lemma available_of_negative (backed : Backed s) (sole : Sole c s)
    (asleep : (s.threads c).asleep = true) (negative : s.count < 0) : available c s = 0 := by
  have one : (waiting s.threads).card ≤ 1 := by
    have mine : ∀ u ∈ waiting s.threads, u = c := by
      intro u hu
      by_contra hc
      exact notMem_waiting (sole.awake hc) hu
    exact Finset.card_le_one.mpr fun v hv w hw => (mine v hv).trans (mine w hw).symm
  have holds : (s.threads c).holds = 0 := by
    revert asleep
    cases s.threads c <;> first | exact fun _ => rfl | exact nofun
  simp only [Backed] at backed
  simp only [available, holds]
  omega

def amount (s : State ι) : Label ι → ℕ
  | .move w => (s.threads w).adds
  | _ => 0

omit [Fintype ι] in
lemma threads_update (hl : step s l = some t) :
    t.threads = Function.update s.threads l.thread (t.threads l.thread) := by
  funext v
  by_cases hv : v = l.thread
  · subst hv
    rw [Function.update_self]
  · rw [Function.update_of_ne hv, threads_of_step hl hv]

omit [DecidableEq ι] [Fintype ι] in
lemma adds_next (max result : ℕ) (purpose : Purpose) : (purpose.next max result).adds = 0 := by
  cases purpose with
  | returned => rfl
  | beforeWaiting timed =>
    simp only [Purpose.next]
    split <;> rfl
  | oneMore => rfl

omit [DecidableEq ι] [Fintype ι] in
lemma adds_look (s : State ι) (purpose : Purpose) (max : ℕ) :
    (s.look purpose max).adds = 0 := by
  unfold State.look
  split
  · rfl
  · exact adds_next max 0 purpose

lemma adds_afterOne (wait : Wait) : wait.afterOne.adds = 0 := by
  unfold Wait.afterOne
  split <;> rfl

omit [Fintype ι] in
lemma adds_of_moves {p : Thread} (moves : Moves s w p t) : (t.threads w).adds = 0 := by
  cases moves with
  | load purpose max => rw [set_same, adds_look]
  | take purpose max positive => rw [set_same, adds_next]
  | retry purpose max => rw [set_same, adds_look]
  | subtract wait => rw [set_same, adds_afterOne]
  | wake wait => rw [set_same, adds_afterOne]
  | collect wait => rw [set_same, adds_afterOne]
  | _ => rw [set_same]; rfl

theorem adding_step (hl : step s l = some t) :
    adding t.threads + amount s l = adding s.threads + called l := by
  have change := sum_update Thread.adds s.threads l.thread (t.threads l.thread)
  rw [← threads_update hl] at change
  have places : (s.threads l.thread).adds = amount s l ∧ (t.threads l.thread).adds = called l := by
    cases step_cases hl with
    | tryWaitMany w max outside | waitMany w max timed outside | signal w n outside =>
      rw [Label.thread, outside, set_same]
      exact ⟨rfl, rfl⟩
    | move w t moves => exact ⟨rfl, adds_of_moves moves⟩
    | spurious w purpose max oldCount positive trying =>
      rw [Label.thread, trying, set_same]
      exact ⟨rfl, adds_look s purpose max⟩
    | expire w wait sleeping timed =>
      rw [Label.thread, sleeping, set_same]
      exact ⟨rfl, rfl⟩
    | leave w result done =>
      rw [Label.thread, done, set_same]
      exact ⟨rfl, rfl⟩
  rw [← places.1, ← places.2]
  exact change

/-- What a step does to the permits that there are for `c`, and to its calls. -/
structure Follows (c : ι) (s : State ι) (l : Label ι) (t : State ι) : Prop where
  counts : advance count (available c s) (act c s l t) = some (available c t)
  asks : asked (act c s l t) ++ unanswered (t.threads c) = unanswered (s.threads c) ++ request c l
  replies : answer (s.threads c) ++ got (act c s l t) = reply c s l ++ answer (t.threads c)

theorem available_step (backed : Backed s) (sole : Sole c s) (sole' : Sole c t)
    (hl : step s l = some t) : available c t + answered (t.threads c) + returned s l =
      available c s + answered (s.threads c) + amount s l := by
  obtain ⟨_, total⟩ := stock_step backed hl
  rw [stock_of_sole sole, stock_of_sole sole'] at total
  have adds := adding_step hl
  omega

omit [Fintype ι] in
lemma act_quiet (quiet : l.thread = c → answer (t.threads c) = []) :
    (act c s l t = [] ∧ amount s l = 0) ∨ act c s l t = [.add (amount s l)] := by
  cases l with
  | move w =>
    simp only [act, amount]
    cases hw : s.threads w with
    | adding n => exact .inr rfl
    | _ =>
      refine .inl ⟨?_, rfl⟩
      dsimp only
      split_ifs with mine
      · subst mine
        rw [quiet rfl]
        rfl
      · rfl
  | spurious w =>
    refine .inl ⟨?_, rfl⟩
    simp only [act]
    split_ifs with mine
    · subst mine
      rw [quiet rfl]
      rfl
    · rfl
  | _ => exact .inl ⟨rfl, rfl⟩

omit [Fintype ι] in
lemma act_silent (silent : act c s l t = [] ∨ ∃ n, act c s l t = [.add n]) :
    asked (act c s l t) = [] ∧ got (act c s l t) = [] := by
  rcases silent with h | ⟨n, h⟩
  · rw [h]
    exact ⟨rfl, rfl⟩
  · rw [h]
    exact ⟨rfl, rfl⟩

lemma follows_quiet (quiet : l.thread = c → answer (t.threads c) = [])
    (total : available c t = available c s + amount s l)
    (asks : unanswered (t.threads c) = unanswered (s.threads c) ++ request c l)
    (replies : answer (s.threads c) = reply c s l ++ answer (t.threads c)) : Follows c s l t := by
  rcases act_quiet (s := s) quiet with ⟨none, zero⟩ | adds
  · obtain ⟨asked_none, got_none⟩ := act_silent (.inl none)
    refine ⟨?_, ?_, ?_⟩
    · rw [none, total, zero]
      rfl
    · rw [asked_none]
      exact asks
    · rw [got_none, List.append_nil]
      exact replies
  · obtain ⟨asked_none, got_none⟩ := act_silent (.inr ⟨_, adds⟩)
    refine ⟨?_, ?_, ?_⟩
    · rw [adds, total]
      rfl
    · rw [asked_none]
      exact asks
    · rw [got_none, List.append_nil]
      exact replies

lemma follows_other (backed : Backed s) (sole : Sole c s) (allowed : byOne c l = true)
    (hl : step s l = some t) (other : l.thread ≠ c) : Follows c s l t := by
  have total := available_step backed sole (sole.step allowed hl) hl
  have same : t.threads c = s.threads c := threads_of_step hl other.symm
  have silent : request c l = [] ∧ reply c s l = [] ∧ returned s l = 0 := by
    cases l with
    | tryWaitMany w max => exact ⟨if_neg other, rfl, rfl⟩
    | waitMany w max timed => exact ⟨if_neg other, rfl, rfl⟩
    | leave w =>
      refine ⟨rfl, if_neg other, ?_⟩
      exact holds_of_not_acquiring (sole w other)
    | _ => exact ⟨rfl, rfl, rfl⟩
  obtain ⟨request, reply, returned⟩ := silent
  rw [same, returned] at total
  apply follows_quiet fun mine => absurd mine other
  · omega
  · rw [same, request, List.append_nil]
  · rw [same, reply]
    rfl

lemma follows_place {p : Thread} (none : amount s l = 0)
    (unfinished : answer p = []) (owed : p.pending = (s.threads c).pending)
    (holds : p.holds - answered p = (s.threads c).holds - answered (s.threads c))
    (asks : unanswered p = unanswered (s.threads c) ++ request c l)
    (replies : answer (s.threads c) = reply c s l ++ answer p) : Follows c s l (s.set c p) := by
  have same : available c (s.set c p) = available c s := by
    have pend : pending (s.set c p).threads = pending s.threads := pending_same owed
    simp only [available, pend, set_same, holds, set_count, set_kernel]
  apply follows_quiet
  · intro _
    rw [set_same]
    exact unfinished
  · rw [same, none]
    rfl
  · rw [set_same]
    exact asks
  · rw [set_same]
    exact replies

lemma unanswered_of_acquiring {p : Thread} (inside : acquiring p = true)
    (unfinished : answer p = []) : unanswered p = [p.limit] := by
  cases p <;> first | rfl | exact absurd unfinished (List.cons_ne_nil _ _) | cases inside

lemma answered_of_answer {p : Thread} (h : answer p = []) : answered p = 0 := by
  cases p <;> first | rfl | exact absurd h (List.cons_ne_nil _ _)

lemma answered_eq (p : Thread) : answered p = (answer p).headD 0 := by
  cases p <;> rfl

lemma answered_of_mem {p : Thread} {r : ℕ} (h : r ∈ answer p) : answered p = r := by
  cases p <;> first | exact (List.mem_singleton.mp h).symm | exact (List.not_mem_nil h).elim

lemma length_answer (p : Thread) : (answer p).length ≤ 1 := by
  cases p <;> first | exact le_rfl | exact Nat.zero_le _

lemma acquiring_of_answer {p : Thread} {r : ℕ} (h : answer p = [r]) : acquiring p = true := by
  cases p <;> first | rfl | exact absurd h.symm (List.cons_ne_nil _ _)

lemma silent_of_not_acquiring {p : Thread} (h : acquiring p = false) :
    unanswered p = [] ∧ answer p = [] := by
  cases p <;> first | exact ⟨rfl, rfl⟩ | cases h

omit [Fintype ι] in
lemma answer_of_moves {p : Thread} (moves : Moves s w p t) : answer p = [] := by
  cases moves <;> rfl

inductive Accesses (c : ι) (s : State ι) : Label ι → Prop
  | move : Accesses c s (.move c)
  | spurious : Accesses c s (.spurious c)

omit [Fintype ι] in
lemma act_of_accesses (accesses : Accesses c s l) (inside : acquiring (s.threads c) = true) :
    act c s l t = (answer (t.threads c)).map (.take (s.threads c).limit) := by
  cases accesses with
  | move =>
    simp only [act]
    cases hc : s.threads c with
    | adding n =>
      rw [hc] at inside
      cases inside
    | _ => exact if_pos trivial
  | spurious => exact if_pos rfl

omit [DecidableEq ι] [Fintype ι] in
lemma amount_of_accesses (accesses : Accesses c s l) (inside : acquiring (s.threads c) = true) :
    amount s l = 0 := by
  cases accesses with
  | move => exact adds_of_acquiring inside
  | spurious => rfl

lemma follows_outcome (backed : Backed s) (sole : Sole c s) (allowed : byOne c l = true)
    (hl : step s l = some t) (accesses : Accesses c s l)
    (inside : acquiring (s.threads c) = true) (unfinished : answer (s.threads c) = [])
    (outcome : Outcome s (s.threads c) (t.threads c)) : Follows c s l t := by
  have quiet : request c l = [] ∧ reply c s l = [] ∧ returned s l = 0 := by
    cases accesses <;> exact ⟨rfl, rfl, rfl⟩
  obtain ⟨request, reply, returned⟩ := quiet
  have total := available_step backed sole (sole.step allowed hl) hl
  rw [returned, amount_of_accesses accesses inside, answered_of_answer unfinished] at total
  have acts := act_of_accesses (t := t) accesses inside
  have asks := unanswered_of_acquiring inside unfinished
  generalize hp : s.threads c = p at *
  generalize hq : t.threads c = q at *
  -- The call has its result: it takes effect now.
  have takes : ∀ r, q = .done r → r = min p.limit (available c s) → Follows c s l t := by
    intro r hr result
    subst hr
    have rest : available c t = available c s - r := by
      rw [answered] at total
      omega
    refine ⟨?_, ?_, ?_⟩
    · rw [acts, rest]
      simp only [answer, List.map_cons, List.map_nil, advance, count, if_pos result,
        Option.bind_some]
    · rw [acts, hp, hq, asks, request]
      rfl
    · rw [acts, hp, hq, unfinished, reply]
      rfl
  cases outcome with
  | goesOn q acquires goes limit =>
    have none : answer q = [] := by
      cases q with
      | done r => cases goes
      | _ => rfl
    rw [answered_of_answer none] at total
    refine ⟨?_, ?_, ?_⟩
    · rw [acts, none, show available c t = available c s from total]
      rfl
    · rw [acts, none, hp, hq, asks, unanswered_of_acquiring acquires none, limit, request]
      rfl
    · rw [acts, none, hp, hq, unfinished, none, reply]
      rfl
  | takes awake possible =>
    refine takes _ rfl ?_
    rw [available_of_awake backed sole (by rw [hp]; exact awake), hp,
      answered_of_answer unfinished]
    omega
  | woken asleep one some =>
    refine takes _ rfl ?_
    have enough : 0 < available c s := by
      simp only [available]
      omega
    omega
  | empty asleep negative =>
    refine takes _ rfl ?_
    rw [available_of_negative backed sole (by rw [hp]; exact asleep) negative, Nat.min_zero]

lemma follows_signal (backed : Backed s) (sole : Sole c s)
    (hl : step s (.move c) = some t) (outside : acquiring (s.threads c) = false) :
    Follows c s (.move c) t := by
  have after : acquiring (t.threads c) = false := by
    cases step_cases hl with
    | move c t moves => exact acquiring_of_moves outside moves
  have total := available_step backed sole (sole.step rfl hl) hl
  obtain ⟨asks, unfinished⟩ := silent_of_not_acquiring outside
  obtain ⟨asks', unfinished'⟩ := silent_of_not_acquiring after
  rw [answered_of_answer unfinished, answered_of_answer unfinished'] at total
  apply follows_quiet fun _ => unfinished'
  · exact total
  · rw [asks, asks']
    rfl
  · rw [unfinished, unfinished']
    rfl

/-- One step of the semaphore on which only `c` waits. -/
theorem follows_step (backed : Backed s) (sole : Sole c s) (allowed : byOne c l = true)
    (hl : step s l = some t) : Follows c s l t := by
  by_cases mine : l.thread = c
  · subst mine
    cases step_cases hl with
    | tryWaitMany w max outside =>
      refine follows_place rfl rfl ?_ ?_ ?_ ?_ <;> simp only [Label.thread, outside] <;>
        simp [unanswered, answer, answered, request, reply, Thread.pending, Thread.holds,
          Thread.limit]
    | waitMany w max timed outside =>
      refine follows_place rfl rfl ?_ ?_ ?_ ?_ <;> simp only [Label.thread, outside] <;>
        simp [unanswered, answer, answered, request, reply, Thread.pending, Thread.holds,
          Thread.limit]
    | signal w n outside =>
      refine follows_place rfl rfl ?_ ?_ ?_ ?_ <;> simp only [Label.thread, outside] <;> rfl
    | move w t moves =>
      cases inside : acquiring (s.threads w) with
      | true =>
        exact follows_outcome backed sole rfl hl .move inside (answer_of_moves moves)
          (outcome_of_moves inside moves)
      | false => exact follows_signal backed sole hl inside
    | spurious w purpose max oldCount positive trying =>
      refine follows_outcome backed sole rfl hl .spurious ?_ ?_ ?_
      · rw [Label.thread, trying]
        rfl
      · rw [Label.thread, trying]
        rfl
      · rw [Label.thread, trying, set_same]
        exact .look rfl (holds_trying purpose max _ positive) (limit_trying purpose max _ positive)
    | expire w wait sleeping timed =>
      refine follows_place rfl rfl ?_ ?_ ?_ ?_ <;> simp only [Label.thread, sleeping] <;> rfl
    | leave w result done =>
      refine follows_place rfl rfl ?_ ?_ ?_ ?_ <;> simp only [Label.thread, done] <;>
        simp [unanswered, answer, answered, request, reply, Thread.pending, Thread.holds, done]
  · exact follows_other backed sole allowed hl mine

variable {trace : List (State ι × Label ι)} {n : ℕ}

omit [Fintype ι] in
lemma acts_snoc (hl : step s l = some t) :
    acts c (trace ++ [(s, l)]) = acts c trace ++ act c s l t := by
  simp [acts, hl]

structure Counted (c : ι) (n : ℕ) (trace : List (State ι × Label ι)) (s : State ι) : Prop where
  backed : Backed s
  sole : Sole c s
  counts : advance count n (acts c trace) = some (available c s)
  asks : asked (acts c trace) ++ unanswered (s.threads c) = requests c trace
  replies : got (acts c trace) = replies c trace ++ answer (s.threads c)

theorem Counted.step (h : Counted c n trace s) (allowed : byOne c l = true)
    (hl : step s l = some t) : Counted c n (trace ++ [(s, l)]) t := by
  obtain ⟨backed, sole, counts, asks, replies⟩ := h
  have follows := follows_step backed sole allowed hl
  refine ⟨(stock_step backed hl).1, sole.step allowed hl, ?_, ?_, ?_⟩
  · rw [acts_snoc hl, advance_append, counts]
    exact follows.counts
  · have split : asked (acts c trace ++ act c s l t) =
        asked (acts c trace) ++ asked (act c s l t) := List.filterMap_append
    have grown : requests c (trace ++ [(s, l)]) = requests c trace ++ request c l := by
      simp [requests]
    rw [acts_snoc hl, split, grown, List.append_assoc, follows.asks, ← List.append_assoc, asks]
  · have split : got (acts c trace ++ act c s l t) =
        got (acts c trace) ++ got (act c s l t) := List.filterMap_append
    have grown : SoleWaiter.replies c (trace ++ [(s, l)]) =
        SoleWaiter.replies c trace ++ reply c s l := by
      simp [SoleWaiter.replies]
    rw [acts_snoc hl, split, grown, replies, List.append_assoc, follows.replies, List.append_assoc]

theorem counted_of_run (run : Run Step (start n) trace s)
    (allowed : ∀ x ∈ trace, byOne c x.2 = true) : Counted c n trace s := by
  have first : Counted c n [] (start n : State ι) := by
    have all : available c (start n : State ι) = n := by
      obtain ⟨_, owed, _, _⟩ := start_threads (ι := ι) n
      simp only [available, owed]
      rfl
    exact ⟨backed_start n, fun _ _ => rfl, congrArg some all.symm, rfl, rfl⟩
  have preserved : ∀ (past : List (State ι × Label ι)) (a : State ι) (l : Label ι) (b : State ι),
      Counted c n past a → byOne c l = true → Step a l b → Counted c n (past ++ [(a, l)]) b :=
    fun _ _ _ _ counted ok hl => counted.step ok hl
  exact run.history first preserved allowed

/-- Where only `c` waits, every run of the semaphore is, for `c`, a run of a counter: each addition
in a `signal` adds what the call was given, and each call of `c` takes at once as many permits as
there are, up to what it asks for, at the access with which it has its result. The calls asked and
the answers given are those of the counter, in this order. -/
theorem takes_at_once (run : Run Step (start n) trace s)
    (allowed : ∀ x ∈ trace, byOne c x.2 = true) :
    advance count n (acts c trace) = some (available c s) ∧
      asked (acts c trace) ++ unanswered (s.threads c) = requests c trace ∧
      got (acts c trace) = replies c trace ++ answer (s.threads c) := by
  have counted := counted_of_run run allowed
  exact ⟨counted.counts, counted.asks, counted.replies⟩

/-- A call for two permits where another thread signals three, and a second call for two. -/
theorem takes_at_once_two : ∃ trace s, Run Step (start 0 : State (Fin 2)) trace s ∧
    acts 0 trace = [.add 3, .take 2 2, .take 2 1] ∧
    advance count 0 (acts 0 trace) = some (available 0 s) ∧
    asked (acts 0 trace) ++ unanswered (s.threads 0) = requests 0 trace ∧
    got (acts 0 trace) = replies 0 trace ++ answer (s.threads 0) := by
  have run := @advance_run _ _ step (start 0 : State (Fin 2)) _ [.signal 1 3, .move 1,
    .waitMany 0 2 true, .move 0, .move 0, .leave 0, .tryWaitMany 0 2, .move 0, .move 0,
    .leave 0] rfl
  exact ⟨_, _, run, by decide +kernel, takes_at_once run (by decide +kernel)⟩

end Finite

end ClientPrefs.SoleWaiter
