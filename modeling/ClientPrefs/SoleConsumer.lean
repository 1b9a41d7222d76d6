import ClientPrefs.ClientLoop
import ClientPrefs.QueueDelivery
import ClientPrefs.SoleWaiter

/-!
# A queue between two threads

Where one thread enqueues and one thread dequeues, the blocking queue is a list to which elements
are appended and from which each dequeue takes at once as many elements as there are, up to what
it asks for. The worker loop of a client takes its queue to be such a list.
-/
namespace ClientPrefs.SoleConsumer
open BlockingQueue LightweightSemaphore QueueDelivery SemaphoreRefinement SoleWaiter Transition
open Sentinels (ofWorker)

variable {α : Type*}

inductive Access (α : Type*)
  | put (a : α)
  | get (max : ℕ)
  deriving DecidableEq, Repr

def access (q : List α) : Access α → List α
  | .put a => q ++ [a]
  | .get max => q.drop max

/-- What was put in; what the gets asked for; and what they were handed, from the list `q` on. -/
def puts (accesses : List (Access α)) : List α :=
  accesses.filterMap fun act =>
    match act with
    | .put a => some a
    | .get _ => none

def wanted (accesses : List (Access α)) : List ℕ :=
  accesses.filterMap fun act =>
    match act with
    | .put _ => none
    | .get max => some max

def handed : List α → List (Access α) → List (List α)
  | _, [] => []
  | q, .put a :: accesses => handed (q ++ [a]) accesses
  | q, .get max :: accesses => q.take max :: handed (q.drop max) accesses

lemma handed_append (q : List α) (l m : List (Access α)) :
    handed q (l ++ m) = handed q l ++ handed (l.foldl access q) m := by
  induction l generalizing q with
  | nil => rfl
  | cons act l ih =>
    cases act with
    | put a => exact ih (q ++ [a])
    | get max => exact congrArg (q.take max :: ·) (ih (q.drop max))

lemma put_all (q items : List α) : (items.map .put).foldl access q = q ++ items ∧
    puts (items.map .put) = items ∧ wanted (items.map .put) = [] ∧
    handed q (items.map .put) = [] := by
  induction items generalizing q with
  | nil => exact ⟨(List.append_nil q).symm, rfl, rfl, rfl⟩
  | cons a items ih =>
    obtain ⟨list, hputs, hwanted, hhanded⟩ := ih (q ++ [a])
    refine ⟨?_, congrArg (a :: ·) hputs, hwanted, hhanded⟩
    rw [List.append_assoc] at list
    exact list

variable {ι : Type*} [DecidableEq ι] {p c : ι}

/-- Only `p` enqueues and only `c` dequeues. -/
def byTwo (p c : ι) : BlockingQueue.Label ι α → Bool
  | .enqueue w _ => decide (w = p)
  | .waitDequeueBulk w _ _ | .tryDequeueBulk w _ => decide (w = c)
  | _ => true

def produces : User α → Bool
  | .enqueuing _ => true
  | _ => false

def consumes : User α → Bool
  | .waiting _ | .taking _ _ => true
  | _ => false

structure Roles (p c : ι) (s : BlockingQueue.State ι α) : Prop where
  producer : ∀ w, w ≠ p → produces (s.users w) = false
  lists : ∀ w, w ≠ p → s.inner w = []
  consumer : ∀ w, w ≠ c → consumes (s.users w) = false

/-- How many elements `c` has permits for and has not taken. -/
def due (c : ι) (s : BlockingQueue.State ι α) : ℕ :=
  answered (s.sema.threads c) + owed (s.users c)

/-- What the dequeue of `c` that has its permits comes to. -/
def current (p c : ι) (s : BlockingQueue.State ι α) : List (List α) :=
  match s.users c with
  | .taking want got => [got ++ (s.inner p).take (want - got.length)]
  | _ => (answer (s.sema.threads c)).map fun r => (s.inner p).take r

def ask (c : ι) : BlockingQueue.Label ι α → List ℕ
  | .waitDequeueBulk w max _ | .tryDequeueBulk w max => if w = c then [max] else []
  | _ => []

def batch (c : ι) (s : BlockingQueue.State ι α) : BlockingQueue.Label ι α → List (List α)
  | .finish w =>
    if w = c then
      match s.users c with
      | .taking _ got => [got]
      | _ => []
    else []
  | _ => []

/-- The sizes that the dequeues of `c` ask for, and what the ones that are over have returned. -/
def asks (c : ι) (trace : List (BlockingQueue.State ι α × BlockingQueue.Label ι α)) : List ℕ :=
  trace.flatMap fun x => ask c x.2

def batches (c : ι) (trace : List (BlockingQueue.State ι α × BlockingQueue.Label ι α)) :
    List (List α) :=
  trace.flatMap fun x => batch c x.1 x.2

variable [Fintype ι]

/-- The elements that the semaphore has counted and no dequeue has got permits for, and those that
it has not counted yet. -/
def visible (p c : ι) (s : BlockingQueue.State ι α) : List α :=
  ((s.inner p).drop (due c s)).take (available c s.sema)

def uncounted (p c : ι) (s : BlockingQueue.State ι α) : List α :=
  (s.inner p).drop (due c s + available c s.sema)

/-- The accesses to the list at a step of the semaphore: an addition puts in the elements that it
counts. -/
def listed (p c : ι) (s : BlockingQueue.State ι α) (acts : List Act) : List (Access α) :=
  acts.flatMap fun act =>
    match act with
    | .add n => ((uncounted p c s).take n).map .put
    | .take max _ => [.get max]

/-- The accesses to the list in a run, each at its place. -/
def accesses (p c : ι) (trace : List (BlockingQueue.State ι α × BlockingQueue.Label ι α)) :
    List (Access α) :=
  trace.flatMap fun x =>
    match x.2 with
    | .sema k =>
      match LightweightSemaphore.step x.1.sema k with
      | some sema => listed p c x.1 (act c x.1.sema k sema)
      | none => []
    | _ => []

variable {s t : BlockingQueue.State ι α} {l : BlockingQueue.Label ι α}

omit [DecidableEq ι] in
lemma Roles.sole (roles : Roles p c s) (settled : Settled s) : Sole c s.sema := by
  intro w hw
  have fits := settled.fits w
  have consumer := roles.consumer w hw
  cases hu : s.users w with
  | outside =>
    rw [hu] at fits
    rw [show s.sema.threads w = .outside from fits]
    rfl
  | enqueuing item =>
    rw [hu] at fits
    rw [show s.sema.threads w = .outside from fits]
    rfl
  | signalling =>
    rw [hu] at fits
    exact fits
  | waiting max =>
    rw [hu] at consumer
    cases consumer
  | taking want got =>
    rw [hu] at consumer
    cases consumer

omit [DecidableEq ι] in
lemma length_inner (roles : Roles p c s) (settled : Settled s) :
    (s.inner p).length = due c s + available c s.sema + adding s.sema.threads := by
  have mine : ∑ w, (s.inner w).length = (s.inner p).length :=
    Finset.sum_eq_single p (fun w _ hw => List.length_eq_zero_iff.mpr (roles.lists w hw))
      fun h => (h (Finset.mem_univ p)).elim
  have his : ∑ w, owed (s.users w) = owed (s.users c) := by
    refine Finset.sum_eq_single c (fun w _ hw => ?_) fun h => (h (Finset.mem_univ c)).elim
    have consumer := roles.consumer w hw
    cases hu : s.users w with
    | taking want got =>
      rw [hu] at consumer
      cases consumer
    | _ => rfl
  have counted := settled.counted
  rw [mine, his, stock_of_sole (roles.sole settled)] at counted
  simp only [due]
  omega

/-- What a step with these accesses is for the list: `added` is enqueued, `c` asks for some
elements, and dequeues of `c` return. -/
structure Shows (p c : ι) (s : BlockingQueue.State ι α) (acc : List (Access α)) (added : List α)
    (asked : List ℕ) (returned : List (List α)) (t : BlockingQueue.State ι α) : Prop where
  list : acc.foldl access (visible p c s) = visible p c t
  enters : puts acc ++ uncounted p c t = uncounted p c s ++ added
  asks : wanted acc ++ unanswered (t.sema.threads c) = unanswered (s.sema.threads c) ++ asked
  gives : current p c s ++ handed (visible p c s) acc = returned ++ current p c t

omit [DecidableEq ι] in
lemma shows_still (sema : t.sema = s.sema)
    (inner : (t.inner p).drop (due c t) = (s.inner p).drop (due c s)) {returned : List (List α)}
    (results : current p c s = returned ++ current p c t) :
    Shows p c s [] [] [] returned t := by
  have view : visible p c t = visible p c s := by
    rw [visible, visible, inner, sema]
  have rest : uncounted p c t = uncounted p c s := by
    rw [uncounted, uncounted, sema, ← List.drop_drop, ← List.drop_drop, inner]
  refine ⟨view.symm, ?_, ?_, ?_⟩
  · rw [rest, List.append_nil]
    rfl
  · rw [sema, List.append_nil]
    rfl
  · rw [← results]
    exact List.append_nil _

omit [DecidableEq ι] in
lemma view_append (roles : Roles p c s) (settled : Settled s) (added : List α) :
    visible p c s = ((s.inner p ++ added).drop (due c s)).take (available c s.sema) ∧
      uncounted p c s ++ added =
        (s.inner p ++ added).drop (due c s + available c s.sema) := by
  have length := length_inner roles settled
  have enough : available c s.sema ≤ ((s.inner p).drop (due c s)).length := by
    rw [List.length_drop]
    omega
  constructor
  · rw [List.drop_append_of_le_length (by omega), List.take_append_of_le_length enough]
    rfl
  · rw [List.drop_append_of_le_length (by omega)]
    rfl

omit [DecidableEq ι] in
lemma shows_count {added : List α} {asked' : List ℕ} {acts : List Act}
    (roles : Roles p c s) (settled : Settled s) (inner : t.inner p = s.inner p ++ added)
    (still_none : added = [] ∨ acts = [])
    (run : advance count (available c s.sema) acts = some (available c t.sema))
    (short : acts.length ≤ 1) (none : got acts = [])
    (asks : unanswered (t.sema.threads c) = unanswered (s.sema.threads c) ++ asked')
    (same : due c t = due c s) (results : current p c t = current p c s) :
    Shows p c s (listed p c s acts) added asked' [] t := by
  obtain ⟨view, rest⟩ := view_append roles settled added
  have view' : visible p c t =
      ((s.inner p ++ added).drop (due c s)).take (available c t.sema) := by
    rw [visible, inner, same]
  have rest' : uncounted p c t =
      (s.inner p ++ added).drop (due c s + available c t.sema) := by
    rw [uncounted, inner, same]
  rcases count_cases run short with ⟨rfl, still⟩ | ⟨n, rfl, more⟩ | ⟨max, rfl, _⟩
  · refine ⟨?_, ?_, asks, ?_⟩
    · rw [view', still, ← view]
      rfl
    · rw [rest', rest, still]
      rfl
    · rw [results]
      exact List.append_nil _
  · obtain rfl : added = [] := still_none.resolve_right (by simp)
    simp only [List.append_nil] at view rest view' rest'
    obtain ⟨list, hputs, hwanted, hhanded⟩ :=
      put_all (visible p c s) ((uncounted p c s).take n)
    have acc : listed p c s [.add n] = ((uncounted p c s).take n).map .put := List.append_nil _
    rw [acc]
    refine ⟨?_, ?_, ?_, ?_⟩
    · rw [list, view', more, List.take_add, ← view, List.drop_drop, rest]
    · have tail : ((s.inner p).drop (due c s + available c s.sema)).drop n =
          (s.inner p).drop (due c s + available c s.sema + n) := List.drop_drop
      rw [hputs, rest', rest, more, ← Nat.add_assoc, ← tail, List.take_append_drop,
        List.append_nil]
    · rw [hwanted]
      exact asks
    · rw [hhanded, results, List.append_nil]
      rfl
  · cases none

omit [DecidableEq ι] in
lemma shows_take {acts : List Act} {r : ℕ} (inner : t.inner p = s.inner p)
    (run : advance count (available c s.sema) acts = some (available c t.sema))
    (short : acts.length ≤ 1)
    (some : got acts = [r]) (asks : asked acts ++ unanswered (t.sema.threads c) =
      unanswered (s.sema.threads c))
    (before : due c s = 0) (after : due c t = r) (nothing : current p c s = [])
    (results : current p c t = [(s.inner p).take r]) :
    Shows p c s (listed p c s acts) [] [] [] t := by
  have view : visible p c s = (s.inner p).take (available c s.sema) := by
    rw [visible, before, List.drop_zero]
  have view' : visible p c t = ((s.inner p).drop r).take (available c t.sema) := by
    rw [visible, inner, after]
  rcases count_cases run short with ⟨rfl, _⟩ | ⟨n, rfl, _⟩ | ⟨max, rfl, less⟩
  · cases some
  · cases some
  · obtain rfl : min max (available c s.sema) = r := List.singleton_inj.mp some
    refine ⟨?_, ?_, ?_, ?_⟩
    · show (visible p c s).drop max = visible p c t
      rw [view', view, less, List.drop_take]
      rcases Nat.le_total max (available c s.sema) with h | h
      · rw [Nat.min_eq_left h]
      · rw [Nat.min_eq_right h, Nat.sub_self, Nat.sub_eq_zero_of_le h, List.take_zero,
          List.take_zero]
    · rw [uncounted, uncounted, inner, after, before, less, List.append_nil, Nat.zero_add,
        Nat.add_sub_cancel' (Nat.min_le_right ..)]
      rfl
    · rw [List.append_nil, ← asks]
      rfl
    · rw [nothing, results, ← List.take_take, ← view]
      rfl

omit [DecidableEq ι] in
lemma waiting_of_acquiring (settled : Settled s) {w : ι}
    (inside : acquiring (s.sema.threads w) = true) : ∃ max, s.users w = .waiting max := by
  have fits := settled.fits w
  cases hu : s.users w with
  | waiting max => exact ⟨max, rfl⟩
  | signalling =>
    rw [hu] at fits
    exact (ne_true_of_eq_false fits inside).elim
  | _ =>
    rw [hu] at fits
    rw [show s.sema.threads w = .outside from fits] at inside
    cases inside

omit [Fintype ι] in
lemma length_act (c : ι) (r : LightweightSemaphore.State ι) (k : LightweightSemaphore.Label ι)
    (r' : LightweightSemaphore.State ι) : (act c r k r').length ≤ 1 := by
  have at_most : ∀ (w : ι) (max : ℕ),
      (if w = c then (answer (r'.threads w)).map (Act.take max) else []).length ≤ 1 := by
    intro w max
    split_ifs
    · rw [List.length_map]
      exact length_answer _
    · exact Nat.zero_le _
  cases k with
  | move w =>
    simp only [act]
    cases r.threads w with
    | adding n => exact le_rfl
    | _ => exact at_most w _
  | spurious w => exact at_most w _
  | _ => exact Nat.zero_le _

lemma shows_call {k : LightweightSemaphore.Label ι} {added : List α} (roles : Roles p c s)
    (settled : Settled s) (allowed : byOne c k = true)
    (call : LightweightSemaphore.Step s.sema k t.sema) (inner : t.inner p = s.inner p ++ added)
    (still_none : added = [] ∨ act c s.sema k t.sema = [])
    (answers : answer (s.sema.threads c) = reply c s.sema k ++ answer (t.sema.threads c))
    (same : due c t = due c s) (results : current p c t = current p c s) :
    Shows p c s (listed p c s (act c s.sema k t.sema)) added (request c k) [] t := by
  obtain ⟨run, asks, replies⟩ := follows_step settled.backed (roles.sole settled) allowed call
  have short := length_act c s.sema k t.sema
  rw [answers] at replies
  have none : got (act c s.sema k t.sema) = [] := by
    have length := congrArg List.length replies
    simp only [List.length_append] at length
    exact List.length_eq_zero_iff.mp (by omega)
  have open_calls : unanswered (t.sema.threads c) =
      unanswered (s.sema.threads c) ++ request c k := by
    rcases count_cases run short with ⟨silent, _⟩ | ⟨n, adds, _⟩ | ⟨max, takes, _⟩
    · rw [silent] at asks
      exact asks
    · rw [adds] at asks
      exact asks
    · rw [takes] at none
      cases none
  exact shows_count roles settled inner still_none run short none open_calls same results

def inLoop : User α → Bool
  | .taking _ _ => true
  | _ => false

omit [DecidableEq ι] [Fintype ι] in
lemma current_of_not_inLoop (h : inLoop (s.users c) = false) :
    current p c s = (answer (s.sema.threads c)).map fun r => (s.inner p).take r := by
  rw [current]
  cases hu : s.users c with
  | taking want got =>
    rw [hu] at h
    cases h
  | _ => rfl

omit [DecidableEq ι] [Fintype ι] in
lemma owed_of_not_inLoop {user : User α} (h : inLoop user = false) : owed user = 0 := by
  cases user <;> first | rfl | cases h

lemma shows_user {w : ι} {user : User α} (before : inLoop (s.users w) = false)
    (after : inLoop user = false) : Shows p c s [] [] [] [] (s.setUser w user) := by
  by_cases hw : c = w
  · subst hw
    have user' : (s.setUser c user).users c = user := Function.update_self ..
    refine shows_still (s := s) (t := s.setUser _ user) rfl ?_ ?_
    · rw [due, due, user', owed_of_not_inLoop before, owed_of_not_inLoop after]
      rfl
    · rw [current_of_not_inLoop before, current_of_not_inLoop (by rw [user']; exact after)]
      rfl
  · have user' : (s.setUser w user).users c = s.users c := Function.update_of_ne hw ..
    refine shows_still (s := s) (t := s.setUser _ user) rfl ?_ ?_
    · rw [due, due, user']
      rfl
    · rw [current, current, user']
      rfl

omit [DecidableEq ι] in
lemma current_append {added : List α} (roles : Roles p c s) (settled : Settled s)
    (users : t.users c = s.users c)
    (answers : answer (t.sema.threads c) = answer (s.sema.threads c))
    (inner : t.inner p = s.inner p ++ added) : current p c t = current p c s := by
  have length := length_inner roles settled
  have enough : ∀ n ≤ due c s, (s.inner p ++ added).take n = (s.inner p).take n := fun n hn =>
    List.take_append_of_le_length (by omega)
  cases hu : s.users c with
  | taking want got =>
    rw [current, current, users, hu, inner]
    simp only
    rw [enough _ (by rw [due, hu]; exact Nat.le_add_left ..)]
  | _ =>
    rw [current_of_not_inLoop (by rw [users, hu]; rfl), current_of_not_inLoop (by rw [hu]; rfl),
      answers, inner]
    refine List.map_congr_left fun r hr => enough r ?_
    rw [due, answered_of_mem hr]
    exact Nat.le_add_right ..

lemma shows_sema {k : LightweightSemaphore.Label ι} {sema : LightweightSemaphore.State ι}
    (roles : Roles p c s) (settled : Settled s) (settled' : Settled { s with sema := sema })
    (inside : internal k = true) (call : LightweightSemaphore.Step s.sema k sema) :
    Shows p c s (listed p c s (act c s.sema k sema)) [] [] [] { s with sema := sema } := by
  have quiet : request c k = [] ∧ reply c s.sema k = [] ∧ byOne c k = true := by
    cases k with
    | move w => exact ⟨rfl, rfl, rfl⟩
    | spurious w => exact ⟨rfl, rfl, rfl⟩
    | expire w => exact ⟨rfl, rfl, rfl⟩
    | _ => cases inside
  obtain ⟨silent, reply, allowed⟩ := quiet
  obtain ⟨run, asks, replies⟩ := follows_step settled.backed (roles.sole settled) allowed call
  have short := length_act c s.sema k sema
  rw [silent, List.append_nil] at asks
  rw [reply, List.nil_append] at replies
  cases hgot : got (act c s.sema k sema) with
  | nil =>
    rw [hgot, List.append_nil] at replies
    have same : due c { s with sema := sema } = due c s := by
      simp only [due, answered_eq, replies]
    have results : current p c { s with sema := sema } = current p c s := by
      simp only [current, replies]
    rw [← silent]
    refine @shows_call _ _ _ _ _ _ s { s with sema := sema } k [] roles settled allowed call
      (List.append_nil _).symm (.inl rfl) ?_ same results
    rw [reply, List.nil_append]
    exact replies
  | cons r rest =>
    have fresh : answer (s.sema.threads c) = [] ∧ rest = [] := by
      have length := congrArg List.length replies
      have one := length_answer (sema.threads c)
      rw [hgot, List.length_append, List.length_cons] at length
      exact ⟨List.length_eq_zero_iff.mp (by omega), List.length_eq_zero_iff.mp (by omega)⟩
    obtain ⟨before, rfl⟩ := fresh
    rw [hgot, before, List.nil_append] at replies
    obtain ⟨max, waiting⟩ := waiting_of_acquiring settled' (acquiring_of_answer replies.symm)
    have waits : s.users c = .waiting max := waiting
    refine shows_take rfl run short hgot asks ?_ ?_ ?_ ?_
    · rw [due, waits, answered_of_answer before]
      rfl
    · rw [due, waiting, answered_eq, ← replies]
      rfl
    · rw [current, waits, before]
      rfl
    · rw [current, waiting, ← replies]
      rfl

omit [Fintype ι] in
lemma Roles.producer_is (h : Roles p c s) {w : ι} (produces_w : produces (s.users w) = true) :
    w = p := by
  by_contra hw
  exact ne_true_of_eq_false (h.producer w hw) produces_w

omit [Fintype ι] in
lemma Roles.consumer_is (h : Roles p c s) {w : ι} (consumes_w : consumes (s.users w) = true) :
    w = c := by
  by_contra hw
  exact ne_true_of_eq_false (h.consumer w hw) consumes_w

omit [Fintype ι] in
lemma Roles.move (h : Roles p c s) (w : ι) (user : User α)
    (users : t.users = Function.update s.users w user)
    (lists : ∀ v, v ≠ p → t.inner v = s.inner v) (producer : produces user = true → w = p)
    (consumer : consumes user = true → w = c) : Roles p c t := by
  have at_others : ∀ {P : User α → Bool} {q : ι}, (∀ v, v ≠ q → P (s.users v) = false) →
      (P user = true → w = q) → ∀ v, v ≠ q → P (t.users v) = false := by
    intro P q before after v hv
    rw [users]
    by_cases hvw : v = w
    · subst hvw
      rw [Function.update_self]
      exact eq_false_of_ne_true fun hp => hv (after hp)
    · rw [Function.update_of_ne hvw]
      exact before v hv
  exact ⟨at_others h.producer producer, fun v hv => (lists v hv).trans (h.lists v hv),
    at_others h.consumer consumer⟩

omit [Fintype ι] in
theorem Roles.step (h : Roles p c s) (allowed : byTwo p c l = true)
    (hl : BlockingQueue.step s l = some t) : Roles p c t := by
  cases step_cases hl with
  | enqueue w item outside =>
    exact h.move w _ rfl (fun _ _ => rfl) (fun _ => of_decide_eq_true allowed) (fun hp => by cases hp)
  | refuse w item enqueuing =>
    exact h.move w _ rfl (fun _ _ => rfl) (fun hp => by cases hp) (fun hp => by cases hp)
  | link w item sema enqueuing call =>
    obtain rfl := h.producer_is (w := w) (by rw [enqueuing]; rfl)
    exact h.move w _ rfl (fun v hv => Function.update_of_ne hv ..) (fun hp => by cases hp)
      (fun hp => by cases hp)
  | signalled w signalling ended =>
    exact h.move w _ rfl (fun _ _ => rfl) (fun hp => by cases hp) (fun hp => by cases hp)
  | waitDequeueBulk w max timed sema outside call =>
    exact h.move w _ rfl (fun _ _ => rfl) (fun hp => by cases hp) (fun _ => of_decide_eq_true allowed)
  | tryDequeueBulk w max sema outside call =>
    exact h.move w _ rfl (fun _ _ => rfl) (fun hp => by cases hp) (fun _ => of_decide_eq_true allowed)
  | sema k sema inside call => exact ⟨h.producer, h.lists, h.consumer⟩
  | acquired w max result sema waiting done call =>
    exact h.move w _ rfl (fun _ _ => rfl) (fun hp => by cases hp)
      (fun _ => h.consumer_is (by rw [waiting]; rfl))
  | take w q k want got taking room there =>
    refine h.move w _ rfl (fun v hv => ?_) (fun hp => by cases hp)
      (fun _ => h.consumer_is (by rw [taking]; rfl))
    by_cases hq : v = q
    · subst hq
      simp [State.setUser, h.lists v hv]
    · exact Function.update_of_ne hq ..
  | finish w want got taking all =>
    exact h.move w _ rfl (fun _ _ => rfl) (fun hp => by cases hp) (fun hp => by cases hp)

def entered (p : ι) (s : BlockingQueue.State ι α) (l : BlockingQueue.Label ι α) : List α :=
  ofWorker p (linked [(s, l)])

lemma shows_link {item : α} (roles : Roles p c s) (settled : Settled s)
    (enqueuing : s.users p = .enqueuing item)
    (call : LightweightSemaphore.Step s.sema (.signal p 1) t.sema)
    (inner : t.inner p = s.inner p ++ [item])
    (users : t.users = Function.update s.users p .signalling) :
    Shows p c s [] [item] [] [] t := by
  have places : s.sema.threads p = .outside ∧ t.sema.threads p = .adding 1 := by
    generalize t.sema = sema at call
    cases LightweightSemaphore.step_cases call with
    | signal w count outside => exact ⟨outside, set_same ..⟩
  by_cases hc : c = p
  · subst hc
    have user : t.users c = .signalling := by rw [users, Function.update_self]
    have before : answer (s.sema.threads c) = [] := by
      rw [places.1]
      rfl
    have after : answer (t.sema.threads c) = [] := by
      rw [places.2]
      rfl
    refine shows_call roles settled rfl call inner (.inr rfl) (before.trans after.symm) ?_ ?_
    · rw [due, due, answered_of_answer before, answered_of_answer after, enqueuing, user]
      rfl
    · rw [current_of_not_inLoop (s := s) (by rw [enqueuing]; rfl),
        current_of_not_inLoop (s := t) (by rw [user]; rfl), before, after]
      rfl
  · have user : t.users c = s.users c := by rw [users, Function.update_of_ne hc]
    have same : t.sema.threads c = s.sema.threads c := threads_of_step call hc
    refine shows_call roles settled rfl call inner (.inr rfl) (congrArg answer same.symm) ?_ ?_
    · rw [due, due, same, user]
    · exact current_append roles settled user (congrArg answer same) inner

lemma shows_dequeue {k : LightweightSemaphore.Label ι} {max : ℕ} (roles : Roles p c s)
    (settled : Settled s) (outside : s.users c = .outside) (allowed : byOne c k = true)
    (asks : request c k = [max]) (quiet : reply c s.sema k = [])
    (silent : act c s.sema k t.sema = [])
    (call : LightweightSemaphore.Step s.sema k t.sema)
    (before : answer (s.sema.threads c) = []) (after : answer (t.sema.threads c) = [])
    (inner : t.inner = s.inner) (user : t.users c = .waiting max) :
    Shows p c s [] [] [max] [] t := by
  rw [← asks, show ([] : List (Access α)) = listed p c s (act c s.sema k t.sema) by
    rw [silent]; rfl]
  refine shows_call roles settled allowed call ?_ (.inl rfl) ?_ ?_ ?_
  · rw [inner, List.append_nil]
  · rw [before, quiet, after]
    rfl
  · rw [due, due, answered_of_answer before, answered_of_answer after, outside, user]
    rfl
  · rw [current_of_not_inLoop (s := s) (by rw [outside]; rfl),
      current_of_not_inLoop (s := t) (by rw [user]; rfl), before, after]
    rfl

lemma shows_acquired {max result : ℕ} (roles : Roles p c s) (settled : Settled s)
    (waiting : s.users c = .waiting max) (done : s.sema.threads c = .done result)
    (call : LightweightSemaphore.Step s.sema (.leave c) t.sema) (inner : t.inner = s.inner)
    (user : t.users c = .taking result []) : Shows p c s [] [] [] [] t := by
  have after : answer (t.sema.threads c) = [] := by
    generalize t.sema = sema at call
    cases LightweightSemaphore.step_cases call with
    | leave w result done => exact congrArg answer (set_same ..)
  refine @shows_call _ _ _ _ _ _ s t (.leave c) [] roles settled rfl call ?_ (.inl rfl) ?_ ?_ ?_
  · rw [inner, List.append_nil]
  · rw [after, reply, if_pos rfl, List.append_nil]
  · rw [due, due, answered_of_answer after, done, waiting, user]
    exact Nat.zero_add result
  · rw [current_of_not_inLoop (s := s) (by rw [waiting]; rfl), done, current, user, inner]
    rfl

omit [DecidableEq ι] in
lemma outside_of_inLoop (settled : Settled s) {want : ℕ} {got : List α}
    (taking : s.users c = .taking want got) : s.sema.threads c = .outside := by
  have fits := settled.fits c
  rw [taking] at fits
  exact fits

omit [DecidableEq ι] in
lemma shows_taken {k want : ℕ} {got : List α} (settled : Settled s)
    (taking : s.users c = .taking want got) (room : k ≤ want - got.length)
    (there : k ≤ (s.inner p).length) (sema : t.sema = s.sema)
    (inner : t.inner p = (s.inner p).drop k)
    (user : t.users c = .taking want (got ++ (s.inner p).take k)) :
    Shows p c s [] [] [] [] t := by
  have length : ((s.inner p).take k).length = k := List.length_take_of_le there
  have left : want - got.length = k + (want - (got ++ (s.inner p).take k).length) := by
    rw [List.length_append, length]
    omega
  refine shows_still sema ?_ ?_
  · rw [due, due, user, taking, sema, outside_of_inLoop settled taking, inner, List.drop_drop]
    show (s.inner p).drop (k + (0 + (want - (got ++ (s.inner p).take k).length))) =
      (s.inner p).drop (0 + (want - got.length))
    rw [Nat.zero_add, Nat.zero_add, left]
  · rw [current, current, taking, user, inner]
    show [got ++ (s.inner p).take (want - got.length)] = [] ++ [got ++ (s.inner p).take k ++
      ((s.inner p).drop k).take (want - (got ++ (s.inner p).take k).length)]
    rw [left, List.take_add, List.nil_append, List.append_assoc]

omit [DecidableEq ι] in
lemma shows_finish {want : ℕ} {got : List α} (settled : Settled s)
    (taking : s.users c = .taking want got) (all : got.length = want) (sema : t.sema = s.sema)
    (inner : t.inner = s.inner) (user : t.users c = .outside) :
    Shows p c s [] [] [] [got] t := by
  have free := outside_of_inLoop settled taking
  have done : current p c t = [] := by
    rw [current_of_not_inLoop (by rw [user]; rfl), sema, free]
    rfl
  refine shows_still sema ?_ ?_
  · rw [due, due, user, taking, sema, inner, free]
    show _ = (s.inner p).drop (0 + (want - got.length))
    rw [all, Nat.sub_self]
    rfl
  · rw [done, current, taking]
    show [got ++ (s.inner p).take (want - got.length)] = [got] ++ []
    rw [all, Nat.sub_self, List.take_zero, List.append_nil, List.append_nil]

/-- One step of a queue between two threads. -/
theorem shows_step (roles : Roles p c s) (settled : Settled s) (allowed : byTwo p c l = true)
    (hl : BlockingQueue.step s l = some t) :
    Shows p c s (accesses p c [(s, l)]) (entered p s l) (ask c l) (batch c s l) t := by
  have settled' := settled.step hl
  cases step_cases hl with
  | enqueue w item outside => exact shows_user (by rw [outside]; rfl) rfl
  | refuse w item enqueuing => exact shows_user (by rw [enqueuing]; rfl) rfl
  | link w item sema enqueuing call =>
    obtain rfl := roles.producer_is (w := w) (by rw [enqueuing]; rfl)
    have one : entered w s (.link w) = [item] := by simp [entered, linked, enqueuing]
    rw [one]
    exact shows_link roles settled enqueuing call (Function.update_self ..) rfl
  | signalled w signalling ended => exact shows_user (by rw [signalling]; rfl) rfl
  | waitDequeueBulk w max timed sema outside call =>
    obtain rfl : w = c := of_decide_eq_true allowed
    rw [show ask w (.waitDequeueBulk w max timed : BlockingQueue.Label ι α) = [max] from if_pos rfl]
    cases LightweightSemaphore.step_cases call with
    | waitMany w max timed free =>
      exact shows_dequeue (k := .waitMany w max timed) roles settled outside (decide_eq_true rfl)
        (if_pos rfl) rfl rfl call (by rw [free]; rfl)
        (congrArg answer (set_same ..)) rfl (Function.update_self ..)
  | tryDequeueBulk w max sema outside call =>
    obtain rfl : w = c := of_decide_eq_true allowed
    rw [show ask w (.tryDequeueBulk w max : BlockingQueue.Label ι α) = [max] from if_pos rfl]
    cases LightweightSemaphore.step_cases call with
    | tryWaitMany w max free =>
      exact shows_dequeue (k := .tryWaitMany w max) roles settled outside (decide_eq_true rfl)
        (if_pos rfl) rfl rfl call (by rw [free]; rfl)
        (congrArg answer (set_same ..)) rfl (Function.update_self ..)
  | sema k sema inside call =>
    have acc : accesses p c [(s, .sema k)] = listed p c s (act c s.sema k sema) := by
      simp [accesses, show LightweightSemaphore.step s.sema k = some sema from call]
    rw [acc]
    exact shows_sema roles settled settled' inside call
  | acquired w max result sema waiting done call =>
    obtain rfl := roles.consumer_is (w := w) (by rw [waiting]; rfl)
    exact shows_acquired roles settled waiting done call rfl (Function.update_self ..)
  | take w q k want got taking room there =>
    obtain rfl := roles.consumer_is (w := w) (by rw [taking]; rfl)
    by_cases hq : p = q
    · subst hq
      exact shows_taken settled taking room there rfl (Function.update_self ..)
        (Function.update_self ..)
    · have empty : s.inner q = [] := roles.lists q (Ne.symm hq)
      obtain rfl : k = 0 := Nat.le_zero.mp (by simpa [empty] using there)
      exact shows_taken settled taking (Nat.zero_le _) (Nat.zero_le _) rfl
        (Function.update_of_ne hq ..) (Function.update_self ..)
  | finish w want got taking all =>
    obtain rfl := roles.consumer_is (w := w) (by rw [taking]; rfl)
    rw [show batch w s (.finish w) = [got] by simp [batch, taking]]
    exact shows_finish settled taking all rfl rfl (Function.update_self ..)

variable {trace : List (BlockingQueue.State ι α × BlockingQueue.Label ι α)}

structure Shown (p c : ι) (trace : List (BlockingQueue.State ι α × BlockingQueue.Label ι α))
    (s : BlockingQueue.State ι α) : Prop where
  settled : Settled s
  roles : Roles p c s
  list : (accesses p c trace).foldl access [] = visible p c s
  entered : puts (accesses p c trace) ++ uncounted p c s = ofWorker p (linked trace)
  asked : wanted (accesses p c trace) ++ unanswered (s.sema.threads c) = asks c trace
  given : handed [] (accesses p c trace) = batches c trace ++ current p c s

lemma Shown.start : Shown p c [] (BlockingQueue.start : BlockingQueue.State ι α) := by
  have none : visible p c (BlockingQueue.start : BlockingQueue.State ι α) = [] := by
    simp [visible, BlockingQueue.start]
  refine ⟨.start, ⟨fun _ _ => rfl, fun _ _ => rfl, fun _ _ => rfl⟩, none.symm, ?_, rfl, rfl⟩
  simp [uncounted, BlockingQueue.start, accesses, puts, linked]

theorem Shown.step (h : Shown p c trace s) (allowed : byTwo p c l = true)
    (hl : BlockingQueue.step s l = some t) : Shown p c (trace ++ [(s, l)]) t := by
  obtain ⟨settled, roles, list, hentered, hasked, hgiven⟩ := h
  obtain ⟨next, enters, asks_more, gives⟩ := shows_step roles settled allowed hl
  have hacc : accesses p c (trace ++ [(s, l)]) = accesses p c trace ++ accesses p c [(s, l)] :=
    List.flatMap_append
  generalize accesses p c [(s, l)] = more at *
  have hputs : puts (accesses p c trace ++ more) = puts (accesses p c trace) ++ puts more :=
    List.filterMap_append
  have hwanted : wanted (accesses p c trace ++ more) = wanted (accesses p c trace) ++ wanted more :=
    List.filterMap_append
  have hasks : asks c (trace ++ [(s, l)]) = asks c trace ++ ask c l := by simp [asks]
  have hbatches : batches c (trace ++ [(s, l)]) = batches c trace ++ batch c s l := by
    simp [batches]
  refine ⟨settled.step hl, roles.step allowed hl, ?_, ?_, ?_, ?_⟩
  · rw [hacc, List.foldl_append, list]
    exact next
  · rw [hacc, hputs, List.append_assoc, enters, ← List.append_assoc, hentered, linked_snoc,
      Sentinels.ofWorker_append]
    rfl
  · rw [hacc, hwanted, List.append_assoc, asks_more, ← List.append_assoc, hasked, hasks]
  · rw [hacc, handed_append, list, hgiven, List.append_assoc, gives, ← List.append_assoc, hbatches]

theorem shown_of_run (run : Run BlockingQueue.Step BlockingQueue.start trace s)
    (allowed : ∀ x ∈ trace, byTwo p c x.2 = true) : Shown p c trace s := by
  have preserved : ∀ (past : List (BlockingQueue.State ι α × BlockingQueue.Label ι α))
      (a : BlockingQueue.State ι α) (l : BlockingQueue.Label ι α) (b : BlockingQueue.State ι α),
      Shown p c past a → byTwo p c l = true → BlockingQueue.Step a l b →
      Shown p c (past ++ [(a, l)]) b :=
    fun _ _ _ _ shown ok hl => shown.step ok hl
  exact run.history .start preserved allowed

/-- Between one enqueuing and one dequeuing thread, every run of the blocking queue is a run of a
list: the `signal` of an enqueue puts the element in, and a dequeue takes at once as many elements
as there are, up to what it asks for, at the access with which the semaphore lets it through. What
is enqueued, what the dequeues ask for and what each of them returns are those of the list, in
this order. -/
theorem dequeues_at_once (run : Run BlockingQueue.Step BlockingQueue.start trace s)
    (allowed : ∀ x ∈ trace, byTwo p c x.2 = true) :
    (accesses p c trace).foldl access [] = visible p c s ∧
      puts (accesses p c trace) ++ uncounted p c s = ofWorker p (linked trace) ∧
      wanted (accesses p c trace) ++ unanswered (s.sema.threads c) = asks c trace ∧
      handed [] (accesses p c trace) = batches c trace ++ current p c s := by
  have shown := shown_of_run run allowed
  exact ⟨shown.list, shown.entered, shown.asked, shown.given⟩

/-- Three elements, of which the last is not counted when the first dequeue takes two. -/
theorem dequeues_at_once_three : ∃ trace s, Run BlockingQueue.Step
    (BlockingQueue.start : BlockingQueue.State (Fin 2) ℕ) trace s ∧
    accesses 0 1 trace = [.put 7, .put 8, .get 3, .put 9, .get 2] ∧
    batches 1 trace = [[7, 8], [9]] ∧
    (accesses 0 1 trace).foldl access [] = visible 0 1 s ∧
      puts (accesses 0 1 trace) ++ uncounted 0 1 s = ofWorker 0 (linked trace) ∧
      wanted (accesses 0 1 trace) ++ unanswered (s.sema.threads 1) = asks 1 trace ∧
      handed [] (accesses 0 1 trace) = batches 1 trace ++ current 0 1 s := by
  have run := @advance_run _ _ BlockingQueue.step
    (BlockingQueue.start : BlockingQueue.State (Fin 2) ℕ) _
    [.enqueue 0 7, .link 0, .sema (.move 0), .signalled 0, .enqueue 0 8, .link 0, .sema (.move 0),
      .signalled 0, .enqueue 0 9, .link 0, .waitDequeueBulk 1 3 true, .sema (.move 1),
      .sema (.move 1), .sema (.move 0), .signalled 0, .acquired 1, .take 1 0 1, .take 1 0 1,
      .finish 1, .waitDequeueBulk 1 2 true, .sema (.move 1), .sema (.move 1),
      .acquired 1, .take 1 0 1, .finish 1] rfl
  exact ⟨_, _, run, by decide +kernel, by decide +kernel,
    dequeues_at_once run (by decide +kernel)⟩

section Loop
open ClientLoop (CommandRequest Greedy)

/-- What `pipeline_sem.wait` returns to the worker. -/
def waited : ClientLoop.Event → List ℕ
  | .wake => [1]
  | .timeout => [0]
  | _ => []

variable {cfg : ClientLoop.Config} {a b : ClientLoop.State} {e : ClientLoop.Event}
  {events : List (ClientLoop.State × ClientLoop.Event)}

structure OnList (a : ClientLoop.State) (results : List ℕ) (b : ClientLoop.State)
    (acc : List (Access CommandRequest)) (acts : List Act) : Prop where
  list : acc.foldl access a.commands = b.commands
  appended : b.appended = a.appended ++ puts acc
  removed : b.removed = a.removed ++ (handed a.commands acc).flatten
  counted : advance count a.pipelineSem acts = some b.pipelineSem
  results : got acts = results

lemma OnList.same (commands : b.commands = a.commands) (appended : b.appended = a.appended)
    (removed : b.removed = a.removed) (sem : b.pipelineSem = a.pipelineSem) :
    OnList a [] b [] [] := by
  refine ⟨commands.symm, ?_, ?_, congrArg some sem.symm, rfl⟩
  · rw [appended]
    exact (List.append_nil _).symm
  · rw [removed]
    exact (List.append_nil _).symm

theorem onList_step (greedy : Greedy a e) (h : ClientLoop.Step cfg a e b) :
    ∃ acc acts, OnList a (waited e) b acc acts := by
  cases ClientLoop.step_cases h with
  | append redisCmd callback ready =>
    exact ⟨[.put (ClientLoop.request redisCmd callback)], [], rfl, rfl, (List.append_nil _).symm,
      rfl, rfl⟩
  | signal signalling =>
    exact ⟨[], [.add 1], rfl, (List.append_nil _).symm, (List.append_nil _).symm, rfl, rfl⟩
  | wake n waiting signalled =>
    refine ⟨[], [.take 1 1], rfl, (List.append_nil _).symm, (List.append_nil _).symm, ?_, rfl⟩
    simp [advance, count, signalled]
  | timeout waiting silent =>
    refine ⟨[], [.take 1 0], rfl, (List.append_nil _).symm, (List.append_nil _).symm, ?_, rfl⟩
    simp [advance, count, silent]
  | dequeue batch k dequeuing available room =>
    have hk := greedy.dequeue dequeuing
    have split : a.commands.drop (batch.reqs.length - batch.dequeued) = a.commands.drop k ∧
        a.commands.take k = a.commands.take (batch.reqs.length - batch.dequeued) := by
      rcases Nat.le_total a.commands.length (batch.reqs.length - batch.dequeued) with h | h
      · rw [hk, Nat.min_eq_left h, List.drop_length, List.drop_eq_nil_of_le h, List.take_length,
          List.take_of_length_le h]
        exact ⟨rfl, rfl⟩
      · rw [hk, Nat.min_eq_right h]
        exact ⟨rfl, rfl⟩
    refine ⟨[.get (batch.reqs.length - batch.dequeued)], [], split.1, (List.append_nil _).symm, ?_,
      rfl, rfl⟩
    show a.removed ++ a.commands.take k = a.removed ++ [a.commands.take _].flatten
    rw [split.2, List.flatten_singleton]
  | _ => exact ⟨[], [], .same rfl rfl rfl rfl⟩

/-- The queue and the semaphore that the loop of a client works on are those that the blocking
queue and the semaphore are between two threads. -/
theorem onList_of_run (run : Run (ClientLoop.Step cfg) a events b)
    (greedy : ∀ x ∈ events, Greedy x.1 x.2) :
    ∃ acc acts, OnList a (events.flatMap fun x => waited x.2) b acc acts := by
  have preserved : ∀ (past : List (ClientLoop.State × ClientLoop.Event)) (m : ClientLoop.State)
      (e : ClientLoop.Event) (n : ClientLoop.State),
      (∃ acc acts, OnList a (past.flatMap fun x => waited x.2) m acc acts) → Greedy m e →
      ClientLoop.Step cfg m e n →
      ∃ acc acts, OnList a ((past ++ [(m, e)]).flatMap fun x => waited x.2) n acc acts := by
    rintro past m e n ⟨acc, acts, first⟩ ok hl
    obtain ⟨more, counts, next⟩ := onList_step ok hl
    refine ⟨acc ++ more, acts ++ counts, ?_, ?_, ?_, ?_, ?_⟩
    · rw [List.foldl_append, first.list, next.list]
    · rw [next.appended, first.appended, List.append_assoc]
      congr 1
      exact List.filterMap_append.symm
    · rw [next.removed, first.removed, List.append_assoc, handed_append, first.list,
        List.flatten_append]
    · rw [advance_append, first.counted]
      exact next.counted
    · have split : got (acts ++ counts) = got acts ++ got counts := List.filterMap_append
      rw [split, first.results, next.results]
      simp
  exact run.history ⟨[], [], .same rfl rfl rfl rfl⟩ preserved greedy

end Loop

end ClientPrefs.SoleConsumer
