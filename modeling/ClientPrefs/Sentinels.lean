import ClientPrefs.Transition
import Mathlib.Algebra.BigOperators.Fin
import Mathlib.Algebra.Order.BigOperators.Group.Finset
import Mathlib.Data.Fintype.Card

/-!
# Workers that leave on a sentinel

Any number of workers take the elements of one FIFO queue. A worker runs the job that it
took and puts its result out; an empty element is a sentinel, on which it leaves its loop.
-/
namespace ClientPrefs.Sentinels
open Transition

variable {ι J : Type*}

inductive Phase (J : Type*)
  /-- Before the loop. -/
  | starting
  /-- At the top of the loop. -/
  | free
  | running (job : J)
  /-- With a sentinel in its hands. -/
  | leaving
  | left
  deriving DecidableEq, Repr

/-- What a worker has taken and not put out. -/
def Phase.holds : Phase J → List (Option J)
  | .starting => []
  | .free => []
  | .running j => [some j]
  | .leaving => [none]
  | .left => [none]

structure Crew (ι J : Type*) where
  queue : List (Option J)
  workers : ι → Phase J
  results : List J

inductive Label (ι J : Type*)
  | enqueue (x : Option J)
  | enter (w : ι)
  | take (w : ι)
  | finish (w : ι)
  | leave (w : ι)
  deriving DecidableEq, Repr

section Definitions
variable [DecidableEq ι]

def Crew.set (s : Crew ι J) (w : ι) (phase : Phase J) : Crew ι J :=
  { s with workers := Function.update s.workers w phase }

/-- What a worker does with the element that it takes. -/
def Phase.taking : Option J → Phase J
  | none => .leaving
  | some j => .running j

def step (s : Crew ι J) : Label ι J → Option (Crew ι J)
  | .enqueue x => some { s with queue := s.queue ++ [x] }
  | .enter w =>
    match s.workers w with
    | .starting => some (s.set w .free)
    | _ => none
  | .take w =>
    match s.workers w, s.queue with
    | .free, x :: queue => some ({ s with queue := queue }.set w (.taking x))
    | _, _ => none
  | .finish w =>
    match s.workers w with
    | .running j => some ({ s with results := s.results ++ [j] }.set w .free)
    | _ => none
  | .leave w =>
    match s.workers w with
    | .leaving => some (s.set w .left)
    | _ => none

abbrev Step (s : Crew ι J) (l : Label ι J) (t : Crew ι J) : Prop := step s l = some t

inductive Steps (s : Crew ι J) : Label ι J → Crew ι J → Prop
  | enqueue (x : Option J) : Steps s (.enqueue x) { s with queue := s.queue ++ [x] }
  | enter (w : ι) (starting : s.workers w = .starting) : Steps s (.enter w) (s.set w .free)
  | take (w : ι) (x : Option J) (queue : List (Option J)) (free : s.workers w = .free)
      (head : s.queue = x :: queue) :
      Steps s (.take w) ({ s with queue := queue }.set w (.taking x))
  | finish (w : ι) (j : J) (running : s.workers w = .running j) :
      Steps s (.finish w) ({ s with results := s.results ++ [j] }.set w .free)
  | leave (w : ι) (leaving : s.workers w = .leaving) : Steps s (.leave w) (s.set w .left)

def fresh (inLoop : ι → Bool) : Crew ι J where
  queue := []
  workers := fun w => if inLoop w then .free else .starting
  results := []

end Definitions

def enqueued (trace : List (Crew ι J × Label ι J)) : List (Option J) :=
  trace.filterMap fun x =>
    match x.2 with
    | .enqueue e => some e
    | _ => none

/-- Who took what, in order. -/
def took (trace : List (Crew ι J × Label ι J)) : List (ι × Option J) :=
  trace.filterMap fun x =>
    match x.2 with
    | .take w => x.1.queue.head?.map (w, ·)
    | _ => none

/-- Who ran what, in the order in which the jobs were done. -/
def ran (trace : List (Crew ι J × Label ι J)) : List (ι × J) :=
  trace.filterMap fun x =>
    match x.2 with
    | .finish w =>
      match x.1.workers w with
      | .running j => some (w, j)
      | _ => none
    | _ => none

def ofWorker {α : Type*} [DecidableEq ι] (w : ι) (l : List (ι × α)) : List α :=
  l.filterMap fun x => if x.1 = w then some x.2 else none

variable {s t : Crew ι J} {l : Label ι J} {trace : List (Crew ι J × Label ι J)}

lemma enqueued_append (before after : List (Crew ι J × Label ι J)) :
    enqueued (before ++ after) = enqueued before ++ enqueued after := List.filterMap_append

lemma took_append (before after : List (Crew ι J × Label ι J)) :
    took (before ++ after) = took before ++ took after := List.filterMap_append

lemma ran_append (before after : List (Crew ι J × Label ι J)) :
    ran (before ++ after) = ran before ++ ran after := List.filterMap_append

variable [DecidableEq ι]

theorem step_cases (h : step s l = some t) : Steps s l t := by
  cases l with
  | enqueue x =>
    obtain rfl := Option.some.inj h
    exact .enqueue x
  | enter w =>
    simp only [step] at h
    split at h
    · next starting =>
      obtain rfl := Option.some.inj h
      exact .enter w starting
    · cases h
  | take w =>
    simp only [step] at h
    split at h
    · next x queue free head =>
      obtain rfl := Option.some.inj h
      exact .take w x queue free head
    · cases h
  | finish w =>
    simp only [step] at h
    split at h
    · next j running =>
      obtain rfl := Option.some.inj h
      exact .finish w j running
    · cases h
  | leave w =>
    simp only [step] at h
    split at h
    · next leaving =>
      obtain rfl := Option.some.inj h
      exact .leave w leaving
    · cases h

@[simp] lemma set_queue (w : ι) (phase : Phase J) : (s.set w phase).queue = s.queue := rfl
@[simp] lemma set_results (w : ι) (phase : Phase J) : (s.set w phase).results = s.results := rfl

lemma forall_set {P : ι → Phase J → Prop} {w : ι} {phase : Phase J} (hw : P w phase)
    (others : ∀ v, v ≠ w → P v (s.workers v)) : ∀ v, P v ((s.set w phase).workers v) := by
  intro v
  by_cases hv : v = w
  · subst hv
    simpa [Crew.set] using hw
  · simpa [Crew.set, hv] using others v hv

@[simp] lemma ofWorker_append {α : Type*} (w : ι) (l m : List (ι × α)) :
    ofWorker w (l ++ m) = ofWorker w l ++ ofWorker w m := List.filterMap_append

@[simp] lemma ofWorker_nil {α : Type*} (w : ι) : ofWorker w ([] : List (ι × α)) = [] := rfl

@[simp] lemma ofWorker_same {α : Type*} (w : ι) (a : α) : ofWorker w [(w, a)] = [a] := by
  simp [ofWorker]

lemma ofWorker_of_ne {α : Type*} {v w : ι} (h : v ≠ w) (a : α) : ofWorker v [(w, a)] = [] := by
  simp [ofWorker, h.symm]

lemma ofWorker_map_same {α : Type*} (w : ι) (l : List α) : ofWorker w (l.map fun a => (w, a)) = l := by
  induction l with
  | nil => rfl
  | cons a l ih =>
    rw [List.map_cons, ← List.singleton_append, ofWorker_append, ofWorker_same, ih]
    rfl

lemma ofWorker_map_of_ne {α : Type*} {v w : ι} (h : v ≠ w) (l : List α) :
    ofWorker v (l.map fun a => (w, a)) = [] := by
  induction l with
  | nil => rfl
  | cons a l ih =>
    rw [List.map_cons, ← List.singleton_append, ofWorker_append, ofWorker_of_ne h, ih]
    rfl

lemma sum_update {β : Type*} [Fintype ι] (f : β → ℕ) (threads : ι → β) (w : ι) (p : β) :
    ∑ v, f (Function.update threads w p v) + f (threads w) = ∑ v, f (threads v) + f p := by
  have split : ∀ g : ι → ℕ, ∑ v, g v = g w + ∑ v ∈ Finset.univ.erase w, g v :=
    fun g => (Finset.add_sum_erase _ _ (Finset.mem_univ w)).symm
  have others : ∑ v ∈ Finset.univ.erase w, f (Function.update threads w p v) =
      ∑ v ∈ Finset.univ.erase w, f (threads v) := by
    refine Finset.sum_congr rfl fun v hv => ?_
    rw [Function.update_of_ne (Finset.ne_of_mem_erase hv)]
  rw [split, split fun v => f (threads v), others, Function.update_self]
  omega

lemma count_ofWorker {α : Type*} [BEq α] [Fintype ι] (l : List (ι × α)) (a : α) :
    (l.map Prod.snd).count a = ∑ w, (ofWorker w l).count a := by
  induction l with
  | nil => simp
  | cons x l ih =>
    obtain ⟨v, b⟩ := x
    have hsplit : ∀ w, (ofWorker w ((v, b) :: l)).count a =
        (ofWorker w [(v, b)]).count a + (ofWorker w l).count a := by
      intro w
      rw [← List.count_append, ← ofWorker_append]
      rfl
    have hone : ∀ w, w ≠ v → (ofWorker w [(v, b)]).count a = 0 := by
      intro w hw
      rw [ofWorker_of_ne hw]
      rfl
    simp only [hsplit, Finset.sum_add_distrib, ← ih]
    rw [Finset.sum_eq_single v (fun w _ hw => hone w hw) (by simp), ofWorker_same]
    simp [List.count_cons, add_comm]

/-- A worker in this phase has put out what it took, up to what it holds. -/
def Balanced (trace : List (Crew ι J × Label ι J)) (w : ι) (phase : Phase J) : Prop :=
  ofWorker w (took trace) = (ofWorker w (ran trace)).map some ++ phase.holds

/-- The elements leave the queue in order; each worker has put out what it took, up to what it
holds; and the results are what was run. -/
structure Accounts (trace : List (Crew ι J × Label ι J)) (s : Crew ι J) : Prop where
  fifo : (took trace).map Prod.snd ++ s.queue = enqueued trace
  each : ∀ w, Balanced trace w (s.workers w)
  results : s.results = (ran trace).map Prod.snd

lemma Accounts.fresh (inLoop : ι → Bool) : Accounts [] (fresh inLoop : Crew ι J) where
  fifo := rfl
  each w := by
    simp only [Sentinels.fresh]
    split_ifs <;> rfl
  results := rfl

@[simp] lemma holds_taking (x : Option J) : (Phase.taking x).holds = [x] := by
  cases x <;> rfl

lemma Balanced.snoc {v : ι} {phase phase' : Phase J} (h : Balanced trace v phase)
    (grown : phase.holds ++ ofWorker v (took [(s, l)]) =
      (ofWorker v (ran [(s, l)])).map some ++ phase'.holds) :
    Balanced (trace ++ [(s, l)]) v phase' := by
  unfold Balanced at h ⊢
  rw [took_append, ran_append, ofWorker_append, ofWorker_append, h, List.map_append,
    List.append_assoc, grown, List.append_assoc]

lemma Balanced.idle {v : ι} {phase : Phase J} (h : Balanced trace v phase)
    (took_none : ofWorker v (took [(s, l)]) = []) (ran_none : ofWorker v (ran [(s, l)]) = []) :
    Balanced (trace ++ [(s, l)]) v phase := by
  apply h.snoc
  rw [took_none, ran_none]
  simp

/-- One step keeps the accounts. -/
theorem Accounts.step (h : Accounts trace s) (hl : step s l = some t) :
    Accounts (trace ++ [(s, l)]) t := by
  obtain ⟨fifo, each, results⟩ := h
  cases step_cases hl with
  | enqueue x =>
    constructor
    · rw [took_append, enqueued_append, ← fifo]
      simp [took, enqueued]
    · exact fun v => (each v).idle rfl rfl
    · rw [ran_append, results]
      simp [ran]
  | enter w starting =>
    constructor
    · rw [took_append, enqueued_append, ← fifo]
      simp [took, enqueued]
    · refine forall_set (P := Balanced _) ?_ fun v _ => (each v).idle rfl rfl
      apply (each w).snoc
      rw [starting]
      rfl
    · rw [ran_append, set_results, results]
      simp [ran]
  | take w x queue free head =>
    have taken : took [(s, .take w)] = [(w, x)] := by simp [took, head]
    constructor
    · rw [took_append, enqueued_append, ← fifo, taken, head]
      simp [enqueued]
    · refine forall_set (P := Balanced _) ?_ fun v hv => (each v).idle ?_ rfl
      · apply (each w).snoc
        rw [free, taken, ofWorker_same, holds_taking]
        rfl
      · rw [taken, ofWorker_of_ne hv]
    · rw [ran_append, set_results, results]
      simp [ran]
  | finish w j running =>
    have done : ran [(s, .finish w)] = [(w, j)] := by simp [ran, running]
    constructor
    · rw [took_append, enqueued_append, ← fifo]
      simp [took, enqueued]
    · refine forall_set (P := Balanced _) ?_ fun v hv => (each v).idle rfl ?_
      · apply (each w).snoc
        rw [running, done, ofWorker_same]
        rfl
      · rw [done, ofWorker_of_ne hv]
    · rw [ran_append, done, set_results, results]
      simp
  | leave w leaving =>
    constructor
    · rw [took_append, enqueued_append, ← fifo]
      simp [took, enqueued]
    · refine forall_set (P := Balanced _) ?_ fun v _ => (each v).idle rfl rfl
      apply (each w).snoc
      rw [leaving]
      rfl
    · rw [ran_append, set_results, results]
      simp [ran]

theorem accounts_of_run {inLoop : ι → Bool} (run : Run Step (fresh inLoop) trace s) :
    Accounts trace s := by
  have preserved : ∀ (past : List (Crew ι J × Label ι J)) (a : Crew ι J) (l : Label ι J)
      (b : Crew ι J), Accounts past a → Step a l b → Accounts (past ++ [(a, l)]) b :=
    fun _ _ _ _ accounts step => accounts.step step
  exact run.stable_history (.fresh inLoop) preserved

lemma enqueue_all (s : Crew ι J) (xs : List (Option J)) :
    ∃ trace, Run Step s trace { s with queue := s.queue ++ xs } ∧ enqueued trace = xs := by
  induction xs generalizing s with
  | nil => exact ⟨[], by simpa using Run.refl, rfl⟩
  | cons x xs ih =>
    obtain ⟨trace, run, hxs⟩ := ih { s with queue := s.queue ++ [x] }
    have first : Run Step s [(s, .enqueue x)] { s with queue := s.queue ++ [x] } := .one rfl
    refine ⟨_, first.trans (by simpa using run), ?_⟩
    rw [enqueued_append, hxs]
    rfl

lemma Accounts.enqueued_of_ran (h : Accounts trace s) {w : ι} {j : J} (hj : (w, j) ∈ ran trace) :
    some j ∈ enqueued trace := by
  have mine : j ∈ ofWorker w (ran trace) := List.mem_filterMap.mpr ⟨(w, j), hj, by simp⟩
  have taken : some j ∈ ofWorker w (took trace) := by
    rw [show ofWorker w (took trace) = _ from h.each w]
    exact List.mem_append_left _ (List.mem_map_of_mem mine)
  obtain ⟨⟨v, x⟩, hx, heq⟩ := List.mem_filterMap.mp taken
  split_ifs at heq
  obtain rfl : x = some j := Option.some.inj heq
  rw [← h.fifo]
  exact List.mem_append_left _ (List.mem_map.mpr ⟨_, hx, rfl⟩)

/-- A worker takes jobs, and then at most one sentinel: nothing comes after it. -/
theorem Accounts.one_sentinel (h : Accounts trace s) (w : ι) {before after : List (Option J)}
    (split : ofWorker w (took trace) = before ++ none :: after) :
    none ∉ before ∧ after = [] ∧ (s.workers w).holds = [none] := by
  have jobs : none ∉ (ofWorker w (ran trace)).map some := by simp
  rw [show ofWorker w (took trace) = _ from h.each w] at split
  have holds : (s.workers w).holds = [] ∨ ∃ x, (s.workers w).holds = [x] := by
    cases s.workers w with
    | starting => exact .inl rfl
    | free => exact .inl rfl
    | running j => exact .inr ⟨_, rfl⟩
    | leaving => exact .inr ⟨_, rfl⟩
    | left => exact .inr ⟨_, rfl⟩
  rcases holds with empty | ⟨x, one⟩
  · rw [empty, List.append_nil] at split
    rw [split] at jobs
    simp at jobs
  · rw [one] at split ⊢
    rcases List.eq_nil_or_concat after with rfl | ⟨more, y, rfl⟩
    · obtain ⟨hbefore, hx⟩ := List.append_inj' split rfl
      rw [← hbefore, hx]
      exact ⟨jobs, rfl, rfl⟩
    · have longer : (ofWorker w (ran trace)).map some ++ [x] = (before ++ none :: more) ++ [y] := by
        simpa using split
      obtain ⟨early, _⟩ := List.append_inj' longer rfl
      rw [early] at jobs
      simp at jobs

lemma Accounts.count_none [DecidableEq J] [Fintype ι] (h : Accounts trace s)
    (left : ∀ w, s.workers w = .left) :
    ((took trace).map Prod.snd).count none = Fintype.card ι := by
  have one : ∀ w, (ofWorker w (took trace)).count none = 1 := by
    intro w
    rw [show ofWorker w (took trace) = _ from h.each w, left w, List.count_append,
      List.count_eq_zero.mpr (by simp)]
    rfl
  rw [count_ofWorker]
  simp [one]

lemma Accounts.count_some [DecidableEq J] [Fintype ι] (h : Accounts trace s)
    (left : ∀ w, s.workers w = .left) (j : J) :
    ((took trace).map Prod.snd).count (some j) = ((ran trace).map Prod.snd).count j := by
  have same : ∀ w, (ofWorker w (took trace)).count (some j) = (ofWorker w (ran trace)).count j := by
    intro w
    rw [show ofWorker w (took trace) = _ from h.each w, left w, List.count_append,
      List.count_map_of_injective _ _ (Option.some_injective J)]
    simp [Phase.holds]
  rw [count_ofWorker, count_ofWorker]
  exact Finset.sum_congr rfl fun w _ => same w

/-- One sentinel for each worker, behind the jobs, of which the last `rest` are not in the queue
yet: when all workers have left, nothing is queued or outstanding, and each job was run once. -/
theorem Accounts.drained [DecidableEq J] [Fintype ι] (h : Accounts trace s) {jobs : List J}
    {rest : List (Option J)}
    (sent : enqueued trace ++ rest = jobs.map some ++ List.replicate (Fintype.card ι) none)
    (some_worker : 0 < Fintype.card ι) (left : ∀ w, s.workers w = .left) :
    s.queue = [] ∧ rest = [] ∧ ((ran trace).map Prod.snd).Perm jobs ∧ s.results.Perm jobs := by
  have fifo : (took trace).map Prod.snd ++ (s.queue ++ rest) =
      jobs.map some ++ List.replicate (Fintype.card ι) none := by
    rw [← List.append_assoc, h.fifo, sent]
  have no_sentinel : none ∉ s.queue ++ rest := by
    have hcount := congrArg (List.count none) fifo
    have hjobs : (jobs.map some).count none = 0 := List.count_eq_zero.mpr (by simp)
    rw [List.count_append, h.count_none left, List.count_append, List.count_append, hjobs] at hcount
    have hrest : (s.queue ++ rest).count none = 0 := by simpa using hcount
    exact List.count_eq_zero.mp hrest
  have empty : s.queue ++ rest = [] := by
    rcases List.eq_nil_or_concat (s.queue ++ rest) with hnil | ⟨queue, x, hlast⟩
    · exact hnil
    · have hx : x = none := by
        have last := congrArg List.getLast? fifo
        rw [hlast, List.concat_eq_append, ← List.append_assoc] at last
        simpa [List.getLast?_append, List.getLast?_replicate, some_worker.ne'] using last
      rw [hlast, hx] at no_sentinel
      simp at no_sentinel
  have perm : ((ran trace).map Prod.snd).Perm jobs := by
    rw [List.perm_iff_count]
    intro j
    rw [← h.count_some left, ← List.append_nil (List.map _ _), ← empty, fifo, List.count_append,
      List.count_map_of_injective _ _ (Option.some_injective J)]
    simp [List.count_replicate]
  obtain ⟨hqueue, hrest⟩ := List.append_eq_nil_iff.mp empty
  exact ⟨hqueue, hrest, perm, h.results ▸ perm⟩

section Progress
variable [Fintype ι]

lemma sum_set (f : Phase J → ℕ) (w : ι) (phase : Phase J) :
    ∑ v, f ((s.set w phase).workers v) + f (s.workers w) =
      ∑ v, f (s.workers v) + f phase := by
  have rest : ∀ v ∈ Finset.univ.erase w, f ((s.set w phase).workers v) = f (s.workers v) := by
    intro v hv
    simp [Crew.set, Finset.ne_of_mem_erase hv]
  rw [← Finset.add_sum_erase _ _ (Finset.mem_univ w), Finset.sum_congr rfl rest,
    ← Finset.add_sum_erase _ (fun v => f (s.workers v)) (Finset.mem_univ w)]
  simp only [Crew.set, Function.update_self]
  omega

/-- What one step does to the queue and to a sum over the phases of the workers. -/
inductive SumSteps (f : Phase J → ℕ) (s t : Crew ι J) : Label ι J → Prop
  | enqueue (x : Option J) (queue : t.queue = s.queue ++ [x])
      (sum : ∑ v, f (t.workers v) = ∑ v, f (s.workers v)) : SumSteps f s t (.enqueue x)
  | enter (w : ι) (queue : t.queue = s.queue)
      (sum : ∑ v, f (t.workers v) + f .starting = ∑ v, f (s.workers v) + f .free) :
      SumSteps f s t (.enter w)
  | take (w : ι) (x : Option J) (queue : s.queue = x :: t.queue)
      (sum : ∑ v, f (t.workers v) + f .free = ∑ v, f (s.workers v) + f (.taking x)) :
      SumSteps f s t (.take w)
  | finish (w : ι) (j : J) (queue : t.queue = s.queue)
      (sum : ∑ v, f (t.workers v) + f (.running j) = ∑ v, f (s.workers v) + f .free) :
      SumSteps f s t (.finish w)
  | leave (w : ι) (queue : t.queue = s.queue)
      (sum : ∑ v, f (t.workers v) + f .leaving = ∑ v, f (s.workers v) + f .left) :
      SumSteps f s t (.leave w)

theorem sum_step (f : Phase J → ℕ) (hl : step s l = some t) : SumSteps f s t l := by
  cases step_cases hl with
  | enqueue x => exact .enqueue x rfl rfl
  | enter w starting => exact .enter w rfl (starting ▸ sum_set f w .free)
  | take w x queue free head =>
    exact .take w x head (free ▸ sum_set (s := { s with queue := queue }) f w (.taking x))
  | finish w j running =>
    have sum := sum_set (s := { s with results := s.results ++ [j] }) f w .free
    exact .finish w j rfl (running ▸ sum)
  | leave w leaving => exact .leave w rfl (leaving ▸ sum_set f w .left)

def Label.Works : Label ι J → Prop
  | enqueue _ => False
  | _ => True

def Phase.sentinels : Phase J → ℕ
  | .leaving => 1
  | .left => 1
  | _ => 0

/-- The sentinels that have been enqueued, in the queue or taken. -/
def sentinels (s : Crew ι J) : ℕ :=
  ∑ w, (s.workers w).sentinels + s.queue.countP Option.isNone

def Phase.gone : Phase J → ℕ
  | .left => 1
  | _ => 0

def departed (s : Crew ι J) : ℕ := ∑ w, (s.workers w).gone

theorem sentinels_step (works : l.Works) (hl : step s l = some t) : sentinels t = sentinels s := by
  unfold sentinels
  cases sum_step Phase.sentinels hl with
  | enqueue x => exact works.elim
  | enter w queue sum => rw [queue, Nat.add_right_cancel (m := 0) sum]
  | take w x queue sum =>
    have hx : (x :: t.queue).countP Option.isNone =
        t.queue.countP Option.isNone + (Phase.taking x).sentinels := by
      rw [List.countP_cons]
      cases x <;> rfl
    change _ + 0 = _ at sum
    rw [queue, hx]
    omega
  | finish w j queue sum => rw [queue, Nat.add_right_cancel (m := 0) sum]
  | leave w queue sum => rw [queue, Nat.add_right_cancel sum]

lemma departed_leave {w : ι} (hl : step s (.leave w) = some t) :
    departed t = departed s + 1 := by
  cases sum_step Phase.gone hl with
  | leave w queue sum => exact sum

lemma departed_stay (stays : ∀ w, l ≠ .leave w) (hl : step s l = some t) :
    departed t = departed s := by
  unfold departed
  cases sum_step Phase.gone hl with
  | enqueue x queue sum => exact sum
  | enter w queue sum => exact sum
  | take w x queue sum =>
    have hx : (Phase.taking x).gone = 0 := by cases x <;> rfl
    rw [hx] at sum
    exact sum
  | finish w j queue sum => exact sum
  | leave w => exact absurd rfl (stays w)

lemma gone_le (p : Phase J) : p.gone ≤ p.sentinels := by
  cases p <;> simp [Phase.gone, Phase.sentinels]

lemma sentinels_le (p : Phase J) : p.sentinels ≤ 1 := by cases p <;> simp [Phase.sentinels]

omit [DecidableEq ι] in
lemma departed_le : departed s ≤ ∑ w, (s.workers w).sentinels :=
  Finset.sum_le_sum fun w _ => gone_le (s.workers w)

omit [DecidableEq ι] in
theorem departed_eq_card_iff : departed s = Fintype.card ι ↔ ∀ w, s.workers w = .left := by
  have le : ∀ w ∈ Finset.univ, (s.workers w).gone ≤ 1 := fun w _ =>
    (gone_le _).trans (sentinels_le _)
  have one : ∀ p : Phase J, p.gone = 1 ↔ p = .left := by
    intro p
    cases p <;> simp [Phase.gone]
  have sum : departed s = Fintype.card ι ↔ ∑ w, (s.workers w).gone = ∑ _w : ι, 1 := by
    simp [departed]
  rw [sum, Finset.sum_eq_sum_iff_of_le le]
  simp [one]

omit [DecidableEq ι] in
theorem departed_eq_zero_iff : departed s = 0 ↔ ∀ w, s.workers w ≠ .left := by
  have zero : ∀ p : Phase J, p.gone = 0 ↔ p ≠ .left := by
    intro p
    cases p <;> simp [Phase.gone]
  simp [departed, Finset.sum_eq_zero_iff, zero]

end Progress

end ClientPrefs.Sentinels
