import ClientPrefs.Conversation
import ClientPrefs.QueueDelivery

/-!
# The queues of the workers

`TQueue` with the workers that take queries from it, before the sentinels. The main thread adds to
`queryQueue`; a worker waits in `GetQuery` for the blocking queue, runs the thread part and puts the
result on `resultQueue`, which has a list for each worker; a result goes in and out in one step. As
only the main thread enqueues and a worker waits without a time limit, a worker comes back from the
queue with one query of the main thread.
-/
namespace ClientPrefs.QueryQueue
open BlockingQueue Conversation LightweightSemaphore QueueDelivery SemaphoreRefinement

variable {ι J Cmd Rep α S : Type}

/-- Where a worker is: in `GetQuery`, or in `RunThreadPart`, on its own or waiting for replies. -/
inductive Place (J Cmd Rep α : Type)
  | getQuery
  | running (job : J) (conv : Conv Cmd Rep α)
  | waiting (job : J) (cmds : List Cmd) (got : List (Option Rep))
      (next : List (Option Rep) → Conv Cmd Rep α)

/-- To the blocking queue the main thread is `none`. -/
structure Site (ι J Cmd Rep α S : Type) where
  queryQueue : BlockingQueue.State (Option ι) J
  places : ι → Place J Cmd Rep α
  pipes : ι → List (Cmd × Bool)
  store : S
  resultQueue : ι → List (J × α)
  /-- What `GetResult` has returned, of which worker. -/
  returned : List (ι × J × α)

inductive Act (ι J : Type)
  | addToThreadQueue (job : J)
  /-- A worker calls `wait_dequeue`; a thread goes on in the queue; and the worker has a query. -/
  | getQuery (w : ι)
  | queue (l : BlockingQueue.Label (Option ι) J)
  | runThreadPart (w : ι)
  | send (w : ι)
  | exec (w : ι)
  | resume (w : ι)
  | putResult (w : ι)
  /-- `GetResult` finds a result of this worker. -/
  | getResult (w : ι)
  deriving DecidableEq

/-- The steps of a thread inside a call of the blocking queue. -/
def inside : BlockingQueue.Label (Option ι) J → Bool
  | .refuse _ | .link _ | .signalled _ | .sema _ | .acquired _ | .take .. => true
  | _ => false

def Place.receive (reply : Option Rep) : Place J Cmd Rep α → Place J Cmd Rep α
  | .waiting j cmds got next => .waiting j cmds (got ++ [reply]) next
  | place => place

/-- As the extension is loaded. -/
def Site.initial (store : S) : Site ι J Cmd Rep α S where
  queryQueue := BlockingQueue.start
  places := fun _ => .getQuery
  pipes := fun _ => []
  store := store
  resultQueue := fun _ => []
  returned := []

section Definitions
variable [DecidableEq ι]

def Site.setPlace (s : Site ι J Cmd Rep α S) (w : ι) (place : Place J Cmd Rep α) :
    Site ι J Cmd Rep α S :=
  { s with places := Function.update s.places w place }

def Site.setPipe (s : Site ι J Cmd Rep α S) (w : ι) (pipe : List (Cmd × Bool)) :
    Site ι J Cmd Rep α S :=
  { s with pipes := Function.update s.pipes w pipe }

/-- A step of the blocking queue. -/
def Site.onQueue (s : Site ι J Cmd Rep α S) (l : BlockingQueue.Label (Option ι) J) :
    Option (Site ι J Cmd Rep α S) :=
  (BlockingQueue.step s.queryQueue l).map fun queue => { s with queryQueue := queue }

def step (start : J → Conv Cmd Rep α) (exec : S → Cmd → S × Rep) (s : Site ι J Cmd Rep α S) :
    Act ι J → Option (Site ι J Cmd Rep α S)
  | .addToThreadQueue job => s.onQueue (.enqueue none job)
  | .getQuery w =>
    match s.places w with
    | .getQuery => s.onQueue (waitDequeue (some w))
    | _ => none
  | .queue l => if inside l then s.onQueue l else none
  | .runThreadPart w =>
    match s.queryQueue.users (some w) with
    | .taking _ (job :: _) => (s.onQueue (.finish (some w))).map fun s =>
        s.setPlace w (.running job (start job))
    | _ => none
  | .send w =>
    match s.places w with
    | .running j (.tell cmds next) =>
      some ((s.setPlace w (.running j next)).setPipe w (s.pipes w ++ cmds.map (·, false)))
    | .running j (.ask cmds next) =>
      some ((s.setPlace w (.waiting j cmds [] next)).setPipe w (s.pipes w ++ cmds.map (·, true)))
    | _ => none
  | .exec w =>
    match s.pipes w with
    | (c, awaited) :: rest =>
      let (store, reply) := exec s.store c
      let place := s.places w
      some (({ s with store := store }.setPlace w
        (if awaited then place.receive (some reply) else place)).setPipe w rest)
    | [] => none
  | .resume w =>
    match s.places w with
    | .waiting j cmds got next =>
      if got.length = cmds.length then some (s.setPlace w (.running j (next got))) else none
    | _ => none
  | .putResult w =>
    match s.places w with
    | .running j (.done a) =>
      some ({ s with
        resultQueue := Function.update s.resultQueue w (s.resultQueue w ++ [(j, a)]) }.setPlace w
          .getQuery)
    | _ => none
  | .getResult w =>
    match s.resultQueue w with
    | (j, a) :: rest => some { s with
        resultQueue := Function.update s.resultQueue w rest
        returned := s.returned ++ [(w, j, a)] }
    | [] => none

abbrev Step (start : J → Conv Cmd Rep α) (exec : S → Cmd → S × Rep) (s : Site ι J Cmd Rep α S)
    (a : Act ι J) (t : Site ι J Cmd Rep α S) : Prop := step start exec s a = some t

inductive Steps (start : J → Conv Cmd Rep α) (exec : S → Cmd → S × Rep)
    (s : Site ι J Cmd Rep α S) : Act ι J → Site ι J Cmd Rep α S → Prop
  | addToThreadQueue (job : J) (queue : BlockingQueue.State (Option ι) J)
      (call : BlockingQueue.Step s.queryQueue (.enqueue none job) queue) :
      Steps start exec s (.addToThreadQueue job) { s with queryQueue := queue }
  | getQuery (w : ι) (queue : BlockingQueue.State (Option ι) J) (idle : s.places w = .getQuery)
      (call : BlockingQueue.Step s.queryQueue (waitDequeue (some w)) queue) :
      Steps start exec s (.getQuery w) { s with queryQueue := queue }
  | queue (l : BlockingQueue.Label (Option ι) J) (queue : BlockingQueue.State (Option ι) J)
      (within : inside l = true) (move : BlockingQueue.Step s.queryQueue l queue) :
      Steps start exec s (.queue l) { s with queryQueue := queue }
  | runThreadPart (w : ι) (want : ℕ) (job : J) (rest : List J)
      (queue : BlockingQueue.State (Option ι) J)
      (taking : s.queryQueue.users (some w) = .taking want (job :: rest))
      (call : BlockingQueue.Step s.queryQueue (.finish (some w)) queue) :
      Steps start exec s (.runThreadPart w)
        ({ s with queryQueue := queue }.setPlace w (.running job (start job)))
  | tell (w : ι) (j : J) (cmds : List Cmd) (next : Conv Cmd Rep α)
      (tells : s.places w = .running j (.tell cmds next)) : Steps start exec s (.send w)
        ((s.setPlace w (.running j next)).setPipe w (s.pipes w ++ cmds.map (·, false)))
  | ask (w : ι) (j : J) (cmds : List Cmd) (next : List (Option Rep) → Conv Cmd Rep α)
      (asks : s.places w = .running j (.ask cmds next)) : Steps start exec s (.send w)
        ((s.setPlace w (.waiting j cmds [] next)).setPipe w (s.pipes w ++ cmds.map (·, true)))
  | exec (w : ι) (c : Cmd) (awaited : Bool) (rest : List (Cmd × Bool))
      (head : s.pipes w = (c, awaited) :: rest) : Steps start exec s (.exec w)
        (({ s with store := (exec s.store c).1 }.setPlace w
          (if awaited then (s.places w).receive (some (exec s.store c).2) else s.places w)).setPipe w
          rest)
  | resume (w : ι) (j : J) (cmds : List Cmd) (got : List (Option Rep))
      (next : List (Option Rep) → Conv Cmd Rep α) (waits : s.places w = .waiting j cmds got next)
      (all : got.length = cmds.length) :
      Steps start exec s (.resume w) (s.setPlace w (.running j (next got)))
  | putResult (w : ι) (j : J) (a : α) (ran : s.places w = .running j (.done a)) :
      Steps start exec s (.putResult w) ({ s with
        resultQueue := Function.update s.resultQueue w (s.resultQueue w ++ [(j, a)]) }.setPlace w
          .getQuery)
  | getResult (w : ι) (j : J) (a : α) (rest : List (J × α))
      (head : s.resultQueue w = (j, a) :: rest) : Steps start exec s (.getResult w) { s with
        resultQueue := Function.update s.resultQueue w rest
        returned := s.returned ++ [(w, j, a)] }

variable {start : J → Conv Cmd Rep α} {exec : S → Cmd → S × Rep} {s t : Site ι J Cmd Rep α S}
  {a : Act ι J}

lemma onQueue_some {l : BlockingQueue.Label (Option ι) J} (h : s.onQueue l = some t) :
    ∃ queue, BlockingQueue.Step s.queryQueue l queue ∧ t = { s with queryQueue := queue } := by
  obtain ⟨queue, call, rfl⟩ := Option.map_eq_some_iff.mp h
  exact ⟨queue, call, rfl⟩

theorem step_cases (h : step start exec s a = some t) : Steps start exec s a t := by
  cases a with
  | addToThreadQueue job =>
    obtain ⟨queue, call, rfl⟩ := onQueue_some h
    exact .addToThreadQueue job queue call
  | getQuery w =>
    simp only [step] at h
    split at h
    · next idle =>
      obtain ⟨queue, call, rfl⟩ := onQueue_some h
      exact .getQuery w queue idle call
    · cases h
  | queue l =>
    simp only [step] at h
    split at h
    · next within =>
      obtain ⟨queue, move, rfl⟩ := onQueue_some h
      exact .queue l queue within move
    · cases h
  | runThreadPart w =>
    simp only [step] at h
    split at h
    · next want job rest taking =>
      obtain ⟨u, finishes, rfl⟩ := Option.map_eq_some_iff.mp h
      obtain ⟨queue, call, rfl⟩ := onQueue_some finishes
      exact .runThreadPart w want job rest queue taking call
    · cases h
  | send w =>
    simp only [step] at h
    split at h
    · next j cmds next tells =>
      obtain rfl := Option.some.inj h
      exact .tell w j cmds next tells
    · next j cmds next asks =>
      obtain rfl := Option.some.inj h
      exact .ask w j cmds next asks
    · cases h
  | exec w =>
    simp only [step] at h
    split at h
    · next c awaited rest head =>
      obtain rfl := Option.some.inj h
      exact .exec w c awaited rest head
    · cases h
  | resume w =>
    simp only [step] at h
    split at h
    · next j cmds got next waits =>
      split at h
      · next all =>
        obtain rfl := Option.some.inj h
        exact .resume w j cmds got next waits all
      · cases h
    · cases h
  | putResult w =>
    simp only [step] at h
    split at h
    · next j a ran =>
      obtain rfl := Option.some.inj h
      exact .putResult w j a ran
    · cases h
  | getResult w =>
    simp only [step] at h
    split at h
    · next j a rest head =>
      obtain rfl := Option.some.inj h
      exact .getResult w j a rest head
    · cases h

end Definitions

/-- The thread does not come back from the semaphore without a permit. -/
def patient : Thread → Bool
  | .loading .returned _ | .trying .returned .. => false
  | .loading (.beforeWaiting timed) max | .trying (.beforeWaiting timed) max .. =>
    !timed && decide (0 < max)
  | .spinning wait _ | .spinTrying wait .. | .sleeping wait => !wait.timed
  | .adjusting _ | .collecting _ | .undoing .. => false
  | .done result => decide (0 < result)
  | _ => true

lemma patient_next {max result : ℕ} {purpose : Purpose}
    (h : patient (.loading purpose max) = true) : patient (purpose.next max result) = true := by
  cases purpose with
  | returned => cases h
  | beforeWaiting timed =>
    simp only [patient, Bool.and_eq_true, Bool.not_eq_true', decide_eq_true_eq] at h
    simp only [Purpose.next]
    split
    · simp [patient, h.1]
    · next none =>
      have some : 0 < result := by omega
      simpa [patient] using some
  | oneMore => simp [Purpose.next, patient]

lemma patient_look {γ : Type*} {r : LightweightSemaphore.State γ} {max : ℕ} {purpose : Purpose}
    (h : patient (.loading purpose max) = true) : patient (r.look purpose max) = true := by
  unfold State.look
  split
  · cases purpose <;> exact h
  · exact patient_next h

lemma patient_afterOne (wait : Wait) : patient wait.afterOne = true := by
  unfold Wait.afterOne
  split <;> rfl

section Patience
variable {γ : Type*} [DecidableEq γ] {r r' : LightweightSemaphore.State γ}

lemma difference_pos {max : ℕ} {oldCount : ℤ} (some : 0 < max) (positive : 0 < oldCount) :
    0 < difference max oldCount := by
  unfold difference newCount
  split <;> omega

lemma patient_moves {v : γ} {p : Thread} (h : patient p = true) (moves : Moves r v p r') :
    patient (r'.threads v) = true := by
  cases moves with
  | load purpose max =>
    rw [set_same]
    exact patient_look h
  | take purpose max positive =>
    rw [set_same]
    have loading : patient (.loading purpose max) = true := by cases purpose <;> exact h
    exact patient_next loading
  | retry purpose max oldCount positive =>
    rw [set_same]
    have loading : patient (.loading purpose max) = true := by cases purpose <;> exact h
    exact patient_look loading
  | spinTake wait spin positive =>
    rw [set_same]
    exact decide_eq_true (difference_pos wait.positive positive)
  | subtract wait positive =>
    rw [set_same]
    exact patient_afterOne wait
  | wake wait n some =>
    rw [set_same]
    exact patient_afterOne wait
  | spinLoad wait spin positive | spin wait spin | spinMiss wait spin | sleep wait none =>
    rw [set_same]
    exact h
  | add count some | addOnly count none | post n | posted =>
    rw [set_same]
    rfl
  | undoing | collecting | collect | miss | undo | undoMiss => cases h

/-- Who waits without a time limit goes on so. -/
lemma patient_step {l : LightweightSemaphore.Label γ} (inside : internal l = true)
    (h : ∀ v, patient (r.threads v) = true) (hl : LightweightSemaphore.Step r l r') (v : γ) :
    patient (r'.threads v) = true := by
  by_cases moved : v = l.thread
  · subst moved
    have before := h l.thread
    cases LightweightSemaphore.step_cases hl with
    | move w t moves => exact patient_moves before moves
    | spurious w purpose max oldCount positive trying =>
      rw [LightweightSemaphore.Label.thread, trying] at before
      have loading : patient (.loading purpose max) = true := by cases purpose <;> exact before
      rw [LightweightSemaphore.Label.thread, set_same]
      exact patient_look loading
    | expire w wait sleeping timed =>
      rw [LightweightSemaphore.Label.thread, sleeping] at before
      simp [patient, timed] at before
    | _ => cases inside
  · rw [threads_of_step hl moved]
    exact h v

end Patience

/-- Where the main thread, or a worker that waits for one query, is in the queue. -/
inductive Role : Option ι → User J → Prop
  | outside (v : Option ι) : Role v .outside
  | enqueuing (job : J) : Role none (.enqueuing job)
  | signalling : Role none .signalling
  | waiting (w : ι) : Role (some w) (.waiting 1)
  | empty (w : ι) : Role (some w) (.taking 1 [])
  | query (w : ι) (job : J) : Role (some w) (.taking 1 [job])

/-- The calls of `TQueue`. -/
def called : BlockingQueue.Label (Option ι) J → Bool
  | .enqueue none _ | .waitDequeueBulk (some _) 1 false | .finish _ => true
  | l => inside l

section Roles
variable [DecidableEq ι] [Fintype ι]

structure Roles (q : BlockingQueue.State (Option ι) J) : Prop where
  settled : Settled q
  lists : ∀ w, q.inner (some w) = []
  users : ∀ v, Role v (q.users v)
  patience : ∀ v, patient (q.sema.threads v) = true

omit [DecidableEq ι] in
lemma Roles.start : Roles (BlockingQueue.start : BlockingQueue.State (Option ι) J) where
  settled := .start
  lists _ := rfl
  users _ := .outside _
  patience _ := rfl

variable {q r : BlockingQueue.State (Option ι) J} {l : BlockingQueue.Label (Option ι) J}

omit [Fintype ι] in
lemma patient_call {sema sema' : LightweightSemaphore.State (Option ι)}
    {c : LightweightSemaphore.Label (Option ι)} (h : ∀ v, patient (sema.threads v) = true)
    (call : LightweightSemaphore.Step sema c sema')
    (own : patient (sema'.threads c.thread) = true) : ∀ v, patient (sema'.threads v) = true := by
  intro v
  by_cases moved : v = c.thread
  · rw [moved]
    exact own
  · rw [threads_of_step call moved]
    exact h v

omit [DecidableEq ι] in
lemma Roles.one (h : Roles q) {v : Option ι} {max result : ℕ} (waiting : q.users v = .waiting max)
    (done : q.sema.threads v = .done result) : v ≠ none ∧ result = 1 := by
  have role := h.users v
  have fits := h.settled.fits v
  have patience := h.patience v
  rw [waiting] at role fits
  rw [done] at fits patience
  cases role with
  | waiting w =>
    have most : result ≤ 1 := fits.2
    have some : 0 < result := of_decide_eq_true patience
    exact ⟨nofun, by omega⟩

omit [DecidableEq ι] [Fintype ι] in
lemma waits_for_one {v : Option ι} {max : ℕ} {timed : Bool}
    (permitted : called (.waitDequeueBulk v max timed : BlockingQueue.Label (Option ι) J) = true) :
    ∃ w, v = some w ∧ max = 1 ∧ timed = false := by
  unfold called at permitted
  split at permitted <;> simp_all [inside]

/-- Only the list of the main thread is ever used. -/
lemma Roles.lists_step (h : Roles q) (hl : BlockingQueue.Step q l r) (w : ι) :
    r.inner (some w) = [] := by
  cases BlockingQueue.step_cases hl with
  | link v job sema enqueuing call =>
    have role := h.users v
    rw [enqueuing] at role
    cases role
    show Function.update q.inner none (q.inner none ++ [job]) (some w) = []
    rw [Function.update_of_ne (Option.some_ne_none w)]
    exact h.lists w
  | take v p k want got taking room there =>
    show Function.update q.inner p ((q.inner p).drop k) (some w) = []
    by_cases own : some w = p
    · subst own
      rw [Function.update_self, h.lists w, List.drop_nil]
    · rw [Function.update_of_ne own]
      exact h.lists w
  | _ => exact h.lists w

lemma Roles.users_step (h : Roles q) (permitted : called l = true)
    (hl : BlockingQueue.Step q l r) : ∀ v, Role v (r.users v) := by
  have others : ∀ w v, v ≠ w → Role v (q.users v) := fun _ v _ => h.users v
  cases BlockingQueue.step_cases hl with
  | enqueue v job outside =>
    cases v with
    | none => exact forall_setUser (.enqueuing job) (others _)
    | some w => cases permitted
  | refuse v job enqueuing => exact forall_setUser (.outside v) (others v)
  | link v job sema enqueuing call =>
    have role := h.users v
    rw [enqueuing] at role
    cases role
    exact forall_setUser .signalling (others _)
  | signalled v signalling ended => exact forall_setUser (.outside v) (others v)
  | waitDequeueBulk v max timed sema outside call =>
    obtain ⟨w, rfl, rfl, rfl⟩ := waits_for_one permitted
    exact forall_setUser (.waiting w) (others _)
  | tryDequeueBulk v max sema outside call => cases permitted
  | sema c sema within move => exact h.users
  | acquired v max result sema waiting done call =>
    obtain ⟨worker, rfl⟩ := h.one waiting done
    obtain ⟨w, rfl⟩ := Option.ne_none_iff_exists'.mp worker
    exact forall_setUser (.empty w) (others _)
  | take v p k want got taking room there =>
    have role := h.users v
    rw [taking] at role
    cases role with
    | empty w =>
      have few : ((q.inner p).take k).length ≤ 1 := (List.length_take_le k _).trans room
      match hjobs : (q.inner p).take k with
      | [] => exact forall_setUser (.empty w) (others _)
      | [job] => exact forall_setUser (.query w job) (others _)
      | _ :: _ :: _ => simp [hjobs] at few
    | query w job =>
      obtain rfl : k = 0 := Nat.le_zero.mp room
      exact forall_setUser (.query w job) (others _)
  | finish v want got taking all => exact forall_setUser (.outside v) (others v)

lemma Roles.patience_step (h : Roles q) (permitted : called l = true)
    (hl : BlockingQueue.Step q l r) : ∀ v, patient (r.sema.threads v) = true := by
  cases BlockingQueue.step_cases hl with
  | link v job sema enqueuing call =>
    have own : patient (sema.threads v) = true := by
      cases LightweightSemaphore.step_cases call with
      | signal v count outside => rw [set_same]; rfl
    exact patient_call h.patience call own
  | waitDequeueBulk v max timed sema outside call =>
    obtain ⟨w, rfl, rfl, rfl⟩ := waits_for_one permitted
    have own : patient (sema.threads (some w)) = true := by
      cases LightweightSemaphore.step_cases call with
      | waitMany v max timed outside => rw [set_same]; rfl
    exact patient_call h.patience call own
  | tryDequeueBulk v max sema outside call => cases permitted
  | sema c sema within move => exact patient_step within h.patience move
  | acquired v max result sema waiting done call =>
    have own : patient (sema.threads v) = true := by
      cases LightweightSemaphore.step_cases call with
      | leave v result done => rw [set_same]; rfl
    exact patient_call h.patience call own
  | _ => exact h.patience

theorem Roles.step (h : Roles q) (permitted : called l = true) (hl : BlockingQueue.Step q l r) :
    Roles r :=
  ⟨h.settled.step hl, h.lists_step hl, h.users_step permitted hl, h.patience_step permitted hl⟩

end Roles

end ClientPrefs.QueryQueue
