import ClientPrefs.QueryQueue
import ClientPrefs.WorkerPool

/-!
# The workers over their queues are the pool of workers

For the pool of workers the two queues of `TQueue` are one list of queries and one of results. A
query is enqueued there when the main thread has linked it, and taken when a worker has claimed it
in its dequeue.
-/
namespace ClientPrefs.QueryRefinement
open Conversation QueryQueue Transition
open BlockingQueue (User)
open Sentinels (ofWorker ofWorker_append ofWorker_of_ne ofWorker_same)
open WorkerPool (Phase Pool)

variable {ι J Cmd Rep α S : Type}

/-- A query that a worker has taken from the queue is begun. -/
def current (start : J → Conv Cmd Rep α) (place : Place J Cmd Rep α) : User J → Place J Cmd Rep α
  | .taking _ (job :: _) => .running job (start job)
  | _ => place

/-- A phase without its ticket. -/
def placeOf : Phase J Cmd Rep α → Place J Cmd Rep α
  | .idle => .getQuery
  | .running _ job conv => .running job conv
  | .waiting _ job cmds got next => .waiting job cmds got next

/-- The results of a run of the pool, each with its worker. -/
def finished (past : List (Pool ι J Cmd Rep α S × WorkerPool.Label ι J)) : List (ι × J × α) :=
  past.filterMap fun x =>
    match x.2 with
    | .finish w =>
      match (x.1.workers w).phase with
      | .running _ job (.done a) => some (w, job, a)
      | _ => none
    | _ => none

/-- The step of the pool that a step is: a query is enqueued when it is linked, and taken with the
element. -/
def poolLabel (s : Site ι J Cmd Rep α S) : Act ι J → Option (WorkerPool.Label ι J)
  | .queue (.link none) =>
    match s.queryQueue.users none with
    | .enqueuing job => some (.enqueue job)
    | _ => none
  | .queue (.take (some w) _ 1) => some (.take w)
  | .send w => some (.send w)
  | .exec w => some (.exec w)
  | .resume w => some (.resume w)
  | .putResult w => some (.finish w)
  | _ => none

lemma phase_of_getQuery {phase : Phase J Cmd Rep α} (h : placeOf phase = .getQuery) :
    phase = .idle := by
  cases phase with
  | idle => rfl
  | _ => cases h

lemma phase_of_running {phase : Phase J Cmd Rep α} {job : J} {conv : Conv Cmd Rep α}
    (h : placeOf phase = .running job conv) : ∃ t, phase = .running t job conv := by
  cases phase with
  | running t job conv =>
    cases h
    exact ⟨t, rfl⟩
  | _ => cases h

lemma phase_of_waiting {phase : Phase J Cmd Rep α} {job : J} {cmds : List Cmd}
    {got : List (Option Rep)} {next : List (Option Rep) → Conv Cmd Rep α}
    (h : placeOf phase = .waiting job cmds got next) :
    ∃ t, phase = .waiting t job cmds got next := by
  cases phase with
  | waiting t job cmds got next =>
    cases h
    exact ⟨t, rfl⟩
  | _ => cases h

lemma placeOf_receive (reply : Option Rep) (phase : Phase J Cmd Rep α) :
    placeOf (phase.receive reply) = (placeOf phase).receive reply := by
  cases phase <;> rfl

lemma current_receive (start : J → Conv Cmd Rep α) (reply : Option Rep) (place : Place J Cmd Rep α)
    (user : User J) :
    current start (place.receive reply) user = (current start place user).receive reply := by
  unfold current
  split <;> rfl

variable [DecidableEq ι] {start : J → Conv Cmd Rep α} {exec : S → Cmd → S × Rep}
  {s t : Site ι J Cmd Rep α S} {p : Pool ι J Cmd Rep α S} {a : Act ι J}
  {past past' : List (Pool ι J Cmd Rep α S × WorkerPool.Label ι J)}

structure Refines (start : J → Conv Cmd Rep α)
    (past : List (Pool ι J Cmd Rep α S × WorkerPool.Label ι J)) (s : Site ι J Cmd Rep α S)
    (p : Pool ι J Cmd Rep α S) : Prop where
  store : p.store = s.store
  phases : ∀ w, placeOf (p.workers w).phase =
    current start (s.places w) (s.queryQueue.users (some w))
  pipes : ∀ w, (p.workers w).pipe = s.pipes w
  taken : p.taken ≤ p.issued.length
  queued : p.issued.drop p.taken = s.queryQueue.inner none
  results : ∀ w, ofWorker w (finished past) = ofWorker w s.returned ++ s.resultQueue w

lemma Refines.initial (store : S) : Refines start []
    (Site.initial store : Site ι J Cmd Rep α S) (Pool.initial store) where
  store := rfl
  phases _ := rfl
  pipes _ := rfl
  taken := le_rfl
  queued := rfl
  results _ := rfl

omit [DecidableEq ι] in
lemma finished_snoc (c : WorkerPool.Label ι J) :
    finished (past ++ [(p, c)]) = finished past ++ finished [(p, c)] := List.filterMap_append

lemma current_update {users : Option ι → User J} {v : Option ι} {user : User J}
    (same : ∀ place : Place J Cmd Rep α, current start place user =
      current start place (users v)) (w : ι) (place : Place J Cmd Rep α) :
    current start place (Function.update users v user (some w)) =
      current start place (users (some w)) := by
  by_cases own : some w = v
  · subst own
    rw [Function.update_self]
    exact same place
  · rw [Function.update_of_ne own]

/-- A step in the queue at which no query changes hands. -/
lemma Refines.queue (h : Refines start past s p) {queue : BlockingQueue.State (Option ι) J}
    {v : Option ι} {user : User J} (users : queue.users = Function.update s.queryQueue.users v user)
    (same : ∀ place : Place J Cmd Rep α, current start place user =
      current start place (s.queryQueue.users v))
    (list : queue.inner none = s.queryQueue.inner none) :
    Refines start past { s with queryQueue := queue } p := by
  refine ⟨h.store, fun w => ?_, h.pipes, h.taken, h.queued.trans list.symm, h.results⟩
  show placeOf (p.workers w).phase = current start (s.places w) (queue.users (some w))
  rw [users, current_update same]
  exact h.phases w

/-- A worker goes on outside of the queue, and the pool does the same. -/
lemma Refines.works (h : Refines start past s p) {w : ι} {place : Place J Cmd Rep α}
    {x : WorkerPool.Worker J Cmd Rep α} {resultQueue : ι → List (J × α)}
    {results : List (ℕ × J × α)}
    (phase : placeOf x.phase = current start place (s.queryQueue.users (some w)))
    (told : ∀ v, ofWorker v (finished past') = ofWorker v s.returned ++ resultQueue v) :
    Refines start past'
      (({ s with resultQueue := resultQueue }.setPlace w place).setPipe w x.pipe)
      ({ p with results := results }.set w x) := by
  refine ⟨h.store, ?_, ?_, h.taken, h.queued, told⟩
  · intro v
    by_cases own : v = w
    · subst own
      simpa [Site.setPlace, Site.setPipe, Pool.set] using phase
    · simpa [Site.setPlace, Site.setPipe, Pool.set, own] using h.phases v
  · intro v
    by_cases own : v = w
    · subst own
      simp [Site.setPlace, Site.setPipe, Pool.set]
    · simpa [Site.setPlace, Site.setPipe, Pool.set, own] using h.pipes v

lemma Refines.withStore (h : Refines start past s p) (store : S) :
    Refines start past { s with store := store } { p with store := store } :=
  ⟨rfl, h.phases, h.pipes, h.taken, h.queued, h.results⟩

lemma setPipe_same (w : ι) (place : Place J Cmd Rep α) :
    (s.setPlace w place).setPipe w (s.pipes w) = s.setPlace w place := by
  simp [Site.setPipe, Site.setPlace]

section Sound
variable [Fintype ι]

/-- Only a worker without a query calls the queue. -/
structure Sound (s : Site ι J Cmd Rep α S) : Prop where
  roles : Roles s.queryQueue
  busy : ∀ w, s.places w ≠ .getQuery → s.queryQueue.users (some w) = .outside

omit [DecidableEq ι] in
lemma Sound.initial (store : S) : Sound (Site.initial store : Site ι J Cmd Rep α S) where
  roles := .start
  busy _ _ := rfl

omit [Fintype ι] in
lemma setUser_of_ne (q : BlockingQueue.State (Option ι) J) {v w : Option ι} (h : v ≠ w)
    (user : User J) : (q.setUser w user).users v = q.users v := Function.update_of_ne h ..

omit [Fintype ι] in
lemma outside_stays {q r : BlockingQueue.State (Option ι) J}
    {l : BlockingQueue.Label (Option ι) J} (within : inside l = true)
    (hl : BlockingQueue.Step q l r) {v : Option ι} (outside : q.users v = .outside) :
    r.users v = .outside := by
  have moved : ∀ {w user}, q.users w ≠ .outside → Function.update q.users w user v = .outside := by
    intro w user inQueue
    rw [Function.update_of_ne]
    · exact outside
    · rintro rfl
      exact inQueue outside
  cases BlockingQueue.step_cases hl with
  | refuse w item enqueuing => exact moved (by rw [enqueuing]; exact nofun)
  | link w item sema enqueuing call => exact moved (by rw [enqueuing]; exact nofun)
  | signalled w signalling ended => exact moved (by rw [signalling]; exact nofun)
  | sema c sema inside move => exact outside
  | acquired w max result sema waiting done call => exact moved (by rw [waiting]; exact nofun)
  | take w p k want got taking room there => exact moved (by rw [taking]; exact nofun)
  | _ => cases within

theorem Sound.step (h : Sound s) (hl : step start exec s a = some t) : Sound t := by
  have busy_setPlace : ∀ {w : ι} {place : Place J Cmd Rep α},
      (place ≠ .getQuery → s.places w ≠ .getQuery) →
      ∀ v, Function.update s.places w place v ≠ .getQuery →
        s.queryQueue.users (some v) = .outside := by
    intro w place goesOn v hv
    by_cases own : v = w
    · subst own
      rw [Function.update_self] at hv
      exact h.busy v (goesOn hv)
    · rw [Function.update_of_ne own] at hv
      exact h.busy v hv
  cases step_cases hl with
  | addToThreadQueue job queue call =>
    refine ⟨h.roles.step rfl call, ?_⟩
    intro w hw
    cases BlockingQueue.step_cases call with
    | enqueue v job outside =>
      exact (setUser_of_ne _ (Option.some_ne_none w) _).trans (h.busy w hw)
  | getQuery w queue idle call =>
    refine ⟨h.roles.step rfl call, ?_⟩
    intro v hv
    cases BlockingQueue.step_cases call with
    | waitDequeueBulk u max timed sema outside call =>
      have other : some v ≠ some w := fun same => hv (Option.some.inj same ▸ idle)
      exact (setUser_of_ne _ other _).trans (h.busy v hv)
  | queue l queue within move =>
    refine ⟨h.roles.step ?_ move, fun w hw => outside_stays within move (h.busy w hw)⟩
    unfold called
    split <;> first | rfl | exact within
  | runThreadPart w want job rest queue taking call =>
    refine ⟨h.roles.step rfl call, ?_⟩
    cases BlockingQueue.step_cases call with
    | finish u want got taking all =>
      intro v hv
      by_cases own : v = w
      · subst own
        exact Function.update_self ..
      · have other : some v ≠ some w := fun same => own (Option.some.inj same)
        refine (setUser_of_ne _ other _).trans (h.busy v ?_)
        rw [← Function.update_of_ne own (.running job (start job)) s.places]
        exact hv
  | tell w j cmds next tells =>
    exact ⟨h.roles, busy_setPlace fun _ => by rw [tells]; exact nofun⟩
  | ask w j cmds next asks =>
    exact ⟨h.roles, busy_setPlace fun _ => by rw [asks]; exact nofun⟩
  | exec w c awaited rest head =>
    refine ⟨h.roles, busy_setPlace fun hplace idle => hplace ?_⟩
    rw [idle]
    split <;> rfl
  | resume w j cmds got next waits all =>
    exact ⟨h.roles, busy_setPlace fun _ => by rw [waits]; exact nofun⟩
  | putResult w j a ran => exact ⟨h.roles, busy_setPlace fun hplace => absurd rfl hplace⟩
  | getResult w j a rest head => exact ⟨h.roles, h.busy⟩

lemma Refines.phase (h : Refines start past s p) (sound : Sound s) {w : ι}
    (working : s.places w ≠ .getQuery) : placeOf (p.workers w).phase = s.places w := by
  rw [h.phases w, sound.busy w working]
  rfl

/-- The pool stays as it is, or takes the step. -/
def Forward (start : J → Conv Cmd Rep α) (exec : S → Cmd → S × Rep)
    (past : List (Pool ι J Cmd Rep α S × WorkerPool.Label ι J)) (t : Site ι J Cmd Rep α S)
    (p : Pool ι J Cmd Rep α S) : Option (WorkerPool.Label ι J) → Prop
  | none => Refines start past t p
  | some c => ∃ q, WorkerPool.step start exec p c = some q ∧ Refines start (past ++ [(p, c)]) t q

omit [Fintype ι] in
lemma Refines.enqueues (h : Refines start past s p) {job : J} {user : User J}
    {queue : BlockingQueue.State (Option ι) J}
    (users : queue.users = Function.update s.queryQueue.users none user)
    (longer : queue.inner none = s.queryQueue.inner none ++ [job]) :
    Forward start exec past { s with queryQueue := queue } p (some (.enqueue job)) := by
  refine ⟨_, rfl, h.store, fun w => ?_, h.pipes, ?_, ?_, ?_⟩
  · show placeOf (p.workers w).phase = current start (s.places w) (queue.users (some w))
    rw [users, Function.update_of_ne (Option.some_ne_none w)]
    exact h.phases w
  · exact h.taken.trans (List.sublist_append_left ..).length_le
  · exact (List.drop_append_of_le_length h.taken).trans (by rw [h.queued, longer])
  · rw [finished_snoc]
    simpa [finished] using h.results

/-- A worker has taken the next query from the list of the main thread. -/
lemma Refines.takes (h : Refines start past s p) (sound : Sound s) {w : ι} {job : J} {rest : List J}
    {queue : BlockingQueue.State (Option ι) J}
    (empty : s.queryQueue.users (some w) = .taking 1 [])
    (next : s.queryQueue.inner none = job :: rest) (list : queue.inner none = rest)
    (users : queue.users = Function.update s.queryQueue.users (some w) (.taking 1 [job])) :
    Forward start exec past { s with queryQueue := queue } p (some (.take w)) := by
  have waits : s.places w = .getQuery := by
    by_contra working
    have outside := sound.busy w working
    rw [empty] at outside
    cases outside
  have idle : (p.workers w).phase = .idle := by
    apply phase_of_getQuery
    rw [h.phases w, waits, empty]
    rfl
  have front : p.issued[p.taken]? = some job := by
    rw [← List.head?_drop, h.queued, next]
    rfl
  refine ⟨_, by simp only [WorkerPool.step, idle, front]; rfl, ?_⟩
  refine ⟨h.store, ?_, ?_, ?_, ?_, ?_⟩
  · intro v
    show placeOf (Function.update p.workers w _ v).phase =
      current start (s.places v) (queue.users (some v))
    rw [users]
    by_cases own : v = w
    · subst own
      rw [Function.update_self, Function.update_self]
      rfl
    · rw [Function.update_of_ne own, Function.update_of_ne fun same => own (Option.some.inj same)]
      exact h.phases v
  · intro v
    show (Function.update p.workers w _ v).pipe = s.pipes v
    by_cases own : v = w
    · subst own
      rw [Function.update_self]
      exact h.pipes v
    · rw [Function.update_of_ne own]
      exact h.pipes v
  · exact (List.getElem?_eq_some_iff.mp front).1
  · show p.issued.drop (p.taken + 1) = queue.inner none
    rw [← List.drop_drop, h.queued, next, list]
    rfl
  · rw [finished_snoc]
    simpa [finished] using h.results

/-- A step in the queue: of the pool it enqueues a query, or takes one, or nothing. -/
lemma Refines.inQueue (h : Refines start past s p) (sound : Sound s)
    {l : BlockingQueue.Label (Option ι) J} {queue : BlockingQueue.State (Option ι) J}
    (within : inside l = true) (move : BlockingQueue.Step s.queryQueue l queue) :
    Forward start exec past { s with queryQueue := queue } p (poolLabel s (.queue l)) := by
  cases BlockingQueue.step_cases move with
  | refuse v job enqueuing => exact h.queue rfl (fun place => by rw [enqueuing]; rfl) rfl
  | link v job sema enqueuing call =>
    have role := sound.roles.users v
    rw [enqueuing] at role
    cases role
    simp only [poolLabel, enqueuing]
    exact h.enqueues rfl (Function.update_self none _ s.queryQueue.inner)
  | signalled v signalling ended => exact h.queue rfl (fun place => by rw [signalling]; rfl) rfl
  | sema c sema inside move =>
    exact h.queue (v := none) (Function.update_eq_self ..).symm (fun place => rfl) rfl
  | acquired v max result sema waiting done call =>
    exact h.queue rfl (fun place => by rw [waiting]; rfl) rfl
  | take v u k want got taking room there =>
    have role := sound.roles.users v
    rw [taking] at role
    have nothing : k = 0 → Refines start past { s with
        queryQueue := { s.queryQueue with
          inner := Function.update s.queryQueue.inner u ((s.queryQueue.inner u).drop k) }.setUser v
            (.taking want (got ++ (s.queryQueue.inner u).take k)) } p := by
      rintro rfl
      rw [List.drop_zero, List.take_zero, List.append_nil, Function.update_eq_self]
      exact h.queue rfl (fun place => by rw [taking]) rfl
    cases role with
    | empty w =>
      match k, room with
      | 0, _ => exact nothing rfl
      | 1, _ =>
        cases u with
        | some u => simp [sound.roles.lists u] at there
        | none =>
          obtain ⟨job, rest, next⟩ := List.exists_cons_of_length_pos there
          refine h.takes sound taking next ?_ ?_
          · show Function.update s.queryQueue.inner none _ none = rest
            rw [Function.update_self, next]
            rfl
          · rw [next]
            rfl
    | query w job =>
      obtain rfl : k = 0 := Nat.le_zero.mp room
      exact nothing rfl
  | _ => cases within

/-- One step of the workers over the queue is a step of the pool, or none. -/
theorem Refines.forward (h : Refines start past s p) (sound : Sound s)
    (hl : step start exec s a = some t) : Forward start exec past t p (poolLabel s a) := by
  have told : ∀ {c : WorkerPool.Label ι J}, finished [(p, c)] = [] → ∀ v,
      ofWorker v (finished (past ++ [(p, c)])) = ofWorker v s.returned ++ s.resultQueue v := by
    intro c none v
    rw [finished_snoc, none, List.append_nil]
    exact h.results v
  cases step_cases hl with
  | addToThreadQueue job queue call =>
    cases BlockingQueue.step_cases call with
    | enqueue v job outside =>
      exact h.queue rfl (fun place => by rw [outside]; rfl) rfl
  | getQuery w queue idle call =>
    cases BlockingQueue.step_cases call with
    | waitDequeueBulk v max timed sema outside call =>
      exact h.queue rfl (fun place => by rw [outside]; rfl) rfl
  | queue l queue within move => exact h.inQueue sound within move
  | runThreadPart w want job rest queue taking call =>
    cases BlockingQueue.step_cases call with
    | finish v want' got taking' all =>
      have idle : placeOf (p.workers w).phase = .running job (start job) := by
        rw [h.phases w, taking]
        rfl
      refine ⟨h.store, ?_, h.pipes, h.taken, h.queued, h.results⟩
      intro v
      show placeOf (p.workers v).phase = current start
        (Function.update s.places w (.running job (start job)) v)
        (Function.update s.queryQueue.users (some w) .outside (some v))
      by_cases own : v = w
      · subst own
        rw [Function.update_self, Function.update_self]
        exact idle
      · rw [Function.update_of_ne own,
          Function.update_of_ne fun same => own (Option.some.inj same)]
        exact h.phases v
  | tell w j cmds next tells =>
    have working : s.places w ≠ .getQuery := by simp [tells]
    obtain ⟨ticket, phase⟩ := phase_of_running ((h.phase sound working).trans tells)
    refine ⟨_, by simp only [WorkerPool.step, phase, h.pipes w]; rfl, ?_⟩
    refine h.works (x := ⟨.running ticket j next, s.pipes w ++ cmds.map (·, false)⟩) ?_ (told rfl)
    rw [sound.busy w working]
    rfl
  | ask w j cmds next asks =>
    have working : s.places w ≠ .getQuery := by simp [asks]
    obtain ⟨ticket, phase⟩ := phase_of_running ((h.phase sound working).trans asks)
    refine ⟨_, by simp only [WorkerPool.step, phase, h.pipes w]; rfl, ?_⟩
    refine h.works (x := ⟨.waiting ticket j cmds [] next, s.pipes w ++ cmds.map (·, true)⟩) ?_
      (told rfl)
    rw [sound.busy w working]
    rfl
  | exec w c awaited rest head =>
    have pipe : (p.workers w).pipe = (c, awaited) :: rest := (h.pipes w).trans head
    refine ⟨_, by simp only [WorkerPool.step, pipe]; rfl, ?_⟩
    rw [h.store]
    refine (h.withStore (exec s.store c).1).works (x := ⟨_, rest⟩) ?_ (told rfl)
    cases awaited with
    | false => exact h.phases w
    | true =>
      show placeOf ((p.workers w).phase.receive _) = current start ((s.places w).receive _) _
      rw [placeOf_receive, current_receive, h.phases w]
  | resume w j cmds got next waits all =>
    have working : s.places w ≠ .getQuery := by simp [waits]
    obtain ⟨ticket, phase⟩ := phase_of_waiting ((h.phase sound working).trans waits)
    refine ⟨_, by simp only [WorkerPool.step, phase, h.pipes w, if_pos all]; rfl, ?_⟩
    rw [← setPipe_same]
    refine h.works (x := ⟨.running ticket j (next got), s.pipes w⟩) ?_ (told rfl)
    rw [sound.busy w working]
    rfl
  | putResult w j a ran =>
    have working : s.places w ≠ .getQuery := by simp [ran]
    obtain ⟨ticket, phase⟩ := phase_of_running ((h.phase sound working).trans ran)
    refine ⟨_, by simp only [WorkerPool.step, phase, h.pipes w]; rfl, ?_⟩
    rw [← setPipe_same]
    refine h.works (x := ⟨.idle, s.pipes w⟩) ?_ ?_
    · rw [sound.busy w working]
      rfl
    · intro v
      have one : finished [(p, WorkerPool.Label.finish w)] = [(w, j, a)] := by
        simp [finished, phase]
      rw [finished_snoc, one, ofWorker_append, h.results v, List.append_assoc]
      by_cases own : v = w
      · subst own
        rw [ofWorker_same, Function.update_self]
      · rw [ofWorker_of_ne own, Function.update_of_ne own, List.append_nil]
  | getResult w j a rest head =>
    refine ⟨h.store, h.phases, h.pipes, h.taken, h.queued, ?_⟩
    intro v
    show ofWorker v (finished past) = ofWorker v (s.returned ++ [(w, j, a)]) ++
      Function.update s.resultQueue w rest v
    rw [h.results v, ofWorker_append, List.append_assoc]
    by_cases own : v = w
    · subst own
      rw [ofWorker_same, Function.update_self, head]
      rfl
    · rw [ofWorker_of_ne own, Function.update_of_ne own]
      rfl

/-- The pool of workers over one list of jobs is what the workers make of `TQueue`: to every run
belongs one of the pool, with a step for each query that is linked or taken and for each step of a
worker, in the same order; the workers, the store and the queries that wait are the same, and the
results of each worker come out in the order in which it put them in. -/
theorem refines_pool {store : S} {trace : List (Site ι J Cmd Rep α S × Act ι J)}
    (run : Run (Step start exec) (Site.initial store) trace s) :
    ∃ past p, Run (fun a l b => WorkerPool.step start exec a l = some b) (Pool.initial store) past p ∧
      past.map Prod.snd = trace.filterMap (fun x => poolLabel x.1 x.2) ∧ Refines start past s p := by
  suffices h : Sound s ∧ ∃ past p,
      Run (fun a l b => WorkerPool.step start exec a l = some b) (Pool.initial store) past p ∧
      past.map Prod.snd = trace.filterMap (fun x => poolLabel x.1 x.2) ∧ Refines start past s p from
    h.2
  induction run with
  | refl => exact ⟨.initial store, [], _, .refl, rfl, .initial store⟩
  | @snoc trace b t a prior last ih =>
    obtain ⟨sound, past, p, run, labels, refines⟩ := ih
    refine ⟨sound.step last, ?_⟩
    have forward := refines.forward sound last
    cases label : poolLabel b a with
    | none =>
      rw [label] at forward
      exact ⟨past, p, run, by simp [labels, label], forward⟩
    | some c =>
      rw [label] at forward
      obtain ⟨q, one, refines⟩ := forward
      exact ⟨_, q, run.snoc one, by simp [labels, label], refines⟩

/-- Two queries and two workers: the second query is done first. -/
def overtaking : List (Act Bool ℕ) :=
  [.addToThreadQueue 7, .queue (.link none), .queue (.sema (.move none)), .queue (.signalled none),
    .getQuery false, .getQuery true, .queue (.sema (.move (some false))),
    .queue (.sema (.move (some false))), .queue (.acquired (some false)),
    .queue (.take (some false) none 1), .addToThreadQueue 8, .queue (.link none),
    .queue (.sema (.move none)), .runThreadPart false, .queue (.signalled none),
    .queue (.sema (.move (some true))), .queue (.sema (.move (some true))),
    .queue (.acquired (some true)), .queue (.take (some true) (some false) 0),
    .queue (.take (some true) none 1), .runThreadPart true, .send false, .send true, .exec true,
    .resume true, .putResult true, .exec false, .resume false, .getResult true, .putResult false,
    .getResult false]

def noted (job : ℕ) : Conv ℕ ℕ ℕ := .ask [job] fun _ => .done job

def note (store : List ℕ) (c : ℕ) : List ℕ × ℕ := (store ++ [c], c)

theorem refines_pool_overtaking : ∃ trace s past p,
    Run (Step noted note) (Site.initial [] : Site Bool ℕ ℕ ℕ ℕ (List ℕ)) trace s ∧
    s.store = [8, 7] ∧ s.returned = [(true, 8, 8), (false, 7, 7)] ∧
    Run (fun a l b => WorkerPool.step noted note a l = some b) (Pool.initial []) past p ∧
    past.map Prod.snd = [.enqueue 7, .take false, .enqueue 8, .take true, .send false, .send true,
      .exec true, .resume true, .finish true, .exec false, .resume false, .finish false] ∧
    Refines noted past s p := by
  have run := advance_run (Option.some_get (rfl : (advance (step noted note)
    (Site.initial [] : Site Bool ℕ ℕ ℕ ℕ (List ℕ)) overtaking).isSome = true)).symm
  obtain ⟨past, p, runs, labels, refines⟩ := refines_pool run
  exact ⟨_, _, past, p, run, by decide +kernel, by decide +kernel, runs,
    labels.trans (by decide +kernel), refines⟩

end Sound

end ClientPrefs.QueryRefinement
