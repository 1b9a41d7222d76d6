import ClientPrefs.ClientLife

/-!
# The clients of a query worker

The thread that `SDK_OnLoad` starts for a query worker. `connectDb` constructs clients until one of
them connects; the loop on the queries deletes a client that has lost its connection and calls
`connectDb` again. The threads of the clients run at the same time.
-/
namespace ClientPrefs.WorkerClients
open ClientLife Transition

/-- Where `connectDb` is called: in front of the loop, or in it with a query at hand. -/
inductive Return
  | start
  | query
  deriving DecidableEq, Repr

/-- The two tests `!db || !db->IsConnected()`. -/
inductive Test
  | connectDb (back : Return)
  | query
  deriving DecidableEq, Repr

/-- The three `delete db`: of a client that did not connect, of one that has lost its connection,
and at the end. -/
inductive Deletion
  | failed (back : Return)
  | lost
  | leaving
  deriving DecidableEq, Repr

inductive Phase
  /-- At `db`; in `IsConnected` at `ctx && ctx->err == 0`, and at `!stopped`. -/
  | testing (test : Test)
  | readingErr (test : Test)
  | readingStopped (test : Test)
  /-- At `new async_redis::client()`; in `Connect`; in what follows the loop of `connectDb`. -/
  | constructing (back : Return)
  | connecting (back : Return)
  | settingUp (back : Return)
  | deleting (why : Deletion)
  /-- In `GetQuery`; from `db->Commit()` to `PutResult`. -/
  | waiting
  | serving
  | gone
  deriving DecidableEq, Repr

structure State where
  /-- Every client constructed so far; a deleted one is at `destroyed`. -/
  clients : List ClientLife.State
  db : Option ℕ
  phase : Phase
  deriving DecidableEq, Repr

def start : State where
  clients := []
  db := none
  phase := .testing (.connectDb .start)

inductive Label
  | testDb
  | readErr
  | readStopped
  | construct
  /-- A step of the thread in `db->Connect` or in the destructor. -/
  | owner (e : ClientLife.Event)
  | deleted
  /-- `connectDb` returns, whatever the replies to its commands were. -/
  | setUp
  /-- `GetQuery` returns a query, or null. -/
  | query
  | sentinel
  | served
  /-- A thread of client `i` makes a step. -/
  | client (i : ℕ) (e : ClientLife.Event)
  deriving DecidableEq, Repr

/-- The test holds: a client is needed. -/
def Test.replace : Test → Phase
  | .connectDb back => .constructing back
  | .query => .deleting .lost

def Test.proceed : Test → Phase
  | .connectDb back => .settingUp back
  | .query => .serving

def Deletion.next : Deletion → Phase
  | .failed back => .testing (.connectDb back)
  | .lost => .testing (.connectDb .query)
  | .leaving => .gone

def Return.resume : Return → Phase
  | .start => .waiting
  | .query => .serving

/-- The calls that the thread makes of its client. -/
def Phase.calls : Phase → ClientLife.Event → Bool
  | .connecting _, .call c => c = .connect
  | .connecting _, _ => true
  | .deleting _, .call c => c = .destroy
  | .deleting _, _ => true
  | _, _ => false

/-- `Connect` returns `true` after it has started the thread, and `false` when the test of the
context has failed. -/
def Phase.after (c : ClientLife.State) : Phase → ClientLife.Event → Phase
  | .connecting back, .launch => .settingUp back
  | .connecting back, .testCtx => if c.good then .connecting back else .deleting (.failed back)
  | phase, _ => phase

def State.current (s : State) : Option ClientLife.State := s.db.bind fun i => s.clients[i]?

def State.setClient (s : State) (i : ℕ) (c : ClientLife.State) : State :=
  { s with clients := s.clients.set i c }

def step (s : State) : Label → Option State
  | .testDb =>
    match s.phase with
    | .testing test =>
      some { s with phase := if s.db = none then test.replace else .readingErr test }
    | _ => none
  | .readErr =>
    match s.phase, s.current with
    | .readingErr test, some c =>
      some { s with phase := if c.good then .readingStopped test else test.replace }
    | _, _ => none
  | .readStopped =>
    match s.phase, s.current with
    | .readingStopped test, some c =>
      some { s with phase := if c.stopped then test.replace else test.proceed }
    | _, _ => none
  | .construct =>
    match s.phase with
    | .constructing back => some {
        clients := s.clients ++ [new]
        db := some s.clients.length
        phase := .connecting back }
    | _ => none
  | .owner e =>
    match s.db, s.current with
    | some i, some c =>
      if s.phase.calls e ∧ c.terminated = false then
        (ownerStep c e).map fun d => { s.setClient i d with phase := s.phase.after c e }
      else none
    | _, _ => none
  | .deleted =>
    match s.phase with
    | .deleting why =>
      if s.current.all fun c => c.caller = .destroyed then
        some { s with db := none, phase := why.next }
      else none
    | _ => none
  | .setUp =>
    match s.phase with
    | .settingUp back => some { s with phase := back.resume }
    | _ => none
  | .query =>
    match s.phase with
    | .waiting => some { s with phase := .testing .query }
    | _ => none
  | .sentinel =>
    match s.phase with
    | .waiting => some { s with phase := .deleting .leaving }
    | _ => none
  | .served =>
    match s.phase with
    | .serving => some { s with phase := .waiting }
    | _ => none
  | .client i e =>
    match s.clients[i]? with
    | some c =>
      if c.terminated = false then (workerStep c e).map fun d => s.setClient i d else none
    | none => none

abbrev Step (s : State) (l : Label) (t : State) : Prop := step s l = some t

inductive Steps (s : State) : Label → State → Prop
  | noClient (test : Test) (phase : s.phase = .testing test) (db : s.db = none) :
      Steps s .testDb { s with phase := test.replace }
  | testDb (test : Test) (i : ℕ) (phase : s.phase = .testing test) (db : s.db = some i) :
      Steps s .testDb { s with phase := .readingErr test }
  | readErr (test : Test) (i : ℕ) (c : ClientLife.State) (phase : s.phase = .readingErr test)
      (db : s.db = some i) (client : s.clients[i]? = some c) :
      Steps s .readErr { s with
        phase := if c.good then .readingStopped test else test.replace }
  | readStopped (test : Test) (i : ℕ) (c : ClientLife.State)
      (phase : s.phase = .readingStopped test) (db : s.db = some i)
      (client : s.clients[i]? = some c) :
      Steps s .readStopped { s with phase := if c.stopped then test.replace else test.proceed }
  | construct (back : Return) (phase : s.phase = .constructing back) :
      Steps s .construct {
        clients := s.clients ++ [new]
        db := some s.clients.length
        phase := .connecting back }
  | owner (e : ClientLife.Event) (i : ℕ) (c d : ClientLife.State) (calls : s.phase.calls e = true)
      (db : s.db = some i) (client : s.clients[i]? = some c) (alive : c.terminated = false)
      (call : ownerStep c e = some d) :
      Steps s (.owner e) { s.setClient i d with phase := s.phase.after c e }
  | deleted (why : Deletion) (phase : s.phase = .deleting why)
      (destroyed : ∀ i c, s.db = some i → s.clients[i]? = some c → c.caller = .destroyed) :
      Steps s .deleted { s with db := none, phase := why.next }
  | setUp (back : Return) (phase : s.phase = .settingUp back) :
      Steps s .setUp { s with phase := back.resume }
  | query (phase : s.phase = .waiting) : Steps s .query { s with phase := .testing .query }
  | sentinel (phase : s.phase = .waiting) :
      Steps s .sentinel { s with phase := .deleting .leaving }
  | served (phase : s.phase = .serving) : Steps s .served { s with phase := .waiting }
  | client (i : ℕ) (e : ClientLife.Event) (c d : ClientLife.State)
      (client : s.clients[i]? = some c) (alive : c.terminated = false)
      (move : workerStep c e = some d) : Steps s (.client i e) (s.setClient i d)

variable {s t : State} {l : Label} {trace : List (State × Label)}

lemma current_eq_some {c : ClientLife.State} (h : s.current = some c) :
    ∃ i, s.db = some i ∧ s.clients[i]? = some c := Option.bind_eq_some_iff.mp h

theorem step_cases (h : step s l = some t) : Steps s l t := by
  cases l with
  | testDb =>
    simp only [step] at h
    split at h
    · next test phase =>
      obtain rfl := Option.some.inj h
      cases db : s.db with
      | none => simpa [db] using Steps.noClient test phase db
      | some i => simpa [db] using Steps.testDb test i phase db
    · cases h
  | readErr =>
    simp only [step] at h
    split at h
    · next test c phase current =>
      obtain ⟨i, db, client⟩ := current_eq_some current
      obtain rfl := Option.some.inj h
      exact .readErr test i c phase db client
    · cases h
  | readStopped =>
    simp only [step] at h
    split at h
    · next test c phase current =>
      obtain ⟨i, db, client⟩ := current_eq_some current
      obtain rfl := Option.some.inj h
      exact .readStopped test i c phase db client
    · cases h
  | construct =>
    simp only [step] at h
    split at h
    · next back phase =>
      obtain rfl := Option.some.inj h
      exact .construct back phase
    · cases h
  | owner e =>
    simp only [step] at h
    split at h
    · next i c db current =>
      obtain ⟨j, hj, client⟩ := current_eq_some current
      obtain rfl : i = j := Option.some.inj (db.symm.trans hj)
      split at h
      · next allowed =>
        obtain ⟨d, call, rfl⟩ := Option.map_eq_some_iff.mp h
        exact .owner e i c d allowed.1 db client allowed.2 call
      · cases h
    · cases h
  | deleted =>
    simp only [step] at h
    split at h
    · next why phase =>
      split at h
      · next all =>
        obtain rfl := Option.some.inj h
        refine .deleted why phase fun i c db client => ?_
        simpa [State.current, db, client] using all
      · cases h
    · cases h
  | setUp =>
    simp only [step] at h
    split at h
    · next back phase =>
      obtain rfl := Option.some.inj h
      exact .setUp back phase
    · cases h
  | query =>
    simp only [step] at h
    split at h
    · next phase =>
      obtain rfl := Option.some.inj h
      exact .query phase
    · cases h
  | sentinel =>
    simp only [step] at h
    split at h
    · next phase =>
      obtain rfl := Option.some.inj h
      exact .sentinel phase
    · cases h
  | served =>
    simp only [step] at h
    split at h
    · next phase =>
      obtain rfl := Option.some.inj h
      exact .served phase
    · cases h
  | client i e =>
    simp only [step] at h
    split at h
    · next c client =>
      split at h
      · next alive =>
        obtain ⟨d, move, rfl⟩ := Option.map_eq_some_iff.mp h
        exact .client i e c d client alive move
      · cases h
    · cases h

/-- The steps of client `i`, of its owner and of its threads. -/
def lifeOf (i : ℕ) (trace : List (State × Label)) : List (ClientLife.State × ClientLife.Event) :=
  trace.filterMap fun x =>
    match x.2 with
    | .owner e => if x.1.db = some i then x.1.clients[i]?.map fun c => (c, e) else none
    | .client j e => if j = i then x.1.clients[i]?.map fun c => (c, e) else none
    | _ => none

/-- The client is deleted, and of its connection and its threads nothing is left. -/
structure Closed (c : ClientLife.State) : Prop where
  destroyed : c.caller = .destroyed
  ctx : c.ctx = none
  freed : c.live = []
  joined : ∀ k, ¬ Running c k

/-- The client has a connection, and it is the only one that it has opened and not freed. -/
def Connected (c : ClientLife.State) : Prop :=
  ∃ ctx, c.ctx = some ctx ∧ ctx ∈ c.live ∧ ∀ x ∈ c.live, x = ctx

section Client
variable {c d : ClientLife.State} {e : ClientLife.Event}

lemma step_of_owner (alive : c.terminated = false) (call : ownerStep c e = some d) :
    ClientLife.Step c e d := by
  unfold ClientLife.Step ClientLife.step
  rw [if_neg (ne_true_of_eq_false alive), call]
  rfl

lemma worker_keeps (move : workerStep c e = some d) :
    ownerStep c e = none ∧ d.caller = c.caller ∧ d.ctx = c.ctx ∧ ∃ i, Running c i := by
  cases e with
  | check i =>
    simp only [workerStep] at move
    split at move
    · next loop =>
      obtain rfl := Option.some.inj move
      exact ⟨rfl, rfl, rfl, i, _, loop, by simp⟩
    · cases move
  | testErr i =>
    simp only [workerStep] at move
    split at move
    · next checking =>
      obtain rfl := Option.some.inj move
      exact ⟨rfl, rfl, rfl, i, _, checking, by simp⟩
    · cases move
  | stop i =>
    simp only [workerStep] at move
    split at move
    · next stopping =>
      obtain rfl := Option.some.inj move
      exact ⟨rfl, rfl, rfl, i, _, stopping, by simp⟩
    · cases move
  | useCtx i ok =>
    simp only [workerStep] at move
    split at move
    · next serving _ =>
      obtain rfl := Option.some.inj move
      exact ⟨rfl, rfl, rfl, i, _, serving, by simp⟩
    · cases move
  | finish i =>
    simp only [workerStep] at move
    split at move
    · next serving =>
      obtain rfl := Option.some.inj move
      exact ⟨rfl, rfl, rfl, i, _, serving, by simp⟩
    · cases move
  | _ => cases move

lemma step_of_worker (alive : c.terminated = false) (move : workerStep c e = some d) :
    ClientLife.Step c e d := by
  unfold ClientLife.Step ClientLife.step
  rw [if_neg (ne_true_of_eq_false alive), (worker_keeps move).1]
  exact move

lemma meets_of_worker (move : workerStep c e = some d) : Meets c e := by
  cases e with
  | readErr => cases move
  | readStopped => cases move
  | _ => trivial

lemma not_running_of_ctx (tidy : Tidy c) (ctx : c.ctx = none) (k : ℕ) : ¬ Running c k := by
  intro running
  have handled := tidy.handled k running
  rw [tidy.joined ctx] at handled
  cases handled

lemma closed_of_tidy (tidy : Tidy c) (destroyed : c.caller = .destroyed) (ctx : c.ctx = none) :
    Closed c where
  destroyed := destroyed
  ctx := ctx
  freed := by
    refine List.eq_nil_iff_forall_not_mem.mpr fun x hx => ?_
    have h := tidy.freed x hx
    rw [ctx] at h
    cases h
  joined := not_running_of_ctx tidy ctx

def Opening (c : ClientLife.State) : Prop :=
  (c.caller = .ready ∨ c.caller = .readingErr ∨ c.caller = .opening) ∧ c.ctx = none ∨
    c.caller = .testing ∨ c.caller = .launching

def Ending (c : ClientLife.State) : Prop :=
  c.caller = .ready ∨ c.caller = .disconnecting .destroy ∨ c.caller = .joining .destroy ∨
    c.caller = .freeing .destroy ∨ c.caller = .destroyed ∧ c.ctx = none

def Usable (c : ClientLife.State) : Prop := c.caller = .ready ∧ c.ctx ≠ none

/-- What is known of the client where the thread is. -/
def Fits : Phase → ClientLife.State → Prop
  | .testing .query, c | .readingErr .query, c | .readingStopped .query, c => Usable c
  | .settingUp _, c | .waiting, c | .serving, c => Usable c
  | .connecting _, c => Opening c
  | .deleting _, c => Ending c
  | _, _ => False

lemma Opening.owner (h : Opening c) (tidy : Tidy c) {back : Return}
    (calls : (Phase.connecting back).calls e = true) (alive : c.terminated = false)
    (call : ownerStep c e = some d) :
    Meets c e ∧ Fits ((Phase.connecting back).after c e) d := by
  have placed := tidy.placed
  cases (ClientLife.step_cases (step_of_owner alive call)).2 with
  | call k ready =>
    have connect : k = .connect := by simpa [Phase.calls] using calls
    subst connect
    rcases h with ⟨_, ctx⟩ | other | other
    · exact ⟨trivial, .inl ⟨.inr (.inl rfl), ctx⟩⟩
    · cases ready.symm.trans other
    · cases ready.symm.trans other
  | readErr reading =>
    rcases h with ⟨_, ctx⟩ | other | other
    · have bad : c.good = false := by simp [State.good, ctx]
      rw [bad]
      exact ⟨.inl ctx, .inl ⟨.inr (.inr rfl), ctx⟩⟩
    · cases reading.symm.trans other
    · cases reading.symm.trans other
  | redisConnect r opening => exact ⟨trivial, .inr (.inl rfl)⟩
  | connected testing good =>
    refine ⟨trivial, ?_⟩
    simp only [Phase.after, if_pos good]
    exact .inr (.inr rfl)
  | notConnected testing bad =>
    refine ⟨trivial, ?_⟩
    simp only [Phase.after, if_neg (ne_true_of_eq_false bad)]
    exact .inl rfl
  | launch launching none =>
    rw [launching] at placed
    exact ⟨trivial, rfl, placed.2⟩
  | terminate k launching worker =>
    rw [launching] at placed
    cases worker.symm.trans placed.1
  | readStopped other => simp [Opening, other] at h
  | setStopped k other => simp [Opening, other] at h
  | notJoinable k other => simp [Opening, other] at h
  | join k i other => simp [Opening, other] at h
  | free k other => simp [Opening, other] at h
  | _ => cases call

lemma Ending.owner (h : Ending c) {why : Deletion}
    (calls : (Phase.deleting why).calls e = true) (alive : c.terminated = false)
    (call : ownerStep c e = some d) : Meets c e ∧ Ending d := by
  cases (ClientLife.step_cases (step_of_owner alive call)).2 with
  | call k ready =>
    have destroy : k = .destroy := by simpa [Phase.calls] using calls
    subst destroy
    exact ⟨trivial, .inr (.inl rfl)⟩
  | setStopped k disconnecting =>
    have destroy : k = .destroy := by simpa [Ending, disconnecting] using h
    subst destroy
    exact ⟨trivial, .inr (.inr (.inl rfl))⟩
  | notJoinable k joining none =>
    have destroy : k = .destroy := by simpa [Ending, joining] using h
    subst destroy
    exact ⟨trivial, .inr (.inr (.inr (.inl rfl)))⟩
  | join k i joining worker exited =>
    have destroy : k = .destroy := by simpa [Ending, joining] using h
    subst destroy
    exact ⟨trivial, .inr (.inr (.inr (.inl rfl)))⟩
  | free k freeing =>
    have destroy : k = .destroy := by simpa [Ending, freeing] using h
    subst destroy
    exact ⟨trivial, .inr (.inr (.inr (.inr ⟨rfl, rfl⟩)))⟩
  | readErr other => simp [Ending, other] at h
  | readStopped other => simp [Ending, other] at h
  | redisConnect r other => simp [Ending, other] at h
  | connected other => simp [Ending, other] at h
  | notConnected other => simp [Ending, other] at h
  | launch other => simp [Ending, other] at h
  | terminate k other => simp [Ending, other] at h
  | _ => cases call

lemma Fits.owner {phase : Phase} (h : Fits phase c) (tidy : Tidy c)
    (calls : phase.calls e = true) (alive : c.terminated = false)
    (call : ownerStep c e = some d) : Meets c e ∧ Fits (phase.after c e) d := by
  cases phase with
  | connecting back => exact Opening.owner h tidy calls alive call
  | deleting why => exact Ending.owner h calls alive call
  | _ => cases calls

lemma Fits.same {phase : Phase} (h : Fits phase c) (caller : d.caller = c.caller)
    (ctx : d.ctx = c.ctx) : Fits phase d := by
  have usable : Usable c → Usable d := by simp only [Usable, caller, ctx, imp_self]
  have opening : Opening c → Opening d := by simp only [Opening, caller, ctx, imp_self]
  have ending : Ending c → Ending d := by simp only [Ending, caller, ctx, imp_self]
  cases phase with
  | connecting back => exact opening h
  | deleting why => exact ending h
  | testing test =>
    cases test with
    | connectDb back => exact h
    | query => exact usable h
  | readingErr test =>
    cases test with
    | connectDb back => exact h
    | query => exact usable h
  | readingStopped test =>
    cases test with
    | connectDb back => exact h
    | query => exact usable h
  | settingUp back => exact usable h
  | waiting => exact usable h
  | serving => exact usable h
  | constructing back => exact h
  | gone => exact h

end Client

def Phase.empty : Phase → Bool
  | .testing (.connectDb _) | .constructing _ | .gone => true
  | _ => false

/-- The invariant: `db` is the client constructed last, as the thread needs it, and all others are
deleted. -/
structure Tended (s : State) : Prop where
  tidy : ∀ (i : ℕ) c, s.clients[i]? = some c → Tidy c
  others : ∀ (i : ℕ) c, s.clients[i]? = some c → s.db ≠ some i →
    c.caller = .destroyed ∧ c.ctx = none
  empty : s.db = none → s.phase.empty = true
  current : ∀ i, s.db = some i → ∃ c, s.clients[i]? = some c ∧ Fits s.phase c

lemma Tended.start : Tended start where
  tidy i c hc := by cases hc
  others i c hc := by cases hc
  empty _ := rfl
  current i hi := by cases hi

lemma Tended.goes (h : Tended s) {i : ℕ} {c : ClientLife.State} (db : s.db = some i)
    (client : s.clients[i]? = some c) {phase : Phase} (fits : Fits phase c) :
    Tended { s with phase := phase } where
  tidy := h.tidy
  others := h.others
  empty none := by cases db.symm.trans none
  current j hj := by
    obtain rfl : i = j := Option.some.inj (db.symm.trans hj)
    exact ⟨c, client, fits⟩

lemma Tended.fits (h : Tended s) {i : ℕ} {c : ClientLife.State} (db : s.db = some i)
    (client : s.clients[i]? = some c) : Fits s.phase c := by
  obtain ⟨d, hd, fits⟩ := h.current i db
  obtain rfl : c = d := Option.some.inj (client.symm.trans hd)
  exact fits

lemma Tended.has (h : Tended s) (needs : s.phase.empty = false) :
    ∃ i c, s.db = some i ∧ s.clients[i]? = some c ∧ Fits s.phase c := by
  cases db : s.db with
  | none =>
    have empty := h.empty db
    rw [needs] at empty
    cases empty
  | some i =>
    obtain ⟨c, client, fits⟩ := h.current i db
    exact ⟨i, c, rfl, client, fits⟩

lemma usable_of_reading {c : ClientLife.State} {test : Test}
    (fits : Fits (.readingErr test) c ∨ Fits (.readingStopped test) c ∨ Fits (.testing test) c) :
    test = .query ∧ Usable c := by
  cases test with
  | connectDb back =>
    rcases fits with h | h | h
    · exact h.elim
    · exact h.elim
    · exact h.elim
  | query =>
    rcases fits with h | h | h
    · exact ⟨rfl, h⟩
    · exact ⟨rfl, h⟩
    · exact ⟨rfl, h⟩

lemma Usable.ending {c : ClientLife.State} (h : Usable c) : Ending c := .inl h.1

lemma Tended.set (h : Tended s) {i : ℕ} {c d : ClientLife.State} {e : ClientLife.Event}
    {phase : Phase} (client : s.clients[i]? = some c) (meets : Meets c e)
    (hstep : ClientLife.Step c e d)
    (other : s.db ≠ some i → d.caller = .destroyed ∧ d.ctx = none)
    (empty : s.db = none → phase.empty = true)
    (mine : s.db = some i → Fits phase d)
    (rest : ∀ j c, s.db = some j → j ≠ i → s.clients[j]? = some c → Fits phase c) :
    Tended { s.setClient i d with phase := phase } := by
  have lt : i < s.clients.length := (List.getElem?_eq_some_iff.mp client).1
  have self : (s.clients.set i d)[i]? = some d := by rw [List.getElem?_set_self lt]
  constructor
  · intro j x hx
    change (s.clients.set i d)[j]? = some x at hx
    by_cases hij : i = j
    · subst hij
      rw [self] at hx
      obtain rfl := Option.some.inj hx
      exact (h.tidy i c client).step meets hstep
    · rw [List.getElem?_set_ne hij] at hx
      exact h.tidy j x hx
  · intro j x hx hj
    change (s.clients.set i d)[j]? = some x at hx
    by_cases hij : i = j
    · subst hij
      rw [self] at hx
      obtain rfl := Option.some.inj hx
      exact other hj
    · rw [List.getElem?_set_ne hij] at hx
      exact h.others j x hx hj
  · exact empty
  · intro j hj
    by_cases hij : i = j
    · subst hij
      exact ⟨d, self, mine hj⟩
    · obtain ⟨x, hx, _⟩ := h.current j hj
      refine ⟨x, ?_, rest j x hj (Ne.symm hij) hx⟩
      change (s.clients.set i d)[j]? = some x
      rw [List.getElem?_set_ne hij, hx]

/-- Every step keeps the invariant; a client's step meets the condition of its life. -/
theorem Tended.step (h : Tended s) (hstep : Step s l t) : Tended t := by
  cases step_cases hstep with
  | noClient test phase db =>
    have empty := h.empty db
    rw [phase] at empty
    cases test with
    | query => cases empty
    | connectDb back =>
      exact ⟨h.tidy, h.others, fun _ => rfl, fun i hi => by cases db.symm.trans hi⟩
  | testDb test i phase db =>
    obtain ⟨c, client, fits⟩ := h.current i db
    rw [phase] at fits
    obtain ⟨rfl, usable⟩ := usable_of_reading (.inr (.inr fits))
    exact h.goes db client usable
  | readErr test i c phase db client =>
    have fits := h.fits db client
    rw [phase] at fits
    obtain ⟨rfl, usable⟩ := usable_of_reading (.inl fits)
    refine h.goes db client ?_
    split_ifs
    · exact usable
    · exact usable.ending
  | readStopped test i c phase db client =>
    have fits := h.fits db client
    rw [phase] at fits
    obtain ⟨rfl, usable⟩ := usable_of_reading (.inr (.inl fits))
    refine h.goes db client ?_
    split_ifs
    · exact usable.ending
    · exact usable
  | construct back phase =>
    have none : s.db = none := by
      refine Option.eq_none_iff_forall_ne_some.mpr fun i db => ?_
      obtain ⟨c, _, fits⟩ := h.current i db
      rw [phase] at fits
      exact fits
    have last : (s.clients ++ [new])[s.clients.length]? = some new := List.getElem?_concat_length
    constructor
    · intro i c hc
      rcases List.mem_append.mp (List.mem_of_getElem? hc) with old | fresh
      · obtain ⟨j, hj⟩ := List.mem_iff_getElem?.mp old
        exact h.tidy j c hj
      · rw [List.mem_singleton.mp fresh]
        exact Tidy.new
    · intro i c hc hi
      have ne : i ≠ s.clients.length := fun heq => hi (by rw [heq])
      have lt : i < s.clients.length := by
        have bound := (List.getElem?_eq_some_iff.mp hc).1
        rw [List.length_append, List.length_singleton] at bound
        omega
      rw [List.getElem?_append_left lt] at hc
      refine h.others i c hc ?_
      rw [none]
      exact fun hsome => by cases hsome
    · exact fun hnone => by cases hnone
    · intro i hi
      obtain rfl := Option.some.inj hi
      exact ⟨new, last, .inl ⟨.inl rfl, rfl⟩⟩
  | owner e i c d calls db client alive call =>
    obtain ⟨meets, fits⟩ := (h.fits db client).owner (h.tidy i c client) calls alive call
    refine h.set client meets (step_of_owner alive call) (fun other => (other db).elim)
      (fun none => ?_) (fun _ => fits) fun j x hj hji _ => ?_
    · cases db.symm.trans none
    · exact (hji (Option.some.inj (hj.symm.trans db))).elim
  | deleted why phase destroyed =>
    refine ⟨h.tidy, fun i c hc _ => ?_, fun _ => ?_, fun i hi => by cases hi⟩
    · by_cases db : s.db = some i
      · have fits := h.fits db hc
        rw [phase] at fits
        have gone := destroyed i c db hc
        refine ⟨gone, ?_⟩
        simpa [Fits, Ending, gone] using fits
      · exact h.others i c hc db
    · cases why with
      | _ => rfl
  | setUp back phase =>
    obtain ⟨i, c, db, client, fits⟩ := h.has (by rw [phase]; rfl)
    rw [phase] at fits
    refine h.goes db client ?_
    cases back with
    | _ => exact fits
  | query phase =>
    obtain ⟨i, c, db, client, fits⟩ := h.has (by rw [phase]; rfl)
    rw [phase] at fits
    exact h.goes db client fits
  | sentinel phase =>
    obtain ⟨i, c, db, client, fits⟩ := h.has (by rw [phase]; rfl)
    rw [phase] at fits
    exact h.goes db client (Usable.ending fits)
  | served phase =>
    obtain ⟨i, c, db, client, fits⟩ := h.has (by rw [phase]; rfl)
    rw [phase] at fits
    exact h.goes db client fits
  | client i e c d client alive move =>
    obtain ⟨_, caller, ctx, k, running⟩ := worker_keeps move
    refine h.set client (meets_of_worker move) (step_of_worker alive move) (fun other => ?_)
      h.empty (fun db => (h.fits db client).same caller ctx) fun j x hj _ hx => h.fits hj hx
    have closed := h.others i c client other
    exact (not_running_of_ctx (h.tidy i c client) closed.2 k running).elim

theorem tended_of_run (run : Run Step start trace s) : Tended s :=
  run.stable Tended.start fun _ _ _ h step => h.step step

/-- What client `i` does in one step of the thread or of the clients. -/
inductive Lives (s t : State) (i : ℕ) : List (ClientLife.State × ClientLife.Event) → Prop
  | same (client : t.clients[i]? = s.clients[i]?) : Lives s t i []
  | born (before : s.clients[i]? = none) (after : t.clients[i]? = some new) : Lives s t i []
  | moves (c d : ClientLife.State) (e : ClientLife.Event) (before : s.clients[i]? = some c)
      (after : t.clients[i]? = some d) (meets : Meets c e) (move : ClientLife.Step c e d) :
      Lives s t i [(c, e)]

lemma lifeOf_append (i : ℕ) (before after : List (State × Label)) :
    lifeOf i (before ++ after) = lifeOf i before ++ lifeOf i after := List.filterMap_append

lemma lives_set {i j : ℕ} {c d : ClientLife.State} {e : ClientLife.Event}
    (client : s.clients[j]? = some c) (meets : Meets c e) (move : ClientLife.Step c e d)
    (after : t.clients = s.clients.set j d) :
    Lives s t i (if j = i then [(c, e)] else []) := by
  have lt : j < s.clients.length := (List.getElem?_eq_some_iff.mp client).1
  by_cases hij : j = i
  · subst hij
    rw [if_pos rfl]
    exact .moves c d e client (by rw [after, List.getElem?_set_self lt]) meets move
  · rw [if_neg hij]
    exact .same (by rw [after, List.getElem?_set_ne hij])

theorem lives_of_step (h : Tended s) (hstep : Step s l t) (i : ℕ) :
    Lives s t i (lifeOf i [(s, l)]) := by
  cases step_cases hstep with
  | construct back phase =>
    rcases Nat.lt_trichotomy i s.clients.length with lt | rfl | gt
    · exact .same (List.getElem?_append_left lt)
    · exact .born (List.getElem?_eq_none (Nat.le_refl _)) List.getElem?_concat_length
    · refine .same ?_
      have beyond : (s.clients ++ [new])[i]? = none :=
        List.getElem?_eq_none (by rw [List.length_append, List.length_singleton]; omega)
      rw [beyond, List.getElem?_eq_none (by omega)]
  | owner e j c d calls db client alive call =>
    have meets := ((h.fits db client).owner (h.tidy j c client) calls alive call).1
    have lives : Lives s { s.setClient j d with phase := s.phase.after c e } i _ :=
      lives_set client meets (step_of_owner alive call) rfl
    by_cases hij : j = i
    · subst hij
      simpa [lifeOf, db, client] using lives
    · simpa [lifeOf, db, hij] using lives
  | client j e c d client alive move =>
    have lives : Lives s (s.setClient j d) i _ :=
      lives_set client (meets_of_worker move) (step_of_worker alive move) rfl
    by_cases hij : j = i
    · subst hij
      simpa [lifeOf, client] using lives
    · simpa [lifeOf, hij] using lives
  | _ => exact .same rfl

/-- The life of every client that was constructed is a run of its own, under its condition. -/
theorem life_of_run (run : Run Step start trace s) (i : ℕ) :
    (s.clients[i]? = none → lifeOf i trace = []) ∧ ∀ c, s.clients[i]? = some c →
      Run ClientLife.Step new (lifeOf i trace) c ∧ ∀ x ∈ lifeOf i trace, Meets x.1 x.2 := by
  induction run with
  | refl => exact ⟨fun _ => rfl, fun c hc => by cases hc⟩
  | @snoc past a b l before last ih =>
    rw [lifeOf_append]
    have lives := lives_of_step (tended_of_run before) last i
    generalize lifeOf i [(a, l)] = now at lives
    cases lives with
    | same client =>
      rw [List.append_nil, client]
      exact ih
    | born absent after =>
      rw [List.append_nil, after]
      refine ⟨fun hnone => (by cases hnone), fun c hc => ?_⟩
      obtain rfl := Option.some.inj hc
      rw [ih.1 absent]
      exact ⟨.refl, fun x hx => (List.not_mem_nil hx).elim⟩
    | moves c d e client after meets move =>
      rw [after]
      refine ⟨fun hnone => (by cases hnone), fun x hx => ?_⟩
      obtain rfl := Option.some.inj hx
      obtain ⟨life, all⟩ := ih.2 c client
      refine ⟨life.snoc move, fun y hy => ?_⟩
      rcases List.mem_append.mp hy with hy | hy
      · exact all y hy
      · rw [List.mem_singleton.mp hy]
        exact meets

/-- In every life of a client `Connect` asks under the condition of a sound life, whatever the
threads of the clients do in between. -/
theorem lives_sound (run : Run Step start trace s) {i : ℕ} {c : ClientLife.State}
    (client : s.clients[i]? = some c) :
    Run ClientLife.Step new (lifeOf i trace) c ∧ (∀ x ∈ lifeOf i trace, Meets x.1 x.2) ∧
      ∀ u ∈ visited (lifeOf i trace) c, Sound u := by
  obtain ⟨life, meets⟩ := (life_of_run run i).2 c client
  refine ⟨life, meets, fun u hu => ?_⟩
  have tidy : Tidy u := life.invariant_visited Tidy.new (fun _ _ _ h => h.step) meets hu
  exact tidy.sound

/-- The first connection fails, the second one is lost while the thread waits for a query. -/
def reconnection : List Label :=
  [.testDb, .construct, .owner (.call .connect), .owner .readErr, .owner (.redisConnect .failed),
    .owner .testCtx, .owner (.call .destroy), .owner .setStopped, .owner .join, .owner .free,
    .deleted, .testDb, .construct, .owner (.call .connect), .owner .readErr,
    .owner (.redisConnect .connected), .owner .testCtx, .owner .launch, .setUp,
    .client 1 (.check 0), .client 1 (.testErr 0), .client 1 (.useCtx 0 false),
    .client 1 (.finish 0), .client 1 (.check 0), .client 1 (.testErr 0), .client 1 (.stop 0),
    .query, .testDb, .readErr, .owner (.call .destroy), .owner .setStopped, .owner .join,
    .owner .free, .deleted, .testDb, .construct, .owner (.call .connect), .owner .readErr,
    .owner (.redisConnect .connected), .owner .testCtx, .owner .launch, .setUp]

theorem lives_sound_reconnection : ∃ trace s, Run Step start trace s ∧ s.clients.length = 3 ∧
    ∃ c, s.clients[1]? = some c ∧ Run ClientLife.Step new (lifeOf 1 trace) c ∧
      (∀ x ∈ lifeOf 1 trace, Meets x.1 x.2) ∧ ∀ u ∈ visited (lifeOf 1 trace) c, Sound u := by
  have run := @advance_run _ _ step start _ reconnection rfl
  exact ⟨_, _, run, rfl, _, rfl, lives_sound run rfl⟩

/-- Only the client at hand has anything left, and a query gets one that has connected: `Connect`
succeeded, and its context is the only one that is not freed. -/
theorem one_connection (run : Run Step start trace s) :
    (∀ (i : ℕ) c, s.clients[i]? = some c → s.db ≠ some i → Closed c) ∧
    (s.phase = .gone → s.db = none) ∧
    (s.phase = .serving → ∃ (i : ℕ) (c : ClientLife.State), s.db = some i ∧
      s.clients[i]? = some c ∧ Connected c) := by
  have tended := tended_of_run run
  refine ⟨fun i c client other => ?_, fun gone => ?_, fun serving => ?_⟩
  · obtain ⟨destroyed, ctx⟩ := tended.others i c client other
    exact closed_of_tidy (tended.tidy i c client) destroyed ctx
  · refine Option.eq_none_iff_forall_ne_some.mpr fun i db => ?_
    obtain ⟨c, _, fits⟩ := tended.current i db
    rw [gone] at fits
    exact fits
  · obtain ⟨i, c, db, client, fits⟩ := tended.has (by rw [serving]; rfl)
    rw [serving] at fits
    obtain ⟨ctx, hctx⟩ := Option.ne_none_iff_exists'.mp fits.2
    have owned := (meets_or_overwriting ((life_of_run run i).2 c client).1).1
    refine ⟨i, c, db, client, ctx, hctx, (owned.live ctx hctx).1, fun x hx => ?_⟩
    have only := (tended.tidy i c client).freed x hx
    exact Option.some.inj (only.symm.trans hctx)

theorem one_connection_reconnection : ∃ trace s, Run Step start trace s ∧ s.phase = .serving ∧
    ∃ (i : ℕ) (c : ClientLife.State), s.db = some i ∧ s.clients[i]? = some c ∧ Connected c := by
  have run := @advance_run _ _ step start _ reconnection rfl
  exact ⟨_, _, run, rfl, (one_connection run).2.2 rfl⟩

end ClientPrefs.WorkerClients
