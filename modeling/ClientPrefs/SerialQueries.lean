import ClientPrefs.Extension
import ClientPrefs.SoloRuns

/-!
# Queries that run one at a time

The extension when the queries of the queue are executed one after the other, each to its
end. What a query did is delivered later, while the main thread goes on.
-/
namespace ClientPrefs.SerialQueries
open ByteStrings Conversation Conv CookieIds CookieManager Cookies Extension LateLoad QueryThread
open RedisReply RedisStore Session SlotRelease SlotTables SoloRuns Transition WorkerPool

structure Serial where
  main : Server
  store : Store
  /-- What the executed queries left behind, in the order of `sent`. -/
  results : List (ℕ × Query × Outcome)

inductive Move
  | main (e : Event)
  /-- The next query of the queue is executed. -/
  | execute
  | deliver (ticket : ℕ) (query : Query) (outcome : Outcome)

section Moves
variable (cfg : Config)

/-- The next query of the queue, executed alone. -/
def Serial.next (s : Serial) : Option (Query × Store × Option Outcome) :=
  s.main.sent[s.results.length]?.map fun q => (q, solo serve s.store (convOf cfg s.main q))

def Move.Allowed (s : Serial) : Move → Prop
  | main e => Own e ∧ e.Allowed cfg s.main
  | execute => ∃ q store outcome, s.next cfg = some (q, store, some outcome)
  | deliver t q outcome => t ∉ s.main.finished ∧ (t, q, outcome) ∈ s.results

def Move.apply (s : Serial) : Move → Serial
  | main e => { s with main := e.apply cfg s.main }
  | execute =>
    match s.next cfg with
    | some (q, store, some outcome) =>
      { s with store := store, results := s.results ++ [(s.results.length, q, outcome)] }
    | _ => s
  | deliver t _ outcome => { s with main := runFrame cfg s.main t outcome }

def SerialStep (s : Serial) (m : Move) (t : Serial) : Prop := m.Allowed cfg s ∧ t = m.apply cfg s

end Moves

def begin (roster : ℕ → Option Player) (spent : List ℕ) (store : Store) : Serial :=
  ⟨start roster spent, store, []⟩

/-- The whole extension with a worker that has nothing to do. -/
def Serial.system (s : Serial) : System Unit where
  main := s.main
  pool :=
    { issued := s.main.sent
      taken := s.results.length
      workers := fun _ => ⟨.idle, []⟩
      store := s.store
      results := s.results }

variable {cfg : Config} {s t : Serial} {m : Move}

lemma next_eq_some {q : Query} {store : Store} {outcome : Outcome}
    (h : s.next cfg = some (q, store, some outcome)) :
    s.main.sent[s.results.length]? = some q ∧ store = (solo serve s.store (convOf cfg s.main q)).1 ∧
      (solo serve s.store (convOf cfg s.main q)).2 = some outcome := by
  obtain ⟨q', hq, heq⟩ := Option.map_eq_some_iff.mp h
  simp only [Prod.mk.injEq] at heq
  obtain ⟨rfl, hsolo⟩ := heq
  exact ⟨hq, (congrArg Prod.fst hsolo).symm, congrArg Prod.snd hsolo⟩

theorem serial_cases (step : SerialStep cfg s m t) :
    (∃ e, m = .main e ∧ Own e ∧ e.Allowed cfg s.main ∧ t = { s with main := e.apply cfg s.main }) ∨
    (∃ q outcome, m = .execute ∧ s.main.sent[s.results.length]? = some q ∧
      (solo serve s.store (convOf cfg s.main q)).2 = some outcome ∧
      t = ⟨s.main, (solo serve s.store (convOf cfg s.main q)).1,
        s.results ++ [(s.results.length, q, outcome)]⟩) ∨
    ∃ k q outcome, m = .deliver k q outcome ∧ k ∉ s.main.finished ∧
      (k, q, outcome) ∈ s.results ∧ t = { s with main := runFrame cfg s.main k outcome } := by
  obtain ⟨allowed, rfl⟩ := step
  cases m with
  | main e => exact .inl ⟨e, rfl, allowed.1, allowed.2, rfl⟩
  | execute =>
    obtain ⟨q, store, outcome, hnext⟩ := allowed
    obtain ⟨hq, rfl, hout⟩ := next_eq_some hnext
    exact .inr (.inl ⟨q, outcome, rfl, hq, hout, by simp [Move.apply, hnext]⟩)
  | deliver k q outcome => exact .inr (.inr ⟨k, q, outcome, rfl, allowed.1, allowed.2, rfl⟩)

abbrev Workpool := Pool Unit Query Command Reply Outcome Store

theorem works_of_run {start : Query → Talk} {p q : Workpool}
    {trace : List (Workpool × Label Unit Query)} (run : Run (PoolStep start serve) p trace q) :
    p.issued.length ≤ q.issued.length ∧
      (q.issued.length = p.issued.length → ∀ x ∈ trace, Works x.2) := by
  induction run with
  | refl => exact ⟨le_rfl, by simp⟩
  | @snoc past a b l _ last ih =>
    obtain ⟨hle, hworks⟩ := ih
    have hlast : a.issued.length ≤ b.issued.length ∧
        (b.issued.length = a.issued.length → Works l) := by
      cases step_cases last with
      | enqueue j => simp
      | _ => exact ⟨le_rfl, fun _ => trivial⟩
    refine ⟨hle.trans hlast.1, fun heq x hx => ?_⟩
    rcases List.mem_append.mp hx with hx | hx
    · exact hworks (by omega) x hx
    · rw [List.mem_singleton.mp hx]
      exact hlast.2 (by omega)

theorem system_run {main : Server} {p q : Workpool} {trace : List (Workpool × Label Unit Query)}
    (run : Run (PoolStep (convOf cfg main) serve) p trace q) (works : ∀ x ∈ trace, Works x.2) :
    ∃ steps, Run (SystemStep cfg) (⟨main, p⟩ : System Unit) steps ⟨main, q⟩ := by
  induction run with
  | refl => exact ⟨[], .refl⟩
  | @snoc past a b l prior last ih =>
    obtain ⟨steps, hsteps⟩ := ih fun x hx => works x (by simp [hx])
    have hl : Works l := works (a, l) (by simp)
    have hlast : WorkerPool.step (convOf cfg main) serve a l = some b := last
    have hstep : SystemStep cfg (⟨main, a⟩ : System Unit) (.work l) ⟨main, b⟩ :=
      ⟨⟨hl, by simp [hlast]⟩, by simp [Action.apply, hlast]⟩
    exact ⟨_, hsteps.snoc hstep⟩

theorem system_of_step (step : SerialStep cfg s m t) :
    ∃ steps, Run (SystemStep cfg) s.system steps t.system := by
  rcases serial_cases step with ⟨e, _, own, allowed, rfl⟩ | ⟨q, outcome, _, hq, hout, rfl⟩ |
    ⟨k, q, outcome, _, hfirst, hresult, rfl⟩
  · have hstep : SystemStep cfg s.system (.main e)
        ({ s with main := e.apply cfg s.main } : Serial).system := ⟨⟨own, allowed⟩, rfl⟩
    exact ⟨_, .one hstep⟩
  · obtain ⟨trace, hrun⟩ := solo_run (p := s.system.pool) (w := ()) rfl hq hout
    obtain ⟨_, hworks⟩ := works_of_run hrun
    obtain ⟨steps, hsteps⟩ := system_run hrun (hworks rfl)
    have htaken : (s.results ++ [(s.results.length, q, outcome)]).length = s.results.length + 1 := by
      simp
    refine ⟨steps, ?_⟩
    simp only [Serial.system, htaken]
    exact hsteps
  · have hstep : SystemStep cfg s.system (.deliver k q outcome)
        ({ s with main := runFrame cfg s.main k outcome } : Serial).system :=
      ⟨⟨hfirst, hresult⟩, rfl⟩
    exact ⟨_, .one hstep⟩

/-- Refinement: what the extension does one query at a time, it does with one worker. -/
theorem system_of_run {roster : ℕ → Option Player} {spent : List ℕ} {store : Store}
    {trace : List (Serial × Move)} (run : Run (SerialStep cfg) (begin roster spent store) trace s) :
    ∃ steps, Run (SystemStep cfg) (loaded roster spent store : System Unit) steps s.system := by
  induction run with
  | refl => exact ⟨[], .refl⟩
  | snoc _ last ih =>
    obtain ⟨steps, hsteps⟩ := ih
    obtain ⟨more, hmore⟩ := system_of_step last
    exact ⟨_, hsteps.trans hmore⟩

section Finished
variable {u v : Server}

lemma finished_attemptReconnection : (attemptReconnection cfg u).finished = u.finished := by
  rw [attemptReconnection_eq]
  rfl

lemma finished_onClientAuthorized (i : ℕ) :
    (onClientAuthorized cfg u i).finished = u.finished := by
  rw [onClientAuthorized_eq]
  split
  · rfl
  · split_ifs <;> rfl

lemma finished_onClientDisconnecting (h : Wf u) (i : ℕ) :
    (onClientDisconnecting cfg u i).finished = u.finished := by
  rw [onClientDisconnecting_eq h]
  rfl

lemma finished_createCookie (name description : Bytes) (access : CookieAccess) :
    (createCookie cfg u name description access).1.finished = u.finished := by
  unfold createCookie
  split <;> rfl

lemma finished_loadRows (i : ℕ) (rows : List (Cookie × Bytes)) :
    (rows.foldl (loadRow cfg i) u).finished = u.finished := by
  induction rows generalizing u with
  | nil => rfl
  | cons row rows ih =>
    have hcreate : (findOrCreate cfg u row.1).1.finished = u.finished := by
      unfold findOrCreate
      split
      · rfl
      · exact finished_createCookie ..
    rw [List.foldl_cons, ih]
    exact hcreate

lemma finished_setCookieValue (c : CookieRef) (i : ℕ) (value : Bytes) (now : ℕ) :
    (setCookieValue u c i value now).finished = u.finished := by
  unfold setCookieValue
  split <;> rfl

lemma finished_getCookieValue (c : CookieRef) (i : ℕ) :
    (getCookieValue u c i).1.finished = u.finished := by
  unfold getCookieValue
  split <;> rfl

lemma finished_setAuthIdCookie {authId : Bytes} {c : CookieRef} {value : Bytes} {now : ℕ}
    (h : setAuthIdCookie cfg u authId c value now = some v) : v.finished = u.finished := by
  obtain ⟨i, _, rfl⟩ := Option.map_eq_some_iff.mp h
  split_ifs
  · rw [finished_setCookieValue, finished_attemptReconnection]
  · exact finished_attemptReconnection

lemma finished_runFrame {k : ℕ} {q : Query} (hq : u.sent[k]? = some q) (outcome : Outcome) :
    (runFrame cfg u k outcome).finished = u.finished ++ [k] := by
  simp only [runFrame, hq]
  cases q with
  | insertCookie c =>
    simp only [runThinkPart, insertCookieCallback]
    split_ifs <;> rfl
  | selectData serial sid =>
    simp only [runThinkPart, clientConnectCallback]
    split_ifs
    · rfl
    · exact finished_loadRows ..
  | insertData sid id a => rfl
  | selectId c name => rfl

lemma finished_apply (h : Wf u) {e : Event} (own : Own e) (allowed : e.Allowed cfg u) :
    (e.apply cfg u).finished = u.finished := by
  cases e with
  | connect i p => rfl
  | authorize i => exact finished_onClientAuthorized i
  | disconnecting i => exact finished_onClientDisconnecting h i
  | disconnected i => rfl
  | reconnect => exact finished_attemptReconnection
  | createCookie name description access => exact finished_createCookie name description access
  | setCookieValue c i value now => exact finished_setCookieValue c i value now
  | getCookieValue c i => exact finished_getCookieValue c i
  | setAuthIdCookie authId c value now =>
    obtain ⟨v, hv⟩ := Option.isSome_iff_exists.mp allowed.2
    simp only [Event.apply, hv, Option.getD_some]
    exact finished_setAuthIdCookie hv
  | think k talk outcome => exact own.elim

end Finished

/-- The results are those of the first queries, and only these have been delivered. -/
structure Orderly (cfg : Config) (s : Serial) : Prop where
  coupled : Coupled cfg s.system
  executed : s.results.length ≤ s.main.sent.length
  tickets : s.results.map Prod.fst = List.range s.results.length
  delivered : ∀ k ∈ s.main.finished, k < s.results.length

lemma Orderly.lt (h : Orderly cfg s) {k : ℕ} {q : Query} {outcome : Outcome}
    (hresult : (k, q, outcome) ∈ s.results) : k < s.results.length := by
  have hk : k ∈ s.results.map Prod.fst := List.mem_map_of_mem hresult
  rwa [h.tickets, List.mem_range] at hk

def Move.Is : Move → Event → Prop
  | main e, e' => Own e ∧ e = e'
  | execute, _ => False
  | deliver k _ outcome, .think k' _ outcome' => k = k' ∧ outcome = outcome'
  | deliver _ _ _, _ => False

lemma Orderly.cases (h : Orderly cfg s) (step : SerialStep cfg s m t) :
    (∃ e, m.Is e ∧ Session.Step cfg s.main e t.main ∧ t = { s with main := t.main }) ∨
    ∃ q outcome, m = .execute ∧ s.main.sent[s.results.length]? = some q ∧
      (solo serve s.store (convOf cfg s.main q)).2 = some outcome ∧
      t = ⟨s.main, (solo serve s.store (convOf cfg s.main q)).1,
        s.results ++ [(s.results.length, q, outcome)]⟩ := by
  rcases serial_cases step with ⟨e, rfl, own, allowed, rfl⟩ | hexecute |
    ⟨k, q, outcome, rfl, hfirst, hresult, rfl⟩
  · exact .inl ⟨e, ⟨own, rfl⟩, ⟨allowed, rfl⟩, rfl⟩
  · exact .inr hexecute
  · obtain ⟨hq, talk, talks⟩ := h.coupled.answered.results _ hresult
    exact .inl ⟨.think k talk outcome, ⟨rfl, rfl⟩, ⟨⟨hfirst, q, hq, talks⟩, rfl⟩, rfl⟩

lemma Orderly.begin (roster : ℕ → Option Player) (spent : List ℕ) (store : Store) :
    Orderly cfg (begin roster spent store) :=
  ⟨Coupled.loaded roster spent store, Nat.zero_le _, rfl, by simp [SerialQueries.begin, start]⟩

theorem Orderly.step (h : Orderly cfg s) (step : SerialStep cfg s m t) : Orderly cfg t := by
  have coupled : Coupled cfg t.system := by
    obtain ⟨steps, hrun⟩ := system_of_step step
    exact h.coupled.run hrun
  have hwf : Wf s.main := h.coupled.wf
  rcases h.cases step with ⟨e, his, ⟨allowed, hmain⟩, ht⟩ | ⟨q, outcome, _, hq, _, rfl⟩
  · have hsent := (Extends.apply hwf allowed).sent
    have hresults : t.results = s.results := by rw [ht]
    refine ⟨coupled, ?_, hresults ▸ h.tickets, ?_⟩
    · rw [hresults, hmain]
      exact h.executed.trans hsent.length_le
    · rw [hresults, hmain]
      cases m with
      | main e' =>
        obtain ⟨own, rfl⟩ := his
        rw [finished_apply hwf own allowed]
        exact h.delivered
      | execute => exact his.elim
      | deliver k q outcome =>
        cases e with
        | think k' talk outcome' =>
          obtain ⟨rfl, rfl⟩ := his
          obtain ⟨_, q', hq', _⟩ := allowed
          have hfinished : ((Event.think k talk outcome).apply cfg s.main).finished =
              s.main.finished ++ [k] := finished_runFrame hq' outcome
          rw [hfinished]
          intro l hl
          rcases List.mem_append.mp hl with hl | hl
          · exact h.delivered l hl
          · rw [List.mem_singleton.mp hl]
            exact h.lt step.1.2
        | _ => exact his.elim
  · refine ⟨coupled, ?_, ?_, ?_⟩
    · simpa using (List.getElem?_eq_some_iff.mp hq).1
    · simp [h.tickets, List.range_succ]
    · intro k hk
      simpa using (h.delivered k hk).trans (Nat.lt_succ_self _)

theorem Orderly.run {trace : List (Serial × Move)} (h : Orderly cfg s)
    (run : Run (SerialStep cfg) s trace t) : Orderly cfg t := by
  have preserved : ∀ (a : Serial) (m : Move) (b : Serial), Orderly cfg a →
      SerialStep cfg a m b → Orderly cfg b := fun _ _ _ h step => h.step step
  exact run.stable h preserved

end ClientPrefs.SerialQueries
