import ClientPrefs.CookieIds
import ClientPrefs.WorkerPool

/-!
# The whole extension

The main thread, the workers and Redis together: `AddQueryToQueue` puts a query on the
queue of the workers, and `RunFrame` takes one of their results back.
-/
namespace ClientPrefs.Extension
open ByteStrings Conversation Conv CookieIds Cookies CookieManager QueryThread RedisReply
open RedisStore Session SlotTables Transition WorkerPool

structure System (ι : Type) where
  main : Server
  pool : Pool ι Query Command Reply Outcome Store

inductive Action (ι : Type)
  | main (e : Event)
  | work (l : Label ι Query)
  | deliver (ticket : ℕ) (query : Query) (outcome : Outcome)

/-- The main thread's own events; a result comes back by `deliver`. -/
def Own : Event → Prop
  | .think _ _ _ => False
  | _ => True

def Works {ι : Type} : Label ι Query → Prop
  | .enqueue _ => False
  | _ => True

/-- The thread part of a query, with its parameters as they are when a worker takes it. -/
def convOf (cfg : Config) (m : Server) (q : Query) : Talk :=
  bindParamsAndRun cfg.hash (jobOf m q)

section Actions
variable {ι : Type} [DecidableEq ι] (cfg : Config)

def System.proceed (s : System ι) (m : Server) : System ι :=
  ⟨m, { s.pool with issued := m.sent }⟩

def Action.Allowed (s : System ι) : Action ι → Prop
  | main e => Own e ∧ e.Allowed cfg s.main
  | work l => Works l ∧ (step (convOf cfg s.main) serve s.pool l).isSome = true
  | deliver t q outcome => t ∉ s.main.finished ∧ (t, q, outcome) ∈ s.pool.results

def Action.apply (s : System ι) : Action ι → System ι
  | main e => s.proceed (e.apply cfg s.main)
  | work l => ⟨s.main, (step (convOf cfg s.main) serve s.pool l).getD s.pool⟩
  | deliver t _ outcome => s.proceed (runFrame cfg s.main t outcome)

def SystemStep (s : System ι) (a : Action ι) (t : System ι) : Prop :=
  a.Allowed cfg s ∧ t = a.apply cfg s

end Actions

/-- The extension as it is loaded, with the players that are there and what Redis has. -/
def loaded {ι : Type} (roster : ℕ → Option Player) (spent : List ℕ) (store : Store) : System ι :=
  ⟨start roster spent, Pool.initial store⟩

def Action.Is {ι : Type} : Action ι → Event → Prop
  | main e, e' => Own e ∧ e = e'
  | deliver t _ outcome, .think t' _ outcome' => t = t' ∧ outcome = outcome'
  | _, _ => False

/-- A result belongs to the query of its ticket and is one that the query can return. -/
def Answered (cfg : Config) (m : Server) (t : ℕ) (q : Query) (outcome : Outcome) : Prop :=
  m.sent[t]? = some q ∧ ∃ talk, Talks (convOf cfg m q) talk outcome

structure Coupled {ι : Type} (cfg : Config) (s : System ι) : Prop where
  wf : Wf s.main
  issued : s.pool.issued = s.main.sent
  registers : ∀ c, .insertCookie c ∈ s.main.sent → c < s.main.cookieCount
  answered : s.pool.Inv (fun _ _ _ => True) (fun _ => True) (Answered cfg s.main)

variable {cfg : Config} {m m' : Server} {told : CookieRef → ℤ → Prop}

lemma talks_insertCookie {hash : Bytes → ℕ} {name desc desc' : Bytes}
    {access access' : CookieAccess} {talk : List (Command × Option Reply)} {outcome : Outcome}
    (h : Talks (insertCookie hash name desc access) talk outcome) :
    Talks (insertCookie hash name desc' access') talk outcome := by
  obtain ⟨r, rest, rfl, hrest⟩ := h.of_command_bind
  apply Talks.command_bind
  revert hrest
  split
  · exact fun hrest => hrest
  · exact fun hrest => hrest
  · intro hrest
    cases hrest with
    | tell hdone => exact .tell hdone

/-- A query that was sent keeps the results it can return. -/
theorem Answered.extends (ext : Extends told m m')
    (registers : ∀ c, .insertCookie c ∈ m.sent → c < m.cookieCount) {t : ℕ} {q : Query}
    {outcome : Outcome} (h : Answered cfg m t q outcome) : Answered cfg m' t q outcome := by
  obtain ⟨hq, talk, talks⟩ := h
  refine ⟨?_, talk, ?_⟩
  · obtain ⟨l, hl⟩ := ext.sent
    rw [← hl, List.getElem?_append_left (List.getElem?_eq_some_iff.mp hq).1, hq]
  · cases q with
    | insertCookie c =>
      have hname := ext.names c (registers c (List.mem_of_getElem? hq))
      simp only [convOf, jobOf, bindParamsAndRun] at talks ⊢
      rw [hname]
      exact talks_insertCookie talks
    | selectData k sid => exact talks
    | insertData sid id a =>
      cases talks with
      | tell hdone => exact .tell hdone
    | selectId c name => exact talks

lemma Coupled.loaded {ι : Type} (roster : ℕ → Option Player) (spent : List ℕ) (store : Store) :
    Coupled cfg (loaded roster spent store : System ι) :=
  ⟨Wf.start roster spent, rfl, by simp [Extension.loaded, start], Pool.Inv.initial store⟩

theorem is_cases {ι : Type} {a : Action ι} {e : Event} (h : a.Is e) :
    (a = .main e ∧ Own e) ∨
      ∃ t q talk outcome, a = .deliver t q outcome ∧ e = .think t talk outcome := by
  cases a with
  | main e' =>
    obtain ⟨own, rfl⟩ := h
    exact .inl ⟨rfl, own⟩
  | work l => exact h.elim
  | deliver t q outcome =>
    cases e with
    | think t' talk outcome' =>
      obtain ⟨rfl, rfl⟩ := h
      exact .inr ⟨t, q, talk, outcome, rfl, rfl⟩
    | _ => exact h.elim

section Steps
variable {ι : Type} [DecidableEq ι] {s t : System ι} {a : Action ι}

theorem system_cases (coupled : Coupled cfg s) (step : SystemStep cfg s a t) :
    (∃ e, a.Is e ∧ Session.Step cfg s.main e t.main ∧
      t.pool = { s.pool with issued := t.main.sent }) ∨
    ∃ l, a = .work l ∧ Works l ∧ t.main = s.main ∧
      WorkerPool.step (convOf cfg s.main) serve s.pool l = some t.pool := by
  obtain ⟨allowed, rfl⟩ := step
  cases a with
  | main e => exact .inl ⟨e, ⟨allowed.1, rfl⟩, ⟨allowed.2, rfl⟩, rfl⟩
  | work l =>
    obtain ⟨works, hsome⟩ := allowed
    obtain ⟨pool, hpool⟩ := Option.isSome_iff_exists.mp hsome
    exact .inr ⟨l, rfl, works, rfl, by simp [Action.apply, hpool]⟩
  | deliver k q outcome =>
    obtain ⟨hfirst, hresult⟩ := allowed
    obtain ⟨hq, talk, talks⟩ := coupled.answered.results _ hresult
    exact .inl ⟨.think k talk outcome, ⟨rfl, rfl⟩, ⟨⟨hfirst, q, hq, talks⟩, rfl⟩, rfl⟩

lemma issued_of_works {l : Label ι Query} {start : Query → Talk}
    {p q : Pool ι Query Command Reply Outcome Store} (works : Works l)
    (hl : step start serve p l = some q) : q.issued = p.issued := by
  cases step_cases hl with
  | enqueue j => exact works.elim
  | _ => rfl

theorem Coupled.step (coupled : Coupled cfg s) (step : SystemStep cfg s a t) : Coupled cfg t := by
  rcases system_cases coupled step with ⟨e, _, ⟨allowed, hmain⟩, hpool⟩ | ⟨l, _, works, hmain, hl⟩
  · have ext := Extends.apply coupled.wf allowed
    rw [← hmain] at ext
    refine ⟨?_, by rw [hpool], fun c hc => ?_, ?_⟩
    · rw [hmain]
      exact Wf.apply coupled.wf allowed
    · rcases ext.registers c hc with hold | hlt
      · exact (coupled.registers c hold).trans_le ext.count
      · exact hlt
    · rw [hpool]
      exact coupled.answered.mono (fun k q outcome => .extends ext coupled.registers) _
  · refine ⟨hmain ▸ coupled.wf, ?_, hmain ▸ coupled.registers, ?_⟩
    · rw [issued_of_works works hl, coupled.issued, hmain]
    · rw [hmain]
      apply coupled.answered.step hl
      · intro w q _ hq
        rw [coupled.issued] at hq
        exact (Keeps.talks _).imp fun outcome h => ⟨hq, h⟩
      · exact fun _ _ _ _ _ _ _ _ _ _ => trivial

theorem Coupled.run {trace : List (System ι × Action ι)} (coupled : Coupled cfg s)
    (run : Run (SystemStep cfg) s trace t) : Coupled cfg t := by
  have preserved : ∀ (a : System ι) (l : Action ι) (b : System ι), Coupled cfg a →
      SystemStep cfg a l b → Coupled cfg b := fun _ _ _ coupled step => coupled.step step
  exact run.stable coupled preserved

theorem coupled_of_run {roster : ℕ → Option Player} {spent : List ℕ} {store : Store}
    {trace : List (System ι × Action ι)}
    (run : Run (SystemStep cfg) (loaded roster spent store) trace s) : Coupled cfg s :=
  (Coupled.loaded roster spent store).run run

/-- Refinement: on the main thread, every run of the whole extension is a session. -/
theorem session_of_run {roster : ℕ → Option Player} {spent : List ℕ} {store : Store}
    {trace : List (System ι × Action ι)}
    (run : Run (SystemStep cfg) (loaded roster spent store) trace s) :
    ∃ events, Run (Session.Step cfg) (start roster spent) events s.main := by
  have preserved : ∀ (a : System ι) (l : Action ι) (b : System ι),
      (Coupled cfg a ∧ ∃ events, Run (Session.Step cfg) (start roster spent) events a.main) →
      SystemStep cfg a l b →
      Coupled cfg b ∧ ∃ events, Run (Session.Step cfg) (start roster spent) events b.main := by
    intro a l b hboth step
    obtain ⟨coupled, events, prior⟩ := hboth
    refine ⟨coupled.step step, ?_⟩
    rcases system_cases coupled step with ⟨e, _, hstep, _⟩ | ⟨_, _, _, hmain, _⟩
    · exact ⟨_, prior.snoc hstep⟩
    · exact ⟨events, hmain ▸ prior⟩
  exact (run.stable ⟨Coupled.loaded roster spent store, [], .refl⟩ preserved).2

end Steps

end ClientPrefs.Extension
