import ClientPrefs.Extension
import ClientPrefs.KeySpace
import ClientPrefs.SaveOrder

/-!
# Values that expire

`InsertData` saves with `EX 1209600`: Redis drops the value two weeks later. Here is the extension
over a Redis with a clock, in milliseconds. Time passes between any two steps.
-/
namespace ClientPrefs.Expiry
open ByteStrings Conversation Conv CookieIds Cookies CookieManager Extension QueryThread
open RedisReply RedisStore SaveOrder Session Transition WorkerPool

def twoWeeks : ℕ := 1209600000

/-- Redis with its clock and the time after which each key is gone. -/
structure Timed where
  store : Store
  deadline : Bytes → Option ℕ
  now : ℕ

def Timed.expired (s : Timed) (key : Bytes) : Bool := (s.deadline key).any fun d => d < s.now

def Timed.visible (s : Timed) : Store :=
  { s.store with strings :=
    ⟨s.store.strings.entries.filter fun e => !s.expired e.1,
      s.store.strings.nodupKeys.sublist (List.filter_sublist ..)⟩ }

/-- `SET` replaces what was said of the key before, `EX` included. -/
def Timed.deadlineAfter (s : Timed) : Command → Bytes → Option ℕ
  | .set key _ => Function.update s.deadline key none
  | .setEx key _ seconds => Function.update s.deadline key (some (s.now + 1000 * seconds))
  | _ => s.deadline

/-- One command, executed on what can still be read. -/
def serveTimed (s : Timed) (c : Command) : Timed × Reply :=
  ({ s with store := (serve s.visible c).1, deadline := s.deadlineAfter c },
    (serve s.visible c).2)

/-- The extension over the Redis with the clock. -/
structure TimedSystem (ι : Type) where
  main : Server
  pool : Pool ι Query Command Reply Outcome Timed

inductive TimedAction (ι : Type)
  | act (a : Action ι)
  | tick (ms : ℕ)

def TimedSystem.proceed {ι : Type} (s : TimedSystem ι) (m : Server) : TimedSystem ι :=
  ⟨m, { s.pool with issued := m.sent }⟩

section Actions
variable {ι : Type} [DecidableEq ι] (cfg : Config)

def TimedAction.Allowed (s : TimedSystem ι) : TimedAction ι → Prop
  | act (.main e) => Own e ∧ e.Allowed cfg s.main
  | act (.work l) =>
    Works l ∧ (step (convOf cfg s.main) serveTimed s.pool l).isSome = true
  | act (.deliver t q outcome) => t ∉ s.main.finished ∧ (t, q, outcome) ∈ s.pool.results
  | tick _ => True

def TimedAction.apply (s : TimedSystem ι) : TimedAction ι → TimedSystem ι
  | act (.main e) => s.proceed (e.apply cfg s.main)
  | act (.work l) => ⟨s.main, (step (convOf cfg s.main) serveTimed s.pool l).getD s.pool⟩
  | act (.deliver t _ outcome) => s.proceed (runFrame cfg s.main t outcome)
  | tick ms =>
    { s with pool := { s.pool with store :=
      { s.pool.store with now := s.pool.store.now + ms } } }

def TimedStep (s : TimedSystem ι) (a : TimedAction ι) (t : TimedSystem ι) : Prop :=
  a.Allowed cfg s ∧ t = a.apply cfg s

end Actions

/-- The extension as it is loaded, at time 0, over a Redis in which values of an earlier load have
their deadlines. -/
def timedLoaded {ι : Type} (roster : ℕ → Option Player) (spent : List ℕ) (store : Store)
    (deadline : Bytes → Option ℕ) : TimedSystem ι :=
  ⟨start roster spent, Pool.initial ⟨store, deadline, 0⟩⟩

section Promises
variable {ι : Type}

def untimed (s : TimedSystem ι) : System ι := ⟨s.main, mapStore Timed.store s.pool⟩

def untimedTrace (trace : List (TimedSystem ι × TimedAction ι)) : List (System ι × Action ι) :=
  trace.filterMap fun x =>
    match x.2 with
    | .act a => some (untimed x.1, a)
    | .tick _ => none

/-- The commands that were executed, and when. -/
def executedAt (trace : List (TimedSystem ι × TimedAction ι)) : List (ℕ × Command) :=
  trace.filterMap fun x =>
    match x.2 with
    | .act (.work l) => (executes x.1.pool l).map fun c => (x.1.pool.store.now, c)
    | _ => none

def writeOf (key : Bytes) : ℕ × Command → Option (Bytes × Option ℕ)
  | (_, .set k v) => if k = key then some (v, none) else none
  | (t, .setEx k v seconds) => if k = key then some (v, some (t + 1000 * seconds)) else none
  | _ => none

/-- What was stored last under the key; in the beginning there is what Redis has. -/
def lastWrite (store : Store) (deadline : Bytes → Option ℕ) (key : Bytes)
    (log : List (ℕ × Command)) : Option (Bytes × Option ℕ) :=
  (log.filterMap (writeOf key)).getLast?.or ((store.value key).map (·, deadline key))

def living (now : ℕ) (w : Bytes × Option ℕ) : Option Bytes :=
  if w.2.all (now ≤ ·) then some w.1 else none

end Promises

variable {ι : Type} {s t : Timed} {key : Bytes} {c : Command} {first : Option ℕ}

lemma dlookup_filter (p : Bytes → Bool) (l : List (Sigma fun _ : Bytes => Bytes)) :
    (l.filter fun e => p e.1).dlookup key = if p key then l.dlookup key else none := by
  induction l with
  | nil => simp
  | cons e l ih =>
    obtain ⟨k, v⟩ := e
    by_cases hkey : key = k
    · subst hkey
      cases hp : p key with
      | true =>
        rw [List.filter_cons, if_pos hp, List.dlookup_cons_eq, List.dlookup_cons_eq, if_pos rfl]
      | false =>
        rw [List.filter_cons, if_neg (ne_true_of_eq_false hp), ih, hp]
        rfl
    · have skip : ∀ m : List (Sigma fun _ : Bytes => Bytes),
          List.dlookup key (⟨k, v⟩ :: m) = m.dlookup key :=
        fun m => List.dlookup_cons_ne m ⟨k, v⟩ hkey
      cases hp : p k with
      | true => rw [List.filter_cons, if_pos hp, skip, ih, skip]
      | false => rw [List.filter_cons, if_neg (ne_true_of_eq_false hp), ih, skip]

lemma value_visible_eq (s : Timed) (key : Bytes) :
    s.visible.value key = if s.expired key then none else s.store.value key := by
  have h : (s.store.strings.entries.filter fun e => !s.expired e.1).dlookup key =
      if !s.expired key then s.store.strings.entries.dlookup key else none :=
    dlookup_filter (fun k => !s.expired k) s.store.strings.entries
  change (s.store.strings.entries.filter fun e => !s.expired e.1).dlookup key = _
  rw [h]
  cases s.expired key with
  | true => rfl
  | false => rfl

/-- Nothing has expired. -/
def Fresh (s : Timed) : Prop := ∀ key, s.expired key = false

lemma visible_of_fresh (fresh : Fresh s) : s.visible = s.store := by
  have all : s.store.strings.entries.filter (fun e => !s.expired e.1) =
      s.store.strings.entries := by
    refine List.filter_eq_self.mpr fun e _ => ?_
    rw [fresh e.1]
    rfl
  have strings : s.visible.strings = s.store.strings := AList.ext all
  have rest : s.visible = { s.store with strings := s.visible.strings } := rfl
  rw [rest, strings]

lemma serveTimed_of_fresh (fresh : Fresh s) (c : Command) :
    serve s.store c = ((serveTimed s c).1.store, (serveTimed s c).2) := by
  rw [serveTimed, visible_of_fresh fresh]

/-- `w` is what was stored last under the key, and the clock has dropped it or not. -/
structure Holds (first : Option ℕ) (s : Timed) (key : Bytes) (w : Option (Bytes × Option ℕ)) :
    Prop where
  deadline : s.deadline key = (w.map Prod.snd).getD first
  value : s.expired key = false → s.store.value key = w.map Prod.fst

lemma Holds.visible {w : Option (Bytes × Option ℕ)} (h : Holds first s key w) :
    s.visible.value key = w.bind (living s.now) := by
  rw [value_visible_eq]
  cases w with
  | none =>
    cases hexp : s.expired key with
    | true => rfl
    | false => exact h.value hexp
  | some w =>
    obtain ⟨v, d⟩ := w
    have expired : s.expired key = d.any fun d => d < s.now := by
      rw [Timed.expired, h.deadline, Option.map_some, Option.getD_some]
    have value := h.value
    rw [expired] at value ⊢
    cases d with
    | none => exact value rfl
    | some d =>
      rw [Option.any_some] at value ⊢
      rw [Option.bind_some, living, Option.all_some]
      by_cases late : d < s.now
      · rw [if_pos (decide_eq_true late), if_neg (by simpa using late)]
      · rw [if_neg (by simpa using late), if_pos (by simpa using late)]
        exact value (decide_eq_false late)

lemma Holds.tick {w : Option (Bytes × Option ℕ)} (h : Holds first s key w) (ms : ℕ) :
    Holds first { s with now := s.now + ms } key w where
  deadline := h.deadline
  value later := by
    refine h.value ?_
    change (s.deadline key).any (fun d => d < s.now + ms) = false at later
    unfold Timed.expired
    cases hd : s.deadline key with
    | none => rfl
    | some d =>
      rw [hd, Option.any_some, decide_eq_false_iff_not] at later
      rw [Option.any_some, decide_eq_false_iff_not]
      omega

lemma Holds.serveTimed {w : Option (Bytes × Option ℕ)} (h : Holds first s key w) (c : Command) :
    Holds first (serveTimed s c).1 key ((writeOf key (s.now, c)).or w) := by
  have value : (Expiry.serveTimed s c).1.store.value key =
      (storesAt key c).or (s.visible.value key) := (keyCell key).look_exec s.visible c
  have unwritten (nothing : writeOf key (s.now, c) = none) (stores : storesAt key c = none)
      (deadline : s.deadlineAfter c key = s.deadline key) :
      Holds first (Expiry.serveTimed s c).1 key ((writeOf key (s.now, c)).or w) := by
    rw [nothing, Option.none_or]
    refine ⟨deadline.trans h.deadline, fun there => ?_⟩
    have before : s.expired key = false := by
      unfold Timed.expired at there ⊢
      rwa [← deadline]
    rw [value, stores, Option.none_or, value_visible_eq, before, if_neg Bool.false_ne_true]
    exact h.value before
  have written (v : Bytes) (d : Option ℕ) (wrote : writeOf key (s.now, c) = some (v, d))
      (stores : storesAt key c = some v) (deadline : s.deadlineAfter c key = d) :
      Holds first (Expiry.serveTimed s c).1 key ((writeOf key (s.now, c)).or w) := by
    rw [wrote, Option.some_or]
    refine ⟨deadline, fun _ => ?_⟩
    rw [value, stores]
    rfl
  cases c with
  | get k => exact unwritten rfl rfl rfl
  | sadd k m => exact unwritten rfl rfl rfl
  | keys stem => exact unwritten rfl rfl rfl
  | evalsha sha k => exact unwritten rfl rfl rfl
  | set k v =>
    by_cases hk : k = key
    · subst hk
      exact written v none (by simp [writeOf]) (by simp [storesAt])
        (by simp [Timed.deadlineAfter])
    · exact unwritten (by simp [writeOf, hk]) (by simp [storesAt, hk])
        (by simp [Timed.deadlineAfter, Ne.symm hk])
  | setEx k v seconds =>
    by_cases hk : k = key
    · subst hk
      exact written v (some (s.now + 1000 * seconds)) (by simp [writeOf]) (by simp [storesAt])
        (by simp [Timed.deadlineAfter])
    · exact unwritten (by simp [writeOf, hk]) (by simp [storesAt, hk])
        (by simp [Timed.deadlineAfter, Ne.symm hk])

section Runs
variable [DecidableEq ι] {cfg : Config} {roster : ℕ → Option Player} {spent : List ℕ}
  {store : Store} {deadline : Bytes → Option ℕ} {a : TimedAction ι} {x y : TimedSystem ι}
  {trace : List (TimedSystem ι × TimedAction ι)}

theorem timed_cases (step : TimedStep cfg x a y) :
    (∃ ms, a = .tick ms ∧ y.pool.store = { x.pool.store with now := x.pool.store.now + ms }) ∨
    (∃ l c, a = .act (.work l) ∧ executes x.pool l = some c ∧
      y.pool.store = (serveTimed x.pool.store c).1) ∨
    (executedAt [(x, a)] = [] ∧ y.pool.store = x.pool.store) := by
  obtain ⟨allowed, rfl⟩ := step
  cases a with
  | tick ms => exact .inl ⟨ms, rfl, rfl⟩
  | act a =>
    cases a with
    | main e => exact .inr (.inr ⟨rfl, rfl⟩)
    | deliver k q outcome => exact .inr (.inr ⟨rfl, rfl⟩)
    | work l =>
      obtain ⟨_, hsome⟩ := allowed
      obtain ⟨pool, hpool⟩ := Option.isSome_iff_exists.mp hsome
      have store := store_step hpool
      simp only [TimedAction.apply, hpool, Option.getD_some]
      cases hc : executes x.pool l with
      | none =>
        rw [hc] at store
        exact .inr (.inr ⟨by simp [executedAt, hc], store⟩)
      | some c =>
        rw [hc] at store
        exact .inr (.inl ⟨l, c, rfl, hc, store⟩)

omit [DecidableEq ι] in
lemma executedAt_append (before after : List (TimedSystem ι × TimedAction ι)) :
    executedAt (before ++ after) = executedAt before ++ executedAt after :=
  List.filterMap_append

lemma lastWrite_append (store : Store) (deadline : Bytes → Option ℕ) (key : Bytes)
    (log : List (ℕ × Command)) (x : ℕ × Command) :
    lastWrite store deadline key (log ++ [x]) =
      (writeOf key x).or (lastWrite store deadline key log) := by
  unfold lastWrite
  rw [List.filterMap_append, List.getLast?_append, Option.or_assoc]
  cases h : writeOf key x with
  | none => simp [h]
  | some w => simp [h]

theorem holds_of_run (run : Run (TimedStep cfg) (timedLoaded roster spent store deadline) trace x)
    (key : Bytes) :
    Holds (deadline key) x.pool.store key (lastWrite store deadline key (executedAt trace)) := by
  induction run with
  | refl =>
    have first : lastWrite store deadline key (@executedAt ι []) =
        (store.value key).map (·, deadline key) := Option.none_or ..
    rw [first]
    constructor
    · show deadline key = _
      cases store.value key <;> rfl
    · intro _
      show store.value key = _
      cases store.value key <;> rfl
  | @snoc past b d a before last ih =>
    rw [executedAt_append]
    rcases timed_cases last with ⟨ms, rfl, hstore⟩ | ⟨l, c, rfl, hc, hstore⟩ | ⟨nothing, hstore⟩
    · rw [hstore]
      simpa [executedAt] using ih.tick ms
    · have log : executedAt [(b, TimedAction.act (.work l))] = [(b.pool.store.now, c)] := by
        simp [executedAt, hc]
      rw [log, lastWrite_append, hstore]
      exact ih.serveTimed c
    · rw [nothing, List.append_nil, hstore]
      exact ih

lemma now_mono (step : TimedStep cfg x a y) : x.pool.store.now ≤ y.pool.store.now := by
  rcases timed_cases step with ⟨ms, _, hstore⟩ | ⟨l, c, _, _, hstore⟩ | ⟨_, hstore⟩
  · rw [hstore]
    exact Nat.le_add_right _ _
  · rw [hstore]
    rfl
  · rw [hstore]

/-- Values of the registry are stored for good, those of players for two weeks. -/
def Issues (K : Bytes → Prop) : Command → Prop
  | .set key _ => ∃ name, key = accessKey name ∨ key = descKey name ∨ key = idKey name
  | .setEx key _ seconds => K key ∧ seconds = 1209600
  | _ => True

def SavesTo (K : Bytes → Prop) : Query → Prop
  | .insertData steamId id _ => K (valueKey steamId (toText id))
  | _ => True

lemma bindParamsAndRun_issues {K : Bytes → Prop} {hash : Bytes → ℕ} {m : Server} {q : Query}
    (saves : SavesTo K q) : (bindParamsAndRun hash (jobOf m q)).Keeps (fun _ _ => True)
      (Issues K) fun _ => True := by
  cases q with
  | insertCookie c =>
    apply Keeps.command_bind
    · exact trivial
    · intro r _
      split
      · trivial
      · refine ⟨fun d hd => ?_, ?_⟩
        · rw [List.mem_singleton.mp hd]
          trivial
        · split <;> trivial
      · refine ⟨?_, trivial⟩
        simp only [List.mem_cons, List.not_mem_nil, or_false, forall_eq_or_imp, forall_eq]
        exact ⟨trivial, ⟨_, .inl rfl⟩, ⟨_, .inr (.inl rfl)⟩, ⟨_, .inr (.inr rfl)⟩⟩
  | selectData serial sid => exact selectData_asks trivial trivial fun _ => trivial
  | insertData sid id b =>
    refine ⟨fun c hc => ?_, trivial⟩
    obtain rfl := List.mem_singleton.mp hc
    exact ⟨saves, rfl⟩
  | selectId c name =>
    apply Keeps.command_bind
    · exact trivial
    · intro r _
      split <;> trivial

omit [DecidableEq ι] in
lemma inv_mapStore {S T : Type} {f : S → T} {p : Pool ι Query Command Reply Outcome S}
    {sto : ℕ → Command → Option Reply → Prop} {C : Command → Prop}
    {post : ℕ → Query → Outcome → Prop} :
    (mapStore f p).Inv sto C post ↔ p.Inv sto C post :=
  ⟨fun h => ⟨h.pipes, h.workers, h.results⟩, fun h => ⟨h.pipes, h.workers, h.results⟩⟩

lemma issued_works {S : Type} {talk : Query → Talk} {exec : S → Command → S × Reply}
    {p q : Pool ι Query Command Reply Outcome S} {l : Label ι Query} (works : Works l)
    (hl : WorkerPool.step talk exec p l = some q) : q.issued = p.issued := by
  cases step_cases hl with
  | enqueue j => exact works.elim
  | _ => rfl

lemma system_step_of_main {b : Action ι} (step : TimedStep cfg x (.act b) y)
    (main : ∀ l, b ≠ .work l) : SystemStep cfg (untimed x) b (untimed y) := by
  obtain ⟨allowed, rfl⟩ := step
  cases b with
  | main e => exact ⟨allowed, rfl⟩
  | deliver k q outcome => exact ⟨allowed, rfl⟩
  | work l => exact (main l rfl).elim

theorem work_cases {l : Label ι Query} (step : TimedStep cfg x (.act (.work l)) y) :
    Works l ∧ y.main = x.main ∧
      WorkerPool.step (convOf cfg x.main) serveTimed x.pool l = some y.pool := by
  obtain ⟨⟨works, hsome⟩, rfl⟩ := step
  obtain ⟨pool, hpool⟩ := Option.isSome_iff_exists.mp hsome
  exact ⟨works, rfl, by simp [TimedAction.apply, hpool]⟩

theorem coupled_timed_step (coupled : Coupled cfg (untimed x)) (step : TimedStep cfg x a y) :
    Coupled cfg (untimed y) := by
  cases a with
  | tick ms =>
    obtain ⟨_, rfl⟩ := step
    have answered := inv_mapStore.mp coupled.answered
    refine ⟨coupled.wf, coupled.issued, coupled.registers, ?_⟩
    exact inv_mapStore.mpr ⟨answered.pipes, answered.workers, answered.results⟩
  | act b =>
    cases b with
    | main e => exact coupled.step (system_step_of_main step fun l h => by cases h)
    | deliver k q outcome => exact coupled.step (system_step_of_main step fun l h => by cases h)
    | work l =>
      obtain ⟨works, hmain, hl⟩ := work_cases step
      have answered : y.pool.Inv (fun _ _ _ => True) (fun _ => True) (Answered cfg x.main) := by
        apply (inv_mapStore.mp coupled.answered).step hl
        · intro w q _ hq
          rw [show x.pool.issued = x.main.sent from coupled.issued] at hq
          exact (Keeps.talks _).imp fun outcome h => ⟨hq, h⟩
        · exact fun _ _ _ _ _ _ _ _ _ _ => trivial
      have issued := issued_works works hl
      have main : (untimed y).main = (untimed x).main := hmain
      refine ⟨main ▸ coupled.wf, ?_, main ▸ coupled.registers, ?_⟩
      · exact issued.trans (coupled.issued.trans (by rw [main]))
      · rw [main]
        exact inv_mapStore.mpr answered

theorem coupled_of_timed_run
    (run : Run (TimedStep cfg) (timedLoaded roster spent store deadline) trace x) :
    Coupled cfg (untimed x) := by
  have preserved : ∀ (b : TimedSystem ι) (a : TimedAction ι) (d : TimedSystem ι),
      Coupled cfg (untimed b) → TimedStep cfg b a d → Coupled cfg (untimed d) :=
    fun _ _ _ coupled step => coupled_timed_step coupled step
  exact run.stable (Coupled.loaded roster spent store) preserved

lemma sent_grows (coupled : Coupled cfg (untimed x)) (step : TimedStep cfg x a y) {q : Query}
    (sent : q ∈ x.main.sent) : q ∈ y.main.sent := by
  cases a with
  | tick ms =>
    obtain ⟨_, rfl⟩ := step
    exact sent
  | act b =>
    have grows (main : ∀ l, b ≠ .work l) : q ∈ y.main.sent := by
      rcases system_cases coupled (system_step_of_main step main) with
        ⟨e, _, ⟨allowed, hmain⟩, _⟩ | ⟨l, rfl, _⟩
      · have ext := Extends.apply coupled.wf allowed
        rw [← hmain] at ext
        obtain ⟨l, hl⟩ := ext.sent
        have mem : q ∈ (untimed y).main.sent := hl ▸ List.mem_append_left l sent
        exact mem
      · exact (main l rfl).elim
    cases b with
    | main e => exact grows fun l h => by cases h
    | deliver k q outcome => exact grows fun l h => by cases h
    | work l =>
      obtain ⟨_, hmain, _⟩ := work_cases step
      rw [hmain]
      exact sent

/-- The commands in the pipelines, and those that were executed. -/
structure Issued (K : Bytes → Prop) (trace : List (TimedSystem ι × TimedAction ι))
    (x : TimedSystem ι) : Prop where
  pipes : x.pool.Inv (fun _ _ _ => True) (Issues K) fun _ _ _ => True
  log : ∀ e ∈ executedAt trace, Issues K e.2

theorem issued_of_run {K : Bytes → Prop}
    (run : Run (TimedStep cfg) (timedLoaded roster spent store deadline) trace x)
    (saves : ∀ q ∈ x.main.sent, SavesTo K q) : Issued K trace x := by
  induction run with
  | refl => exact ⟨Pool.Inv.initial _, fun e he => (List.not_mem_nil he).elim⟩
  | @snoc past b d a before last ih =>
    have coupled := coupled_of_timed_run before
    have earlier := ih fun q hq => saves q (sent_grows coupled last hq)
    cases a with
    | tick ms =>
      obtain ⟨_, rfl⟩ := last
      refine ⟨⟨earlier.pipes.pipes, earlier.pipes.workers, earlier.pipes.results⟩, fun e he => ?_⟩
      exact earlier.log e (by simpa [executedAt] using he)
    | act act =>
      cases act with
      | main e =>
        obtain ⟨_, rfl⟩ := last
        refine ⟨⟨earlier.pipes.pipes, earlier.pipes.workers, earlier.pipes.results⟩,
          fun e he => ?_⟩
        exact earlier.log e (by simpa [executedAt] using he)
      | deliver k q outcome =>
        obtain ⟨_, rfl⟩ := last
        refine ⟨⟨earlier.pipes.pipes, earlier.pipes.workers, earlier.pipes.results⟩,
          fun e he => ?_⟩
        exact earlier.log e (by simpa [executedAt] using he)
      | work l =>
        obtain ⟨works, hmain, hl⟩ := work_cases last
        constructor
        · apply earlier.pipes.step hl
          · intro w q _ hq
            rw [show b.pool.issued = b.main.sent from coupled.issued] at hq
            refine bindParamsAndRun_issues (saves q ?_)
            rw [hmain]
            exact List.mem_of_getElem? hq
          · exact fun _ _ _ _ _ _ _ _ _ _ => trivial
        · intro e he
          rw [executedAt_append] at he
          rcases List.mem_append.mp he with he | he
          · exact earlier.log e he
          · cases hc : executes b.pool l with
            | none => simp [executedAt, hc] at he
            | some c =>
              obtain rfl : e = (b.pool.store.now, c) := by simpa [executedAt, hc] using he
              cases l with
              | exec w =>
                simp only [executes, Option.map_eq_some_iff] at hc
                obtain ⟨head, hhead, rfl⟩ := hc
                exact earlier.pipes.pipes w head (List.mem_of_mem_head? hhead)
              | _ => cases hc

omit [DecidableEq ι] in
theorem lastWrite_cases {log : List (ℕ × Command)} {w : Bytes × Option ℕ}
    (h : lastWrite store deadline key log = some w) :
    (∃ e ∈ log, writeOf key e = some w) ∨ w.2 = deadline key := by
  rcases Option.or_eq_some_iff.mp h with last | ⟨_, first⟩
  · exact .inl (List.mem_filterMap.mp (List.mem_of_getLast? last))
  · obtain ⟨v, _, rfl⟩ := Option.map_eq_some_iff.mp first
    exact .inr rfl

lemma writeOf_issues {K : Bytes → Prop} {e : ℕ × Command} {w : Bytes × Option ℕ}
    (issues : Issues K e.2) (h : writeOf key e = some w) :
    (∃ name, key = accessKey name ∨ key = descKey name ∨ key = idKey name) ∧ w.2 = none ∨
      K key ∧ w.2 = some (e.1 + twoWeeks) := by
  obtain ⟨t, c⟩ := e
  cases c with
  | set k v =>
    simp only [writeOf, Option.ite_none_right_eq_some, Option.some.injEq] at h
    obtain ⟨rfl, rfl⟩ := h
    exact .inl ⟨issues, rfl⟩
  | setEx k v seconds =>
    simp only [writeOf, Option.ite_none_right_eq_some, Option.some.injEq] at h
    obtain ⟨rfl, rfl⟩ := h
    obtain ⟨hK, rfl⟩ := issues
    exact .inr ⟨hK, rfl⟩
  | _ => cases h

lemma savesTo_any (q : Query) : SavesTo (fun _ => True) q := by
  cases q with
  | _ => trivial

/-- What the extension stores does not expire in the first two weeks. -/
theorem fresh_of_run (run : Run (TimedStep cfg) (timedLoaded roster spent store deadline) trace x)
    (short : x.pool.store.now ≤ twoWeeks)
    (undue : ∀ key d, deadline key = some d → x.pool.store.now ≤ d) : Fresh x.pool.store := by
  intro key
  have holds := (holds_of_run run key).deadline
  unfold Timed.expired
  cases hd : x.pool.store.deadline key with
  | none => rfl
  | some d =>
    rw [Option.any_some, decide_eq_false_iff_not, not_lt]
    rw [hd] at holds
    cases hw : lastWrite store deadline key (executedAt trace) with
    | none =>
      rw [hw] at holds
      exact undue key d holds.symm
    | some w =>
      have late : some d = w.2 := by rw [hw] at holds; exact holds
      rcases lastWrite_cases hw with ⟨e, he, hwrite⟩ | first
      · have issues := (issued_of_run run fun q _ => savesTo_any q).log e he
        rcases writeOf_issues issues hwrite with ⟨_, never⟩ | ⟨_, weeks⟩
        · cases never.symm.trans late.symm
        · have hd' : d = e.1 + twoWeeks := Option.some.inj (late.trans weeks)
          omega
      · exact undue key d (first.symm.trans late.symm)

/-- A step that finds nothing expired is one of the extension without the clock. -/
theorem untimed_step (fresh : Fresh x.pool.store) (step : TimedStep cfg x a y) :
    Run (SystemStep cfg) (untimed x) (untimedTrace [(x, a)]) (untimed y) := by
  cases a with
  | tick ms =>
    obtain ⟨_, rfl⟩ := step
    exact .refl
  | act b =>
    refine .one ?_
    cases b with
    | main e => exact system_step_of_main step fun l h => by cases h
    | deliver k q outcome => exact system_step_of_main step fun l h => by cases h
    | work l =>
      obtain ⟨works, hmain, hl⟩ := work_cases step
      have same : WorkerPool.step (convOf cfg x.main) serve (mapStore Timed.store x.pool) l =
          some (mapStore Timed.store y.pool) :=
        step_mapStore Timed.store hl fun c _ => serveTimed_of_fresh fresh c
      refine ⟨⟨works, ?_⟩, ?_⟩
      · simp only [untimed, same, Option.isSome_some]
      · simp only [Action.apply, untimed, same, Option.getD_some, hmain]

/-- What the extension does in the first two weeks, as long as no value that was there expires, it
does over a Redis without a clock. -/
theorem within_two_weeks
    (run : Run (TimedStep cfg) (timedLoaded roster spent store deadline) trace x)
    (short : x.pool.store.now ≤ twoWeeks)
    (undue : ∀ key d, deadline key = some d → x.pool.store.now ≤ d) :
    Run (SystemStep cfg) (loaded roster spent store) (untimedTrace trace) (untimed x) := by
  induction run with
  | refl => exact .refl
  | @snoc past b d a before last ih =>
    have mono := now_mono last
    have earlier : ∀ key d, deadline key = some d → b.pool.store.now ≤ d :=
      fun key d hd => mono.trans (undue key d hd)
    have steps := untimed_step (fresh_of_run before (mono.trans short) earlier) last
    have split : untimedTrace (past ++ [(b, a)]) = untimedTrace past ++ untimedTrace [(b, a)] :=
      List.filterMap_append
    rw [split]
    exact (ih (mono.trans short) earlier).trans steps

def noSlots : Config := ⟨0, List.length, fun _ => 0⟩

/-- A value that was saved just before the load. -/
def leftKey : Bytes := valueKey (bytes "STEAM_1:0:9") (toText 5)

def leftBehind : Store := (serve blank (.setEx leftKey (bytes "off") 1209600)).1

def leftUntil (key : Bytes) : Option ℕ := if key = leftKey then some twoWeeks else none

/-- A value is handed over for a player who is not there. A worker saves it before the other one
has registered the cookie, and two weeks go by. -/
def savesOnce : List (TimedAction Bool) :=
  [.act (.main (.createCookie (bytes "music") [] 0)),
    .act (.main (.setAuthIdCookie (bytes "STEAM_1:0:7") 0 (bytes "on") 0)),
    .act (.work (.take true)), .act (.work (.take false)), .act (.work (.send false)),
    .act (.work (.exec false)), .tick twoWeeks]

abbrev noPlayers : TimedSystem Bool := timedLoaded (fun _ => none) [] leftBehind leftUntil

def savedOnce : TimedSystem Bool := enact (TimedAction.apply noSlots) noPlayers savesOnce

lemma savesOnce_possible :
    Enactable (TimedAction.apply noSlots) (TimedAction.Allowed noSlots) noPlayers savesOnce :=
  ⟨⟨trivial, trivial⟩, ⟨trivial, by decide +kernel, by decide +kernel⟩,
    ⟨trivial, by decide +kernel⟩, ⟨trivial, by decide +kernel⟩, ⟨trivial, by decide +kernel⟩,
    ⟨trivial, by decide +kernel⟩, trivial, trivial⟩

theorem savedOnce_run : Run (TimedStep noSlots) noPlayers
    (enactTrace (TimedAction.apply noSlots) noPlayers savesOnce) savedOnce :=
  enact_run savesOnce_possible

def tooLate : TimedSystem Bool := TimedAction.apply noSlots savedOnce (.tick 1)

theorem tooLate_run : Run (TimedStep noSlots) noPlayers
    (enactTrace (TimedAction.apply noSlots) noPlayers savesOnce ++ [(savedOnce, .tick 1)])
    tooLate := savedOnce_run.snoc ⟨trivial, rfl⟩

def earlyKey : Bytes := valueKey (bytes "STEAM_1:0:7") (toText (-1))

theorem within_two_weeks_saves : savedOnce.pool.store.now = twoWeeks ∧
    (untimed savedOnce).pool.store.value leftKey = some (bytes "off") ∧
    Run (SystemStep noSlots) (loaded (fun _ => none) [] leftBehind)
      (untimedTrace (enactTrace (TimedAction.apply noSlots) noPlayers savesOnce))
      (untimed savedOnce) := by
  refine ⟨rfl, by decide +kernel, within_two_weeks savedOnce_run (Nat.le_refl _) ?_⟩
  intro key d hd
  obtain ⟨_, hd⟩ := Option.ite_none_right_eq_some.mp hd
  exact (Option.some.inj hd).le

def savesAt (key : Bytes) (log : List (ℕ × Command)) : List (ℕ × Bytes) :=
  log.filterMap fun e => (storesAt key e.2).map fun v => (e.1, v)

/-- A player's value can be read for two weeks from its last save on, and no longer. -/
theorem value_lives_two_weeks
    (run : Run (TimedStep cfg) (timedLoaded roster spent store deadline) trace x)
    (player : NotRegistry key) :
    x.pool.store.visible.value key =
      match (savesAt key (executedAt trace)).getLast? with
      | some (t, v) => if x.pool.store.now ≤ t + twoWeeks then some v else none
      | none => if (deadline key).all (x.pool.store.now ≤ ·) then store.value key else none := by
  have log := (issued_of_run run fun q _ => savesTo_any q).log
  have writes : (executedAt trace).filterMap (writeOf key) =
      (savesAt key (executedAt trace)).map fun e => (e.2, some (e.1 + twoWeeks)) := by
    rw [savesAt, List.map_filterMap]
    refine List.filterMap_congr fun e he => ?_
    have issues := log e he
    obtain ⟨t, c⟩ := e
    cases c with
    | set k v =>
      obtain ⟨name, hname⟩ := issues
      have other : k ≠ key := by
        rintro rfl
        obtain ⟨hid, hdesc, haccess⟩ := player name
        rcases hname with h | h | h
        · exact haccess h
        · exact hdesc h
        · exact hid h
      simp [writeOf, storesAt, other]
    | setEx k v seconds =>
      obtain ⟨_, rfl⟩ := issues
      by_cases hk : k = key
      · simp [writeOf, storesAt, hk, twoWeeks]
      · simp [writeOf, storesAt, hk]
    | _ => rfl
  rw [(holds_of_run run key).visible, lastWrite, writes, List.getLast?_map]
  cases (savesAt key (executedAt trace)).getLast? with
  | none => cases store.value key <;> simp [living]
  | some e => simp [living]

/-- At the end of the two weeks the value is there, and then it is not, like the one that an
earlier load has left. -/
theorem value_lives_two_weeks_saves :
    savedOnce.pool.store.visible.value earlyKey = some (bytes "on") ∧
      tooLate.pool.store.visible.value earlyKey = none ∧
      savedOnce.pool.store.visible.value leftKey = some (bytes "off") ∧
      tooLate.pool.store.visible.value leftKey = none := by
  have player : NotRegistry earlyKey := notRegistry_of_head (by decide)
  have earlier : NotRegistry leftKey := notRegistry_of_head (by decide)
  rw [value_lives_two_weeks savedOnce_run player, value_lives_two_weeks tooLate_run player,
    value_lives_two_weeks savedOnce_run earlier, value_lives_two_weeks tooLate_run earlier]
  decide +kernel

/-- What is stored of a cookie stays, as long as no player's id begins like the keys of the
registry. Redis has no deadline for it, as its `SET` gives none. -/
theorem registry_stays (run : Run (TimedStep cfg) (timedLoaded roster spent store deadline) trace x)
    (ids : ∀ sid id b, .insertData sid id b ∈ x.main.sent → ¬ bytes "cookies." <+: sid)
    {name : Bytes} (registry : key = idKey name ∨ key = descKey name ∨ key = accessKey name)
    (kept : deadline key = none) :
    x.pool.store.visible.value key =
      (lastWrite store deadline key (executedAt trace)).map Prod.fst := by
  have saves : ∀ q ∈ x.main.sent, SavesTo (fun k => k ≠ key) q := by
    intro q hq
    cases q with
    | insertData sid id b =>
      have apart (k : KeySpace.Key) {rest : Bytes} (hrest : k.rest = some rest) :
          valueKey sid (toText id) ≠ k.text :=
        KeySpace.data_text_ne hrest ⟨sid, ids sid id b hq⟩ id
      rcases registry with rfl | rfl | rfl
      · exact apart (.id name) rfl
      · exact apart (.desc name) rfl
      · exact apart (.access name) rfl
    | _ => trivial
  have log := (issued_of_run run saves).log
  rw [(holds_of_run run key).visible]
  cases hw : lastWrite store deadline key (executedAt trace) with
  | none => rfl
  | some w =>
    have never : w.2 = none := by
      rcases lastWrite_cases hw with ⟨e, he, hwrite⟩ | never
      · rcases writeOf_issues (log e he) hwrite with ⟨_, never⟩ | ⟨other, _⟩
        · exact never
        · exact (other rfl).elim
      · exact never.trans kept
    simp [living, never]

/-- The other worker registers the cookie; the id is there long after. -/
def registers : List (TimedAction Bool) :=
  [.act (.work (.send true)), .act (.work (.exec true)), .act (.work (.resume true)),
    .act (.work (.send true)), .act (.work (.exec true)), .act (.work (.exec true)),
    .act (.work (.exec true)), .act (.work (.exec true)), .tick (2 * twoWeeks)]

def registered : TimedSystem Bool := enact (TimedAction.apply noSlots) tooLate registers

lemma registers_possible :
    Enactable (TimedAction.apply noSlots) (TimedAction.Allowed noSlots) tooLate registers :=
  ⟨⟨trivial, by decide +kernel⟩, ⟨trivial, by decide +kernel⟩, ⟨trivial, by decide +kernel⟩,
    ⟨trivial, by decide +kernel⟩, ⟨trivial, by decide +kernel⟩, ⟨trivial, by decide +kernel⟩,
    ⟨trivial, by decide +kernel⟩, ⟨trivial, by decide +kernel⟩, trivial, trivial⟩

theorem registered_run : Run (TimedStep noSlots) noPlayers
    (enactTrace (TimedAction.apply noSlots) noPlayers savesOnce ++ [(savedOnce, .tick 1)] ++
      enactTrace (TimedAction.apply noSlots) tooLate registers) registered :=
  tooLate_run.trans (enact_run registers_possible)

theorem registry_stays_music :
    registered.pool.store.visible.value (idKey (bytes "music")) = some (toText 5) := by
  have ids : ∀ sid id b, .insertData sid id b ∈ registered.main.sent →
      ¬ bytes "cookies." <+: sid := by
    have all : (registered.main.sent.all fun q => match q with
        | .insertData sid _ _ => !decide (bytes "cookies." <+: sid)
        | _ => true) = true := by decide +kernel
    intro sid id b hsent
    simpa using List.all_eq_true.mp all _ hsent
  rw [registry_stays registered_run ids (.inl rfl) (by decide)]
  decide +kernel

end Runs

end ClientPrefs.Expiry
