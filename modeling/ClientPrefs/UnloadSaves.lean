import ClientPrefs.Disconnect
import ClientPrefs.Extension
import ClientPrefs.SaveOrder
import ClientPrefs.UnloadHandshake

/-!
# Saving at unload

The host calls `SDK_OnUnload` and then `SDK_OnDependenciesDropped`, in which
`CookieManager::Unload` hands the values of the connected players over. By then the queue
is deleted.
-/
namespace ClientPrefs.UnloadSaves
open ByteStrings Conversation Cookies CookieManager Disconnect Extension LateLoad QueryThread
open RedisReply RedisStore Sentinels Session SlotRelease SlotTables Transition UnloadHandshake
open WorkerPool (Pool)

section Definitions
variable (cfg : Config)

/-- The save loop of `Unload` from client `n` down. -/
def unloadLoop : ℕ → Server → Server
  | 0, s => s
  | n + 1, s =>
    if s.connected (n + 1) then unloadLoop n (onClientDisconnecting cfg s (n + 1))
    else unloadLoop n s

/-- `CookieManager::Unload`; at the end the cookies are deleted and `cookieList` is cleared. -/
def unload (s : Server) : Server := { unloadLoop cfg cfg.maxClients s with cookieCount := 0 }

/-- Nothing is enqueued when the handler runs for this slot. -/
structure SlotQuiet (s : Server) (i : ℕ) : Prop where
  absent : ¬ StillThere s i
  saved : ∀ a ∈ s.clientData i, savedQuery s (authOf (s.roster i)) a = none
  others : ∀ j, Client cfg j → missed s j = false

/-- A player who is there has a changed value that is not handed over. -/
def Unsaved (s : Server) (i : ℕ) (a : DataRef) : Prop :=
  StillThere s i ∧ a ∈ s.clientData i ∧ (s.heap a).any CookieData.changed = true

end Definitions

/-- Everything that is unsaved is in an `InsertData` that a worker runs, and nothing is enqueued
behind the sentinels. -/
structure SavesAll {worker : ℕ} (cfg : Config) (s : Server) (ran : List (Fin worker × Op)) :
    Prop where
  saved : ∀ i a, Unsaved s i a → ∃ w k sid id, (w, .insertData sid id a, k) ∈ ran
  last : (unload cfg s).sent = s.sent

/-- There is nothing to save, and the disconnect handler has nothing to enqueue for the slots that
are flagged as connected. -/
structure NothingToDo (cfg : Config) (s : Server) : Prop where
  saved : ∀ i a, ¬ Unsaved s i a
  quiet : ∀ i, Client cfg i → s.connected i = true → SlotQuiet cfg s i

def phaseOf {α : Type} : WorkerPool.Phase Query Command Reply α → Phase Op
  | .idle => .free
  | .running t j _ => .running (j, t)
  | .waiting t j _ _ _ => .running (j, t)

variable {worker : ℕ}

/-- The queue and the workers, without what they say to Redis. -/
def crewOf (p : Pool (Fin worker) Query Command Reply Outcome Store) : Crew (Fin worker) Op where
  queue := ((opsOf p.issued).drop p.taken).map some
  workers := fun w => phaseOf (p.workers w).phase
  results := p.results.map fun r => (r.2.1, r.1)

def called (s : System (Fin worker)) : State worker := ⟨crewOf s.pool, 0, pushLoop worker 0⟩

/-- `SDK_OnDependenciesDropped` has run: `Unload` has put its queries into the queue. -/
def dropped (cfg : Config) (s : Server) (u : State worker) : State worker :=
  { u with crew := { u.crew with
    queue := u.crew.queue ++ ((opsOf (unload cfg s).sent).drop s.sent.length).map some } }

/-- What a run of the threads does to the queue and the workers. -/
def crewTrace (trace : List (State worker × Move worker)) :
    List (Crew (Fin worker) Op × Label (Fin worker) Op) :=
  trace.filterMap fun x =>
    match x.2 with
    | .enqueue op => some (x.1.crew, .enqueue (some op))
    | .push => some (x.1.crew, .enqueue none)
    | .work l => some (x.1.crew, l)
    | _ => none

variable {cfg : Config} {s t : Server} {i : ℕ}

lemma missed_resetFlags_of_ne {j : ℕ} (h : j ≠ i) : missed (resetFlags s i) j = missed s j := by
  simp [missed, resetFlags, h]

lemma missedSlots_resetFlags_eq_nil (hi : Client cfg i) :
    missedSlots cfg (resetFlags s i) = [] ↔
      ¬ StillThere s i ∧ ∀ j, Client cfg j → missed s j = false := by
  constructor
  · intro h
    have none : ∀ j, j ∉ missedSlots cfg (resetFlags s i) := by simp [h]
    have absent : ¬ StillThere s i := by
      rw [← mem_missedSlots_resetFlags hi]
      exact none i
    refine ⟨absent, fun j hj => ?_⟩
    by_cases hji : j = i
    · subst hji
      rw [Bool.eq_false_iff]
      intro hmiss
      exact absent ((missed_iff.mp hmiss).2.2)
    · rw [← missed_resetFlags_of_ne hji, Bool.eq_false_iff]
      intro hmiss
      exact none j (mem_missedSlots.mpr ⟨hj, hmiss⟩)
  · intro ⟨absent, others⟩
    rw [List.eq_nil_iff_forall_not_mem]
    intro j hj
    obtain ⟨hclient, hmiss⟩ := mem_missedSlots.mp hj
    by_cases hji : j = i
    · subst hji
      exact absent (missed_resetFlags.mp hmiss)
    · rw [missed_resetFlags_of_ne hji, others j hclient] at hmiss
      cases hmiss

theorem onClientDisconnecting_quiet_iff (h : Wf s) (hi : Client cfg i) :
    (onClientDisconnecting cfg s i).sent = s.sent ↔ SlotQuiet cfg s i := by
  rw [onClientDisconnecting_sent h, List.append_right_eq_self, List.append_eq_nil_iff]
  have select : (missedSlots cfg (resetFlags s i)).filterMap (selectQuery s) = [] ↔
      missedSlots cfg (resetFlags s i) = [] := by
    rw [List.filterMap_eq_nil_iff]
    constructor
    · intro none
      rw [List.eq_nil_iff_forall_not_mem]
      intro j hj
      obtain ⟨_, _, p, hp, _⟩ := missed_iff.mp (mem_missedSlots.mp hj).2
      have hp' : s.roster j = some p := hp
      simpa [selectQuery, hp'] using none j hj
    · intro nil
      simp [nil]
  rw [select, missedSlots_resetFlags_eq_nil hi, List.filterMap_eq_nil_iff]
  constructor
  · rintro ⟨⟨absent, others⟩, saved⟩
    exact ⟨absent, saved, others⟩
  · intro quiet
    exact ⟨⟨quiet.absent, quiet.others⟩, quiet.saved⟩

lemma authorizeAll_nil (s : Server) : authorizeAll s [] = s := by
  simp [authorizeAll]

lemma onClientDisconnecting_of_quiet (h : Wf s) (hi : Client cfg i) (quiet : SlotQuiet cfg s i) :
    onClientDisconnecting cfg s i =
      { releaseAll i (authOf (s.roster i)) (resetFlags s i) (s.clientData i) with
        clientData := Function.update s.clientData i [] } := by
  rw [onClientDisconnecting_eq h, afterReconnect,
    (missedSlots_resetFlags_eq_nil hi).mpr ⟨quiet.absent, quiet.others⟩, authorizeAll_nil]

lemma releaseAll_dbid (client : ℕ) (auth : Option Bytes) (s : Server) (l : List DataRef)
    (c : CookieRef) : ((releaseAll client auth s l).cookies c).dbid = (s.cookies c).dbid := by
  simp only [releaseAll]
  split_ifs <;> rfl

lemma savedQuery_congr {auth : Option Bytes} {a : DataRef} (heap : t.heap a = s.heap a)
    (dbid : ∀ c, (t.cookies c).dbid = (s.cookies c).dbid) :
    savedQuery t auth a = savedQuery s auth a := by
  simp only [savedQuery, heap, dbid]

lemma stillThere_congr (h : t.roster = s.roster) : StillThere t i ↔ StillThere s i := by
  rw [StillThere, StillThere, h]

lemma slotQuiet_after (h : Wf s) (hi : Client cfg i) (quiet : SlotQuiet cfg s i) {j : ℕ}
    (hj : j ≠ i) : SlotQuiet cfg (onClientDisconnecting cfg s i) j ↔ SlotQuiet cfg s j := by
  have heq := onClientDisconnecting_of_quiet h hi quiet
  set t := onClientDisconnecting cfg s i with ht
  have roster : t.roster = s.roster := congrArg (·.1) (hostOf_onClientDisconnecting h i)
  have data : t.clientData j = s.clientData j := by rw [heq]; simp [hj]
  have saved : ∀ a ∈ s.clientData j, savedQuery t (authOf (t.roster j)) a =
      savedQuery s (authOf (s.roster j)) a := by
    intro a ha
    rw [roster]
    have hnot : a ∉ s.clientData i := fun hmem => hj (h.apart j i a ha hmem)
    apply savedQuery_congr
    · rw [heq]
      simp [releaseAll, hnot, resetFlags]
    · intro c
      rw [heq]
      exact releaseAll_dbid i (authOf (s.roster i)) (resetFlags s i) (s.clientData i) c
  have missed_eq : ∀ k, missed t k = missed (resetFlags s i) k := by
    intro k
    rw [heq]
    rfl
  have others : (∀ k, Client cfg k → missed t k = false) ↔
      ∀ k, Client cfg k → missed s k = false := by
    refine ⟨fun _ => quiet.others, fun none k hk => ?_⟩
    rw [missed_eq]
    by_cases hki : k = i
    · subst hki
      rw [Bool.eq_false_iff]
      exact fun hmiss => quiet.absent (missed_resetFlags.mp hmiss)
    · rw [missed_resetFlags_of_ne hki]
      exact none k hk
  constructor
  · intro after
    refine ⟨(stillThere_congr roster).not.mp after.absent, fun a ha => ?_, others.mp after.others⟩
    rw [← saved a ha]
    exact after.saved a (data ▸ ha)
  · intro before
    refine ⟨(stillThere_congr roster).not.mpr before.absent, fun a ha => ?_,
      others.mpr before.others⟩
    rw [data] at ha
    rw [saved a ha]
    exact before.saved a ha

lemma sent_prefix_onClientDisconnecting (h : Wf s) (i : ℕ) :
    s.sent <+: (onClientDisconnecting cfg s i).sent := ⟨_, (onClientDisconnecting_sent h).symm⟩

lemma sent_prefix_unloadLoop (n : ℕ) (h : Wf s) : s.sent <+: (unloadLoop cfg n s).sent := by
  induction n generalizing s with
  | zero => exact List.prefix_rfl
  | succ n ih =>
    unfold unloadLoop
    split_ifs
    · exact (sent_prefix_onClientDisconnecting h _).trans (ih (Wf.onClientDisconnecting h _))
    · exact ih h

/-- The save loop enqueues nothing exactly when the slots it visits are quiet. -/
theorem unloadLoop_quiet_iff {n : ℕ} (hn : n ≤ cfg.maxClients) (h : Wf s) :
    (unloadLoop cfg n s).sent = s.sent ↔
      ∀ i, 1 ≤ i → i ≤ n → s.connected i = true → SlotQuiet cfg s i := by
  induction n generalizing s with
  | zero =>
    constructor
    · intro _ i h1 h0
      omega
    · exact fun _ => rfl
  | succ n ih =>
    have hclient : Client cfg (n + 1) := ⟨by omega, hn⟩
    unfold unloadLoop
    by_cases hconn : s.connected (n + 1) = true
    · rw [if_pos hconn]
      have hwf := @Wf.onClientDisconnecting cfg s h (n + 1)
      have first := @sent_prefix_onClientDisconnecting cfg s h (n + 1)
      have rest := @sent_prefix_unloadLoop cfg _ n hwf
      constructor
      · intro whole i h1 hle hi
        have same : (onClientDisconnecting cfg s (n + 1)).sent = s.sent :=
          (first.eq_of_length_le (by rw [← whole]; exact rest.length_le)).symm
        have quiet := (onClientDisconnecting_quiet_iff h hclient).mp same
        rcases Nat.lt_or_ge n i with hlt | hge
        · obtain rfl : i = n + 1 := by omega
          exact quiet
        · have hne : i ≠ n + 1 := by omega
          apply (slotQuiet_after h hclient quiet hne).mp
          refine (ih (by omega) hwf).mp (whole.trans same.symm) i h1 hge ?_
          rw [onClientDisconnecting_of_quiet h hclient quiet]
          simpa [releaseAll, resetFlags, hne] using hi
      · intro all
        have quiet := all (n + 1) (by omega) le_rfl hconn
        have same := (onClientDisconnecting_quiet_iff h hclient).mpr quiet
        rw [← same]
        apply (ih (by omega) hwf).mpr
        intro i h1 hle hi
        have hne : i ≠ n + 1 := by omega
        apply (slotQuiet_after h hclient quiet hne).mpr
        apply all i h1 (by omega)
        rw [onClientDisconnecting_of_quiet h hclient quiet] at hi
        simpa [releaseAll, resetFlags, hne] using hi
    · rw [if_neg hconn, ih (by omega) h]
      constructor
      · intro all i h1 hle hi
        rcases Nat.lt_or_ge n i with hlt | hge
        · obtain rfl : i = n + 1 := by omega
          exact absurd hi hconn
        · exact all i h1 hge hi
      · exact fun all i h1 hle => all i h1 (by omega)

theorem unload_quiet_iff (h : Wf s) : (unload cfg s).sent = s.sent ↔
    ∀ i, Client cfg i → s.connected i = true → SlotQuiet cfg s i := by
  refine (unloadLoop_quiet_iff le_rfl h).trans ?_
  constructor
  · exact fun all i hi => all i hi.1 hi.2
  · exact fun all i h1 hle => all i ⟨h1, hle⟩

section Crew
variable {p q : Pool (Fin worker) Query Command Reply Outcome Store}

lemma opsOf_append (l m : List Query) :
    opsOf (l ++ m) = opsOf l ++ m.zipIdx l.length := by
  simp [opsOf, List.zipIdx_append]

lemma drop_opsOf {queries : List Query} {n : ℕ} {q : Query} (h : queries[n]? = some q) :
    (opsOf queries).drop n = (q, n) :: (opsOf queries).drop (n + 1) := by
  obtain ⟨hlt, rfl⟩ := List.getElem?_eq_some_iff.mp h
  rw [List.drop_eq_getElem_cons (by simpa [opsOf] using hlt)]
  simp [opsOf]

lemma crewOf_set (p : Pool (Fin worker) Query Command Reply Outcome Store) (w : Fin worker)
    (x : WorkerPool.Worker Query Command Reply Outcome) :
    crewOf (p.set w x) = (crewOf p).set w (phaseOf x.phase) := by
  have workers : (fun v => phaseOf (Function.update p.workers w x v).phase) =
      Function.update (fun v => phaseOf (p.workers v).phase) w (phaseOf x.phase) := by
    funext v
    by_cases hv : v = w
    · subst hv
      simp
    · simp [hv]
  simp only [crewOf, WorkerPool.Pool.set, Crew.set, workers]

lemma crewOf_set_same {w : Fin worker} {x : WorkerPool.Worker Query Command Reply Outcome}
    (h : phaseOf x.phase = phaseOf (p.workers w).phase) : crewOf (p.set w x) = crewOf p := by
  rw [crewOf_set, h]
  simp [Crew.set, crewOf]

lemma phaseOf_receive (awaited : Bool) (reply : Option Reply)
    (phase : WorkerPool.Phase Query Command Reply Outcome) :
    phaseOf (if awaited then phase.receive reply else phase) = phaseOf phase := by
  cases awaited
  · rfl
  · cases phase <;> rfl

/-- What a worker does is invisible here, or it takes a query or puts its result out. -/
theorem crewOf_step {start : Query → Talk} {exec : Store → Command → Store × Reply}
    {l : WorkerPool.Label (Fin worker) Query} (works : Works l)
    (hl : WorkerPool.step start exec p l = some q) :
    crewOf q = crewOf p ∨ ∃ l' : Label (Fin worker) Op, l'.Works ∧
      Sentinels.step (crewOf p) l' = some (crewOf q) := by
  cases WorkerPool.step_cases hl with
  | enqueue j => exact works.elim
  | take w j pipe idle next =>
    refine .inr ⟨.take w, trivial, ?_⟩
    have free : (crewOf p).workers w = .free := by simp [crewOf, idle, phaseOf]
    have head : (crewOf p).queue =
        some (j, p.taken) :: ((opsOf p.issued).drop (p.taken + 1)).map some := by
      rw [crewOf, drop_opsOf next, List.map_cons]
    simp only [Sentinels.step, free, head, crewOf_set]
    rfl
  | tell w t j cmds next pipe at_tell => exact .inl (crewOf_set_same (by simp [at_tell, phaseOf]))
  | ask w t j cmds next pipe at_ask => exact .inl (crewOf_set_same (by simp [at_ask, phaseOf]))
  | exec w phase c awaited rest head =>
    refine .inl ?_
    have same := @crewOf_set_same _ { p with store := (exec p.store c).1 } w
      ⟨if awaited then phase.receive (some (exec p.store c).2) else phase, rest⟩
      (by simp [head, phaseOf_receive])
    exact same
  | resume w t j cmds got next pipe all len =>
    exact .inl (crewOf_set_same (by simp [all, phaseOf]))
  | finish w t j a pipe at_done =>
    refine .inr ⟨.finish w, trivial, ?_⟩
    have running : (crewOf p).workers w = .running (j, t) := by simp [crewOf, at_done, phaseOf]
    simp only [Sentinels.step, running, crewOf_set]
    simp [crewOf, Crew.set, phaseOf]

theorem taken_le_step {start : Query → Talk} {exec : Store → Command → Store × Reply}
    {l : WorkerPool.Label (Fin worker) Query} (h : p.taken ≤ p.issued.length)
    (hl : WorkerPool.step start exec p l = some q) : q.taken ≤ q.issued.length := by
  cases WorkerPool.step_cases hl with
  | enqueue j => simpa using h.trans (Nat.le_succ _)
  | take w j pipe idle next => exact (List.getElem?_eq_some_iff.mp next).1
  | _ => exact h

lemma crewOf_issued (h : p.taken ≤ p.issued.length) (new : List Query) :
    crewOf { p with issued := p.issued ++ new } =
      { crewOf p with
        queue := (crewOf p).queue ++ (new.zipIdx p.issued.length).map some } := by
  have drop : (opsOf (p.issued ++ new)).drop p.taken =
      (opsOf p.issued).drop p.taken ++ new.zipIdx p.issued.length := by
    rw [opsOf_append, List.drop_append_of_le_length (by simpa [opsOf] using h)]
  simp only [crewOf, drop, List.map_append]

/-- The workers are as in a run of a crew in which what the main thread sent was enqueued. -/
structure Manned (cfg : Config) (s : System (Fin worker)) : Prop where
  coupled : Coupled cfg s
  taken_le : s.pool.taken ≤ s.pool.issued.length
  crew : ∃ trace, Run Sentinels.Step (fresh fun _ => true) trace (crewOf s.pool) ∧
    enqueued trace = (opsOf s.pool.issued).map some

lemma Manned.loaded (roster : ℕ → Option Player) (spent : List ℕ) (store : Store) :
    Manned cfg (loaded roster spent store : System (Fin worker)) where
  coupled := Coupled.loaded roster spent store
  taken_le := Nat.zero_le _
  crew := ⟨[], .refl, rfl⟩

theorem Manned.step {s t : System (Fin worker)} {a : Action (Fin worker)} (h : Manned cfg s)
    (hstep : SystemStep cfg s a t) : Manned cfg t := by
  obtain ⟨coupled, taken_le, crew, run, sent⟩ := h
  have coupled' := coupled.step hstep
  rcases system_cases coupled hstep with ⟨e, _, ⟨allowed, hmain⟩, hpool⟩ | ⟨l, _, works, hmain, hl⟩
  · obtain ⟨new, hnew⟩ := (CookieIds.Extends.apply coupled.wf allowed).sent
    rw [← hmain, ← coupled.issued] at hnew
    obtain ⟨more, enqueues, hmore⟩ := enqueue_all (crewOf s.pool)
      ((new.zipIdx s.pool.issued.length).map some)
    refine ⟨coupled', ?_, crew ++ more, ?_, ?_⟩
    · rw [hpool, ← hnew]
      simpa using taken_le.trans (Nat.le_add_right _ _)
    · rw [hpool, ← hnew, crewOf_issued taken_le]
      exact run.trans enqueues
    · rw [hpool, ← hnew, enqueued_append, sent, hmore, opsOf_append, List.map_append]
  · refine ⟨coupled', taken_le_step taken_le hl, ?_⟩
    rw [issued_of_works works hl]
    rcases crewOf_step works hl with same | ⟨l', works', step⟩
    · exact ⟨crew, same ▸ run, sent⟩
    · refine ⟨_, run.snoc step, ?_⟩
      rw [enqueued_append, sent]
      cases l' with
      | enqueue x => exact works'.elim
      | _ => simp [enqueued]

theorem manned_of_run {roster : ℕ → Option Player} {spent : List ℕ} {store : Store}
    {trace : List (System (Fin worker) × Action (Fin worker))} {s : System (Fin worker)}
    (run : Run (SystemStep cfg) (Extension.loaded roster spent store) trace s) :
    Manned cfg s := by
  have preserved : ∀ (a : System (Fin worker)) (l : Action (Fin worker)) (b : System (Fin worker)),
      Manned cfg a → SystemStep cfg a l b → Manned cfg b :=
    fun _ _ _ manned step => manned.step step
  exact run.stable (.loaded roster spent store) preserved

/-- After `SDK_OnUnload` is called, the threads run the crew, and only sentinels are enqueued. -/
structure Unloading (u : State worker) (moves : List (State worker × Move worker))
    (v : State worker) : Prop where
  started : v.main ≠ .loaded
  crew : Run Sentinels.Step u.crew (crewTrace moves) v.crew
  sentinels : ∀ x ∈ enqueued (crewTrace moves), x = none

lemma crewTrace_append (moves more : List (State worker × Move worker)) :
    crewTrace (moves ++ more) = crewTrace moves ++ crewTrace more := List.filterMap_append

lemma Unloading.snoc {u v v' : State worker} {moves : List (State worker × Move worker)}
    {m : Move worker} {l : Label (Fin worker) Op} (h : Unloading u moves v)
    (traced : crewTrace [(v, m)] = [(v.crew, l)]) (started : v'.main ≠ .loaded)
    (crew : Sentinels.step v.crew l = some v'.crew)
    (sentinel : ∀ x ∈ enqueued [(v.crew, l)], x = none) : Unloading u (moves ++ [(v, m)]) v' := by
  refine ⟨started, ?_, ?_⟩
  · rw [crewTrace_append, traced]
    exact h.crew.snoc crew
  · rw [crewTrace_append, traced, enqueued_append]
    intro x hx
    rcases List.mem_append.mp hx with hx | hx
    · exact h.sentinels x hx
    · exact sentinel x hx

lemma Unloading.skip {u v v' : State worker} {moves : List (State worker × Move worker)}
    {m : Move worker} (h : Unloading u moves v) (traced : crewTrace [(v, m)] = [])
    (started : v'.main ≠ .loaded) (same : v'.crew = v.crew) :
    Unloading u (moves ++ [(v, m)]) v' := by
  refine ⟨started, ?_, ?_⟩
  · rw [crewTrace_append, traced, List.append_nil, same]
    exact h.crew
  · rw [crewTrace_append, traced, List.append_nil]
    exact h.sentinels

lemma pushLoop_ne_loaded (i : ℕ) : pushLoop worker i ≠ .loaded := by
  unfold pushLoop
  split_ifs <;> simp

theorem Unloading.step {u v v' : State worker} {moves : List (State worker × Move worker)}
    {m : Move worker} (h : Unloading u moves v) (hm : UnloadHandshake.step v m = some v') :
    Unloading u (moves ++ [(v, m)]) v' := by
  cases UnloadHandshake.step_cases hm with
  | enqueue op loaded => exact absurd loaded h.started
  | unload loaded => exact absurd loaded h.started
  | push i pushing =>
    exact h.snoc rfl (pushLoop_ne_loaded _) rfl (by simp [enqueued])
  | check waiting =>
    refine h.skip rfl ?_ rfl
    dsimp only
    split_ifs <;> simp
  | delete deleting => exact h.skip rfl (by simp) rfl
  | work l crew works _ hl =>
    refine h.snoc rfl h.started hl ?_
    cases l with
    | enqueue x => exact works.elim
    | _ => simp [enqueued]

theorem unloading_of_run {u v : State worker} {moves : List (State worker × Move worker)}
    (started : u.main ≠ .loaded) (run : Run UnloadHandshake.Step u moves v) :
    Unloading u moves v := by
  have preserved : ∀ (past : List (State worker × Move worker)) (a : State worker) (m : Move worker)
      (b : State worker), Unloading u past a → UnloadHandshake.Step a m b →
      Unloading u (past ++ [(a, m)]) b := fun _ _ _ _ h step => h.step step
  exact run.stable_history ⟨started, .refl, by simp [crewTrace, enqueued]⟩ preserved

end Crew

section Result
variable {roster : ℕ → Option Player} {spent : List ℕ} {store : Store}
  {trace : List (System (Fin worker) × Action (Fin worker))} {s : System (Fin worker)}
  {u v : State worker} {moves more : List (State worker × Move worker)}

lemma sent_of_ran (run : Run (SystemStep cfg) (loaded roster spent store) trace s)
    (shut : Run UnloadHandshake.Step (called s) moves u) {w : Fin worker} {op : Op}
    (hop : (w, op) ∈ ran (crewTrace moves)) : op.1 ∈ s.main.sent := by
  obtain ⟨coupled, _, before, first, sent⟩ := manned_of_run run
  have unloading := unloading_of_run (pushLoop_ne_loaded 0) shut
  have accounts := accounts_of_run (first.trans unloading.crew)
  have hran : (w, op) ∈ ran (before ++ crewTrace moves) := by
    rw [ran_append]
    exact List.mem_append_right _ hop
  have henq := accounts.enqueued_of_ran hran
  rw [enqueued_append, sent, coupled.issued] at henq
  rcases List.mem_append.mp henq with h | h
  · obtain ⟨op', hop', heq⟩ := List.mem_map.mp h
    obtain rfl := Option.some.inj heq
    exact List.fst_mem_of_mem_zipIdx hop'
  · cases unloading.sentinels _ h

lemma ran_of_deleted {u v : State worker} {more : List (State worker × Move worker)}
    (deleted : u.main = .deleted) (run : Run UnloadHandshake.Step u more v) :
    ran (crewTrace more) = [] := by
  have preserved : ∀ (past : List (State worker × Move worker)) (a : State worker) (m : Move worker)
      (b : State worker), (a.main = .deleted ∧ ran (crewTrace past) = []) →
      UnloadHandshake.Step a m b →
      (b.main = .deleted ∧ ran (crewTrace (past ++ [(a, m)])) = []) := by
    intro past a m b h step
    rw [crewTrace_append, ran_append, h.2, List.nil_append]
    cases UnloadHandshake.step_cases step with
    | enqueue op loaded => simp [h.1] at loaded
    | unload loaded => simp [h.1] at loaded
    | push i pushing => simp [h.1] at pushing
    | check waiting => simp [h.1] at waiting
    | delete deleting => simp [h.1] at deleting
    | work l crew works live hl =>
      refine ⟨h.1, ?_⟩
      cases l with
      | finish w => cases live h.1
      | _ => rfl
  exact (run.stable_history ⟨deleted, rfl⟩ preserved).2

/-- In every state in which the extension is unloaded: when `SDK_OnUnload` returns and
`SDK_OnDependenciesDropped` runs, everything gets saved exactly when there is nothing to do. -/
theorem unload_saves_iff (run : Run (SystemStep cfg) (loaded roster spent store) trace s)
    (shut : Run UnloadHandshake.Step (called s) moves u) (back : u.main = .deleted)
    (late : Run UnloadHandshake.Step (dropped cfg s.main u) more v) :
    SavesAll cfg s.main (ran (crewTrace (moves ++ more))) ↔ NothingToDo cfg s.main := by
  have hwf := (coupled_of_run run).wf
  have deleted : (dropped cfg s.main u).main = .deleted := back
  rw [crewTrace_append, ran_append, ran_of_deleted deleted late, List.append_nil]
  constructor
  · intro h
    refine ⟨fun i a unsaved => ?_, (unload_quiet_iff hwf).mp h.last⟩
    obtain ⟨w, k, sid, id, hran⟩ := h.saved i a unsaved
    have hsent : .insertData sid id a ∈ s.main.sent := sent_of_ran run shut hran
    exact (hwf.queued sid id a hsent).2 i unsaved.2.1
  · intro h
    refine ⟨fun i a unsaved => ?_, (unload_quiet_iff hwf).mpr h.quiet⟩
    exact absurd unsaved (h.saved i a)

end Result

/-- A cookie is registered, and a player comes and sets it. -/
def session : List (Extension.Action (Fin 1)) :=
  [.main (.createCookie (bytes "music") [] 0), .work (.take soleWorker),
    .work (.send soleWorker), .work (.exec soleWorker), .work (.resume soleWorker),
    .work (.send soleWorker), .work (.finish soleWorker),
    .deliver soleWorker (.insertCookie 0) ⟨true, 5, []⟩, .main (.connect 1 newcomer7),
    .main (.authorize 1), .main (.setCookieValue 0 1 (bytes "on") 0)]

def unplayed : System (Fin 1) := loaded (fun _ => none) [] (.empty [scriptSha] .asStored)

lemma session_actable : Enactable (Extension.Action.apply oneSlot) (Action.Allowed oneSlot)
    unplayed session := by
  refine ⟨⟨trivial, trivial⟩, ⟨trivial, by decide⟩, ⟨trivial, by decide⟩, ⟨trivial, by decide⟩,
    ⟨trivial, by decide⟩, ⟨trivial, by decide⟩, ⟨trivial, by decide⟩, ⟨by decide, ?_⟩,
    ⟨trivial, ?_⟩, ⟨trivial, ?_⟩, ⟨trivial, by decide, client_one⟩, trivial⟩
  · exact List.mem_singleton_self _
  · exact ⟨client_one, by decide, rfl, by decide⟩
  · exact ⟨newcomer7, by decide, by decide, rfl, rfl⟩

def played : System (Fin 1) := enact (Extension.Action.apply oneSlot) unplayed session

def swift : List (Move 1) := [.push, .check, .delete]

def shutFrom (s : System (Fin 1)) : Option (State 1) :=
  advance UnloadHandshake.step (called s) swift

def loads : List (Extension.Action (Fin 1)) :=
  [.work (.take soleWorker), .work (.send soleWorker), .work (.exec soleWorker),
    .work (.resume soleWorker), .work (.finish soleWorker)]

def saves : List (Extension.Action (Fin 1)) :=
  [.work (.take soleWorker), .work (.send soleWorker), .work (.exec soleWorker),
    .work (.finish soleWorker)]

/-- The player leaves, and the worker runs all queries. -/
def departure : List (Extension.Action (Fin 1)) :=
  List.replicate 4 (.work (.exec soleWorker)) ++ loads ++
    [.main (.disconnecting 1), .main (.disconnected 1)] ++ loads ++ saves

lemma departure_actable : Enactable (Extension.Action.apply oneSlot) (Action.Allowed oneSlot)
    played departure := by
  refine ⟨⟨trivial, ?_⟩, ⟨trivial, ?_⟩, ⟨trivial, ?_⟩, ⟨trivial, ?_⟩, ⟨trivial, ?_⟩, ⟨trivial, ?_⟩,
    ⟨trivial, ?_⟩, ⟨trivial, ?_⟩, ⟨trivial, ?_⟩, ⟨trivial, client_one, ?_⟩, ⟨trivial, rfl⟩,
    ⟨trivial, ?_⟩, ⟨trivial, ?_⟩, ⟨trivial, ?_⟩, ⟨trivial, ?_⟩, ⟨trivial, ?_⟩, ⟨trivial, ?_⟩,
    ⟨trivial, ?_⟩, ⟨trivial, ?_⟩, ⟨trivial, ?_⟩, trivial⟩
  all_goals decide +kernel

def gone : System (Fin 1) :=
  enact (Extension.Action.apply oneSlot) unplayed (session ++ departure)

theorem gone_run : Run (SystemStep oneSlot) unplayed
    (enactTrace (Extension.Action.apply oneSlot) unplayed (session ++ departure)) gone :=
  enact_run (session_actable.append departure_actable)

lemma gone_nothingToDo : NothingToDo oneSlot gone.main := by
  obtain ⟨_, main⟩ := session_of_run gone_run
  have host := (reachable host_start_vacant main).2
  have vacant : gone.main.roster 1 = none := by decide +kernel
  have empty : gone.main.clientData 1 = [] := by decide +kernel
  have absent : ∀ i, ¬ StillThere gone.main i := by
    rintro i ⟨p, hp, _⟩
    have client := host.range i p hp
    obtain rfl : i = 1 := le_antisymm client.2 client.1
    rw [vacant] at hp
    cases hp
  refine ⟨fun i a unsaved => absent i unsaved.1, fun i client _ => ?_⟩
  obtain rfl : i = 1 := le_antisymm client.2 client.1
  refine ⟨absent 1, by simp [empty], fun j _ => ?_⟩
  rw [Bool.eq_false_iff]
  exact fun missed => absent j (missed_iff.mp missed).2.2

/-- A value that was saved before the unload is in Redis after it. -/
theorem unload_saves_departed : ∃ (moves : List (State 1 × Move 1)) (u : State 1),
    Run UnloadHandshake.Step (called gone) moves u ∧ u.main = .deleted ∧
    gone.pool.store.value (valueKey (bytes "STEAM_1:0:7") (toText 5)) = some (bytes "on") ∧
    SavesAll oneSlot gone.main (ran (crewTrace (moves ++ []))) := by
  have shuts : (shutFrom gone).any (fun u => u.main = .deleted) = true := by decide +kernel
  obtain ⟨u, hu, back⟩ := (Option.any_eq_true ..).mp shuts
  have shut := advance_run hu
  have deleted : u.main = .deleted := by simpa using back
  refine ⟨_, u, shut, deleted, by decide +kernel, ?_⟩
  exact (unload_saves_iff gone_run shut deleted .refl).mpr gone_nothingToDo

/-- The player's value is not in any query that was sent before the queue was deleted. -/
theorem unload_loses_value : ¬ ∀ (worker : ℕ) (cfg : Config) (roster : ℕ → Option Player)
    (spent : List ℕ) (store : Store)
    (trace : List (System (Fin worker) × Extension.Action (Fin worker))) (s : System (Fin worker))
    (moves more : List (State worker × Move worker)) (u v : State worker),
    Run (SystemStep cfg) (loaded roster spent store) trace s →
    Run UnloadHandshake.Step (called s) moves u → u.main = .deleted →
    Run UnloadHandshake.Step (dropped cfg s.main u) more v →
    SavesAll cfg s.main (ran (crewTrace (moves ++ more))) := by
  intro h
  have run := enact_run session_actable
  have shuts : (shutFrom played).any (fun u => u.main = .deleted) = true := by decide
  obtain ⟨u, hu, back⟩ := (Option.any_eq_true ..).mp shuts
  have shut := advance_run hu
  have saves := h 1 oneSlot _ _ _ _ played _ [] u _ run shut (by simpa using back) .refl
  have unsaved : Unsaved played.main 1 0 :=
    ⟨⟨authorized newcomer7, by decide, rfl, rfl⟩, by decide, by decide⟩
  obtain ⟨w, k, sid, id, hran⟩ := saves.saved 1 0 unsaved
  rw [List.append_nil] at hran
  have hsent : .insertData sid id 0 ∈ played.main.sent := sent_of_ran run shut hran
  have sent : played.main.sent = [.insertCookie 0, .selectData 7 (bytes "STEAM_1:0:7")] := by
    decide
  rw [sent] at hsent
  simp at hsent

end ClientPrefs.UnloadSaves
