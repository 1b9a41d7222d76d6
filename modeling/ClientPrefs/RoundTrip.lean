import ClientPrefs.SteadyRegistry

/-!
# Values across sessions

For every player and every cookie the plugins see one memory that keeps what was set last. The
slots, the queries on the way and Redis together are this memory.
-/
namespace ClientPrefs.RoundTrip
open ByteStrings Cookies CookieManager CookieTable Extension FirstRegistrations LiveSessions
open LoadedRows LoadIsolation Loads PendingSaves QueryThread ReadPaths RedisReply RedisStore SaveIsolation
open SaveOrder SerialQueries SerialRegistry Session SlotRelease SlotTables SlotValues SoloRuns
open SteadyRegistry Transition

abbrev Memory := Bytes → CookieRef → Bytes

def remember (memory : Memory) (x : Serial × List Bytes × Move) : Memory :=
  match x.2.2 with
  | .main (.setCookieValue c i value _) =>
    match x.1.main.roster i with
    | some p => Function.update memory (playerId p) (Function.update (memory (playerId p)) c value)
    | none => memory
  | _ => memory

/-- What was set last for each player and cookie; at first nothing was. -/
def lastSet (trace : List (Serial × List Bytes × Move)) : Memory :=
  trace.foldl remember fun _ _ => []

def keyOf (base : Server) (u : Bytes) (c : CookieRef) : Bytes :=
  valueKey u (toText (base.cookies c).dbid)

/-- The server and Redis together are the memory. -/
structure Agrees (cfg : Config) (base : Server) (memory : Memory) (s : Serial) : Prop where
  /-- A changed value is the one in the memory, the others are on their way or in Redis. -/
  served : ∀ i p, Served s.main i p → ∀ c < base.cookieCount, ∃ e, entryAt s.main c i = some e ∧
    e.value = storedValue (memory (playerId p) c) ∧ (e.changed = false →
      storedValue ((due s (keyOf base (playerId p) c)).getD []) =
        storedValue (memory (playerId p) c))
  away : ∀ u, ¬ bytes "cookies." <+: u → (∀ i p, Served s.main i p → playerId p ≠ u) →
    ∀ c < base.cookieCount,
      storedValue ((due s (keyOf base u c)).getD []) = storedValue (memory u c)
  loads : ∀ i p k sid outcome, Live s.main i p →
    (k, .selectData p.serial sid, outcome) ∈ s.results → k ∉ s.main.finished →
    ∀ c < base.cookieCount, ∃ w, lastRow cfg s.main c outcome.results = some w ∧
      storedValue w = storedValue (memory (playerId p) c)

variable {cfg : Config} {held : Bytes → Option Cookie} {base : Server} {memory : Memory}
  {s t : Serial} {mv : Move} {e : Event} {c : CookieRef} {i k : ℕ} {p q : Player} {sid u : Bytes}
  {outcome : Outcome}

lemma lastRow_congr {a b : Server} (same : tableOf b = tableOf a) (c : CookieRef)
    (rows : List (Cookie × Bytes)) : lastRow cfg b c rows = lastRow cfg a c rows := by
  simp only [lastRow, findCookie_congr same]

lemma keyOf_outside (h : ¬ bytes "cookies." <+: u) : NotRegistry (keyOf base u c) :=
  notRegistry_valueKey h _

lemma playerId_apart (h : Sessions cfg s.main) {j : ℕ} (live : Live s.main i p)
    (other : Live s.main j q) (hsame : playerId p = playerId q) : i = j := by
  apply h.apart i j p q live other
  rw [(h.admitted i p live).1, (h.admitted j q other).1, hsame]

lemma served_before (orderly : Orderly cfg s) (h : Sessions cfg s.main)
    (allowed : e.Allowed cfg s.main) (served : Served (e.apply cfg s.main) i p) :
    Served s.main i p ∨ ∃ k talk outcome sid, e = .think k talk outcome ∧ Live s.main i p ∧
      s.main.sent[k]? = some (.selectData p.serial sid) := by
  obtain ⟨hp, hstays, k, hk, sid, hquery⟩ := served
  have hprefix := (CookieIds.Extends.apply h.wf allowed).sent
  have hbefore : k < s.main.sent.length → s.main.sent[k]? = some (.selectData p.serial sid) := by
    intro hlt
    obtain ⟨more, hmore⟩ := hprefix
    rwa [← hmore, List.getElem?_append_left hlt] at hquery
  have hroster : k < s.main.sent.length → s.main.roster i = some p ∧ s.main.leaving i = false := by
    intro hlt
    have hasked : .selectData p.serial sid ∈ s.main.sent := List.mem_of_getElem? (hbefore hlt)
    rcases occupant_cases h.wf allowed hp with hsame | ⟨q, _, hq, hunauthorized, _, rfl⟩ |
      ⟨hspent, _⟩
    · exact ⟨hsame, stays_before h.wf allowed hp hstays⟩
    · rw [authorized_serial] at hasked
      have hauth := (h.asked i q sid hq hasked).1
      rw [hunauthorized] at hauth
      cases hauth
    · exact absurd (h.addressed _ _ hasked).1 hspent
  have hold : k ∈ s.main.finished → Served s.main i p := by
    intro hmem
    have hlt := (orderly.delivered k hmem).trans_le orderly.executed
    obtain ⟨hp', hstays'⟩ := hroster hlt
    exact ⟨hp', hstays', k, hmem, sid, hbefore hlt⟩
  by_cases own : Own e
  · rw [finished_apply h.wf own allowed] at hk
    exact .inl (hold hk)
  · cases e with
    | think k' talk outcome =>
      obtain ⟨_, q, hq, _⟩ := id allowed
      have hfinished : ((Event.think k' talk outcome).apply cfg s.main).finished =
          s.main.finished ++ [k'] := finished_runFrame hq outcome
      rw [hfinished] at hk
      rcases List.mem_append.mp hk with hk | hk
      · exact .inl (hold hk)
      · obtain rfl := List.mem_singleton.mp hk
        have hlt := (List.getElem?_eq_some_iff.mp hq).1
        obtain ⟨hp', hstays'⟩ := hroster hlt
        exact .inr ⟨k, talk, outcome, sid, rfl, ⟨hp', hstays',
          h.asked i p sid hp' (List.mem_of_getElem? (hbefore hlt))⟩, hbefore hlt⟩
    | _ => exact absurd trivial own

lemma pending_before (orderly : Orderly cfg s) (h : Sessions cfg s.main)
    (allowed : e.Allowed cfg s.main) (live : Live (e.apply cfg s.main) i p)
    (hresult : (k, .selectData p.serial sid, outcome) ∈ s.results)
    (hunfinished : k ∉ (e.apply cfg s.main).finished) :
    s.main.sent[k]? = some (.selectData p.serial sid) ∧ Live s.main i p ∧
      k ∉ s.main.finished := by
  have hquery : s.main.sent[k]? = some (.selectData p.serial sid) :=
    (orderly.coupled.answered.results _ hresult).1
  exact ⟨hquery, h.live_before allowed live (List.mem_of_getElem? hquery),
    fun hk => hunfinished (finished_after h.wf allowed hk)⟩

section Steps
variable (founded : Founded cfg held base) (steady : Steady cfg held base s)
  (sessions : Sessions cfg s.main) (h : Agrees cfg base memory s)
include founded steady sessions h

omit founded in
/-- Nothing is saved, and no slot whose player is served is touched. -/
theorem agrees_main (allowed : e.Allowed cfg s.main) (ht : t = { s with main := e.apply cfg s.main })
    (table : tableOf (e.apply cfg s.main) = tableOf s.main)
    (quiet : ∀ key, NotRegistry key → due t key = due s key)
    (entries : ∀ i p, Served s.main i p → ∀ c < base.cookieCount,
      entryAt (e.apply cfg s.main) c i = entryAt s.main c i)
    (stays : ∀ i, e ≠ .disconnecting i)
    (arrived : ∀ i p, Served (e.apply cfg s.main) i p → ¬ Served s.main i p →
      ∀ c < base.cookieCount, ∃ d, entryAt (e.apply cfg s.main) c i = some d ∧
        d.value = storedValue (memory (playerId p) c) ∧
        storedValue ((due s (keyOf base (playerId p) c)).getD []) =
          storedValue (memory (playerId p) c)) : Agrees cfg base memory t := by
  subst ht
  have outside : ∀ {i p}, Served (e.apply cfg s.main) i p → ¬ bytes "cookies." <+: playerId p := by
    intro i p served
    rcases served_before steady.recorded.queued.orderly sessions allowed served with hold |
      ⟨_, _, _, _, _, live, _⟩
    · exact (sessions.admitted i p (sessions.live_of_served hold)).2
    · exact (sessions.admitted i p live).2
  constructor
  · intro i p served c hc
    rw [quiet _ (keyOf_outside (outside served))]
    by_cases hold : Served s.main i p
    · rw [entries i p hold c hc]
      exact h.served i p hold c hc
    · obtain ⟨d, hd, hvalue, hdue⟩ := arrived i p served hold c hc
      exact ⟨d, hd, hvalue, fun _ => hdue⟩
  · intro u hu nobody c hc
    rw [quiet _ (keyOf_outside hu)]
    exact h.away u hu
      (fun i p served => nobody i p (sessions.served_after allowed served (stays i))) c hc
  · intro i p k sid outcome live hresult hunfinished c hc
    obtain ⟨_, hlive, hfirst⟩ := pending_before steady.recorded.queued.orderly sessions allowed
      live hresult hunfinished
    rw [lastRow_congr table]
    exact h.loads i p k sid outcome hlive hresult hfirst c hc

lemma agrees_deliver {query : Query} (step : SerialStep cfg s (.deliver k query outcome) t) :
    Agrees cfg base memory t := by
  have orderly := steady.recorded.queued.orderly
  obtain ⟨⟨hfirst, hresult⟩, ht⟩ := id step
  obtain ⟨hquery', talk, talks⟩ := orderly.coupled.answered.results _ hresult
  have hquery : s.main.sent[k]? = some query := hquery'
  have allowed : (Event.think k talk outcome).Allowed cfg s.main := ⟨hfirst, query, hquery, talks⟩
  have quiet : ∀ key, NotRegistry key → due t key = due s key := by
    intro key outside
    rw [due_step steady.recorded.queued step outside]
    rfl
  have delivers : ∀ {i p sid}, Live s.main i p → query = .selectData p.serial sid →
      Delivers cfg s.main i outcome.results (.think k talk outcome) := by
    rintro i p sid live rfl
    rcases getClientFromSerial_spec sessions.host p.serial with ⟨_, hnobody⟩ | ⟨hpos, q, hq, hserial⟩
    · exact absurd rfl (hnobody i p live.1)
    · obtain rfl := sessions.host.distinct _ _ q p hq live.1 hserial
      exact ⟨rfl, hpos, p.serial, sid, hquery, rfl⟩
  refine agrees_main steady sessions h allowed ht (steady.deliver founded hresult).1 quiet
    ?_ (fun i heq => by cases heq) ?_
  · intro i p served c hc
    have hc' : c < s.main.cookieCount := (count_of_table steady.table).symm ▸ hc
    by_cases hload : ∃ j rows, Delivers cfg s.main j rows (.think k talk outcome)
    · obtain ⟨j, rows, hload⟩ := hload
      have hij : i ≠ j := by
        rintro rfl
        exact sessions.unserved allowed hload served
      rw [entryAt_delivers sessions.wf hc' hload, if_neg hij]
    · have heffect := effect_of_apply sessions.wf allowed
      revert heffect
      generalize (Event.think k talk outcome).apply cfg s.main = m
      intro heffect
      cases heffect with
      | same m tables => exact tables.entryAt sessions.wf c i
      | set _ _ _ _ _ _ _ sets => exact sets.elim
      | get c' j =>
        obtain ⟨e, he, _⟩ := h.served i p served c hc
        exact entryAt_getCookieValue_of_some sessions.wf c' j he
      | release _ _ leaves _ => cases leaves
      | load _ j rows _ hdelivers _ => exact absurd ⟨j, rows, hdelivers⟩ hload
  · intro i p served hnew c hc
    have hc' : c < s.main.cookieCount := (count_of_table steady.table).symm ▸ hc
    rcases served_before orderly sessions allowed served with hold | ⟨k', _, _, sid, heq, live, hk'⟩
    · exact absurd hold hnew
    · obtain ⟨rfl, _, _⟩ := Event.think.inj heq
      obtain rfl : query = .selectData p.serial sid := Option.some.inj (hquery.symm.trans hk')
      obtain ⟨w, hw, hvalue⟩ := h.loads i p k sid outcome live hresult hfirst c hc
      refine ⟨⟨storedValue w, false, 0, c⟩, ?_, hvalue, ?_⟩
      · rw [entryAt_delivers sessions.wf hc' (delivers live rfl), if_pos rfl, hw]
        rfl
      · refine h.away (playerId p) (sessions.admitted i p live).2 (fun j q other hsame => ?_) c hc
        obtain rfl := playerId_apart sessions (sessions.live_of_served other) live hsame
        obtain rfl : q = p := Option.some.inj (other.1.symm.trans live.1)
        exact hnew other

omit founded in
lemma agrees_quiet (own : Own e) (plays : Plays cfg s.main e)
    (step : SerialStep cfg s (.main e) t) (stays : ∀ i, e ≠ .disconnecting i)
    (unset : ∀ c i v now, e ≠ .setCookieValue c i v now) : Agrees cfg base memory t := by
  have orderly := steady.recorded.queued.orderly
  obtain ⟨⟨_, allowed⟩, ht⟩ := id step
  have saves : newSaves cfg s (.main e) = [] := by
    cases e with
    | disconnecting i => exact absurd rfl (stays i)
    | setAuthIdCookie authId c value now => exact plays.elim
    | _ => rfl
  have quiet : ∀ key, NotRegistry key → due t key = due s key := by
    intro key outside
    rw [due_step steady.recorded.queued step outside, saves]
    rfl
  refine agrees_main steady sessions h allowed ht (table_of_plays sessions.wf own plays) quiet
    ?_ stays ?_
  · intro i p served c hc
    have heffect := effect_of_apply sessions.wf allowed
    revert heffect
    generalize e.apply cfg s.main = m
    intro heffect
    cases heffect with
    | same m tables => exact tables.entryAt sessions.wf c i
    | set _ _ _ _ _ _ _ sets =>
      cases e with
      | setCookieValue c i v now => exact absurd rfl (unset c i v now)
      | setAuthIdCookie authId c value now => exact plays.elim
      | _ => exact sets.elim
    | get c' j =>
      obtain ⟨d, hd, _⟩ := h.served i p served c hc
      exact entryAt_getCookieValue_of_some sessions.wf c' j hd
    | release j _ leaves _ => exact absurd leaves (stays j)
    | load _ j rows _ hdelivers _ =>
      cases e with
      | think => exact own.elim
      | _ => exact hdelivers.elim
  · intro i p served hnew
    rcases served_before orderly sessions allowed served with hold | ⟨_, _, _, _, rfl, _⟩
    · exact absurd hold hnew
    · exact own.elim

/-- The next query is executed. A load brings what the memory has. -/
theorem agrees_execute {query : Query} (hq : s.main.sent[s.results.length]? = some query)
    (hout : (solo serve s.store (convOf cfg s.main query)).2 = some outcome) :
    Agrees cfg base memory ⟨s.main, (solo serve s.store (convOf cfg s.main query)).1,
      s.results ++ [(s.results.length, query, outcome)]⟩ := by
  have orderly := steady.recorded.queued.orderly
  have quiet : ∀ key, NotRegistry key → due ⟨s.main, (solo serve s.store (convOf cfg s.main query)).1,
      s.results ++ [(s.results.length, query, outcome)]⟩ key = due s key :=
    fun key outside => due_execute cfg outside outcome hq
  constructor
  · intro i p served c hc
    rw [quiet _ (keyOf_outside (sessions.admitted i p (sessions.live_of_served served)).2)]
    exact h.served i p served c hc
  · intro u hu nobody c hc
    rw [quiet _ (keyOf_outside hu)]
    exact h.away u hu nobody c hc
  · intro i p k sid outcome' live hresult hunfinished c hc
    rcases List.mem_append.mp hresult with hresult | hresult
    · exact h.loads i p k sid outcome' live hresult hunfinished c hc
    · obtain ⟨rfl, rfl, rfl⟩ : k = s.results.length ∧ Query.selectData p.serial sid = query ∧
        outcome' = outcome := by simpa using hresult
      have hsid : steamIdOf p = sid :=
        (sessions.addressed _ _ (List.mem_of_getElem? hq)).2 i p live.1 rfl
      obtain ⟨hid, hu⟩ := sessions.admitted i p live
      have nobody : ∀ j q, Served s.main j q → playerId q ≠ playerId p := by
        intro j q other hsame
        obtain rfl := playerId_apart sessions (sessions.live_of_served other) live hsame
        obtain rfl : q = p := Option.some.inj (other.1.symm.trans live.1)
        obtain ⟨_, _, k', hk', sid', hquery⟩ := other
        have hlt := orderly.delivered k' hk'
        rw [sessions.select_once live hquery hq] at hlt
        exact lt_irrefl _ hlt
      have hempty : (pending s).filterMap (savedBy (keyOf base (playerId p) c) s.main) = [] := by
        refine List.filterMap_eq_nil_iff.mpr fun r hr => ?_
        cases r with
        | insertData sid' id a =>
          have hother : valueKey sid' (toText id) ≠ keyOf base (playerId p) c := by
            intro hkey
            obtain ⟨rfl, _⟩ := valueKey_injective hkey
            rw [← hid] at hr
            exact sessions.not_saved live hq hr
          simp only [savedBy, jobOf, savedAt, if_neg hother]
        | _ => rfl
      have hdue : due s (keyOf base (playerId p) c) =
          s.store.value (keyOf base (playerId p) c) := by
        rw [due, hempty]
        rfl
      have kept := steady.recorded.kept (sparing_of_sessions sessions)
      refine ⟨_, lastRow_of_select kept (founded.leads steady.table hc)
        (founded.id steady.written hc) hout, ?_⟩
      have hkey : valueKey sid (toText (base.cookies c).dbid) = keyOf base (playerId p) c := by
        rw [keyOf, ← hid, hsid]
      rw [storedValue_read, hkey, ← hdue]
      exact h.away (playerId p) hu nobody c hc

omit founded in
lemma agrees_set {now : ℕ} {v : Bytes} (plays : ∃ p, Served s.main i p)
    (step : SerialStep cfg s (.main (.setCookieValue c i v now)) t) (scripts : List Bytes) :
    Agrees cfg base (remember memory (s, scripts, .main (.setCookieValue c i v now))) t := by
  obtain ⟨p, served⟩ := plays
  have live : Live s.main i p := sessions.live_of_served served
  have orderly := steady.recorded.queued.orderly
  have hmemory : remember memory (s, scripts, .main (.setCookieValue c i v now)) =
      Function.update memory (playerId p) (Function.update (memory (playerId p)) c v) := by
    simp only [remember, served.1]
  have quiet : ∀ key, NotRegistry key → due t key = due s key := by
    intro key outside
    rw [due_step steady.recorded.queued step outside]
    rfl
  obtain ⟨⟨_, allowed⟩, rfl⟩ := step
  have hentry : ∀ d j, entryAt (setCookieValue s.main c i v now) d j =
      if d = c ∧ j = i then some ⟨storedValue v, true, now, d⟩ else entryAt s.main d j :=
    fun d j => entryAt_setCookieValue sessions.wf c i v now
  have stays : ∀ j, Event.setCookieValue c i v now ≠ .disconnecting j := fun j heq => by cases heq
  have after : ∀ {j q}, Served s.main j q → Served (setCookieValue s.main c i v now) j q :=
    fun other => sessions.served_after allowed other (stays _)
  have before : ∀ {j q}, Served (setCookieValue s.main c i v now) j q → Served s.main j q := by
    intro j q other
    rcases served_before orderly sessions allowed other with hold | ⟨_, _, _, _, heq, _⟩
    · exact hold
    · cases heq
  have table : tableOf (setCookieValue s.main c i v now) = tableOf s.main :=
    tableOf_setCookieValue c i v now
  rw [hmemory]
  constructor
  · intro j q other d hd
    have hq := before other
    have hlive := sessions.live_of_served hq
    rw [quiet _ (keyOf_outside (sessions.admitted j q hlive).2)]
    have hset : entryAt (setCookieValue s.main c i v now) d j = _ := hentry d j
    by_cases hij : j = i
    · subst hij
      obtain rfl : q = p := Option.some.inj (hq.1.symm.trans served.1)
      rw [Function.update_self]
      by_cases hdc : d = c
      · subst hdc
        rw [if_pos ⟨rfl, rfl⟩] at hset
        refine ⟨_, hset, ?_, fun hunchanged => by cases hunchanged⟩
        rw [Function.update_self]
      · rw [if_neg fun hboth => hdc hboth.1] at hset
        rw [Function.update_of_ne hdc]
        obtain ⟨e, he, hrest⟩ := h.served j q hq d hd
        exact ⟨e, hset.trans he, hrest⟩
    · have hother : playerId q ≠ playerId p :=
        fun hsame => hij (playerId_apart sessions hlive live hsame)
      rw [if_neg fun hboth => hij hboth.2] at hset
      rw [Function.update_of_ne hother]
      obtain ⟨e, he, hrest⟩ := h.served j q hq d hd
      exact ⟨e, hset.trans he, hrest⟩
  · intro u hu nobody d hd
    have hother : u ≠ playerId p := fun hsame => nobody i p (after served) hsame.symm
    rw [Function.update_of_ne hother, quiet _ (keyOf_outside hu)]
    exact h.away u hu (fun j q other => nobody j q (after other)) d hd
  · intro j q k sid outcome hq hresult hunfinished d hd
    obtain ⟨hquery, hlive, hfirst⟩ :=
      pending_before orderly sessions allowed hq hresult hunfinished
    have hother : playerId q ≠ playerId p := by
      intro hsame
      obtain rfl := playerId_apart sessions hlive live hsame
      obtain rfl : q = p := Option.some.inj (hlive.1.symm.trans live.1)
      obtain ⟨_, _, k', hk', sid', hquery'⟩ := served
      rw [sessions.select_once live hquery hquery'] at hfirst
      exact hfirst hk'
    rw [Function.update_of_ne hother]
    have hrow : lastRow cfg (setCookieValue s.main c i v now) d outcome.results = _ :=
      lastRow_congr table d outcome.results
    obtain ⟨w, hw, hvalue⟩ := h.loads j q k sid outcome hlive hresult hfirst d hd
    exact ⟨w, hrow.trans hw, hvalue⟩

omit h in
lemma saved_of_disconnecting (step : SerialStep cfg s (.main (.disconnecting i)) t)
    (hc : c < base.cookieCount) {w : Bytes}
    (hw : w ∈ (newSaves cfg s (.main (.disconnecting i))).filterMap
      (savedBy (keyOf base u c) t.main)) :
    ∃ p d, Served s.main i p ∧ playerId p = u ∧ entryAt s.main c i = some d ∧ d.value = w := by
  obtain ⟨r, hr, hsaved⟩ := List.mem_filterMap.mp hw
  obtain ⟨b, hb, hquery⟩ := List.mem_filterMap.mp hr
  have hmem : r ∈ (onClientDisconnecting cfg s.main i).sent.drop s.main.sent.length := by
    rw [Disconnect.onClientDisconnecting_sent sessions.wf, List.drop_left]
    exact List.mem_append_right _ hr
  obtain ⟨_, _, _, _, _, _, rfl⟩ := savedQuery_eq_some hquery
  obtain ⟨ha, d, auth, hd, hchanged, hauth, hsid, hid, _, hheap⟩ :=
    mem_new_insertData sessions.wf hmem
  obtain ⟨p, served⟩ := sessions.changes i b d ha hd hchanged
  rw [served.1] at hauth
  have hsteam : steamIdOf p = playerId p := (sessions.admitted i p (sessions.live_of_served served)).1
  have hafter : t.main.heap b = some d := by
    rw [step.2]
    exact hheap
  simp only [savedBy, jobOf, savedAt, hafter, Option.map_some, Option.getD_some] at hsaved
  rw [hsid, ← steamIdOf_of_authOf hauth, hsteam, hid] at hsaved
  split_ifs at hsaved with hkey
  obtain ⟨hu, hids⟩ := valueKey_injective hkey
  obtain ⟨d', hd', hlt⟩ := sessions.wf.owned i b ha
  obtain rfl : d = d' := Option.some.inj (hd.symm.trans hd')
  rw [count_of_table steady.table] at hlt
  rw [steady.ids _ hlt] at hids
  obtain rfl := founded.ids.apart _ hlt _ hc hids
  refine ⟨p, d, served, hu, ?_, Option.some.inj hsaved⟩
  rw [entryAt, sessions.current i b d ha hd hchanged]
  exact hd

omit h in
lemma saves_changed (m : Server) (hc : c < base.cookieCount) (served : Served s.main i p)
    {d : CookieData} (hd : entryAt s.main c i = some d) (hchanged : d.changed = true) :
    (newSaves cfg s (.main (.disconnecting i))).filterMap
      (savedBy (keyOf base (playerId p) c) m) ≠ [] := by
  obtain ⟨hp, _, hauthorized, hfake⟩ := sessions.live_of_served served
  obtain ⟨a, _, hheap, ha, hparent⟩ := entryAt_eq_some sessions.wf hd
  obtain ⟨auth, hauth⟩ := Option.isSome_iff_exists.mp (compatAuthId_isSome hauthorized)
  have hauthOf : authOf (s.main.roster i) = some auth := by
    simp only [hp, authOf, hfake, Bool.false_eq_true, if_false]
    exact hauth
  have hid : (s.main.cookies d.parent).dbid = (base.cookies c).dbid := by
    rw [hparent, steady.ids c hc]
  have hpos := founded.ids.positive c hc
  have hquery : savedQuery s.main (authOf (s.main.roster i)) a =
      some (.insertData (steamIdParam (some auth)) (base.cookies c).dbid a) := by
    simp only [savedQuery, hheap, hauthOf, hid, hchanged]
    rw [if_neg]
    rintro (hbad | hbad)
    · cases hbad
    · rw [hbad] at hpos
      exact absurd hpos (by decide)
  have hmem : .insertData (steamIdParam (some auth)) (base.cookies c).dbid a ∈
      newSaves cfg s (.main (.disconnecting i)) := List.mem_filterMap.mpr ⟨a, ha, hquery⟩
  have hkey : valueKey (steamIdParam (some auth)) (toText (base.cookies c).dbid) =
      keyOf base (playerId p) c := by
    rw [hp] at hauthOf
    rw [keyOf, ← steamIdOf_of_authOf hauthOf,
      (sessions.admitted i p (sessions.live_of_served served)).1]
  intro hnil
  have hnone := List.filterMap_eq_nil_iff.mp hnil _ hmem
  simp only [savedBy, jobOf, savedAt, if_pos hkey] at hnone
  cases hnone

omit founded steady h in
lemma gone_of_disconnecting (step : SerialStep cfg s (.main (.disconnecting i)) t)
    {j : ℕ} (live : Live t.main j q) : j ≠ i := by
  obtain ⟨⟨_, allowed⟩, ht⟩ := step
  have hmain : t.main = (Event.disconnecting i).apply cfg s.main := by rw [ht]; rfl
  rintro rfl
  have hhost := hostOf_apply sessions.wf allowed
  simp only [Event.host, hostOf, Prod.mk.injEq] at hhost
  have hstays := live.2.1
  rw [hmain, hhost.2.1, Function.update_self] at hstays
  cases hstays

omit founded h in
lemma served_before_disconnecting (step : SerialStep cfg s (.main (.disconnecting i)) t)
    {j : ℕ} (served : Served t.main j q) : Served s.main j q ∧ j ≠ i := by
  obtain ⟨⟨_, allowed⟩, ht⟩ := id step
  have hmain : t.main = (Event.disconnecting i).apply cfg s.main := by rw [ht]; rfl
  have hserved : Served ((Event.disconnecting i).apply cfg s.main) j q := hmain ▸ served
  have hsessions := sessions.apply allowed trivial fun _ _ _ heq => by cases heq
  have hlive : Live t.main j q := hmain ▸ hsessions.live_of_served hserved
  rcases served_before steady.recorded.queued.orderly sessions allowed hserved with hold |
    ⟨_, _, _, _, heq, _⟩
  · exact ⟨hold, gone_of_disconnecting sessions step hlive⟩
  · cases heq

omit founded steady h in
lemma served_after_disconnecting (step : SerialStep cfg s (.main (.disconnecting i)) t)
    {j : ℕ} (served : Served s.main j q) (different : j ≠ i) : Served t.main j q := by
  obtain ⟨⟨_, allowed⟩, ht⟩ := step
  have hmain : t.main = (Event.disconnecting i).apply cfg s.main := by rw [ht]; rfl
  rw [hmain]
  refine sessions.served_after allowed served fun heq => ?_
  exact different (Event.disconnecting.inj heq).symm

omit h in
lemma due_elsewhere (step : SerialStep cfg s (.main (.disconnecting i)) t)
    {u : Bytes} (hu : ¬ bytes "cookies." <+: u) (hnot : ∀ p, Served s.main i p → playerId p ≠ u)
    (hc : c < base.cookieCount) : due t (keyOf base u c) = due s (keyOf base u c) := by
  have hnil : (newSaves cfg s (.main (.disconnecting i))).filterMap
      (savedBy (keyOf base u c) t.main) = [] := by
    refine List.eq_nil_iff_forall_not_mem.mpr fun w hw => ?_
    obtain ⟨p, _, served, hsame, _⟩ :=
      saved_of_disconnecting founded steady sessions step hc hw
    exact hnot p served hsame
  rw [due_step steady.recorded.queued step (keyOf_outside hu), hnil]
  rfl

lemma due_leaver (step : SerialStep cfg s (.main (.disconnecting i)) t)
    (served : Served s.main i p) (hc : c < base.cookieCount) :
    storedValue ((due t (keyOf base (playerId p) c)).getD []) =
      storedValue (memory (playerId p) c) := by
  have hu := (sessions.admitted i p (sessions.live_of_served served)).2
  obtain ⟨d, hd, hvalue, hunchanged⟩ := h.served i p served c hc
  rw [due_step steady.recorded.queued step (keyOf_outside hu)]
  cases hlast : ((newSaves cfg s (.main (.disconnecting i))).filterMap
      (savedBy (keyOf base (playerId p) c) t.main)).getLast? with
  | none =>
    rw [Option.none_or]
    refine hunchanged (Bool.eq_false_of_not_eq_true fun hchanged => ?_)
    exact saves_changed founded steady sessions t.main hc served hd hchanged
      (List.getLast?_eq_none_iff.mp hlast)
  | some w =>
    obtain ⟨p', d', served', _, hd', rfl⟩ := saved_of_disconnecting founded steady sessions step
      hc (List.mem_of_getLast? hlast)
    obtain rfl : d = d' := Option.some.inj (hd.symm.trans hd')
    rw [Option.some_or, Option.getD_some, hvalue, storedValue_idem]

/-- A player leaves; what was changed is on its way. -/
theorem agrees_disconnecting (step : SerialStep cfg s (.main (.disconnecting i)) t) :
    Agrees cfg base memory t := by
  have orderly := steady.recorded.queued.orderly
  obtain ⟨⟨_, allowed⟩, ht⟩ := id step
  have hmain : t.main = (Event.disconnecting i).apply cfg s.main := by rw [ht]; rfl
  have hresults : t.results = s.results := by rw [ht]; rfl
  constructor
  · intro j q other c hc
    obtain ⟨hq, hij⟩ := served_before_disconnecting steady sessions step other
    have hlive := sessions.live_of_served hq
    obtain ⟨d, hd, hvalue, hunchanged⟩ := h.served j q hq c hc
    refine ⟨d, ?_, hvalue, fun hsame => ?_⟩
    · have released : Released i s.main (onClientDisconnecting cfg s.main i) :=
        Released.onClientDisconnecting sessions.wf i
      have hentry : entryAt (onClientDisconnecting cfg s.main i) c j = entryAt s.main c j :=
        released.entryAt_of_ne sessions.wf hij
      rw [hmain]
      exact hentry.trans hd
    · have hnot : ∀ p, Served s.main i p → playerId p ≠ playerId q := fun p served hplayer =>
        hij (playerId_apart sessions hlive (sessions.live_of_served served) hplayer.symm)
      rw [due_elsewhere founded steady sessions step (sessions.admitted j q hlive).2 hnot hc]
      exact hunchanged hsame
  · intro u hu nobody c hc
    by_cases hleaver : ∃ p, Served s.main i p ∧ playerId p = u
    · obtain ⟨p, served, rfl⟩ := hleaver
      exact due_leaver founded steady sessions h step served hc
    · have hnot : ∀ p, Served s.main i p → playerId p ≠ u :=
        fun p served hplayer => hleaver ⟨p, served, hplayer⟩
      rw [due_elsewhere founded steady sessions step hu hnot hc]
      refine h.away u hu (fun j q other hplayer => ?_) c hc
      by_cases hij : j = i
      · exact hnot q (hij ▸ other) hplayer
      · exact nobody j q (served_after_disconnecting sessions step other hij) hplayer
  · intro j q k sid outcome live hresult hunfinished c hc
    rw [hresults] at hresult
    rw [hmain] at live hunfinished
    obtain ⟨_, hlive, hfirst⟩ :=
      pending_before orderly sessions allowed live hresult hunfinished
    have htable : tableOf t.main = tableOf s.main := by
      rw [hmain]
      exact tableOf_onClientDisconnecting sessions.wf i
    rw [lastRow_congr htable]
    exact h.loads j q k sid outcome hlive hresult hfirst c hc

end Steps

theorem agrees_step (founded : Founded cfg held base) (steady : Steady cfg held base s)
    (sessions : Sessions cfg s.main) (h : Agrees cfg base memory s)
    (plays : PlaysMove cfg s.main mv) (step : SerialStep cfg s mv t) (scripts : List Bytes) :
    Agrees cfg base (remember memory (s, scripts, mv)) t := by
  cases mv with
  | main e =>
    cases e with
    | setCookieValue c i v now => exact agrees_set steady sessions h plays step scripts
    | disconnecting i => exact agrees_disconnecting founded steady sessions h step
    | setAuthIdCookie authId c value now => exact plays.elim
    | think k talk outcome => exact step.1.1.elim
    | _ =>
      exact agrees_quiet steady sessions h step.1.1 plays step (fun i heq => by cases heq)
        (fun c i v now heq => by cases heq)
  | execute =>
    rcases serial_cases step with ⟨_, heq, _⟩ | ⟨query, outcome, _, hq, hout, rfl⟩ |
      ⟨_, _, _, heq, _⟩
    · cases heq
    · exact agrees_execute founded steady sessions h hq hout
    · cases heq
  | deliver k query outcome => exact agrees_deliver founded steady sessions h step

/-- The cookies are registered in an empty Redis, each under an id of its own, and then players
with ids of their own come and go, any number of times. Once a player's load is delivered
`GetCookieValue` returns what was set last for the player and the cookie, and every load lists
the cookies as they were when they were registered. -/
theorem sessions_round_trip {spent : List ℕ} {scripts : List Bytes} {listing : Listing}
    {past trace : List (Serial × List Bytes × Move)}
    (before : Run (ScriptStep cfg) (begin (fun _ => none) spent (.empty scripts listing)) past s)
    (registers : ∀ x ∈ past, Registers x.2.2) (ids : OwnIds s.main)
    (run : Run (ScriptStep cfg) s trace t)
    (plays : ∀ x ∈ trace, PlaysMove cfg x.1.main x.2.2) :
    (∀ i p, Served t.main i p → ∀ c < t.main.cookieCount,
      (getCookieValue t.main c i).2 = storedValue (lastSet trace (playerId p) c)) ∧
    ∀ k serial sid outcome, (k, .selectData serial sid, outcome) ∈ t.results →
      Lists t.main (firstHeld past) outcome.results := by
  have registering := registering_of_run before registers
  have founded := founded_of_registering registering ids
  have start : Agrees cfg s.main (fun _ _ => []) s := by
    have nobody : ∀ i p, s.main.roster i ≠ some p := by
      intro i p hp
      rw [registering.main.roster] at hp
      cases hp
    refine ⟨fun i p served => absurd served.1 (nobody i p), fun u hu _ c _ => ?_,
      fun i p _ _ _ live => absurd live.1 (nobody i p)⟩
    rw [registering.due _ (keyOf_outside hu)]
    rfl
  have preserved : ∀ (past' : List (Serial × List Bytes × Move)) (a : Serial)
      (x : List Bytes × Move) (b : Serial),
      Steady cfg (firstHeld past) s.main a ∧ Sessions cfg a.main ∧
        Agrees cfg s.main (lastSet past') a → PlaysMove cfg a.main x.2 → ScriptStep cfg a x b →
      Steady cfg (firstHeld past) s.main b ∧ Sessions cfg b.main ∧
        Agrees cfg s.main (lastSet (past' ++ [(a, x)])) b := by
    intro past' a x b hall hplays step
    obtain ⟨steady, sessions, agrees⟩ := hall
    have steady' := steady.withScripts x.1
    have agrees' : Agrees cfg s.main (lastSet past') (withScripts a x.1) :=
      ⟨agrees.served, agrees.away, agrees.loads⟩
    obtain ⟨hsteady, hsessions⟩ := steady'.step founded sessions hplays step
    have hagrees := agrees_step founded steady' sessions agrees' hplays step x.1
    have hlast : lastSet (past' ++ [(a, x)]) =
        remember (lastSet past') (withScripts a x.1, x.1, x.2) := List.foldl_append ..
    exact ⟨hsteady, hsessions, hlast ▸ hagrees⟩
  obtain ⟨steady, sessions, agrees⟩ := run.history
    ⟨steady_of_registering registering ids, sessions_of_registering registering, start⟩
    preserved plays
  have hcount := count_of_table steady.table
  constructor
  · intro i p served c hc
    obtain ⟨d, hd, hvalue, _⟩ := agrees.served i p served c (hcount ▸ hc)
    rw [getCookieValue_snd, hd]
    exact hvalue
  · intro k serial sid outcome hresult
    have lists := steady.lists k serial sid outcome hresult
    have hname := name_of_table steady.table
    refine ⟨fun row hrow => ?_, lists.first, fun c hc => ?_⟩
    · obtain ⟨c, hc, hrowname⟩ := lists.named row hrow
      exact ⟨c, hcount.symm ▸ hc, (hname c).trans hrowname⟩
    · rw [hname c]
      exact lists.complete c (hcount ▸ hc)

def newcomer8 : Player := { newcomer7 with serial := 8 }

def coming : List (List Bytes × Move) :=
  [([], .main (.connect 1 newcomer7)), ([], .main (.authorize 1)), ([], .execute)]

def came : Serial := enact after known coming

lemma came_spec : came.results[1]?.map (fun r => (r.1, r.2.1)) =
    some (1, .selectData 7 (bytes "STEAM_1:0:7")) ∧ 1 ∉ came.main.finished := by
  decide +kernel

lemma came_isSome : came.results[1]?.isSome = true := by
  rw [← Option.isSome_map, came_spec.1]
  rfl

def firstLoad : List Bytes × Move :=
  ([], .deliver 1 (.selectData 7 (bytes "STEAM_1:0:7")) (Option.get _ came_isSome).2.2)

def playing : Serial := after came firstLoad

/-- A value is set, the player leaves and comes again, and all queries are executed. -/
def returning : List (List Bytes × Move) :=
  [([], .main (.setCookieValue 0 1 (bytes "on") 0)), ([], .main (.disconnecting 1)),
    ([], .execute), ([], .execute), ([], .main (.disconnected 1)),
    ([], .main (.connect 1 newcomer8)), ([], .main (.authorize 1)), ([], .execute)]

def returned : Serial := enact after playing returning

lemma returned_spec : returned.results[4]?.map (fun r => (r.1, r.2.1)) =
    some (4, .selectData 8 (bytes "STEAM_1:0:7")) ∧ 4 ∉ returned.main.finished := by
  decide +kernel

lemma returned_isSome : returned.results[4]?.isSome = true := by
  rw [← Option.isSome_map, returned_spec.1]
  rfl

def secondLoad : List Bytes × Move :=
  ([], .deliver 4 (.selectData 8 (bytes "STEAM_1:0:7")) (Option.get _ returned_isSome).2.2)

def playingAgain : Serial := after returned secondLoad

lemma coming_possible : Enactable after possible known coming := by
  refine ⟨⟨trivial, ?_⟩, ⟨trivial, ?_⟩, executes (by decide +kernel), trivial⟩
  · exact ⟨client_one, by decide +kernel, rfl, by decide +kernel⟩
  · exact ⟨newcomer7, by decide +kernel, by decide +kernel, rfl, rfl⟩

lemma firstLoad_possible : possible came firstLoad := by
  have hmem : Option.get _ came_isSome ∈ came.results :=
    List.mem_of_getElem? (Option.some_get came_isSome).symm
  obtain ⟨r, there, query⟩ := Option.map_eq_some_iff.mp came_spec.1
  exact delivers_result came_spec.2 hmem (by rw [Option.get_of_eq_some _ there]; exact query)

lemma returning_possible : Enactable after possible playing returning := by
  refine ⟨⟨trivial, by decide +kernel, client_one⟩, ⟨trivial, client_one, by decide +kernel,
    by decide +kernel⟩, executes (by decide +kernel), executes (by decide +kernel),
    ⟨trivial, ?_⟩, ⟨trivial, ?_⟩, ⟨trivial, ?_⟩, executes (by decide +kernel), trivial⟩
  · change Server.leaving _ 1 = true
    decide +kernel
  · exact ⟨client_one, by decide +kernel, rfl, by decide +kernel⟩
  · exact ⟨newcomer8, by decide +kernel, by decide +kernel, rfl, rfl⟩

lemma secondLoad_possible : possible returned secondLoad := by
  have hmem : Option.get _ returned_isSome ∈ returned.results :=
    List.mem_of_getElem? (Option.some_get returned_isSome).symm
  obtain ⟨r, there, query⟩ := Option.map_eq_some_iff.mp returned_spec.1
  exact delivers_result returned_spec.2 hmem (by rw [Option.get_of_eq_some _ there]; exact query)

theorem coming_run : Run (ScriptStep oneSlot) known (enactTrace after known coming) came :=
  enact_run coming_possible

theorem firstLoad_step : ScriptStep oneSlot came firstLoad playing := ⟨firstLoad_possible, rfl⟩

theorem returning_run :
    Run (ScriptStep oneSlot) playing (enactTrace after playing returning) returned :=
  enact_run returning_possible

theorem secondLoad_step : ScriptStep oneSlot returned secondLoad playingAgain :=
  ⟨secondLoad_possible, rfl⟩

def bothSessions : List (Serial × List Bytes × Move) :=
  enactTrace after known coming ++ [(came, firstLoad)] ++ enactTrace after playing returning ++
    [(returned, secondLoad)]

theorem bothSessions_run : Run (ScriptStep oneSlot) known bothSessions playingAgain :=
  ((coming_run.snoc firstLoad_step).trans returning_run).snoc secondLoad_step

lemma admits_newcomer {past : List (Serial × List Bytes × Move)}
    (run : Run (ScriptStep oneSlot) (begin (fun _ => none) [] blank) past s)
    (hp : s.main.roster 1 = some p) (hnew : p.authorized = false)
    (hid : playerId p = bytes "STEAM_1:0:7") : Admits s.main p := by
  obtain ⟨events, session⟩ := session_of_run run
  have host := (Session.reachable host_start_vacant session).2
  rw [Admits, hid]
  refine ⟨by decide, by decide, fun j q live => ?_⟩
  obtain ⟨hlo, hhi⟩ := host.range j q live.1
  obtain rfl : j = 1 := le_antisymm hhi hlo
  obtain rfl : p = q := Option.some.inj (hp.symm.trans live.1)
  have hauth := live.2.2.1
  rw [hnew] at hauth
  cases hauth

lemma bothSessions_plays : ∀ x ∈ bothSessions, PlaysMove oneSlot x.1.main x.2.2 := by
  have newcomer : ∀ x ∈ bothSessions, ∀ p : Player, x.1.main.roster 1 = some p →
      p.authorized = false → playerId p = bytes "STEAM_1:0:7" → Admits x.1.main p := by
    intro x hx p hp hnew hid
    obtain ⟨_, _, _, _, prior, _⟩ := bothSessions_run.split hx
    exact admits_newcomer (registering_run.trans prior) hp hnew hid
  intro x hx
  have hmem := hx
  simp only [bothSessions, coming, returning, enactTrace, List.mem_append, List.mem_cons,
    List.not_mem_nil, or_false] at hx
  rcases hx with (((rfl | rfl | rfl) | rfl) | (rfl | rfl | rfl | rfl | rfl | rfl | rfl | rfl)) | rfl
  case inl.inl.inl.inr.inl =>
    intro p hp _
    have hp7 : p = newcomer7 := Option.some.inj (hp.symm.trans (by decide +kernel))
    exact newcomer _ hmem p hp (hp7 ▸ rfl) (hp7 ▸ rfl)
  case inl.inr.inl =>
    exact ⟨authorized newcomer7, by decide +kernel, by decide +kernel, 1, by decide +kernel,
      bytes "STEAM_1:0:7", by decide +kernel⟩
  case inl.inr.inr.inr.inr.inr.inr.inr.inl =>
    intro p hp _
    have hp8 : p = newcomer8 := Option.some.inj (hp.symm.trans (by decide +kernel))
    exact newcomer _ hmem p hp (hp8 ▸ rfl) (hp8 ▸ rfl)
  all_goals trivial

lemma served_again : Served playingAgain.main 1 (authorized newcomer8) :=
  ⟨by decide +kernel, by decide +kernel, 4, by decide +kernel, bytes "STEAM_1:0:7",
    by decide +kernel⟩

/-- The value of the first session is there in the second. -/
theorem sessions_round_trip_music :
    (getCookieValue playingAgain.main 0 1).2 = storedValue (bytes "on") := by
  have registers : ∀ x ∈ enactTrace after (begin (fun _ => none) [] blank) registering,
      Registers x.2.2 := by
    intro x hx
    simp only [registering, enactTrace, List.mem_cons, List.not_mem_nil, or_false] at hx
    rcases hx with rfl | rfl | rfl
    · exact ⟨by decide, by decide, by decide⟩
    · trivial
    · trivial
  have ids : OwnIds known.main := by
    have hcount : known.main.cookieCount = 1 := by decide +kernel
    constructor
    · intro c hc
      obtain rfl : c = 0 := by omega
      decide +kernel
    · intro c hc d hd _
      omega
  have hplayer : lastSet bothSessions (playerId (authorized newcomer8)) 0 = bytes "on" := by
    decide +kernel
  have hread := (sessions_round_trip registering_run registers ids bothSessions_run
    bothSessions_plays).1 1 _ served_again 0 (by decide +kernel)
  rwa [hplayer] at hread

end ClientPrefs.RoundTrip
