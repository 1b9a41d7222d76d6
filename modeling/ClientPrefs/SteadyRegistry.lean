import ClientPrefs.FirstRegistrations
import ClientPrefs.LiveSessions

/-!
# A registry that stands

Every cookie is registered under an id of its own. While players come and go, the cookies, their
ids and what Redis has of them stay, and every load lists exactly them.
-/
namespace ClientPrefs.SteadyRegistry
open ByteStrings Cookies CookieIds CookieManager CookieTable Extension FirstRegistrations FreshLoads
open LiveSessions LoadedRows PendingSaves QueryThread ReadPaths RedisReply RedisStore Registration
open SerialQueries SerialRegistry Session SlotTables SlotValues SoloRuns Transition

/-- Every cookie has a positive id that no other cookie has. -/
structure OwnIds (m : Server) : Prop where
  positive : ∀ c < m.cookieCount, 0 < (m.cookies c).dbid
  apart : ∀ c < m.cookieCount, ∀ d < m.cookieCount,
    (m.cookies c).dbid = (m.cookies d).dbid → c = d

/-- The rows list the cookies, with the description and the access of what was held first. -/
structure Lists (m : Server) (held : Bytes → Option Cookie) (rows : List (Cookie × Bytes)) :
    Prop where
  named : ∀ row ∈ rows, ∃ c < m.cookieCount, (m.cookies c).name = row.1.name
  first : ∀ row ∈ rows, ∃ k, held row.1.name = some k ∧ row.1.description = k.description ∧
    row.1.access = k.access
  complete : ∀ c < m.cookieCount, ∃ row ∈ rows, row.1.name = (m.cookies c).name

/-- The server with its cookies registered. -/
structure Founded (cfg : Config) (held : Bytes → Option Cookie) (base : Server) : Prop where
  wf : Wf base
  whole : AllWhole base
  tabled : Tabled cfg base
  ids : OwnIds base
  hashed : ∀ c < base.cookieCount,
    (base.cookies c).dbid = cookieHash cfg.hash (base.cookies c).name
  known : ∀ c < base.cookieCount, (held (base.cookies c).name).isSome = true
  held : ∀ n k, held n = some k →
    Readable k ∧ ∃ c < base.cookieCount, (base.cookies c).name = n

/-- What stays while players come and go. -/
structure Steady (cfg : Config) (held : Bytes → Option Cookie) (base : Server) (s : Serial) :
    Prop where
  recorded : Recorded cfg s
  table : tableOf s.main = tableOf base
  ids : ∀ c < base.cookieCount, (s.main.cookies c).dbid = (base.cookies c).dbid
  written : Written cfg.hash held s.store
  told : ∀ k c outcome, (k, .insertCookie c, outcome) ∈ s.results →
    outcome.insertId = (base.cookies c).dbid
  asked : ∀ c name, .selectId c name ∉ s.main.sent
  lists : ∀ k serial sid outcome, (k, .selectData serial sid, outcome) ∈ s.results →
    Lists base held outcome.results

def PlaysMove (cfg : Config) (m : Server) : Move → Prop
  | .main e => Plays cfg m e
  | _ => True

variable {cfg : Config} {held : Bytes → Option Cookie} {base m : Server} {s t : Serial}
  {mv : Move} {e : Event} {c : CookieRef} {sid : Bytes} {outcome : Outcome}
  {rows : List (Cookie × Bytes)}

lemma count_of_table {a b : Server} (same : tableOf b = tableOf a) :
    b.cookieCount = a.cookieCount := congrArg (fun x => x.2.1) same

lemma Founded.leads (h : Founded cfg held base) (same : tableOf m = tableOf base)
    (hc : c < base.cookieCount) : findCookie cfg m (base.cookies c).name = some c := by
  rw [findCookie_congr same]
  exact h.tabled.find h.wf hc (h.whole c).cut.symm

lemma Founded.id (h : Founded cfg held base) {store : Store}
    (written : Written cfg.hash held store) (hc : c < base.cookieCount) :
    store.value (idKey (base.cookies c).name) = some (toText (base.cookies c).dbid) := by
  obtain ⟨k, hk⟩ := Option.isSome_iff_exists.mp (h.known c hc)
  rw [written.id, hk, Option.map_some, h.hashed c hc]

lemma Founded.lists (h : Founded cfg held base) {store : Store} (kept : Kept store)
    (written : Written cfg.hash held store)
    (hout : (solo serve store (selectData scriptSha sid)).2 = some outcome) :
    Lists base held outcome.results := by
  obtain ⟨names, _, hmem, hresults⟩ := rows_of_select kept hout
  have hrow : ∀ row ∈ outcome.results, ∃ k, held row.1.name = some k ∧
      row.1.description = k.description ∧ row.1.access = k.access := by
    intro row hrow
    rw [hresults] at hrow
    obtain ⟨n, hn, hcookie⟩ := List.mem_filterMap.mp hrow
    have hname : row.1.name = n := cookieRow_name kept hcookie
    obtain ⟨id, hid⟩ := Option.isSome_iff_exists.mp ((hmem n).mp hn)
    obtain ⟨k, hk⟩ := Option.isSome_iff_exists.mp ((written.isSome_iff n).mp ((hmem n).mp hn))
    obtain ⟨⟨hdescription, hlo, hhi⟩, _⟩ := h.held n k hk
    obtain ⟨desc, hdesc, heq⟩ := cookieRow_registered kept hid sid
    obtain rfl : k.description = desc :=
      Option.some.inj ((written.desc n k hk).symm.trans hdesc)
    obtain rfl := Option.some.inj (hcookie.symm.trans heq)
    refine ⟨k, hname.symm ▸ hk, ?_, ?_⟩
    · have hcut : (Cookie.new n (cstr k.description)
          (readAccess (reply (store.getReply (accessKey n))))).description =
          utilStrncpy (some (cstr k.description)) maxDescLength := rfl
      have hcstr := cstr_utilStrncpy (some k.description) maxDescLength
      rw [hdescription] at hcstr
      exact hcut.trans (by rw [hcstr, hdescription])
    · have hread : readAccess (reply (store.getReply (accessKey n))) = k.access := by
        unfold Store.getReply
        rw [written.access n k hk]
        simp only [reply, readAccess, cstr_toText, stoi_toText hlo hhi]
      exact hread
  refine ⟨fun row hmem' => ?_, hrow, fun c hc => ?_⟩
  · obtain ⟨k, hk, _⟩ := hrow row hmem'
    exact (h.held _ k hk).2
  · have hid := h.id written hc
    obtain ⟨_, _, heq⟩ := cookieRow_registered kept hid sid
    refine ⟨_, ?_, cookieRow_name kept heq⟩
    rw [hresults]
    exact List.mem_filterMap.mpr ⟨_, (hmem _).mpr (by rw [hid]; rfl), heq⟩

def ledgerOf (m : Server) : (List (UInt32 × CookieRef) × ℕ × (CookieRef → Bytes)) × List Query ×
    (CookieRef → ℤ) := (tableOf m, m.sent, fun c => (m.cookies c).dbid)

lemma ledgerOf_loadRows (i : ℕ)
    (known : ∀ row ∈ rows, (findCookie cfg m row.1.name).isSome = true) :
    ledgerOf (rows.foldl (loadRow cfg i) m) = ledgerOf m := by
  induction rows generalizing m with
  | nil => rfl
  | cons row rows ih =>
    obtain ⟨k, hk⟩ := Option.isSome_iff_exists.mp (known row (List.mem_cons_self ..))
    have hfound : findOrCreate cfg m row.1 = (m, k) := by
      unfold findOrCreate
      rw [hk]
    have hrow : loadRow cfg i m row = linkData m k i ⟨storedValue row.2, false, 0, k⟩ := by
      unfold loadRow
      rw [hfound]
    have htable : tableOf (loadRow cfg i m row) = tableOf m := by
      rw [hrow, tableOf_linkData]
    have hledger : ledgerOf (loadRow cfg i m row) = ledgerOf m := by
      unfold ledgerOf
      rw [htable, hrow]
      refine congrArg (fun f => (tableOf m, m.sent, f)) (funext fun c => ?_)
      by_cases hc : c = k
      · subst hc
        simp [linkData, Server.setData, Server.modifyCookie, Server.appendData, Server.newData]
      · simp [linkData, Server.setData, Server.modifyCookie, Server.appendData, Server.newData, hc]
    rw [List.foldl_cons, ih, hledger]
    intro row' hrow'
    rw [findCookie_congr htable]
    exact known row' (List.mem_cons_of_mem _ hrow')

lemma Steady.deliver (founded : Founded cfg held base) (h : Steady cfg held base s) {k : ℕ}
    {q : Query} (hresult : (k, q, outcome) ∈ s.results) :
    tableOf (runFrame cfg s.main k outcome) = tableOf s.main ∧
      (runFrame cfg s.main k outcome).sent = s.main.sent ∧
      ∀ c < base.cookieCount,
        ((runFrame cfg s.main k outcome).cookies c).dbid = (s.main.cookies c).dbid := by
  have hquery : s.main.sent[k]? = some q :=
    (h.recorded.queued.orderly.coupled.answered.results _ hresult).1
  simp only [runFrame, hquery]
  cases q with
  | insertCookie c =>
    have hlt := h.recorded.queued.orderly.coupled.registers c (List.mem_of_getElem? hquery)
    have hc : c < base.cookieCount := count_of_table h.table ▸ hlt
    have hid := h.told k c outcome hresult
    have hpos : 0 < outcome.insertId := hid.symm ▸ founded.ids.positive c hc
    simp only [runThinkPart, insertCookieCallback, if_pos hpos]
    refine ⟨tableOf_modifyCookie c fun _ => rfl, rfl, fun d _ => ?_⟩
    by_cases hd : d = c
    · subst hd
      simp only [Server.modifyCookie, Function.update_self]
      rw [hid, h.ids d hc]
    · simp only [Server.modifyCookie, Function.update_of_ne hd]
  | selectData serial sid =>
    simp only [runThinkPart, clientConnectCallback]
    split_ifs
    · exact ⟨rfl, rfl, fun _ _ => rfl⟩
    · let start : Server := clearPending { s.main with finished := s.main.finished ++ [k] }
        (getClientFromSerial cfg s.main serial)
      have hstart : tableOf start = tableOf s.main := rfl
      have known : ∀ row ∈ outcome.results, (findCookie cfg start row.1.name).isSome = true := by
        intro row hrow
        obtain ⟨c, hc, hname⟩ := (h.lists k serial sid outcome hresult).named row hrow
        rw [← hname, founded.leads (hstart.trans h.table) hc]
        rfl
      have hledger : ledgerOf (outcome.results.foldl
          (loadRow cfg (getClientFromSerial cfg s.main serial)) start) = ledgerOf start :=
        ledgerOf_loadRows _ known
      simp only [ledgerOf, Prod.mk.injEq] at hledger
      obtain ⟨htable, hsent, hids⟩ := hledger
      exact ⟨htable, hsent, fun c _ => congrFun hids c⟩
  | insertData sid id a => exact ⟨rfl, rfl, fun _ _ => rfl⟩
  | selectId c name => exact absurd (List.mem_of_getElem? hquery) (h.asked c name)

lemma table_of_plays (hwf : Wf m) (own : Own e) (plays : Plays cfg m e) :
    tableOf (e.apply cfg m) = tableOf m := by
  cases e with
  | connect i p => rfl
  | authorize i => exact tableOf_onClientAuthorized i
  | disconnecting i => exact tableOf_onClientDisconnecting hwf i
  | disconnected i => rfl
  | reconnect => exact tableOf_attemptReconnection
  | createCookie name description access =>
    obtain ⟨c, hc⟩ := Option.isSome_iff_exists.mp plays
    exact tableOf_createCookie_of_found hc
  | setCookieValue c i value now => exact tableOf_setCookieValue c i value now
  | getCookieValue c i => exact tableOf_getCookieValue c i
  | setAuthIdCookie authId c value now => exact plays.elim
  | think k talk outcome => exact own.elim

lemma plays_of_is (plays : PlaysMove cfg m mv) (his : mv.Is e) : Plays cfg m e := by
  cases mv with
  | main e' =>
    obtain ⟨_, rfl⟩ := his
    exact plays
  | execute => exact his.elim
  | deliver k q outcome =>
    cases e with
    | think k' talk outcome' => trivial
    | _ => exact his.elim

lemma Steady.silent (founded : Founded cfg held base) (h : Steady cfg held base s)
    (step : SerialStep cfg s mv t) (his : mv.Is e) : Silent cfg s.main e := by
  rintro k talk outcome rfl
  cases mv with
  | main e' =>
    obtain ⟨own, rfl⟩ := his
    exact own.elim
  | execute => exact his.elim
  | deliver k' q outcome' =>
    obtain ⟨rfl, rfl⟩ := his
    exact (h.deliver founded step.1.2).2.1

lemma Steady.registry_main (founded : Founded cfg held base) (h : Steady cfg held base s)
    (plays : PlaysMove cfg s.main mv) (step : SerialStep cfg s mv t) (his : mv.Is e)
    (allowed : e.Allowed cfg s.main) (hmain : t.main = e.apply cfg s.main) :
    tableOf t.main = tableOf s.main ∧
      ∀ c < base.cookieCount, (t.main.cookies c).dbid = (s.main.cookies c).dbid := by
  cases mv with
  | main e' =>
    obtain ⟨own, rfl⟩ := his
    have ext := Extends.apply h.recorded.wf allowed
    rw [hmain]
    refine ⟨table_of_plays h.recorded.wf own plays, fun c hc => ?_⟩
    rw [← count_of_table h.table] at hc
    rcases ext.ids c with hsame | ⟨hnew, _⟩ | tells
    · exact hsame.2
    · exact absurd hc (not_lt.mpr hnew)
    · cases e' with
      | think => exact own.elim
      | _ => exact tells.elim
  | execute => exact his.elim
  | deliver k q outcome =>
    obtain ⟨htable, _, hids⟩ := h.deliver founded step.1.2
    cases e with
    | think k' talk outcome' =>
      obtain ⟨rfl, rfl⟩ := his
      rw [hmain]
      exact ⟨htable, hids⟩
    | _ => exact his.elim

lemma Steady.withScripts (h : Steady cfg held base s) (scripts : List Bytes) :
    Steady cfg held base (withScripts s scripts) :=
  ⟨h.recorded.withScripts scripts, h.table, h.ids, ⟨h.written.id, h.written.desc, h.written.access⟩,
    h.told, h.asked, h.lists⟩

lemma sparing_of_sessions (sessions : Sessions cfg m) : Sparing m :=
  fun sid id a hq => notRegistry_valueKey (sessions.spares sid id a hq) id

theorem Steady.execute_step (founded : Founded cfg held base) (h : Steady cfg held base s)
    (sessions : Sessions cfg s.main) {q : Query}
    (hq : s.main.sent[s.results.length]? = some q)
    (hout : (solo serve s.store (convOf cfg s.main q)).2 = some outcome)
    (step : SerialStep cfg s .execute ⟨s.main, (solo serve s.store (convOf cfg s.main q)).1,
      s.results ++ [(s.results.length, q, outcome)]⟩) :
    Steady cfg held base ⟨s.main, (solo serve s.store (convOf cfg s.main q)).1,
      s.results ++ [(s.results.length, q, outcome)]⟩ := by
  have sparing : Sparing s.main := sparing_of_sessions sessions
  have kept : Kept s.store := h.recorded.kept sparing
  have hstore : (solo serve s.store (convOf cfg s.main q)).1 =
      storeAfter cfg.hash s.store (jobOf s.main q) := solo_store kept _
  have main : FromMain (jobOf s.main q) :=
    fromMain_of_sparing h.recorded.whole sparing (List.mem_of_getElem? hq)
  have recorded := h.recorded.serial step
  have hname : ∀ c, (s.main.cookies c).name = (base.cookies c).name := name_of_table h.table
  refine ⟨recorded, h.table, h.ids, ?_, ?_, h.asked, ?_⟩
  · rw [hstore]
    cases q with
    | insertCookie c =>
      have hlt := h.recorded.queued.orderly.coupled.registers c (List.mem_of_getElem? hq)
      obtain ⟨k, hk⟩ := Option.isSome_iff_exists.mp
        (founded.known c (count_of_table h.table ▸ hlt))
      have hsame : (fun n => (held n).or
          (if (s.main.cookies c).name = n then some (s.main.cookies c) else none)) = held := by
        funext n
        by_cases hn : (s.main.cookies c).name = n
        · rw [← hn, hname c, hk, Option.some_or]
        · rw [if_neg hn, Option.or_none]
      have hinsert := h.written.insert (s.main.cookies c)
      rwa [hsame] at hinsert
    | insertData sid id a => exact h.written.keep main (fun _ _ _ heq => by cases heq)
    | selectData serial sid => exact h.written
    | selectId c name => exact h.written
  · intro k c outcome' hmem
    rcases List.mem_append.mp hmem with hmem | hmem
    · exact h.told k c outcome' hmem
    · obtain ⟨_, rfl, rfl⟩ : _ ∧ Query.insertCookie c = q ∧ outcome' = outcome := by
        simpa using hmem
      have hlt := h.recorded.queued.orderly.coupled.registers c (List.mem_of_getElem? hq)
      rw [h.written.insertId_insertCookie hout, founded.hashed c (count_of_table h.table ▸ hlt),
        hname c]
  · intro k serial sid outcome' hmem
    rcases List.mem_append.mp hmem with hmem | hmem
    · exact h.lists k serial sid outcome' hmem
    · obtain ⟨_, rfl, rfl⟩ : _ ∧ Query.selectData serial sid = q ∧ outcome' = outcome := by
        simpa using hmem
      exact founded.lists kept h.written hout

/-- The registry and the sessions stay in order through every move. -/
theorem Steady.step (founded : Founded cfg held base) (h : Steady cfg held base s)
    (sessions : Sessions cfg s.main) (plays : PlaysMove cfg s.main mv)
    (step : SerialStep cfg s mv t) : Steady cfg held base t ∧ Sessions cfg t.main := by
  rcases h.recorded.queued.orderly.cases step with ⟨e, his, ⟨allowed, hmain⟩, ht⟩ |
    ⟨q, outcome, rfl, hq, hout, rfl⟩
  · have hplays : Plays cfg s.main e := plays_of_is plays his
    have silent : Silent cfg s.main e := h.silent founded step his
    obtain ⟨htable, hids⟩ := h.registry_main founded plays step his allowed hmain
    have hstore : t.store = s.store := by rw [ht]
    have hresults : t.results = s.results := by rw [ht]
    refine ⟨⟨h.recorded.serial step, htable.trans h.table,
      fun c hc => (hids c hc).trans (h.ids c hc), hstore ▸ h.written, hresults ▸ h.told,
      fun c name hq => ?_, hresults ▸ h.lists⟩, hmain ▸ sessions.apply allowed hplays silent⟩
    obtain ⟨new, own, hsent, distant, howner⟩ := sessions.new_queries allowed hplays silent
    rw [hmain, hsent, List.mem_append, List.mem_append] at hq
    rcases hq with hq | hq | hq
    · exact h.asked c name hq
    · exact distant.ids c name hq
    · rcases howner with rfl | ⟨_, _, _, _, _, _, rfl⟩
      · cases hq
      · cases List.mem_singleton.mp hq
  · exact ⟨h.execute_step founded sessions hq hout step, sessions⟩

section Registered
variable {past : List (Serial × List Bytes × Move)}

lemma founded_of_registering (h : Registering cfg past s) (ids : OwnIds s.main) :
    Founded cfg (firstHeld past) s.main := by
  have hashed : ∀ c < s.main.cookieCount, (s.main.cookies c).dbid =
      cookieHash cfg.hash (s.main.cookies c).name ∧
      (firstHeld past (s.main.cookies c).name).isSome = true := by
    intro c hc
    have hpos := ids.positive c hc
    rcases h.main.ids c with hnone | ⟨_, hid, hknown⟩
    · rw [hnone] at hpos
      exact absurd hpos (by decide)
    · exact ⟨hid, (h.written.isSome_iff _).mp hknown⟩
  exact ⟨h.recorded.wf, h.recorded.whole, h.main.tabled, ids, fun c hc => (hashed c hc).1,
    fun c hc => (hashed c hc).2, h.held⟩

lemma steady_of_registering (h : Registering cfg past s) (ids : OwnIds s.main) :
    Steady cfg (firstHeld past) s.main s := by
  have founded := founded_of_registering h ids
  refine ⟨h.recorded, rfl, fun _ _ => rfl, h.written, fun k c outcome hmem => ?_,
    fun c name hq => ?_, fun k serial sid outcome hmem => ?_⟩
  · have hquery := (h.recorded.queued.orderly.coupled.answered.results _ hmem).1
    have hlt := h.recorded.queued.orderly.coupled.registers c (List.mem_of_getElem? hquery)
    rw [h.told k c outcome hmem, founded.hashed c hlt]
  · obtain ⟨hc, hneg⟩ := h.main.asked c name hq
    rw [← founded.hashed c hc] at hneg
    exact absurd (ids.positive c hc) (not_lt.mpr hneg)
  · have hquery := (h.recorded.queued.orderly.coupled.answered.results _ hmem).1
    exact (h.main.enrolling _ (List.mem_of_getElem? hquery)).elim

lemma sessions_of_registering (h : Registering cfg past s) : Sessions cfg s.main := by
  have nobody : ∀ i p, s.main.roster i ≠ some p := by
    intro i p hp
    rw [h.main.roster] at hp
    cases hp
  refine ⟨h.recorded.wf, ⟨fun i p hp => absurd hp (nobody i p), fun i p hp => absurd hp (nobody i p),
    fun i _ p _ hp => absurd hp (nobody i p)⟩, ?_, fun i p live => absurd live.1 (nobody i p),
    fun i p _ hp => absurd hp (nobody i p), fun i p live => absurd live.1 (nobody i p),
    fun i _ p _ live => absurd live.1 (nobody i p), ?_, ?_, ?_, ?_⟩
  · intro k sid hq
    exact (h.main.enrolling _ hq).elim
  · exact List.pairwise_of_forall_mem_list fun _ _ _ _ i p _ _ live => absurd live.1 (nobody i p)
  · intro i a e ha
    rw [h.main.clientData] at ha
    cases ha
  · intro i a e ha
    rw [h.main.clientData] at ha
    cases ha
  · intro sid id a hq
    exact (h.main.enrolling _ hq).elim

end Registered

end ClientPrefs.SteadyRegistry
