import ClientPrefs.SerialRegistry

/-!
# Registrations before anybody comes

Redis is empty and no player is there. Cookies are created, and their queries are executed and
delivered. Redis then has of each cookie what it held when its first query was executed.
-/
namespace ClientPrefs.FirstRegistrations
open ByteStrings Cookies CookieIds CookieManager CookieTable Extension FreshLoads LateLoad
open PendingSaves QueryThread ReadPaths RedisReply RedisStore RegisteredIds Registration SaveOrder
open SerialQueries SerialRegistry Session SlotTables SoloRuns Transition

/-- The moves of the registrations; an access is an `int`. -/
def Registers : Move → Prop
  | .main (.createCookie name _ access) => Fits name ∧ -2 ^ 31 ≤ access ∧ access < 2 ^ 31
  | .main .reconnect => True
  | .main _ => False
  | _ => True

/-- The cookie whose `InsertCookie` the move executes, as it is then. -/
def inserting (x : Serial × List Bytes × Move) : Option Cookie :=
  match x.2.2, x.1.main.sent[x.1.results.length]? with
  | .execute, some (.insertCookie c) => some (x.1.main.cookies c)
  | _, _ => none

/-- The cookie of the name, as it was when its first `InsertCookie` ran. -/
def firstHeld (past : List (Serial × List Bytes × Move)) (name : Bytes) : Option Cookie :=
  (past.filterMap inserting).find? fun k => k.name = name

/-- What Redis gives back of the description and the access is what they are. -/
def Readable (k : Cookie) : Prop :=
  utilStrncpy (some k.description) maxDescLength = k.description ∧
    -2 ^ 31 ≤ k.access ∧ k.access < 2 ^ 31

/-- Redis has these cookies registered and no other. -/
structure Written (hash : Bytes → ℕ) (held : Bytes → Option Cookie) (store : Store) : Prop where
  id : ∀ n, store.value (idKey n) = (held n).map fun _ => toText (cookieHash hash n)
  desc : ∀ n k, held n = some k → store.value (descKey n) = some k.description
  access : ∀ n k, held n = some k → store.value (accessKey n) = some (toText k.access)

def Enrolling : Query → Prop
  | .insertCookie _ => True
  | .selectId _ _ => True
  | _ => False

/-- The main thread before anybody comes; `known` are the names that Redis has. -/
structure Preparing (cfg : Config) (known : Bytes → Prop) (m : Server) : Prop where
  tabled : Tabled cfg m
  roster : m.roster = fun _ => none
  clientData : m.clientData = fun _ => []
  enrolling : ∀ q ∈ m.sent, Enrolling q
  readable : ∀ c, Readable (m.cookies c)
  /-- The id is asked for again when it was not positive. -/
  asked : ∀ c n, .selectId c n ∈ m.sent →
    c < m.cookieCount ∧ cookieHash cfg.hash (m.cookies c).name ≤ 0
  ids : ∀ c, (m.cookies c).dbid = -1 ∨ c < m.cookieCount ∧
    (m.cookies c).dbid = cookieHash cfg.hash (m.cookies c).name ∧ known (m.cookies c).name

structure Registering (cfg : Config) (past : List (Serial × List Bytes × Move)) (s : Serial) :
    Prop where
  recorded : Recorded cfg s
  main : Preparing cfg (fun n => (s.store.value (idKey n)).isSome = true) s.main
  written : Written cfg.hash (firstHeld past) s.store
  held : ∀ n k, firstHeld past n = some k →
    Readable k ∧ ∃ c < s.main.cookieCount, (s.main.cookies c).name = n
  told : ∀ k c outcome, (k, .insertCookie c, outcome) ∈ s.results →
    outcome.insertId = cookieHash cfg.hash (s.main.cookies c).name
  failed : ∀ k c n outcome, (k, .selectId c n, outcome) ∈ s.results → outcome.insertId = -1
  due : ∀ key, NotRegistry key → due s key = none

variable {cfg : Config} {hash : Bytes → ℕ} {held : Bytes → Option Cookie} {store : Store}
  {s t : Serial} {m : Server} {known : Bytes → Prop} {c : CookieRef}
  {past : List (Serial × List Bytes × Move)} {x : Serial × List Bytes × Move}

lemma firstHeld_append (past : List (Serial × List Bytes × Move))
    (x : Serial × List Bytes × Move) (name : Bytes) :
    firstHeld (past ++ [x]) name =
      (firstHeld past name).or ((inserting x).bind fun k => if k.name = name then some k else none) := by
  unfold firstHeld
  rw [List.filterMap_append, List.find?_append]
  cases hx : inserting x with
  | none => simp [hx]
  | some k =>
    by_cases hname : k.name = name
    · simp [hx, hname]
    · simp [hx, hname]

lemma Written.settled (h : Written hash held store) (n : Bytes) :
    Settled hash n (cookieHash hash n) store := by
  unfold Settled
  rw [h.id]
  cases held n with
  | none => exact .inr ⟨rfl, rfl⟩
  | some k => exact .inl rfl

theorem Written.isSome_iff (h : Written hash held store) (n : Bytes) :
    (store.value (idKey n)).isSome = true ↔ (held n).isSome = true := by
  rw [h.id, Option.isSome_map]

lemma Written.insert (h : Written hash held store) (k : Cookie) :
    Written hash (fun n => (held n).or (if k.name = n then some k else none))
      (storeAfter hash store (.insertCookie k.name k.description k.access)) := by
  simp only [storeAfter]
  by_cases hknown : (store.value (idKey k.name)).isSome = true
  · have hsame : (fun n => (held n).or (if k.name = n then some k else none)) = held := by
      funext n
      obtain ⟨k', hk'⟩ := Option.isSome_iff_exists.mp ((h.isSome_iff k.name).mp hknown)
      by_cases hn : k.name = n
      · rw [← hn, hk', Option.some_or]
      · rw [if_neg hn, Option.or_none]
    rw [if_pos hknown, hsame]
    exact h
  · have hnone : held k.name = none := by
      rw [h.isSome_iff] at hknown
      exact Option.not_isSome_iff_eq_none.mp hknown
    rw [if_neg hknown]
    have hcases : ∀ n k', (held n).or (if k.name = n then some k else none) = some k' →
        n = k.name ∧ k' = k ∨ n ≠ k.name ∧ held n = some k' := by
      intro n k' hn
      by_cases hname : n = k.name
      · subst hname
        rw [hnone, Option.none_or, if_pos rfl, Option.some.injEq] at hn
        exact .inl ⟨rfl, hn.symm⟩
      · rw [if_neg fun heq => hname heq.symm, Option.or_none] at hn
        exact .inr ⟨hname, hn⟩
    constructor
    · intro n
      rw [enrolled_id]
      by_cases hname : n = k.name
      · subst hname
        rw [if_pos rfl, hnone, Option.none_or, if_pos rfl, Option.map_some]
      · rw [if_neg hname, if_neg fun heq => hname heq.symm, Option.or_none, h.id]
    · intro n k' hn
      rw [enrolled_desc]
      rcases hcases n k' hn with ⟨rfl, rfl⟩ | ⟨hname, hn⟩
      · rw [if_pos rfl]
      · rw [if_neg hname, h.desc n k' hn]
    · intro n k' hn
      rw [enrolled_access]
      rcases hcases n k' hn with ⟨rfl, rfl⟩ | ⟨hname, hn⟩
      · rw [if_pos rfl]
      · rw [if_neg hname, h.access n k' hn]

lemma Written.keep (h : Written hash held store) {j : Job} (main : FromMain j)
    (hj : ∀ n d a, j ≠ .insertCookie n d a) : Written hash held (storeAfter hash store j) := by
  cases j with
  | insertCookie n d a => exact absurd rfl (hj n d a)
  | insertData sid id value =>
    have hsame : ∀ n, (storeAfter hash store (.insertData sid id value)).value (idKey n) =
          store.value (idKey n) ∧
        (storeAfter hash store (.insertData sid id value)).value (descKey n) =
          store.value (descKey n) ∧
        (storeAfter hash store (.insertData sid id value)).value (accessKey n) =
          store.value (accessKey n) := by
      intro n
      obtain ⟨hid, hdesc, haccess⟩ := main n
      refine ⟨?_, ?_, ?_⟩
      · exact (value_write ..).trans (if_neg fun heq => hid heq.symm)
      · exact (value_write ..).trans (if_neg fun heq => hdesc heq.symm)
      · exact (value_write ..).trans (if_neg fun heq => haccess heq.symm)
    constructor
    · intro n
      rw [(hsame n).1, h.id]
    · intro n k hk
      rw [(hsame n).2.1, h.desc n k hk]
    · intro n k hk
      rw [(hsame n).2.2, h.access n k hk]
  | selectData sid => exact h
  | selectId n => exact h

lemma Preparing.mono {known' : Bytes → Prop} (h : Preparing cfg known m)
    (more : ∀ n, known n → known' n) : Preparing cfg known' m where
  tabled := h.tabled
  roster := h.roster
  clientData := h.clientData
  enrolling := h.enrolling
  readable := h.readable
  asked := h.asked
  ids c := (h.ids c).imp id fun hid => ⟨hid.1, hid.2.1, more _ hid.2.2⟩

lemma Preparing.start (cfg : Config) (known : Bytes → Prop) (spent : List ℕ) :
    Preparing cfg known (start (fun _ => none) spent) := by
  have hrange : -2 ^ 31 ≤ accessPublic ∧ accessPublic < 2 ^ 31 := by decide
  exact
  { tabled := ⟨fun c hc => absurd hc (Nat.not_lt_zero c), fun c _ hc => absurd hc (Nat.not_lt_zero c)⟩
    roster := rfl
    clientData := rfl
    enrolling := fun q hq => absurd hq List.not_mem_nil
    readable := fun _ => ⟨rfl, hrange⟩
    asked := fun c n hq => absurd hq List.not_mem_nil
    ids := fun _ => .inl rfl }

lemma missedSlots_of_vacant (h : m.roster = fun _ => none) : missedSlots cfg m = [] := by
  refine List.filter_eq_nil_iff.mpr fun i _ hmissed => ?_
  obtain ⟨_, _, p, hp, _⟩ := missed_iff.mp hmissed
  rw [h] at hp
  cases hp

lemma Preparing.attemptReconnection (h : Preparing cfg known m) :
    Preparing cfg known (attemptReconnection cfg m) := by
  have hsent : (CookieManager.attemptReconnection cfg m).sent = m.sent := by
    rw [attemptReconnection_eq, missedSlots_of_vacant h.roster]
    exact List.append_nil _
  have hsame : (CookieManager.attemptReconnection cfg m).roster = m.roster ∧
      (CookieManager.attemptReconnection cfg m).clientData = m.clientData ∧
      (CookieManager.attemptReconnection cfg m).cookies = m.cookies ∧
      (CookieManager.attemptReconnection cfg m).cookieCount = m.cookieCount := by
    rw [attemptReconnection_eq]
    exact ⟨rfl, rfl, rfl, rfl⟩
  obtain ⟨hroster, hclient, hcookies, hcount⟩ := hsame
  refine ⟨h.tabled.congr tableOf_attemptReconnection, ?_, ?_, ?_, ?_, ?_, ?_⟩
  · rw [hroster, h.roster]
  · rw [hclient, h.clientData]
  · rw [hsent]
    exact h.enrolling
  · rw [hcookies]
    exact h.readable
  · rw [hsent, hcookies, hcount]
    exact h.asked
  · rw [hcookies, hcount]
    exact h.ids

lemma readable_description (d : Bytes) :
    utilStrncpy (some (utilStrncpy (some d) maxDescLength)) maxDescLength =
      utilStrncpy (some d) maxDescLength := utilStrncpy_idem (some d) (by decide)

lemma Preparing.createCookie (hwf : Wf m) (h : Preparing cfg known m) {name : Bytes}
    (fits : Fits name) (d : Bytes) {a : CookieAccess} (hlo : -2 ^ 31 ≤ a) (hhi : a < 2 ^ 31) :
    Preparing cfg known (createCookie cfg m name d a).1 := by
  have tabled : Tabled cfg (CookieManager.createCookie cfg m name d a).1 :=
    h.tabled.createCookie hwf fits d a
  cases hfound : findCookie cfg m name with
  | some c =>
    have hcreate : (CookieManager.createCookie cfg m name d a).1 = m.modifyCookie c fun k =>
        { k with description := utilStrncpy (some d) maxDescLength, access := a } := by
      simp only [CookieManager.createCookie, hfound]
    rw [hcreate] at tabled ⊢
    have hcookie : ∀ c', ((m.modifyCookie c fun k =>
          { k with description := utilStrncpy (some d) maxDescLength, access := a }).cookies c').name =
          (m.cookies c').name ∧ ((m.modifyCookie c fun k =>
          { k with description := utilStrncpy (some d) maxDescLength, access := a }).cookies c').dbid =
          (m.cookies c').dbid := by
      intro c'
      by_cases hc : c' = c
      · subst hc
        simp [Server.modifyCookie]
      · simp [Server.modifyCookie, hc]
    refine ⟨tabled, h.roster, h.clientData, h.enrolling, fun c' => ?_, fun c' n hq => ?_,
      fun c' => ?_⟩
    · by_cases hc : c' = c
      · subst hc
        simp only [Server.modifyCookie, Function.update_self]
        exact ⟨readable_description d, hlo, hhi⟩
      · simp only [Server.modifyCookie, Function.update_of_ne hc]
        exact h.readable c'
    · rw [(hcookie c').1]
      exact h.asked c' n hq
    · rw [(hcookie c').1, (hcookie c').2]
      exact h.ids c'
  | none =>
    have hcreate : (CookieManager.createCookie cfg m name d a).1 =
        { m with
          cookies := Function.update m.cookies m.cookieCount (Cookie.new name d a)
          cookieCount := m.cookieCount + 1
          cookieFinder := m.cookieFinder ++ [(cfg.nameHash (cstr name), m.cookieCount)]
          sent := m.sent ++ [.insertCookie m.cookieCount] } := by
      simp only [CookieManager.createCookie, hfound]
      rfl
    rw [hcreate] at tabled ⊢
    refine ⟨tabled, h.roster, h.clientData, fun q hq => ?_, fun c => ?_, fun c n hq => ?_,
      fun c => ?_⟩
    · rcases List.mem_append.mp hq with hq | hq
      · exact h.enrolling q hq
      · rw [List.mem_singleton.mp hq]
        trivial
    · by_cases hc : c = m.cookieCount
      · subst hc
        simp only [Function.update_self]
        exact ⟨readable_description d, hlo, hhi⟩
      · simp only [Function.update_of_ne hc]
        exact h.readable c
    · obtain ⟨hlt, hneg⟩ := h.asked c n (by simpa using hq)
      simp only [Function.update_of_ne hlt.ne]
      exact ⟨Nat.lt_succ_of_lt hlt, hneg⟩
    · by_cases hc : c = m.cookieCount
      · subst hc
        simp only [Function.update_self]
        exact .inl rfl
      · simp only [Function.update_of_ne hc]
        exact (h.ids c).imp id fun hid => ⟨Nat.lt_succ_of_lt hid.1, hid.2⟩

lemma Preparing.tell (h : Preparing cfg known m) {id : ℤ}
    (hid : id = -1 ∨ c < m.cookieCount ∧ id = cookieHash cfg.hash (m.cookies c).name ∧
      known (m.cookies c).name) :
    Preparing cfg known (m.modifyCookie c fun k => { k with dbid := id }) := by
  have hsame : ∀ c', ((m.modifyCookie c fun k => { k with dbid := id }).cookies c').name =
        (m.cookies c').name ∧
      (Readable (m.cookies c') → Readable ((m.modifyCookie c fun k => { k with dbid := id }).cookies c'))
        := by
    intro c'
    by_cases hc : c' = c
    · subst hc
      simp [Server.modifyCookie, Readable]
    · simp [Server.modifyCookie, hc]
  refine ⟨h.tabled.congr (tableOf_modifyCookie c fun _ => rfl), h.roster, h.clientData,
    h.enrolling, fun c' => (hsame c').2 (h.readable c'), fun c' n hq => ?_, fun c' => ?_⟩
  · rw [(hsame c').1]
    exact h.asked c' n hq
  · rw [(hsame c').1]
    by_cases hc : c' = c
    · subst hc
      simp only [Server.modifyCookie, Function.update_self]
      exact hid
    · simp only [Server.modifyCookie, Function.update_of_ne hc]
      exact h.ids c'

lemma Preparing.runFrame (h : Preparing cfg known m) {k : ℕ} {q : Query} (outcome : Outcome)
    (hq : m.sent[k]? = some q)
    (told : ∀ c, q = .insertCookie c → c < m.cookieCount ∧
      outcome.insertId = cookieHash cfg.hash (m.cookies c).name ∧ known (m.cookies c).name)
    (failed : ∀ c n, q = .selectId c n → outcome.insertId = -1) :
    Preparing cfg known (runFrame cfg m k outcome) := by
  have hfinished : Preparing cfg known { m with finished := m.finished ++ [k] } :=
    ⟨h.tabled.congr rfl, h.roster, h.clientData, h.enrolling, h.readable, h.asked, h.ids⟩
  simp only [Session.runFrame, hq]
  cases q with
  | insertCookie c =>
    obtain ⟨hc, hid, hknown⟩ := told c rfl
    simp only [runThinkPart, insertCookieCallback]
    split_ifs with hpos
    · exact hfinished.tell (.inr ⟨hc, hid, hknown⟩)
    · refine ⟨h.tabled.congr rfl, h.roster, h.clientData, fun r hr => ?_, h.readable,
        fun c' n hr => ?_, h.ids⟩
      · rcases List.mem_append.mp hr with hr | hr
        · exact h.enrolling r hr
        · rw [List.mem_singleton.mp hr]
          trivial
      · rcases List.mem_append.mp hr with hr | hr
        · exact h.asked c' n hr
        · obtain ⟨rfl, _⟩ := Query.selectId.inj (List.mem_singleton.mp hr)
          exact ⟨hc, hid ▸ not_lt.mp hpos⟩
  | selectId c n => exact hfinished.tell (.inl (failed c n rfl))
  | selectData serial sid => exact (h.enrolling _ (List.mem_of_getElem? hq)).elim
  | insertData sid id a => exact (h.enrolling _ (List.mem_of_getElem? hq)).elim

lemma Registering.congr {past' : List (Serial × List Bytes × Move)} (h : Registering cfg past s)
    (same : firstHeld past' = firstHeld past) : Registering cfg past' s :=
  ⟨h.recorded, h.main, same ▸ h.written, same ▸ h.held, h.told, h.failed, h.due⟩

lemma Registering.withScripts (h : Registering cfg past s) (scripts : List Bytes) :
    Registering cfg past (withScripts s scripts) :=
  ⟨h.recorded.withScripts scripts, h.main, ⟨h.written.id, h.written.desc, h.written.access⟩, h.held,
    h.told, h.failed, h.due⟩

lemma Registering.begin (spent : List ℕ) (scripts : List Bytes) (listing : Listing) :
    Registering cfg [] (begin (fun _ => none) spent (.empty scripts listing)) where
  recorded := Recorded.begin _ spent (Kept.empty scripts listing)
  main := Preparing.start cfg _ spent
  written := ⟨fun _ => rfl, fun _ _ hk => absurd hk (by simp [firstHeld]),
    fun _ _ hk => absurd hk (by simp [firstHeld])⟩
  held _ _ hk := absurd hk (by simp [firstHeld])
  told _ _ _ hmem := absurd hmem List.not_mem_nil
  failed _ _ _ _ hmem := absurd hmem List.not_mem_nil
  due _ _ := rfl

lemma Registering.sparing (h : Registering cfg past s) : Sparing s.main :=
  fun _ _ _ hq => (h.main.enrolling _ hq).elim

lemma firstHeld_quiet (hx : inserting x = none) : firstHeld (past ++ [x]) = firstHeld past := by
  funext n
  rw [firstHeld_append, hx, Option.bind_none, Option.or_none]

theorem Registering.main_step (h : Registering cfg past s) {mv : Move} (step : SerialStep cfg s mv t)
    (prep : Preparing cfg (fun n => (s.store.value (idKey n)).isSome = true) t.main)
    (ht : t = { s with main := t.main }) (saves : newSaves cfg s mv = []) (scripts : List Bytes)
    (hx : inserting (s, scripts, mv) = none) :
    Registering cfg (past ++ [(s, scripts, mv)]) t := by
  have hstore : t.store = s.store := by rw [ht]
  have hresults : t.results = s.results := by rw [ht]
  obtain ⟨_, hcount, hnames⟩ := extends_of_step h.recorded.queued step
  have hregisters := h.recorded.queued.orderly.coupled.registers
  have hanswered := h.recorded.queued.orderly.coupled.answered.results
  refine Registering.congr ⟨h.recorded.serial step, hstore ▸ prep, hstore ▸ h.written, ?_, ?_, ?_, ?_⟩
    (firstHeld_quiet hx)
  · intro n k hk
    obtain ⟨hreadable, c, hc, hname⟩ := h.held n k hk
    exact ⟨hreadable, c, hc.trans_le hcount, (hnames c hc).trans hname⟩
  · intro k c outcome hmem
    rw [hresults] at hmem
    have hc := hregisters c (List.mem_of_getElem? (hanswered _ hmem).1)
    rw [hnames c hc]
    exact h.told k c outcome hmem
  · rw [hresults]
    exact h.failed
  · intro key outside
    rw [due_step h.recorded.queued step outside, saves, h.due key outside]
    rfl

lemma Written.insertId_insertCookie (h : Written cfg.hash held s.store) {outcome : Outcome}
    (hout : (solo serve s.store (convOf cfg s.main (.insertCookie c))).2 = some outcome) :
    outcome.insertId = cookieHash cfg.hash (s.main.cookies c).name := by
  obtain ⟨hlo, hhi⟩ := cookieHash_range cfg.hash (s.main.cookies c).name
  have hsolo := (solo_insertCookie (s.main.cookies c).description (s.main.cookies c).access
    (h.settled (s.main.cookies c).name) (by omega) hhi).1
  rw [Option.some.inj (hout.symm.trans hsolo)]

lemma insertId_selectId {n : Bytes} {outcome : Outcome}
    (hout : (solo serve s.store (convOf cfg s.main (.selectId c n))).2 = some outcome) :
    outcome.insertId = -1 := by
  cases hknown : s.store.value (idKey n) with
  | none =>
    have hnone : solo serve s.store (selectId n) = (s.store, none) := solo_selectId_new hknown
    rw [show solo serve s.store (convOf cfg s.main (.selectId c n)) = _ from hnone] at hout
    cases hout
  | some text =>
    have hsome : solo serve s.store (selectId n) = (s.store, some ⟨false, -1, []⟩) :=
      solo_selectId hknown
    rw [show solo serve s.store (convOf cfg s.main (.selectId c n)) = _ from hsome,
      Option.some.injEq] at hout
    rw [← hout]

lemma firstHeld_insertCookie (past : List (Serial × List Bytes × Move)) (scripts : List Bytes)
    (hq : s.main.sent[s.results.length]? = some (.insertCookie c)) :
    firstHeld (past ++ [(s, scripts, .execute)]) = fun n => (firstHeld past n).or
      (if (s.main.cookies c).name = n then some (s.main.cookies c) else none) := by
  have hx : inserting (s, scripts, .execute) = some (s.main.cookies c) := by
    simp only [inserting, hq]
  funext n
  rw [firstHeld_append, hx, Option.bind_some]

/-- A query is executed. -/
theorem Registering.execute_step (h : Registering cfg past s) {q : Query} {outcome : Outcome}
    (hq : s.main.sent[s.results.length]? = some q)
    (hout : (solo serve s.store (convOf cfg s.main q)).2 = some outcome)
    (step : SerialStep cfg s .execute ⟨s.main, (solo serve s.store (convOf cfg s.main q)).1,
      s.results ++ [(s.results.length, q, outcome)]⟩) (scripts : List Bytes) :
    Registering cfg (past ++ [(s, scripts, .execute)])
      ⟨s.main, (solo serve s.store (convOf cfg s.main q)).1,
        s.results ++ [(s.results.length, q, outcome)]⟩ := by
  have kept : Kept s.store := h.recorded.kept h.sparing
  have hstore : (solo serve s.store (convOf cfg s.main q)).1 =
      storeAfter cfg.hash s.store (jobOf s.main q) := solo_store kept _
  have hdue : ∀ key, NotRegistry key →
      PendingSaves.due ⟨s.main, (solo serve s.store (convOf cfg s.main q)).1,
        s.results ++ [(s.results.length, q, outcome)]⟩ key = none := by
    intro key outside
    rw [due_execute cfg outside outcome hq, h.due key outside]
  have recorded := h.recorded.serial step
  have henrolling := h.main.enrolling q (List.mem_of_getElem? hq)
  cases q with
  | insertCookie c =>
    have hheld := firstHeld_insertCookie past scripts hq
    have hc := h.recorded.queued.orderly.coupled.registers c (List.mem_of_getElem? hq)
    have hwritten := h.written.insert (s.main.cookies c)
    refine ⟨recorded, h.main.mono fun n hn => ?_, ?_, ?_, ?_, ?_, hdue⟩
    · rw [hstore]
      obtain ⟨k, hk⟩ := Option.isSome_iff_exists.mp ((h.written.isSome_iff n).mp hn)
      refine (hwritten.isSome_iff n).mpr ?_
      rw [hk, Option.some_or]
      rfl
    · rw [hheld, hstore]
      exact hwritten
    · intro n k hk
      rw [hheld] at hk
      rcases Option.or_eq_some_iff.mp hk with hk | ⟨_, hk⟩
      · exact h.held n k hk
      · by_cases hn : (s.main.cookies c).name = n
        · rw [if_pos hn, Option.some.injEq] at hk
          exact ⟨hk ▸ h.main.readable c, c, hc, hn⟩
        · rw [if_neg hn] at hk
          cases hk
    · intro k c' outcome' hmem
      rcases List.mem_append.mp hmem with hmem | hmem
      · exact h.told k c' outcome' hmem
      · obtain ⟨_, hc', rfl⟩ : _ ∧ Query.insertCookie c' = .insertCookie c ∧
            outcome' = outcome := by simpa using hmem
        rw [Query.insertCookie.inj hc']
        exact h.written.insertId_insertCookie hout
    · intro k c' n outcome' hmem
      exact h.failed k c' n outcome' (by simpa using hmem)
  | selectId c n =>
    have hx : inserting (s, scripts, .execute) = none := by simp only [inserting, hq]
    have hsame : (solo serve s.store (convOf cfg s.main (.selectId c n))).1 = s.store := hstore
    refine Registering.congr ⟨recorded, ?_, ?_, h.held, ?_, ?_, hdue⟩ (firstHeld_quiet hx)
    · rw [hsame]
      exact h.main
    · rw [hsame]
      exact h.written
    · intro k c' outcome' hmem
      exact h.told k c' outcome' (by simpa using hmem)
    · intro k c' n' outcome' hmem
      rcases List.mem_append.mp hmem with hmem | hmem
      · exact h.failed k c' n' outcome' hmem
      · obtain ⟨_, _, rfl⟩ : _ ∧ Query.selectId c' n' = .selectId c n ∧ outcome' = outcome := by
          simpa using hmem
        exact insertId_selectId hout
  | selectData serial sid => exact henrolling.elim
  | insertData sid id a => exact henrolling.elim

lemma Registering.serial (h : Registering cfg past s) {mv : Move} (registers : Registers mv)
    (step : SerialStep cfg s mv t) (scripts : List Bytes) :
    Registering cfg (past ++ [(s, scripts, mv)]) t := by
  rcases serial_cases step with ⟨e, rfl, own, allowed, rfl⟩ | ⟨q, outcome, rfl, hq, hout, rfl⟩ |
    ⟨k, q, outcome, rfl, hfirst, hresult, rfl⟩
  · cases e with
    | createCookie name d a =>
      obtain ⟨fits, hlo, hhi⟩ := registers
      exact h.main_step step (h.main.createCookie h.recorded.wf fits d hlo hhi) rfl rfl scripts rfl
    | reconnect => exact h.main_step step h.main.attemptReconnection rfl rfl scripts rfl
    | _ => exact registers.elim
  · exact h.execute_step hq hout step scripts
  · have hquery := (h.recorded.queued.orderly.coupled.answered.results _ hresult).1
    have hmain : Preparing cfg (fun n => (s.store.value (idKey n)).isSome = true)
        (runFrame cfg s.main k outcome) := by
      refine h.main.runFrame outcome hquery ?_ ?_
      · rintro c rfl
        have hc := h.recorded.queued.orderly.coupled.registers c (List.mem_of_getElem? hquery)
        exact ⟨hc, h.told k c outcome hresult, h.recorded.listed h.sparing k c outcome hresult⟩
      · rintro c n rfl
        exact h.failed k c n outcome hresult
    exact h.main_step step hmain rfl rfl scripts rfl

theorem registering_of_run {spent : List ℕ} {scripts : List Bytes} {listing : Listing}
    (run : Run (ScriptStep cfg) (begin (fun _ => none) spent (.empty scripts listing)) past s)
    (registers : ∀ x ∈ past, Registers x.2.2) : Registering cfg past s := by
  have preserved : ∀ (past : List (Serial × List Bytes × Move)) (a : Serial)
      (x : List Bytes × Move) (b : Serial), Registering cfg past a → Registers x.2 →
      ScriptStep cfg a x b → Registering cfg (past ++ [(a, x)]) b := by
    intro past a x b h registers step
    have hstep := (h.withScripts x.1).serial registers step x.1
    refine hstep.congr ?_
    funext n
    rw [firstHeld_append, firstHeld_append]
    rfl
  exact run.history (Registering.begin spent scripts listing) preserved registers

end ClientPrefs.FirstRegistrations
