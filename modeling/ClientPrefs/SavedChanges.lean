import ClientPrefs.Extension
import ClientPrefs.RegisteredIds
import ClientPrefs.SaveIsolation

/-!
# Changes at the disconnect

A value that was set is saved at the disconnect once the cookie knows its id, and then
under the id that Redis has for the cookie's name. Without an id it is dropped.
-/
namespace ClientPrefs.SavedChanges
open ByteStrings Conversation Conv CookieIds Cookies CookieManager Disconnect Extension LateLoad
open Loads QueryThread RedisReply RedisStore RegisteredIds SaveIsolation SaveOrder Session
open SlotRelease SlotTables SlotValues Transition WorkerPool

section LastSet
variable {ι : Type}

def SetsAt (cfg : Config) (x : System ι × Action ι) (c : CookieRef) (i : ℕ) (value : Bytes) :
    Prop :=
  ∃ e, x.2 = .main e ∧ Sets cfg x.1.main c i value e

/-- `value` is what was set last for the cookie and the slot, and the slot's disconnecting
event has not come since. -/
inductive LastSet (cfg : Config) : List (System ι × Action ι) → CookieRef → ℕ → Bytes → Prop
  | set {past : List (System ι × Action ι)} {x : System ι × Action ι} {c : CookieRef} {i : ℕ}
      {value : Bytes} (sets : SetsAt cfg x c i value) : LastSet cfg (past ++ [x]) c i value
  | later {past : List (System ι × Action ι)} {x : System ι × Action ι} {c : CookieRef} {i : ℕ}
      {value : Bytes} (before : LastSet cfg past c i value) (other : ∀ v, ¬ SetsAt cfg x c i v)
      (stays : x.2 ≠ .main (.disconnecting i)) : LastSet cfg (past ++ [x]) c i value

end LastSet

/-- A changed entry of the slot has the value for the cookie. -/
def Changed (s : Server) (c : CookieRef) (i : ℕ) (value : Bytes) : Prop :=
  ∃ a e, a ∈ s.clientData i ∧ s.heap a = some e ∧ e.parent = c ∧ e.changed = true ∧
    e.value = storedValue value

variable {cfg : Config} {s t : Server} {c : CookieRef} {i : ℕ} {v : Bytes}

lemma Changed.same (h : Changed s c i v) (same : SameTables s t) : Changed t c i v := by
  obtain ⟨a, e, ha, he, rest⟩ := h
  exact ⟨a, e, same.clientData.symm ▸ ha, (same.heap i a ha).trans he, rest⟩

lemma Changed.linkData (hwf : Wf s) (h : Changed s c i v) (c' : CookieRef) (j : ℕ)
    (e' : CookieData) : Changed (linkData s c' j e') c i v := by
  obtain ⟨a, e, ha, he, rest⟩ := h
  have hne : a ≠ s.nextData := by
    rintro rfl
    exact hwf.fresh i ha
  refine ⟨a, e, mem_linkData.mpr (.inl ha), ?_, rest⟩
  rw [linkData_heap, Function.update_of_ne hne, he]

lemma Changed.setCookieValue (hwf : Wf s) (h : Changed s c i v) {c' : CookieRef} {j : ℕ}
    (other : ¬ (c' = c ∧ j = i)) (w : Bytes) (now : ℕ) :
    Changed (setCookieValue s c' j w now) c i v := by
  unfold CookieManager.setCookieValue
  split
  · exact h.linkData hwf c' j _
  · next b hb =>
    obtain ⟨a, e, ha, he, hp, rest⟩ := h
    obtain ⟨hmem, e', he', hp'⟩ := hwf.linked c' j b hb
    have hne : a ≠ b := by
      rintro rfl
      obtain rfl : e = e' := by simpa [he] using he'
      exact other ⟨hp'.symm.trans hp, hwf.apart j i a hmem ha⟩
    exact ⟨a, e, ha, (Function.update_of_ne hne ..).trans he, hp, rest⟩

lemma Changed.loadRows (hwf : Wf s) (h : Changed s c i v) (j : ℕ)
    (rows : List (Cookie × Bytes)) : Changed (rows.foldl (loadRow cfg j) s) c i v := by
  induction rows generalizing s with
  | nil => exact h
  | cons row rows ih =>
    have same : SameTables s (findOrCreate cfg s row.1).1 := .findOrCreate hwf row.1
    have hfound : Changed (findOrCreate cfg s row.1).1 c i v := h.same same
    exact ih (hwf.loadRow j row) (hfound.linkData (hwf.findOrCreate row.1) _ j _)

/-- A changed value stays through every event that neither sets the cookie for the slot nor
releases the slot. -/
theorem Changed.apply (hwf : Wf s) (h : Changed s c i v) {e : Event} (allowed : e.Allowed cfg s)
    (other : ∀ w, ¬ Sets cfg s c i w e) (stays : e ≠ .disconnecting i) :
    Changed (e.apply cfg s) c i v := by
  have heffect := effect_of_apply hwf allowed
  revert heffect
  generalize e.apply cfg s = t
  intro heffect
  cases heffect with
  | same t tables => exact h.same tables
  | set m c' j w now tables wf sets =>
    refine (h.same tables).setCookieValue wf ?_ w now
    rintro ⟨rfl, rfl⟩
    exact other w sets
  | get c' j =>
    unfold getCookieValue
    split
    · exact h.linkData hwf c' j _
    · exact h
  | release j t leaves tables =>
    have hij : i ≠ j := by
      rintro rfl
      exact stays leaves
    obtain ⟨a, e, ha, he, rest⟩ := h
    refine ⟨a, e, ?_, (tables.heap i hij a ha).trans he, rest⟩
    rw [tables.clientData, Function.update_of_ne hij]
    exact ha
  | load q j rows t delivers tables =>
    have hstart : Wf (loadStart s q j) := hwf.congr rfl rfl rfl rfl rfl rfl fun _ _ _ ha => ha
    have hsame : SameTables s (loadStart s q j) := .of_eq rfl rfl rfl
    exact ((h.same hsame).loadRows hstart j rows).same tables

lemma changed_of_sets (hwf : Wf s) {e : Event} (allowed : e.Allowed cfg s)
    (sets : Sets cfg s c i v e) : Changed (e.apply cfg s) c i v := by
  have hset : ∀ {m : Server} (now : ℕ), Wf m → c < m.cookieCount →
      Changed (setCookieValue m c i v now) c i v := by
    intro m now hm hc
    have hentry : entryAt (setCookieValue m c i v now) c i =
        some ⟨storedValue v, true, now, c⟩ :=
      (entryAt_setCookieValue hm c i v now).trans (if_pos ⟨rfl, rfl⟩)
    obtain ⟨a, _, hheap, hmem, _⟩ := entryAt_eq_some (hm.setCookieValue hc i v now) hentry
    exact ⟨a, _, hmem, hheap, rfl, rfl, rfl⟩
  cases e with
  | setCookieValue c' i' v' now =>
    obtain ⟨rfl, rfl, rfl⟩ := sets
    exact hset now hwf allowed.1
  | setAuthIdCookie authId c' v' now =>
    obtain ⟨rfl, rfl, hpos, hconnected⟩ := sets
    have hc : c' < (attemptReconnection cfg s).cookieCount := by
      rw [attemptReconnection_eq]
      exact allowed.1
    have hbranch : setAuthIdCookie cfg s authId c' v' now =
        some (setCookieValue (attemptReconnection cfg s) c' i v' now) := by
      simp only [setAuthIdCookie, hconnected, Option.map_some, if_pos hpos]
    simp only [Event.apply, hbranch, Option.getD_some]
    exact hset now hwf.attemptReconnection hc
  | _ => exact sets.elim

section Runs
variable {ι : Type} [DecidableEq ι] {past : List (System ι × Action ι)} {x : System ι × Action ι}

omit [DecidableEq ι] in
lemma LastSet.snoc (h : LastSet cfg (past ++ [x]) c i v) : SetsAt cfg x c i v ∨
    LastSet cfg past c i v ∧ (∀ w, ¬ SetsAt cfg x c i w) ∧ x.2 ≠ .main (.disconnecting i) := by
  generalize hl : past ++ [x] = l at h
  cases h with
  | set sets =>
    obtain ⟨_, hx⟩ := List.append_inj' hl rfl
    obtain rfl : x = _ := by simpa using hx
    exact .inl sets
  | later before other stays =>
    obtain ⟨rfl, hx⟩ := List.append_inj' hl rfl
    obtain rfl : x = _ := by simpa using hx
    exact .inr ⟨before, other, stays⟩

theorem changed_step {p q : System ι} {a : Action ι} (coupled : Coupled cfg p)
    (step : SystemStep cfg p a q) (kept : LastSet cfg past c i v → Changed p.main c i v)
    (h : LastSet cfg (past ++ [(p, a)]) c i v) : Changed q.main c i v := by
  rcases system_cases coupled step with ⟨e, his, ⟨allowed, hmain⟩, _⟩ | ⟨l, rfl, _, hmain, _⟩
  · rw [hmain]
    rcases h.snoc with ⟨e', ha, sets⟩ | ⟨before, other, stays⟩
    · dsimp only at ha sets
      rcases is_cases his with ⟨rfl, _⟩ | ⟨_, _, _, _, rfl, _⟩
      · obtain rfl : e = e' := by simpa using ha
        exact changed_of_sets coupled.wf allowed sets
      · cases ha
    · apply (kept before).apply coupled.wf allowed
      · intro w sets
        rcases is_cases his with ⟨rfl, _⟩ | ⟨_, _, _, _, _, rfl⟩
        · exact other w ⟨e, rfl, sets⟩
        · exact sets
      · rintro rfl
        rcases is_cases his with ⟨rfl, _⟩ | ⟨_, _, _, _, _, he⟩
        · exact stays rfl
        · cases he
  · rw [hmain]
    rcases h.snoc with ⟨e', ha, _⟩ | ⟨before, _⟩
    · cases ha
    · exact kept before

lemma changed_of_lastSet {roster : ℕ → Option Player} {spent : List ℕ} {store : Store}
    {trace : List (System ι × Action ι)} {q : System ι}
    (run : Run (SystemStep cfg) (loaded roster spent store) trace q)
    (set : LastSet cfg trace c i v) : Changed q.main c i v := by
  have preserved : ∀ (past : List (System ι × Action ι)) (a : System ι) (l : Action ι)
      (b : System ι), Coupled cfg a ∧ (LastSet cfg past c i v → Changed a.main c i v) →
      SystemStep cfg a l b →
      Coupled cfg b ∧ (LastSet cfg (past ++ [(a, l)]) c i v → Changed b.main c i v) :=
    fun past a l b h step => ⟨h.1.step step, changed_step h.1 step h.2⟩
  have first : LastSet cfg ([] : List (System ι × Action ι)) c i v →
      Changed (loaded roster spent store : System ι).main c i v := by
    intro h
    generalize hl : ([] : List (System ι × Action ι)) = l at h
    cases h <;> simp at hl
  exact (run.stable_history ⟨Coupled.loaded roster spent store, first⟩ preserved).2 set

end Runs

section Ids
variable {ι : Type} {name : Bytes} {z : ℤ}

/-- No `InsertData` query that was sent saves under the key of the name's id. -/
def SparesId (name : Bytes) (m : Server) : Prop := ∀ q ∈ m.sent, Spares name (jobOf m q)

/-- A result of the query of this ticket tells no other id. -/
def Told (name : Bytes) (z : ℤ) (m : Server) (t : ℕ) (q : Query) (outcome : Outcome) : Prop :=
  m.sent[t]? = some q ∧ ToldId name z (jobOf m q) outcome

/-- Redis, the queries and the cookies agree on the id of the name. -/
structure OneId (cfg : Config) (name : Bytes) (z : ℤ) (s : System ι) : Prop where
  store : Settled cfg.hash name z s.pool.store
  pool : s.pool.Inv (fun _ => IdReply cfg.hash name z) (StoresId name z) (Told name z s.main)
  ids : ∀ c, (s.main.cookies c).name = name →
    (s.main.cookies c).dbid = -1 ∨ (s.main.cookies c).dbid = z

lemma Told.extends {m m' : Server} {told : CookieRef → ℤ → Prop} (ext : Extends told m m')
    (registers : ∀ c, .insertCookie c ∈ m.sent → c < m.cookieCount) {k : ℕ} {q : Query}
    {outcome : Outcome} (h : Told name z m k q outcome) : Told name z m' k q outcome := by
  obtain ⟨hq, htold⟩ := h
  obtain ⟨l, hl⟩ := ext.sent
  refine ⟨?_, ?_⟩
  · rw [← hl, List.getElem?_append_left (List.getElem?_eq_some_iff.mp hq).1, hq]
  · cases q with
    | insertCookie c =>
      have hname := ext.names c (registers c (List.mem_of_getElem? hq))
      simpa only [jobOf, ToldId, hname] using htold
    | _ => exact htold

variable [DecidableEq ι] {p q : System ι} {a : Action ι}

lemma OneId.ids_apply (h : OneId cfg name z p) (coupled : Coupled cfg p) {e : Event}
    (step : SystemStep cfg p a q) (his : a.Is e) (allowed : e.Allowed cfg p.main)
    (hmain : q.main = e.apply cfg p.main) (hname : (q.main.cookies c).name = name) :
    (q.main.cookies c).dbid = -1 ∨ (q.main.cookies c).dbid = z := by
  have ext := Extends.apply coupled.wf allowed
  rw [← hmain] at ext
  rcases ext.ids c with ⟨hsame, hid⟩ | ⟨_, hnew⟩ | tells
  · rw [hid]
    exact h.ids c (hsame ▸ hname)
  · exact .inl hnew
  · rcases is_cases his with ⟨_, own⟩ | ⟨k, query, talk, outcome, rfl, rfl⟩
    · cases e with
      | think => exact own.elim
      | _ => exact tells.elim
    · obtain ⟨hinsert, hquery⟩ := tells
      obtain ⟨hq, htold⟩ := h.pool.results _ step.1.2
      rw [← hinsert]
      rcases hquery with hquery | ⟨n, hquery⟩
      · obtain rfl : query = .insertCookie c := by simpa [hq] using hquery
        have hlt := coupled.registers c (List.mem_of_getElem? hq)
        exact .inr (htold ((ext.names c hlt).symm.trans hname))
      · obtain rfl : query = .selectId c n := by simpa [hq] using hquery
        exact .inl htold

theorem OneId.step (h : OneId cfg name z p) (coupled : Coupled cfg p) (hlo : -2 ^ 31 ≤ z)
    (hhi : z < 2 ^ 31) (spares : SparesId name p.main) (step : SystemStep cfg p a q) :
    OneId cfg name z q := by
  rcases system_cases coupled step with ⟨e, his, ⟨allowed, hmain⟩, hpool⟩ | ⟨l, _, _, hmain, hl⟩
  · have ext := Extends.apply coupled.wf allowed
    rw [← hmain] at ext
    refine ⟨hpool ▸ h.store, ?_, fun c => h.ids_apply coupled step his allowed hmain⟩
    rw [hpool]
    exact h.pool.mono (fun _ _ _ => .extends ext coupled.registers) _
  · refine ⟨h.pool.store hl h.store fun s c hs hc => hs.exec hc, ?_, hmain ▸ h.ids⟩
    rw [hmain]
    apply h.pool.step hl
    · intro w query _ hq
      rw [coupled.issued] at hq
      have hjob : (convOf cfg p.main query).Keeps (IdReply cfg.hash name z) (StoresId name z)
          (ToldId name z (jobOf p.main query)) :=
        bindParamsAndRun_ids hlo hhi (spares query (List.mem_of_getElem? hq))
      exact hjob.imp fun outcome htold => ⟨hq, htold⟩
    · exact fun _ _ _ _ _ _ c _ _ _ => h.store.serve c

/-- What Redis may have at the start for the id of the name: what `InsertCookie` writes. -/
def Canonical (store : Store) (name : Bytes) : Prop :=
  ∀ id, store.value (idKey name) = some id → ∃ z : ℤ, -2 ^ 31 ≤ z ∧ z < 2 ^ 31 ∧ id = toText z

omit [DecidableEq ι] in
lemma OneId.loaded {store : Store} (canonical : Canonical store name)
    (roster : ℕ → Option Player) (spent : List ℕ) : ∃ z : ℤ, -2 ^ 31 ≤ z ∧ z < 2 ^ 31 ∧
      OneId cfg name z (loaded roster spent store : System ι) := by
  have hone : ∀ {z}, Settled cfg.hash name z store →
      OneId cfg name z (Extension.loaded roster spent store : System ι) :=
    fun hsettled => ⟨hsettled, Pool.Inv.initial store, fun c _ => .inl rfl⟩
  cases hid : store.value (idKey name) with
  | some id =>
    obtain ⟨z, hlo, hhi, rfl⟩ := canonical id hid
    exact ⟨z, hlo, hhi, hone (.inl hid)⟩
  | none =>
    have hrange : 0 ≤ cookieHash cfg.hash name ∧ cookieHash cfg.hash name < 2 ^ 31 := by
      unfold cookieHash
      omega
    exact ⟨cookieHash cfg.hash name, by omega, hrange.2, hone (.inr ⟨hid, rfl⟩)⟩

theorem oneId_of_run {roster : ℕ → Option Player} {spent : List ℕ} {store : Store}
    {trace : List (System ι × Action ι)}
    (start : OneId cfg name z (loaded roster spent store : System ι))
    (run : Run (SystemStep cfg) (loaded roster spent store) trace q) (hlo : -2 ^ 31 ≤ z)
    (hhi : z < 2 ^ 31) (spares : ∀ x ∈ trace, SparesId name x.1.main) :
    OneId cfg name z q := by
  have preserved : ∀ (a : System ι) (l : Action ι) (b : System ι),
      Coupled cfg a ∧ OneId cfg name z a → SparesId name a.main → SystemStep cfg a l b →
      Coupled cfg b ∧ OneId cfg name z b :=
    fun a l b h spares step => ⟨h.1.step step, h.2.step h.1 hlo hhi spares step⟩
  exact (run.invariant ⟨Coupled.loaded roster spent store, start⟩ preserved spares).2

end Ids

section Disconnecting
variable {ι : Type} [DecidableEq ι] {q u : System ι}

lemma insertData_of_changed (hwf : Wf s) {auth : Bytes} (hauth : authOf (s.roster i) = some auth)
    (hid : (s.cookies c).dbid ≠ -1) (h : Changed s c i v) :
    ∃ a e, .insertData (steamIdParam (some auth)) (s.cookies c).dbid a ∈
        (onClientDisconnecting cfg s i).sent.drop s.sent.length ∧
      (onClientDisconnecting cfg s i).heap a = some e ∧ e.parent = c ∧
      e.value = storedValue v := by
  obtain ⟨a, e, ha, he, rfl, hchanged, hv⟩ := h
  have hsaved : savedQuery s (some auth) a =
      some (.insertData (steamIdParam (some auth)) (s.cookies e.parent).dbid a) := by
    simp [savedQuery, he, hchanged, hid]
  have hmem : .insertData (steamIdParam (some auth)) (s.cookies e.parent).dbid a ∈
      (onClientDisconnecting cfg s i).sent.drop s.sent.length := by
    rw [onClientDisconnecting_sent hwf, List.drop_left, hauth]
    exact List.mem_append_right _ (List.mem_filterMap.mpr ⟨a, ha, hsaved⟩)
  obtain ⟨_, e', _, he', _, _, _, _, _, hafter⟩ := mem_new_insertData hwf hmem
  obtain rfl : e = e' := by simpa [he] using he'
  exact ⟨a, e, hmem, hafter, rfl, hv⟩

/-- When an authorized real player leaves, the value last set for a cookie that knows its id is
saved under the id that every later `SelectData` query finds for the cookie's name. A cookie
without an id saves nothing. -/
theorem changes_saved {roster : ℕ → Option Player} {spent : List ℕ} {store : Store}
    {trace rest : List (System ι × Action ι)} {p : Player}
    (run : Run (SystemStep cfg) (loaded roster spent store) trace q)
    (later : Run (SystemStep cfg) q rest u) (hp : q.main.roster i = some p)
    (authorized : p.authorized = true) (real : p.fake = false)
    (set : LastSet cfg trace c i v) (canonical : Canonical store (q.main.cookies c).name)
    (spares : ∀ x ∈ trace ++ rest, SparesId (q.main.cookies c).name x.1.main) :
    ((q.main.cookies c).dbid ≠ -1 →
      (∃ a e, .insertData (steamIdOf p) (q.main.cookies c).dbid a ∈
          (onClientDisconnecting cfg q.main i).sent.drop q.main.sent.length ∧
        (onClientDisconnecting cfg q.main i).heap a = some e ∧ e.parent = c ∧
        e.value = storedValue v) ∧
      ∀ id, u.pool.store.value (idKey (q.main.cookies c).name) = some id →
        id = toText (q.main.cookies c).dbid) ∧
    ((q.main.cookies c).dbid = -1 → ∀ sid id a e,
      .insertData sid id a ∈ (onClientDisconnecting cfg q.main i).sent.drop q.main.sent.length →
      (onClientDisconnecting cfg q.main i).heap a = some e → e.parent ≠ c) := by
  have hwf : Wf q.main := (coupled_of_run run).wf
  refine ⟨fun hid => ⟨?_, ?_⟩, fun hid sid id a e hmem he hparent => ?_⟩
  · obtain ⟨auth, hauth⟩ := Option.isSome_iff_exists.mp (compatAuthId_isSome authorized)
    have hauthOf : authOf (q.main.roster i) = some auth := by simp [authOf, hp, real, hauth]
    have hsteam : steamIdOf p = steamIdParam (some auth) :=
      steamIdOf_of_authOf (hp ▸ hauthOf)
    rw [hsteam]
    exact insertData_of_changed hwf hauthOf hid (changed_of_lastSet run set)
  · intro id hvalue
    have first : ∃ z : ℤ, -2 ^ 31 ≤ z ∧ z < 2 ^ 31 ∧ OneId cfg (q.main.cookies c).name z
        (loaded roster spent store : System ι) := OneId.loaded canonical roster spent
    obtain ⟨z, hlo, hhi, start⟩ := first
    have before := oneId_of_run start run hlo hhi fun x hx =>
      spares x (List.mem_append_left _ hx)
    have after := oneId_of_run start (run.trans later) hlo hhi spares
    have hz := (before.ids c rfl).resolve_left hid
    rcases after.store with hsome | ⟨hnone, _⟩
    · rw [hsome] at hvalue
      rw [hz, Option.some.inj hvalue]
    · rw [hnone] at hvalue
      cases hvalue
  · obtain ⟨_, e', _, _, _, _, _, hdbid, hne, hafter⟩ := mem_new_insertData hwf hmem
    obtain rfl : e = e' := by simpa [he] using hafter
    exact hne (hdbid.trans (hparent ▸ hid))

end Disconnecting

def unused : System Unit := loaded (fun _ => none) [] blank

/-- One worker registers the cookie and its result is delivered. -/
def registered : List (Action Unit) :=
  [.main (.createCookie (bytes "music") [] 0), .work (.take ()), .work (.send ()),
    .work (.exec ()), .work (.resume ()), .work (.send ()), .work (.finish ()),
    .deliver 0 (.insertCookie 0) ⟨true, 5, []⟩]

def arrival : List (Action Unit) := [.main (.connect 1 newcomer7), .main (.authorize 1)]

def musicSet : Action Unit := .main (.setCookieValue 0 1 (bytes "on") 0)

lemma lastSet_musicSet (s : System Unit) (actions : List (Action Unit)) :
    LastSet oneSlot (enactTrace (Action.apply oneSlot) s (actions ++ [musicSet])) 0 1
      (bytes "on") := by
  rw [enactTrace_concat]
  exact .set ⟨_, rfl, rfl, rfl, rfl⟩

def savesNothing : Query → Bool
  | .insertData _ _ _ => false
  | _ => true

lemma sparesId_of_savesNothing {trace : List (System Unit × Action Unit)}
    (h : trace.all (fun x => x.1.main.sent.all savesNothing) = true) (name : Bytes) :
    ∀ x ∈ trace, SparesId name x.1.main := by
  intro x hx query hquery
  have hnothing := List.all_eq_true.mp (List.all_eq_true.mp h x hx) query hquery
  cases query with
  | insertData sid id a => cases hnothing
  | _ => trivial

lemma registered_actable : Enactable (Action.apply oneSlot) (Action.Allowed oneSlot) unused
    registered := by
  refine ⟨⟨trivial, trivial⟩, ⟨trivial, by decide⟩, ⟨trivial, by decide⟩, ⟨trivial, by decide⟩,
    ⟨trivial, by decide⟩, ⟨trivial, by decide⟩, ⟨trivial, by decide⟩, ⟨by decide, ?_⟩, trivial⟩
  exact List.mem_singleton_self _

/-- The registration is over before the player comes. -/
def setRegistered : List (Action Unit) := registered ++ arrival ++ [musicSet]

lemma setRegistered_actable : Enactable (Action.apply oneSlot) (Action.Allowed oneSlot) unused
    setRegistered := by
  have arrives : Enactable (Action.apply oneSlot) (Action.Allowed oneSlot)
      (enact (Action.apply oneSlot) unused registered) arrival := by
    refine ⟨⟨trivial, ?_⟩, ⟨trivial, ?_⟩, trivial⟩
    · exact ⟨client_one, by decide, rfl, by decide⟩
    · exact ⟨newcomer7, by decide, by decide, rfl, rfl⟩
  exact (registered_actable.append arrives).append ⟨⟨trivial, by decide, client_one⟩, trivial⟩

def afterSet : System Unit := enact (Action.apply oneSlot) unused setRegistered

theorem changes_saved_music : ∃ a e, .insertData (bytes "STEAM_1:0:7") 5 a ∈
      (onClientDisconnecting oneSlot afterSet.main 1).sent.drop afterSet.main.sent.length ∧
    (onClientDisconnecting oneSlot afterSet.main 1).heap a = some e ∧ e.parent = 0 ∧
    e.value = storedValue (bytes "on") := by
  have set : LastSet oneSlot (enactTrace (Action.apply oneSlot) unused setRegistered) 0 1
      (bytes "on") := lastSet_musicSet unused _
  have canonical : Canonical blank (afterSet.main.cookies 0).name := by
    intro id hid
    cases hid
  have there : afterSet.main.roster 1 = some (authorized newcomer7) := rfl
  have spares : ∀ x ∈ enactTrace (Action.apply oneSlot) unused setRegistered ++ [],
      SparesId (afterSet.main.cookies 0).name x.1.main := sparesId_of_savesNothing (by decide) _
  exact ((changes_saved (enact_run setRegistered_actable) .refl there rfl rfl set canonical
    spares).1 (by decide)).1

/-- The value is set while the registration is still on the queue. -/
def setUnregistered : List (Action Unit) :=
  .main (.createCookie (bytes "music") [] 0) :: arrival ++ [musicSet]

lemma setUnregistered_actable : Enactable (Action.apply oneSlot) (Action.Allowed oneSlot) unused
    setUnregistered := by
  refine ⟨⟨trivial, trivial⟩, ⟨trivial, ?_⟩, ⟨trivial, ?_⟩, ⟨trivial, ?_⟩, trivial⟩
  · exact ⟨client_one, by decide, rfl, by decide⟩
  · exact ⟨newcomer7, by decide, by decide, rfl, rfl⟩
  · exact ⟨by decide, client_one⟩

def afterLateSet : System Unit := enact (Action.apply oneSlot) unused setUnregistered

theorem change_lost : ¬ ∀ (ι : Type) [DecidableEq ι] (cfg : Config) (roster : ℕ → Option Player)
    (spent : List ℕ) (store : Store) (trace rest : List (System ι × Action ι)) (q u : System ι)
    (i : ℕ) (p : Player) (c : CookieRef) (v : Bytes),
    Host cfg (start roster spent) → Run (SystemStep cfg) (loaded roster spent store) trace q →
    Run (SystemStep cfg) q rest u → q.main.roster i = some p → p.authorized = true →
    p.fake = false → LastSet cfg trace c i v → Canonical store (q.main.cookies c).name →
    (∀ x ∈ trace ++ rest, SparesId (q.main.cookies c).name x.1.main) →
    ∃ id a e, .insertData (steamIdOf p) id a ∈
        (onClientDisconnecting cfg q.main i).sent.drop q.main.sent.length ∧
      (onClientDisconnecting cfg q.main i).heap a = some e ∧ e.parent = c ∧
      e.value = storedValue v ∧
      ∀ text, u.pool.store.value (idKey (q.main.cookies c).name) = some text →
        text = toText id := by
  intro h
  have set : LastSet oneSlot (enactTrace (Action.apply oneSlot) unused setUnregistered) 0 1
      (bytes "on") := lastSet_musicSet unused _
  have canonical : Canonical blank (afterLateSet.main.cookies 0).name := by
    intro id hid
    cases hid
  have there : afterLateSet.main.roster 1 = some (authorized newcomer7) := rfl
  have spares : ∀ x ∈ enactTrace (Action.apply oneSlot) unused setUnregistered ++ [],
      SparesId (afterLateSet.main.cookies 0).name x.1.main :=
    sparesId_of_savesNothing (by decide) _
  have run := enact_run setUnregistered_actable
  obtain ⟨id, a, e, hmem, he, hparent, _⟩ := h Unit oneSlot _ _ _ _ _ _ _ 1 _ 0 _
    host_start_vacant run .refl there rfl rfl set canonical spares
  obtain ⟨_, e', _, _, _, _, _, hdbid, hne, hafter⟩ :=
    mem_new_insertData (coupled_of_run run).wf hmem
  obtain rfl : e = e' := by simpa [he] using hafter
  have hunregistered : (afterLateSet.main.cookies 0).dbid = -1 := by decide
  exact hne (hdbid.trans (hparent ▸ hunregistered))

end ClientPrefs.SavedChanges
