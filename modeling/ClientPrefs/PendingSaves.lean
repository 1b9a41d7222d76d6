import ClientPrefs.SaveIsolation
import ClientPrefs.SaveOrder
import ClientPrefs.SerialQueries

/-!
# Saves on the way

An `InsertData` query keeps its value in a `CookieData` of its own until its think part has
run. What Redis will hold under a key once the queue is empty can be told at any time.
-/
namespace ClientPrefs.PendingSaves
open ByteStrings Conversation Conv Cookies CookieManager Disconnect Extension LateLoad Loads
open QueryThread RedisStore SaveIsolation SaveOrder SerialQueries Session SlotRelease SlotTables SoloRuns
open Transition

def payloadOf : Query → Option DataRef
  | .insertData _ _ a => some a
  | _ => none

def isSave (q : Query) : Bool := (payloadOf q).isSome

/-- Between the two states these saves were enqueued, and perhaps other queries. -/
def Saves (l : List Query) (s t : Server) : Prop :=
  ∃ new, t.sent = s.sent ++ new ∧ new.filter isSave = l

/-- The saves that an event enqueues. -/
def savesOf (cfg : Config) (s : Server) : Event → List Query
  | .disconnecting i => (s.clientData i).filterMap (savedQuery s (authOf (s.roster i)))
  | .setAuthIdCookie authId c _ _ =>
    if isAuthIdConnected cfg (attemptReconnection cfg s) authId = some 0 then
      [.insertData (steamIdParam (some authId)) (s.cookies c).dbid s.nextData]
    else []
  | _ => []

variable {cfg : Config} {s t u : Server} {i : ℕ} {a : DataRef} {key : Bytes}

lemma isSave_eq_false {q : Query} (h : payloadOf q = none) : isSave q = false := by
  rw [isSave, h]
  rfl

lemma Saves.of_sent (h : t.sent = s.sent) : Saves [] s t := ⟨[], by simp [h], rfl⟩

lemma Saves.of_quiet {new : List Query} (h : t.sent = s.sent ++ new)
    (quiet : ∀ q ∈ new, payloadOf q = none) : Saves [] s t := by
  refine ⟨new, h, List.filter_eq_nil_iff.mpr fun q hq => ?_⟩
  rw [isSave_eq_false (quiet q hq)]
  exact Bool.false_ne_true

lemma Saves.trans {l l' : List Query} (first : Saves l s t) (second : Saves l' t u) :
    Saves (l ++ l') s u := by
  obtain ⟨new, hnew, rfl⟩ := first
  obtain ⟨more, hmore, rfl⟩ := second
  exact ⟨new ++ more, by rw [hmore, hnew, List.append_assoc], List.filter_append ..⟩

lemma payloadOf_selectQuery {q : Query} (h : selectQuery s i = some q) : payloadOf q = none := by
  obtain ⟨p, _, rfl⟩ := Option.map_eq_some_iff.mp h
  rfl

lemma quiet_selectQueries (l : List ℕ) : ∀ q ∈ l.filterMap (selectQuery s), payloadOf q = none := by
  intro q hq
  obtain ⟨i, _, hi⟩ := List.mem_filterMap.mp hq
  exact payloadOf_selectQuery hi

lemma Saves.attemptReconnection : Saves [] s (attemptReconnection cfg s) := by
  rw [attemptReconnection_eq]
  exact .of_quiet rfl (quiet_selectQueries _)

lemma Saves.onClientAuthorized (i : ℕ) : Saves [] s (onClientAuthorized cfg s i) := by
  rw [onClientAuthorized_eq]
  split
  · exact .of_sent rfl
  · next p _ =>
    split_ifs
    · exact .of_sent rfl
    · refine .of_quiet (List.append_assoc ..) fun q hq => ?_
      rcases List.mem_append.mp hq with hq | hq
      · exact quiet_selectQueries _ q hq
      · rw [List.mem_singleton.mp hq]
        rfl

lemma Saves.createCookie (name description : Bytes) (access : CookieAccess) :
    Saves [] s (createCookie cfg s name description access).1 := by
  unfold CookieManager.createCookie
  split
  · exact .of_sent rfl
  · exact .of_quiet rfl (by simp [payloadOf])

lemma Saves.loadRows (i : ℕ) (rows : List (Cookie × Bytes)) :
    Saves [] s (rows.foldl (loadRow cfg i) s) := by
  induction rows generalizing s with
  | nil => exact .of_sent rfl
  | cons row rows ih =>
    have hcreate : Saves [] s (findOrCreate cfg s row.1).1 := by
      unfold findOrCreate
      split
      · exact .of_sent rfl
      · exact .createCookie ..
    have hrow : Saves [] s (loadRow cfg i s row) := hcreate.trans (.of_sent rfl)
    exact hrow.trans ih

lemma Saves.setCookieValue (c : CookieRef) (i : ℕ) (value : Bytes) (now : ℕ) :
    Saves [] s (setCookieValue s c i value now) := by
  unfold CookieManager.setCookieValue
  split <;> exact .of_sent rfl

lemma Saves.getCookieValue (c : CookieRef) (i : ℕ) : Saves [] s (getCookieValue s c i).1 := by
  unfold CookieManager.getCookieValue
  split <;> exact .of_sent rfl

lemma Saves.runFrame (k : ℕ) (outcome : Outcome) : Saves [] s (runFrame cfg s k outcome) := by
  unfold Session.runFrame
  split
  · exact .of_sent rfl
  · next q _ =>
    cases q with
    | insertCookie c =>
      simp only [runThinkPart, insertCookieCallback]
      split_ifs
      · exact .of_sent rfl
      · exact .of_quiet rfl (by simp [payloadOf])
    | selectData serial sid =>
      simp only [runThinkPart, clientConnectCallback]
      split_ifs
      · exact .of_sent rfl
      · have hloop : Saves [] s (outcome.results.foldl
            (loadRow cfg (getClientFromSerial cfg s serial))
            (clearPending { s with finished := s.finished ++ [k] }
              (getClientFromSerial cfg s serial))) := Saves.trans (.of_sent rfl) (.loadRows _ _)
        exact hloop.trans (.of_sent rfl)
    | insertData sid id a => exact .of_sent rfl
    | selectId c name => exact .of_sent rfl

lemma isSave_savedQuery {auth : Option Bytes} {q : Query} (h : savedQuery s auth a = some q) :
    payloadOf q = some a := by
  obtain ⟨_, _, _, _, _, _, rfl⟩ := savedQuery_eq_some h
  rfl

lemma Saves.onClientDisconnecting (h : Wf s) (i : ℕ) :
    Saves (savesOf cfg s (.disconnecting i)) s (onClientDisconnecting cfg s i) := by
  refine ⟨_, onClientDisconnecting_sent h, ?_⟩
  have hselect : ((missedSlots cfg (resetFlags s i)).filterMap (selectQuery s)).filter isSave =
      [] := List.filter_eq_nil_iff.mpr fun q hq => by
    rw [isSave_eq_false (quiet_selectQueries _ q hq)]
    exact Bool.false_ne_true
  rw [List.filter_append, hselect, List.nil_append]
  refine List.filter_eq_self.mpr fun q hq => ?_
  obtain ⟨a, _, ha⟩ := List.mem_filterMap.mp hq
  rw [isSave, isSave_savedQuery ha]
  rfl

lemma Saves.setAuthIdCookie {authId : Bytes} {c : CookieRef} {value : Bytes} {now : ℕ}
    (h : setAuthIdCookie cfg s authId c value now = some t) :
    Saves (savesOf cfg s (.setAuthIdCookie authId c value now)) s t := by
  obtain ⟨client, hclient, rfl⟩ := Option.map_eq_some_iff.mp h
  have hfirst : Saves [] s (CookieManager.attemptReconnection cfg s) := .attemptReconnection
  simp only [savesOf, hclient, Option.some.injEq]
  by_cases hc : client = 0
  · subst hc
    have hcookies : (CookieManager.attemptReconnection cfg s).cookies = s.cookies ∧
        (CookieManager.attemptReconnection cfg s).nextData = s.nextData := by
      rw [attemptReconnection_eq]
      exact ⟨rfl, rfl⟩
    rw [if_pos rfl, if_neg (not_not.mpr rfl), ← hcookies.1, ← hcookies.2]
    exact hfirst.trans ⟨_, rfl, rfl⟩
  · rw [if_neg hc, if_pos hc]
    exact hfirst.trans (.setCookieValue c client value now)

lemma saves_apply (h : Wf s) {e : Event} (allowed : e.Allowed cfg s) :
    Saves (savesOf cfg s e) s (e.apply cfg s) := by
  cases e with
  | connect i p => exact .of_sent rfl
  | authorize i => exact Saves.trans (.of_sent rfl) (.onClientAuthorized i)
  | disconnecting i => exact .onClientDisconnecting h i
  | disconnected i => exact .of_sent rfl
  | reconnect => exact .attemptReconnection
  | createCookie name description access => exact .createCookie name description access
  | setCookieValue c i value now => exact .setCookieValue c i value now
  | getCookieValue c i => exact .getCookieValue c i
  | setAuthIdCookie authId c value now =>
    obtain ⟨t, ht⟩ := Option.isSome_iff_exists.mp allowed.2
    simp only [Event.apply, ht, Option.getD_some]
    exact .setAuthIdCookie ht
  | think k talk outcome => exact .runFrame k outcome

/-- No two queries carry the same `CookieData`. -/
def OnePayload (s : Server) : Prop := (s.sent.filterMap payloadOf).Nodup

lemma filterMap_isSave {β : Type*} {f : Query → Option β}
    (hf : ∀ q, payloadOf q = none → f q = none) (l : List Query) :
    (l.filter isSave).filterMap f = l.filterMap f := by
  rw [List.filterMap_filter]
  apply List.filterMap_congr
  intro q _
  split_ifs with hq
  · rfl
  · exact (hf q (Option.not_isSome_iff_eq_none.mp hq)).symm

lemma payload_queued (h : Wf s) (ha : a ∈ s.sent.filterMap payloadOf) :
    a < s.nextData ∧ ∀ i, a ∉ s.clientData i := by
  obtain ⟨q, hq, hpayload⟩ := List.mem_filterMap.mp ha
  cases q with
  | insertData sid id b =>
    obtain rfl := Option.some.inj hpayload
    exact h.queued sid id b hq
  | _ => cases hpayload

lemma bind_savedQuery {auth : Option Bytes} {b : DataRef}
    (h : b ∈ (savedQuery s auth a).bind payloadOf) : b = a := by
  obtain ⟨q, hq, hb⟩ := Option.bind_eq_some_iff.mp h
  exact Option.some.inj (hb.symm.trans (isSave_savedQuery hq))

lemma savesOf_payloads (cfg : Config) (h : Wf s) (e : Event) :
    ((savesOf cfg s e).filterMap payloadOf).Nodup ∧
      ∀ a ∈ (savesOf cfg s e).filterMap payloadOf, (∃ i, a ∈ s.clientData i) ∨ a = s.nextData := by
  cases e with
  | disconnecting i =>
    simp only [savesOf, List.filterMap_filterMap]
    constructor
    · apply (h.nodup i).filterMap
      intro a b c hc hc'
      exact (bind_savedQuery hc).symm.trans (bind_savedQuery hc')
    · intro a ha
      obtain ⟨b, hb, hab⟩ := List.mem_filterMap.mp ha
      exact .inl ⟨i, bind_savedQuery hab ▸ hb⟩
  | setAuthIdCookie authId c value now =>
    simp only [savesOf]
    split_ifs
    · exact ⟨List.nodup_singleton _, fun a ha => .inr (List.mem_singleton.mp ha)⟩
    · exact ⟨List.nodup_nil, fun a ha => absurd ha List.not_mem_nil⟩
  | _ => exact ⟨List.nodup_nil, fun a ha => absurd ha List.not_mem_nil⟩

lemma OnePayload.apply (h : Wf s) (once : OnePayload s) {e : Event} (allowed : e.Allowed cfg s) :
    OnePayload (e.apply cfg s) := by
  obtain ⟨new, hsent, hnew⟩ := saves_apply h allowed
  obtain ⟨hnodup, hold⟩ := savesOf_payloads cfg h e
  rw [← hnew, filterMap_isSave fun _ hq => hq] at hnodup hold
  unfold OnePayload
  rw [hsent, List.filterMap_append]
  refine List.Nodup.append once hnodup fun a ha ha' => ?_
  obtain ⟨hlt, hnot⟩ := payload_queued h ha
  rcases hold a ha' with ⟨i, hi⟩ | rfl
  · exact hnot i hi
  · exact lt_irrefl _ hlt

/-- The event is the think part of the query that carries this `CookieData`. -/
def Drops (s : Server) (a : DataRef) : Event → Prop
  | .think k _ _ => ∃ sid id, s.sent[k]? = some (.insertData sid id a)
  | _ => False

lemma heap_setCookieValue (h : Wf s) (hlt : a < s.nextData) (hnot : ∀ i, a ∉ s.clientData i)
    (c : CookieRef) (i : ℕ) (value : Bytes) (now : ℕ) :
    (setCookieValue s c i value now).heap a = s.heap a := by
  unfold setCookieValue
  split
  · rw [linkData_heap, Function.update_of_ne hlt.ne]
  · next b hb =>
    have hne : a ≠ b := by
      rintro rfl
      exact hnot i (h.linked c i a hb).1
    exact Function.update_of_ne hne ..

lemma heap_getCookieValue (hlt : a < s.nextData) (c : CookieRef) (i : ℕ) :
    (getCookieValue s c i).1.heap a = s.heap a := by
  unfold getCookieValue
  split
  · rw [linkData_heap, Function.update_of_ne hlt.ne]
  · rfl

lemma heap_createCookie (name description : Bytes) (access : CookieAccess) :
    (createCookie cfg s name description access).1.heap = s.heap := by
  unfold createCookie
  split <;> rfl

lemma heap_attemptReconnection (cfg : Config) (s : Server) :
    (attemptReconnection cfg s).heap = s.heap ∧
    (attemptReconnection cfg s).nextData = s.nextData ∧
    (attemptReconnection cfg s).clientData = s.clientData := by
  rw [attemptReconnection_eq]
  exact ⟨rfl, rfl, rfl⟩

lemma heap_onClientAuthorized (i : ℕ) : (onClientAuthorized cfg s i).heap = s.heap := by
  rw [onClientAuthorized_eq]
  split
  · rfl
  · split_ifs <;> rfl

lemma heap_setAuthIdCookie (h : Wf s) (hlt : a < s.nextData) (hnot : ∀ i, a ∉ s.clientData i)
    {authId : Bytes} {c : CookieRef} {value : Bytes} {now : ℕ}
    (ht : setAuthIdCookie cfg s authId c value now = some t) : t.heap a = s.heap a := by
  obtain ⟨client, _, rfl⟩ := Option.map_eq_some_iff.mp ht
  obtain ⟨hheap, hnext, hclient⟩ := heap_attemptReconnection cfg s
  have hlt' : a < (attemptReconnection cfg s).nextData := hnext.symm ▸ hlt
  have hnot' : ∀ i, a ∉ (attemptReconnection cfg s).clientData i := hclient.symm ▸ hnot
  split_ifs
  · rw [heap_setCookieValue h.attemptReconnection hlt' hnot', hheap]
  · refine Eq.trans (Function.update_of_ne hlt'.ne ..) ?_
    rw [hheap]

lemma heap_runFrame (h : Wf s) (hlt : a < s.nextData) {k : ℕ} {talk : List (Command × Option
      RedisReply.Reply)} {outcome : Outcome} (kept : ¬ Drops s a (.think k talk outcome)) :
    (runFrame cfg s k outcome).heap a = s.heap a := by
  unfold runFrame
  split
  · rfl
  · next q hq =>
    cases q with
    | insertCookie c =>
      simp only [runThinkPart, insertCookieCallback]
      split_ifs <;> rfl
    | selectData serial sid =>
      simp only [runThinkPart, clientConnectCallback]
      split_ifs
      · rfl
      · let start := clearPending { s with finished := s.finished ++ [k] }
          (getClientFromSerial cfg s serial)
        have hstart : Wf start := h.congr rfl rfl rfl rfl rfl rfl fun _ _ _ ha => ha
        have hstores : Stores (getClientFromSerial cfg s serial) (fun _ => True) start
            (outcome.results.foldl (loadRow cfg (getClientFromSerial cfg s serial)) start) :=
          Stores.loadRows hstart fun _ _ _ => trivial
        exact hstores.kept a hlt
    | insertData sid id b =>
      have hne : a ≠ b := by
        rintro rfl
        exact kept ⟨sid, id, hq⟩
      exact Function.update_of_ne hne ..
    | selectId c name => rfl

lemma heap_apply (h : Wf s) {e : Event} (allowed : e.Allowed cfg s) (hlt : a < s.nextData)
    (hnot : ∀ i, a ∉ s.clientData i) (kept : ¬ Drops s a e) :
    (e.apply cfg s).heap a = s.heap a := by
  cases e with
  | connect i p => rfl
  | authorize i => exact congrFun (heap_onClientAuthorized i) a
  | disconnecting i =>
    have hafter : (onClientDisconnecting cfg s i).heap a = s.heap a := by
      have hrelease : (releaseAll i (authOf (s.roster i)) (afterReconnect cfg s i)
          (s.clientData i)).heap a = (afterReconnect cfg s i).heap a :=
        releaseAll_heap_of_notMem (hnot i)
      rw [onClientDisconnecting_eq h]
      exact hrelease
    exact hafter
  | disconnected i => rfl
  | reconnect => exact congrFun (heap_attemptReconnection cfg s).1 a
  | createCookie name description access => exact congrFun (heap_createCookie ..) a
  | setCookieValue c i value now => exact heap_setCookieValue h hlt hnot c i value now
  | getCookieValue c i => exact heap_getCookieValue hlt c i
  | setAuthIdCookie authId c value now =>
    obtain ⟨t, ht⟩ := Option.isSome_iff_exists.mp allowed.2
    simp only [Event.apply, ht, Option.getD_some]
    exact heap_setAuthIdCookie h hlt hnot ht
  | think k talk outcome => exact heap_runFrame h hlt kept

section Due
variable {s t : Serial} {m : Move}

def pending (s : Serial) : List Query := s.main.sent.drop s.results.length

def savedBy (key : Bytes) (m : Server) (q : Query) : Option Bytes := savedAt key (jobOf m q)

/-- The value under the key once the queue is empty, if nothing is added to it. -/
def due (s : Serial) (key : Bytes) : Option Bytes :=
  ((pending s).filterMap (savedBy key s.main)).getLast?.or (s.store.value key)

/-- The queries are in order, and so are their payloads. -/
structure Queued (cfg : Config) (s : Serial) : Prop where
  orderly : Orderly cfg s
  once : OnePayload s.main

def newSaves (cfg : Config) (s : Serial) : Move → List Query
  | .main e => savesOf cfg s.main e
  | _ => []

lemma Queued.begin (roster : ℕ → Option Player) (spent : List ℕ) (store : Store) :
    Queued cfg (begin roster spent store) := ⟨Orderly.begin roster spent store, List.nodup_nil⟩

theorem Queued.step (h : Queued cfg s) (step : SerialStep cfg s m t) : Queued cfg t := by
  refine ⟨h.orderly.step step, ?_⟩
  rcases h.orderly.cases step with ⟨e, _, ⟨allowed, hmain⟩, _⟩ | ⟨q, outcome, _, _, _, rfl⟩
  · rw [hmain]
    exact h.once.apply h.orderly.coupled.wf allowed
  · exact h.once

theorem Queued.run {trace : List (Serial × Move)} (h : Queued cfg s)
    (run : Run (SerialStep cfg) s trace t) : Queued cfg t := by
  have preserved : ∀ (a : Serial) (m : Move) (b : Serial), Queued cfg a →
      SerialStep cfg a m b → Queued cfg b := fun _ _ _ h step => h.step step
  exact run.stable h preserved

lemma savedBy_eq_none {q : Query} (hq : payloadOf q = none) (key : Bytes) (m : Server) :
    savedBy key m q = none := by
  cases q with
  | insertData sid id a => cases hq
  | _ => rfl

lemma savedBy_congr {m m' : Server} {q : Query}
    (heap : ∀ a, payloadOf q = some a → m'.heap a = m.heap a) :
    savedBy key m' q = savedBy key m q := by
  cases q with
  | insertData sid id a => simp only [savedBy, jobOf, savedAt, heap a rfl]
  | _ => rfl

lemma value_solo {hash : Bytes → ℕ} (outside : NotRegistry key) (store : Store) (j : Job) :
    (solo serve store (bindParamsAndRun hash j)).1.value key =
      (savedAt key j).or (store.value key) := by
  by_cases hj : ∃ sid id value, j = .insertData sid id value
  · obtain ⟨sid, id, value, rfl⟩ := hj
    have hset : (solo serve store (bindParamsAndRun hash (.insertData sid id value))).1.value key =
        (store.write (valueKey sid (toText id)) value).value key := rfl
    rw [hset, value_write, savedAt]
    by_cases hkey : valueKey sid (toText id) = key
    · rw [if_pos hkey.symm, if_pos hkey, Option.some_or]
    · rw [if_neg fun heq => hkey heq.symm, if_neg hkey, Option.none_or]
  · have hother : ∀ sid id value, j ≠ .insertData sid id value :=
      fun sid id value heq => hj ⟨sid, id, value, heq⟩
    have hsaved : savedAt key j = none := by
      cases j with
      | insertData sid id value => exact absurd rfl (hother sid id value)
      | _ => rfl
    have hexec : ∀ (u : Store) (c : Command), u.value key = store.value key →
        ¬ (keyCell key).Touches c → (serve u c).1.value key = store.value key := by
      intro u c hu hc
      have hlook : (serve u c).1.value key = (storesAt key c).or (u.value key) :=
        (keyCell key).look_exec u c
      have hnone : storesAt key c = none := Option.not_isSome_iff_eq_none.mp hc
      rw [hlook, hnone, Option.none_or, hu]
    have hquiet : (bindParamsAndRun hash j).Quiet (keyCell key).Touches :=
      bindParamsAndRun_quiet outside hother
    rw [hsaved, Option.none_or]
    exact (solo_keeps (I := fun u : Store => u.value key = store.value key) hquiet rfl hexec
      fun _ _ _ => trivial).1

lemma payload_unique {m : Server} (once : OnePayload m) {j k : ℕ} {q r : Query}
    (hq : m.sent[j]? = some q) (hr : m.sent[k]? = some r) (ha : payloadOf q = some a)
    (hb : payloadOf r = some a) : j = k := by
  obtain ⟨hj, rfl⟩ := List.getElem?_eq_some_iff.mp hq
  obtain ⟨hk, rfl⟩ := List.getElem?_eq_some_iff.mp hr
  have apart := List.pairwise_iff_getElem.mp (List.pairwise_filterMap.mp once)
  rcases Nat.lt_trichotomy j k with hlt | heq | hlt
  · exact absurd rfl (apart j k hj hk hlt a ha a hb)
  · exact heq
  · exact absurd rfl (apart k j hk hj hlt a hb a ha)

lemma due_main (h : Queued cfg s) {e : Event} (allowed : e.Allowed cfg s.main)
    (executed : ∀ k talk outcome, e = .think k talk outcome → k < s.results.length) (key : Bytes) :
    due { s with main := e.apply cfg s.main } key =
      (((savesOf cfg s.main e).filterMap (savedBy key (e.apply cfg s.main))).getLast?).or
        (due s key) := by
  have hwf : Wf s.main := h.orderly.coupled.wf
  obtain ⟨new, hsent, hnew⟩ := saves_apply hwf allowed
  have hkept : (pending s).filterMap (savedBy key (e.apply cfg s.main)) =
      (pending s).filterMap (savedBy key s.main) := by
    refine List.filterMap_congr fun q hq => savedBy_congr fun a ha => ?_
    have hmem : a ∈ s.main.sent.filterMap payloadOf :=
      List.mem_filterMap.mpr ⟨q, List.mem_of_mem_drop hq, ha⟩
    obtain ⟨hlt, hnot⟩ := payload_queued hwf hmem
    refine heap_apply hwf allowed hlt hnot fun drops => ?_
    cases e with
    | think k talk outcome =>
      obtain ⟨sid, id, hk⟩ := drops
      obtain ⟨j, hj⟩ := List.mem_iff_getElem?.mp hq
      rw [pending, List.getElem?_drop] at hj
      have hsame := payload_unique h.once hj hk ha rfl
      have hlate := executed k talk outcome rfl
      omega
    | _ => exact drops
  have hpending : pending { s with main := e.apply cfg s.main } = pending s ++ new := by
    simp only [pending, hsent]
    exact List.drop_append_of_le_length h.orderly.executed
  have hsaves : new.filterMap (savedBy key (e.apply cfg s.main)) =
      (savesOf cfg s.main e).filterMap (savedBy key (e.apply cfg s.main)) := by
    rw [← hnew]
    exact (filterMap_isSave (fun q hq => savedBy_eq_none hq key _) new).symm
  unfold due
  rw [hpending, List.filterMap_append, hkept, hsaves, List.getLast?_append, Option.or_assoc]

lemma due_execute (cfg : Config) (outside : NotRegistry key) {q : Query} (outcome : Outcome)
    (hq : s.main.sent[s.results.length]? = some q) :
    due ⟨s.main, (solo serve s.store (convOf cfg s.main q)).1,
      s.results ++ [(s.results.length, q, outcome)]⟩ key = due s key := by
  have hpending : pending s = q :: s.main.sent.drop (s.results.length + 1) := by
    obtain ⟨hlt, rfl⟩ := List.getElem?_eq_some_iff.mp hq
    exact List.drop_eq_getElem_cons hlt
  have hafter : pending ⟨s.main, (solo serve s.store (convOf cfg s.main q)).1,
      s.results ++ [(s.results.length, q, outcome)]⟩ =
      s.main.sent.drop (s.results.length + 1) := by
    simp [pending]
  have hvalue : (solo serve s.store (convOf cfg s.main q)).1.value key =
      (savedBy key s.main q).or (s.store.value key) := value_solo outside s.store (jobOf s.main q)
  unfold due
  rw [hafter, hpending, hvalue]
  cases hsaved : savedBy key s.main q with
  | none => rw [List.filterMap_cons_none hsaved, Option.none_or]
  | some value =>
    rw [List.filterMap_cons_some hsaved, List.getLast?_cons]
    cases ((s.main.sent.drop (s.results.length + 1)).filterMap (savedBy key s.main)).getLast? <;> rfl

lemma newSaves_of_is (h : Queued cfg s) {e : Event} (allowed : m.Allowed cfg s) (his : m.Is e) :
    newSaves cfg s m = savesOf cfg s.main e ∧
      ∀ k talk outcome, e = .think k talk outcome → k < s.results.length := by
  cases m with
  | main e' =>
    obtain ⟨own, rfl⟩ := his
    refine ⟨rfl, ?_⟩
    rintro k talk outcome rfl
    exact own.elim
  | execute => exact his.elim
  | deliver j q outcome =>
    cases e with
    | think k talk outcome' =>
      obtain ⟨rfl, _⟩ := his
      refine ⟨rfl, ?_⟩
      rintro k talk' outcome' heq
      obtain rfl : j = k := (Event.think.inj heq).1
      exact h.orderly.lt allowed.2
    | _ => exact his.elim

theorem saves_step (h : Queued cfg s) (step : SerialStep cfg s m t) :
    Saves (newSaves cfg s m) s.main t.main := by
  rcases h.orderly.cases step with ⟨e, his, ⟨allowed, hmain⟩, _⟩ | ⟨q, outcome, rfl, _, _, rfl⟩
  · rw [hmain, (newSaves_of_is h step.1 his).1]
    exact saves_apply h.orderly.coupled.wf allowed
  · exact .of_sent rfl

/-- Everything that a move can do to what is due under a key outside the registry. -/
theorem due_step (h : Queued cfg s) (step : SerialStep cfg s m t) (outside : NotRegistry key) :
    due t key = (((newSaves cfg s m).filterMap (savedBy key t.main)).getLast?).or (due s key) := by
  rcases h.orderly.cases step with ⟨e, his, ⟨allowed, hmain⟩, ht⟩ | ⟨q, outcome, rfl, hq, _, rfl⟩
  · obtain ⟨hnew, executed⟩ := newSaves_of_is h step.1 his
    rw [ht, hmain, hnew]
    exact due_main h allowed executed key
  · rw [due_execute cfg outside outcome hq]
    rfl

def withScripts (s : Serial) (scripts : List Bytes) : Serial :=
  { s with store := { s.store with scripts := scripts } }

lemma Queued.withScripts (h : Queued cfg s) (scripts : List Bytes) :
    Queued cfg (withScripts s scripts) := by
  have coupled : Coupled cfg (PendingSaves.withScripts s scripts).system := by
    have hcoupled := h.orderly.coupled
    exact ⟨hcoupled.wf, rfl, hcoupled.registers, hcoupled.answered.pipes,
      hcoupled.answered.workers, hcoupled.answered.results⟩
  exact ⟨⟨coupled, h.orderly.executed, h.orderly.tickets, h.orderly.delivered⟩, h.once⟩

lemma due_withScripts (s : Serial) (scripts : List Bytes) (key : Bytes) :
    due (withScripts s scripts) key = due s key := rfl

end Due

end ClientPrefs.PendingSaves
