import ClientPrefs.QueryThread
import ClientPrefs.SlotRelease
import ClientPrefs.Transition

/-!
# Sessions

The events of the main thread: what the host reports, what plugins call, and the
think parts that `RunFrame` runs. Every native first calls `AttemptReconnection`; it is
the event `reconnect` followed by the event of its method.
-/
namespace ClientPrefs.Session
open ByteStrings Cookies CookieManager Conversation Conv LateLoad QueryThread SlotTables
open SlotRelease Transition

inductive Event
  | connect (client : ℕ) (player : Player)
  | authorize (client : ℕ)
  | disconnecting (client : ℕ)
  | disconnected (client : ℕ)
  | reconnect
  | createCookie (name description : Bytes) (access : CookieAccess)
  | setCookieValue (cookie : CookieRef) (client : ℕ) (value : Bytes) (now : ℕ)
  | getCookieValue (cookie : CookieRef) (client : ℕ)
  | setAuthIdCookie (authId : Bytes) (cookie : CookieRef) (value : Bytes) (now : ℕ)
  /-- The query's thread part had the conversation `talk` and left `outcome` behind. -/
  | think (query : ℕ) (talk : List (RedisStore.Command × Option RedisReply.Reply))
      (outcome : Outcome)

def jobOf (s : Server) : Query → Job
  | .insertCookie c =>
    .insertCookie (s.cookies c).name (s.cookies c).description (s.cookies c).access
  | .selectData _ steamId => .selectData steamId
  | .insertData steamId id a =>
    .insertData steamId id (((s.heap a).map CookieData.value).getD [])
  | .selectId _ name => .selectId name

def authorized (p : Player) : Player :=
  if h : p.authString.isSome = true then { p with authorized := true, has_auth := fun _ => h }
  else p

section Events
variable (cfg : Config)

/-- `RunThinkPart` and `Destroy` of a query; the latter deletes the payload of an `InsertData`. -/
def runThinkPart (s : Server) (query : Query) (outcome : Outcome) : Server :=
  match query with
  | .insertCookie c => insertCookieCallback s c outcome.insertId
  | .selectData serial _ => clientConnectCallback cfg s serial outcome.results
  | .insertData _ _ a => s.deleteData a
  | .selectId c _ => selectIdCallback s c outcome.insertId

/-- `RunFrame` with the result of the query at `t`. -/
def runFrame (s : Server) (t : ℕ) (outcome : Outcome) : Server :=
  match s.sent[t]? with
  | none => s
  | some query => runThinkPart cfg { s with finished := s.finished ++ [t] } query outcome

def Client (client : ℕ) : Prop := 1 ≤ client ∧ client ≤ cfg.maxClients

/-- What the host and the handle checks of the natives guarantee of an event. -/
def Event.Allowed (s : Server) : Event → Prop
  | connect i p => Client cfg i ∧ s.roster i = none ∧ p.authorized = false ∧ p.serial ∉ s.spent
  | authorize i => ∃ p, s.roster i = some p ∧ s.leaving i = false ∧ p.authorized = false ∧
      p.authString.isSome = true
  | disconnecting i => Client cfg i ∧ (s.roster i).isSome = true ∧ s.leaving i = false
  | disconnected i => s.leaving i = true
  | reconnect => True
  | createCookie _ _ _ => True
  | setCookieValue c i _ _ => c < s.cookieCount ∧ Client cfg i
  | getCookieValue c i => c < s.cookieCount ∧ Client cfg i
  | setAuthIdCookie authId c v now => c < s.cookieCount ∧
      (CookieManager.setAuthIdCookie cfg s authId c v now).isSome = true
  | think t talk outcome => t ∉ s.finished ∧ ∃ q, s.sent[t]? = some q ∧
      Talks (bindParamsAndRun cfg.hash (jobOf s q)) talk outcome

def Event.apply (s : Server) : Event → Server
  | connect i p =>
    { s with roster := Function.update s.roster i (some p), spent := p.serial :: s.spent }
  | authorize i =>
    onClientAuthorized cfg
      { s with roster := Function.update s.roster i ((s.roster i).map authorized) } i
  | disconnecting i =>
    { onClientDisconnecting cfg s i with leaving := Function.update s.leaving i true }
  | disconnected i =>
    { s with
      roster := Function.update s.roster i none
      leaving := Function.update s.leaving i false }
  | reconnect => attemptReconnection cfg s
  | createCookie name description access =>
    (CookieManager.createCookie cfg s name description access).1
  | setCookieValue c i v now => CookieManager.setCookieValue s c i v now
  | getCookieValue c i => (CookieManager.getCookieValue s c i).1
  | setAuthIdCookie authId c v now =>
    (CookieManager.setAuthIdCookie cfg s authId c v now).getD s
  | think t _ outcome => runFrame cfg s t outcome

def Step (s : Server) (e : Event) (t : Server) : Prop := e.Allowed cfg s ∧ t = e.apply cfg s

end Events

def start (roster : ℕ → Option Player) (spent : List ℕ) : Server where
  roster := roster
  leaving := fun _ => false
  spent := spent
  cookies := fun _ => Cookie.new [] [] accessPublic
  cookieCount := 0
  cookieFinder := []
  clientData := fun _ => []
  connected := fun _ => false
  statsLoaded := fun _ => false
  statsPending := fun _ => false
  heap := fun _ => none
  nextData := 0
  sent := []
  finished := []
  cached := []

variable {cfg : Config} {s : Server}

/-- What the host keeps: every occupant has a serial of its own. -/
structure Host (cfg : Config) (s : Server) : Prop where
  range : ∀ i p, s.roster i = some p → Client cfg i
  serial : ∀ i p, s.roster i = some p → p.serial ∈ s.spent
  distinct : ∀ i j p q, s.roster i = some p → s.roster j = some q → p.serial = q.serial → i = j

lemma Wf.start (roster : ℕ → Option Player) (spent : List ℕ) : Wf (start roster spent) := by
  constructor <;> simp [Session.start, Cookie.new]

lemma Wf.runThinkPart (h : Wf s) {t : ℕ} {q : Query} (hq : s.sent[t]? = some q)
    (outcome : Outcome) : Wf (runThinkPart cfg s q outcome) := by
  cases q with
  | insertCookie c => exact h.insertCookieCallback c _
  | selectData serial sid => exact h.clientConnectCallback serial _
  | insertData sid id a => exact h.deletePayload (h.queued sid id a (List.mem_of_getElem? hq)).2
  | selectId c name => exact h.selectIdCallback c _

lemma Wf.runFrame (h : Wf s) (t : ℕ) (outcome : Outcome) : Wf (runFrame cfg s t outcome) := by
  unfold Session.runFrame
  split
  · exact h
  · next q hq =>
    have hfin : Wf { s with finished := s.finished ++ [t] } :=
      h.congr rfl rfl rfl rfl rfl rfl fun _ _ _ ha => ha
    exact Wf.runThinkPart hfin hq outcome

/-- Every event keeps the two tables together. -/
theorem Wf.apply (h : Wf s) {e : Event} (allowed : e.Allowed cfg s) : Wf (e.apply cfg s) := by
  cases e with
  | connect i p => exact h.congr rfl rfl rfl rfl rfl rfl fun _ _ _ ha => ha
  | authorize i =>
    apply Wf.onClientAuthorized
    exact h.congr rfl rfl rfl rfl rfl rfl fun _ _ _ ha => ha
  | disconnecting i =>
    exact (SlotRelease.Wf.onClientDisconnecting h i).congr rfl rfl rfl rfl rfl rfl
      fun _ _ _ ha => ha
  | disconnected i => exact h.congr rfl rfl rfl rfl rfl rfl fun _ _ _ ha => ha
  | reconnect => exact h.attemptReconnection
  | createCookie name description access => exact h.createCookie name description access
  | setCookieValue c i v now => exact h.setCookieValue allowed.1 i v now
  | getCookieValue c i => exact h.getCookieValue allowed.1 i
  | setAuthIdCookie authId c v now =>
    obtain ⟨t, ht⟩ := Option.isSome_iff_exists.mp allowed.2
    simp only [Event.apply, ht, Option.getD_some]
    exact h.setAuthIdCookie allowed.1 ht
  | think t talk outcome => exact Wf.runFrame h t outcome

section HostPart

/-- The fields that only the host changes. -/
def hostOf (s : Server) : (ℕ → Option Player) × (ℕ → Bool) × List ℕ :=
  (s.roster, s.leaving, s.spent)

lemma hostOf_attemptReconnection : hostOf (attemptReconnection cfg s) = hostOf s := by
  rw [attemptReconnection_eq]
  rfl

lemma hostOf_onClientAuthorized (i : ℕ) : hostOf (onClientAuthorized cfg s i) = hostOf s := by
  rw [onClientAuthorized_eq]
  split
  · rfl
  · split_ifs <;> rfl

lemma hostOf_onClientDisconnecting (h : Wf s) (i : ℕ) :
    hostOf (onClientDisconnecting cfg s i) = hostOf s := by
  rw [onClientDisconnecting_eq h]
  rfl

lemma hostOf_createCookie (name description : Bytes) (access : CookieAccess) :
    hostOf (createCookie cfg s name description access).1 = hostOf s := by
  unfold createCookie
  split <;> rfl

lemma hostOf_loadRow (i : ℕ) (row : Cookie × Bytes) :
    hostOf (loadRow cfg i s row) = hostOf s := by
  have hcreate : hostOf (findOrCreate cfg s row.1).1 = hostOf s := by
    unfold findOrCreate
    split
    · rfl
    · exact hostOf_createCookie ..
  exact hcreate

lemma hostOf_loadRows (i : ℕ) (rows : List (Cookie × Bytes)) :
    hostOf (rows.foldl (loadRow cfg i) s) = hostOf s := by
  induction rows generalizing s with
  | nil => rfl
  | cons row rows ih => rw [List.foldl_cons, ih, hostOf_loadRow]

lemma hostOf_clientConnectCallback (serial : ℕ) (rows : List (Cookie × Bytes)) :
    hostOf (clientConnectCallback cfg s serial rows) = hostOf s := by
  unfold clientConnectCallback
  dsimp only
  split_ifs
  · rfl
  · have hloop : hostOf (rows.foldl (loadRow cfg (getClientFromSerial cfg s serial))
        (clearPending s (getClientFromSerial cfg s serial))) = hostOf s := hostOf_loadRows ..
    exact hloop

lemma hostOf_getCookieValue (c : CookieRef) (i : ℕ) :
    hostOf (getCookieValue s c i).1 = hostOf s := by
  unfold getCookieValue
  split <;> rfl

lemma hostOf_setCookieValue (c : CookieRef) (i : ℕ) (v : Bytes) (now : ℕ) :
    hostOf (setCookieValue s c i v now) = hostOf s := by
  unfold setCookieValue
  split <;> rfl

lemma hostOf_setAuthIdCookie {authId : Bytes} {c : CookieRef} {v : Bytes} {now : ℕ} {t : Server}
    (h : setAuthIdCookie cfg s authId c v now = some t) : hostOf t = hostOf s := by
  obtain ⟨i, _, rfl⟩ := Option.map_eq_some_iff.mp h
  split_ifs
  · rw [hostOf_setCookieValue, hostOf_attemptReconnection]
  · exact (hostOf_attemptReconnection : hostOf (attemptReconnection cfg s) = hostOf s)

lemma hostOf_runFrame (t : ℕ) (outcome : Outcome) :
    hostOf (runFrame cfg s t outcome) = hostOf s := by
  unfold runFrame
  split
  · rfl
  · next q _ =>
    cases q with
    | insertCookie c =>
      simp only [runThinkPart, insertCookieCallback]
      split_ifs <;> rfl
    | selectData serial sid => exact hostOf_clientConnectCallback ..
    | insertData sid id a => rfl
    | selectId c name => rfl

def Event.host (s : Server) : Event → (ℕ → Option Player) × (ℕ → Bool) × List ℕ
  | connect i p => (Function.update s.roster i (some p), s.leaving, p.serial :: s.spent)
  | authorize i => (Function.update s.roster i ((s.roster i).map authorized), s.leaving, s.spent)
  | disconnecting i => (s.roster, Function.update s.leaving i true, s.spent)
  | disconnected i =>
    (Function.update s.roster i none, Function.update s.leaving i false, s.spent)
  | _ => hostOf s

lemma hostOf_apply (h : Wf s) {e : Event} (allowed : e.Allowed cfg s) :
    hostOf (e.apply cfg s) = e.host s := by
  cases e with
  | connect i p => rfl
  | authorize i => exact hostOf_onClientAuthorized i
  | disconnecting i =>
    have hsame : hostOf (onClientDisconnecting cfg s i) = hostOf s :=
      hostOf_onClientDisconnecting h i
    simp only [hostOf, Prod.mk.injEq] at hsame
    simp only [Event.apply, Event.host, hostOf, hsame]
  | disconnected i => rfl
  | reconnect => exact hostOf_attemptReconnection
  | createCookie name description access => exact hostOf_createCookie name description access
  | setCookieValue c i v now => exact hostOf_setCookieValue c i v now
  | getCookieValue c i => exact hostOf_getCookieValue c i
  | setAuthIdCookie authId c v now =>
    obtain ⟨t, ht⟩ := Option.isSome_iff_exists.mp allowed.2
    simp only [Event.apply, ht, Option.getD_some]
    exact hostOf_setAuthIdCookie ht
  | think t talk outcome => exact hostOf_runFrame t outcome

lemma authorized_serial (p : Player) : (authorized p).serial = p.serial := by
  unfold authorized
  split_ifs <;> rfl

lemma authorized_steamIdOf (p : Player) : steamIdOf (authorized p) = steamIdOf p := by
  unfold authorized
  split_ifs <;> rfl

lemma Host.congr {t : Server} (h : Host cfg s) (same : hostOf t = hostOf s) : Host cfg t := by
  simp only [hostOf, Prod.mk.injEq] at same
  obtain ⟨hroster, _, hspent⟩ := same
  constructor <;> simp only [hroster, hspent]
  · exact h.range
  · exact h.serial
  · exact h.distinct

lemma Host.put {t : Server} (h : Host cfg s) {i : ℕ} {p : Player}
    (hroster : t.roster = Function.update s.roster i (some p)) (hi : Client cfg i)
    (hspent : ∀ n, n ∈ s.spent → n ∈ t.spent) (hp : p.serial ∈ t.spent)
    (hnew : ∀ j q, j ≠ i → s.roster j = some q → q.serial ≠ p.serial) : Host cfg t := by
  have hcases : ∀ {j q}, t.roster j = some q → (j = i ∧ q = p) ∨ (j ≠ i ∧ s.roster j = some q) := by
    intro j q hj
    rw [hroster] at hj
    by_cases hji : j = i
    · subst hji
      rw [Function.update_self, Option.some.injEq] at hj
      exact .inl ⟨rfl, hj.symm⟩
    · rw [Function.update_of_ne hji] at hj
      exact .inr ⟨hji, hj⟩
  constructor
  · intro j q hj
    rcases hcases hj with ⟨rfl, _⟩ | ⟨_, hj⟩
    · exact hi
    · exact h.range j q hj
  · intro j q hj
    rcases hcases hj with ⟨_, rfl⟩ | ⟨_, hj⟩
    · exact hp
    · exact hspent _ (h.serial j q hj)
  · intro j k q r hj hk hser
    rcases hcases hj with ⟨rfl, rfl⟩ | ⟨hji, hj⟩
    · rcases hcases hk with ⟨rfl, _⟩ | ⟨hki, hk⟩
      · rfl
      · exact absurd hser.symm (hnew k r hki hk)
    · rcases hcases hk with ⟨rfl, rfl⟩ | ⟨_, hk⟩
      · exact absurd hser (hnew j q hji hj)
      · exact h.distinct j k q r hj hk hser

lemma Host.apply (h : Host cfg s) (hwf : Wf s) {e : Event} (allowed : e.Allowed cfg s) :
    Host cfg (e.apply cfg s) := by
  have hhost := hostOf_apply hwf allowed
  cases e with
  | connect i p =>
    obtain ⟨hi, _, _, hnew⟩ := allowed
    refine h.put rfl hi (fun n hn => List.mem_cons_of_mem _ hn) (List.mem_cons_self ..) ?_
    intro j q _ hj hser
    exact hnew (hser ▸ h.serial j q hj)
  | authorize i =>
    obtain ⟨p, hp, _⟩ := allowed
    simp only [Event.host, hp, Option.map_some, hostOf, Prod.mk.injEq] at hhost
    refine h.put hhost.1 (h.range i p hp) (fun n hn => hhost.2.2 ▸ hn) ?_ ?_
    · rw [authorized_serial, hhost.2.2]
      exact h.serial i p hp
    · intro j q hji hj hser
      rw [authorized_serial] at hser
      exact hji (h.distinct j i q p hj hp hser)
  | disconnecting i =>
    simp only [Event.host, hostOf, Prod.mk.injEq] at hhost
    constructor <;> simp only [hhost]
    · exact h.range
    · exact h.serial
    · exact h.distinct
  | disconnected i =>
    have hcases : ∀ {j q}, Function.update s.roster i none j = some q → s.roster j = some q := by
      intro j q hj
      by_cases hji : j = i
      · simp [hji] at hj
      · simpa [hji] using hj
    constructor
    · exact fun j q hj => h.range j q (hcases hj)
    · exact fun j q hj => h.serial j q (hcases hj)
    · exact fun j k q r hj hk => h.distinct j k q r (hcases hj) (hcases hk)
  | _ => exact h.congr hhost

lemma occupant_of_apply (h : Wf s) {e : Event} (allowed : e.Allowed cfg s) {i : ℕ} {r : Player}
    (hr : (e.apply cfg s).roster i = some r) :
    (∃ p, s.roster i = some p ∧ p.serial = r.serial ∧ steamIdOf p = steamIdOf r) ∨
      r.serial ∉ s.spent := by
  have hroster : (e.apply cfg s).roster = (e.host s).1 :=
    congrArg Prod.fst (hostOf_apply h allowed)
  rw [hroster] at hr
  cases e with
  | connect j p =>
    by_cases hij : i = j
    · obtain rfl : p = r := by simpa [Event.host, hij] using hr
      exact .inr allowed.2.2.2
    · simp only [Event.host, Function.update_of_ne hij] at hr
      exact .inl ⟨r, hr, rfl, rfl⟩
  | authorize j =>
    by_cases hij : i = j
    · subst hij
      simp only [Event.host, Function.update_self, Option.map_eq_some_iff] at hr
      obtain ⟨p, hp, rfl⟩ := hr
      exact .inl ⟨p, hp, (authorized_serial p).symm, (authorized_steamIdOf p).symm⟩
    · simp only [Event.host, Function.update_of_ne hij] at hr
      exact .inl ⟨r, hr, rfl, rfl⟩
  | disconnected j =>
    by_cases hij : i = j
    · simp [Event.host, hij] at hr
    · simp only [Event.host, Function.update_of_ne hij] at hr
      exact .inl ⟨r, hr, rfl, rfl⟩
  | _ => exact .inl ⟨r, hr, rfl, rfl⟩

lemma spent_of_apply (h : Wf s) {e : Event} (allowed : e.Allowed cfg s) {n : ℕ}
    (hn : n ∈ s.spent) : n ∈ (e.apply cfg s).spent := by
  have hspent : (e.apply cfg s).spent = (e.host s).2.2 :=
    congrArg (fun x => x.2.2) (hostOf_apply h allowed)
  rw [hspent]
  cases e with
  | connect j p => exact List.mem_cons_of_mem _ hn
  | _ => exact hn

end HostPart

theorem wf_of_run {roster : ℕ → Option Player} {spent : List ℕ} {trace : List (Server × Event)}
    (run : Run (Step cfg) (start roster spent) trace s) : Wf s := by
  have preserved : ∀ a e b, Wf a → Step cfg a e b → Wf b := by
    intro a e b h step
    obtain ⟨allowed, rfl⟩ := step
    exact Wf.apply h allowed
  exact run.stable (Wf.start roster spent) preserved

/-- Every state of a session has both invariants. -/
theorem reachable {roster : ℕ → Option Player} {spent : List ℕ} {trace : List (Server × Event)}
    (host : Host cfg (start roster spent)) (run : Run (Step cfg) (start roster spent) trace s) :
    Wf s ∧ Host cfg s := by
  have preserved : ∀ a e b, Wf a ∧ Host cfg a → Step cfg a e b → Wf b ∧ Host cfg b := by
    intro a e b h step
    obtain ⟨allowed, rfl⟩ := step
    exact ⟨Wf.apply h.1 allowed, h.2.apply h.1 allowed⟩
  exact run.stable ⟨Wf.start roster spent, host⟩ preserved

section Play
variable (cfg : Config)

abbrev play : Server → List Event → Server := enact (Event.apply cfg)

abbrev playTrace : Server → List Event → List (Server × Event) := enactTrace (Event.apply cfg)

abbrev Playable : Server → List Event → Prop := Enactable (Event.apply cfg) (Event.Allowed cfg)

end Play

theorem play_run {es : List Event} (h : Playable cfg s es) :
    Run (Step cfg) s (playTrace cfg s es) (play cfg s es) := enact_run h

def oneSlot : Config where
  maxClients := 1
  hash := List.length
  nameHash := fun name => name.length.toUInt32

lemma client_one : Client oneSlot 1 := ⟨le_rfl, le_rfl⟩

/-- A player who has not been authorized yet. -/
def newcomer7 : Player where
  serial := 7
  fake := false
  authorized := false
  authString := some (bytes "STEAM_1:0:7")
  steam2Id := some (bytes "STEAM_1:0:7")
  steam3Id := some (bytes "[U:1:14]")
  has_auth := by simp

def vacant : Server := start (fun _ => none) []

lemma host_start_vacant : Host oneSlot vacant := by
  constructor <;> simp [vacant, start]

/-- A cookie is registered; its `GET` finds no id, so the hash of the name becomes the id. -/
def registration : List Event :=
  [.createCookie (bytes "music") [] 0,
    .think 0 [(.get (RedisStore.idKey (bytes "music")), some .nil)] ⟨true, 5, []⟩]

lemma registration_playable : Playable oneSlot vacant registration := by
  refine ⟨trivial, ⟨by decide, .insertCookie 0, by decide, ?_⟩, trivial⟩
  exact Talks.command_bind (.tell (.done _))

/-- The script answers one row for the newcomer. -/
def musicTalk (value : String) : List (RedisStore.Command × Option RedisReply.Reply) :=
  [(.evalsha scriptSha (bytes "STEAM_1:0:7"), some (.arrays [.arrays [.string (bytes "music"),
    .string [], .string (bytes "0"), .string (bytes value)]]))]

def musicOutcome (value : String) : Outcome :=
  ⟨true, -1, [(Cookie.new (bytes "music") [] 0, cstr (bytes value))]⟩

lemma musicTalk_talks (value : String) :
    Talks (bindParamsAndRun oneSlot.hash (.selectData (bytes "STEAM_1:0:7"))) (musicTalk value)
      (musicOutcome value) := Talks.command_bind (.done _)

def alone (p : Player) (i : ℕ) : Option Player := if i = 1 then some p else none

lemma host_start_alone (p : Player) : Host oneSlot (start (alone p) [p.serial]) := by
  constructor
  · intro i q hq
    by_cases hi : i = 1
    · exact ⟨by omega, by simp [hi, oneSlot]⟩
    · simp [start, alone, hi] at hq
  · intro i q hq
    have hqp : q = p := by
      by_cases hi : i = 1
      · simpa [start, alone, hi, eq_comm] using hq
      · simp [start, alone, hi] at hq
    simp [start, hqp]
  · intro i j q r hq hr _
    have hi : i = 1 := by
      by_contra hi
      simp [start, alone, hi] at hq
    have hj : j = 1 := by
      by_contra hj
      simp [start, alone, hj] at hr
    rw [hi, hj]

end ClientPrefs.Session
