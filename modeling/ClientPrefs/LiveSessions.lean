import ClientPrefs.CookieTable
import ClientPrefs.PendingSaves

/-!
# Players who come and go

A player's session goes from the authorization to the disconnecting event. While players
have ids of their own and plugins set values only after a load, each session loads once,
and what a slot keeps as changed was set for its player.
-/
namespace ClientPrefs.LiveSessions
open ByteStrings Cookies CookieManager CookieTable Disconnect LateLoad LoadIsolation Loads
open QueryThread SaveIsolation SerialQueries Session SlotRelease SlotTables SlotValues Transition
open Extension

/-- An authorized real player, whose disconnecting event has not come yet. -/
def Live (s : Server) (i : ℕ) (p : Player) : Prop :=
  s.roster i = some p ∧ s.leaving i = false ∧ p.authorized = true ∧ p.fake = false

/-- A load of the player was delivered, and the disconnecting event has not come yet. -/
def Served (s : Server) (i : ℕ) (p : Player) : Prop :=
  s.roster i = some p ∧ s.leaving i = false ∧
    ∃ k ∈ s.finished, ∃ sid, s.sent[k]? = some (.selectData p.serial sid)

def playerId (p : Player) : Bytes := cstr ((compatAuthId p).getD [])

/-- The player's id has at most 29 bytes and does not lead into the registry, and nobody else has
it. -/
def Admits (s : Server) (p : Player) : Prop :=
  (playerId p).length ≤ 29 ∧ ¬ bytes "cookies." <+: playerId p ∧
    ∀ j q, Live s j q → playerId q ≠ playerId p

/-- Only players with ids of their own are authorized, and values are set only once they are
loaded. No cookie is added. -/
def Plays (cfg : Config) (s : Server) : Event → Prop
  | .authorize i => ∀ p, s.roster i = some p → p.fake = false → Admits s p
  | .createCookie name _ _ => (findCookie cfg s name).isSome = true
  | .setCookieValue _ i _ _ => ∃ p, Served s i p
  | .setAuthIdCookie _ _ _ _ => False
  | _ => True

def About (p : Player) : Query → Prop
  | .selectData serial _ => serial = p.serial
  | .insertData sid _ _ => sid = steamIdOf p
  | _ => False

/-- If the one query loads the values of a player who is there, the other is not about that
player. -/
def Follows (s : Server) (q r : Query) : Prop :=
  ∀ i p sid, q = .selectData p.serial sid → Live s i p → ¬ About p r

/-- Every changed value is the one that its cookie leads to. -/
def Current (s : Server) : Prop := ∀ i a e, a ∈ s.clientData i → s.heap a = some e →
  e.changed = true → (s.cookies e.parent).data i = some a

/-- What holds between the events. -/
structure Sessions (cfg : Config) (s : Server) : Prop where
  wf : Wf s
  host : Host cfg s
  addressed : Addressed s
  /-- `CatchLateLoadClients` finds nobody. -/
  flagged : ∀ i p, Live s i p → s.statsPending i = true ∨ s.statsLoaded i = true
  asked : ∀ i p sid, s.roster i = some p → .selectData p.serial sid ∈ s.sent →
    p.authorized = true ∧ p.fake = false
  admitted : ∀ i p, Live s i p → steamIdOf p = playerId p ∧ ¬ bytes "cookies." <+: playerId p
  apart : ∀ i j p q, Live s i p → Live s j q → steamIdOf p = steamIdOf q → i = j
  /-- After the load of a player the next query about the player comes with the disconnect. -/
  follows : s.sent.Pairwise (Follows s)
  current : Current s
  changes : ∀ i a e, a ∈ s.clientData i → s.heap a = some e → e.changed = true →
    ∃ p, Served s i p
  spares : ∀ sid id a, .insertData sid id a ∈ s.sent → ¬ bytes "cookies." <+: sid

variable {cfg : Config} {s t : Server} {e : Event} {i j : ℕ} {p q : Player}

lemma steamIdOf_eq (h : (playerId p).length ≤ 29) : steamIdOf p = playerId p := by
  unfold steamIdOf steamIdParam playerId
  unfold playerId at h
  cases hid : compatAuthId p with
  | none => rfl
  | some id =>
    rw [hid, Option.getD_some] at h
    exact stored_of_fits (Nat.lt_succ_of_le h)

lemma authorized_fake (p : Player) : (authorized p).fake = p.fake := by
  unfold authorized
  split_ifs <;> rfl

lemma authorized_playerId (p : Player) : playerId (authorized p) = playerId p := by
  unfold authorized
  split_ifs <;> rfl

lemma Sessions.live_of_served (h : Sessions cfg s) (served : Served s i p) : Live s i p := by
  obtain ⟨hp, hstays, k, _, sid, hk⟩ := served
  exact ⟨hp, hstays, h.asked i p sid hp (List.mem_of_getElem? hk)⟩

lemma Sessions.leaving_of_missed (h : Sessions cfg s) (hi : missed s i = true) :
    s.leaving i = true := by
  obtain ⟨hpending, hloaded, p, hp, hauth, hfake⟩ := missed_iff.mp hi
  by_contra hstays
  rcases h.flagged i p ⟨hp, Bool.eq_false_of_not_eq_true hstays, hauth, hfake⟩ with hflag | hflag
  · rw [hpending] at hflag
    cases hflag
  · rw [hloaded] at hflag
    cases hflag

theorem occupant_cases (hwf : Wf s) (allowed : e.Allowed cfg s)
    (hp : (e.apply cfg s).roster i = some p) : s.roster i = some p ∨
      (∃ q, e = .authorize i ∧ s.roster i = some q ∧ q.authorized = false ∧
        q.authString.isSome = true ∧ p = authorized q) ∨
      p.serial ∉ s.spent ∧ p.authorized = false := by
  have hhost := hostOf_apply hwf allowed
  cases e with
  | connect j q =>
    simp only [Event.host, hostOf, Prod.mk.injEq] at hhost
    rw [hhost.1] at hp
    by_cases hij : i = j
    · subst hij
      rw [Function.update_self, Option.some.injEq] at hp
      subst hp
      exact .inr (.inr ⟨allowed.2.2.2, allowed.2.2.1⟩)
    · rw [Function.update_of_ne hij] at hp
      exact .inl hp
  | authorize j =>
    simp only [Event.host, hostOf, Prod.mk.injEq] at hhost
    rw [hhost.1] at hp
    by_cases hij : i = j
    · subst hij
      obtain ⟨q, hq, _, hunauthorized, hauth⟩ := allowed
      rw [Function.update_self, hq, Option.map_some, Option.some.injEq] at hp
      exact .inr (.inl ⟨q, rfl, hq, hunauthorized, hauth, hp.symm⟩)
    · rw [Function.update_of_ne hij] at hp
      exact .inl hp
  | disconnected j =>
    simp only [Event.host, hostOf, Prod.mk.injEq] at hhost
    rw [hhost.1] at hp
    have hij : i ≠ j := by
      rintro rfl
      rw [Function.update_self] at hp
      cases hp
    rw [Function.update_of_ne hij] at hp
    exact .inl hp
  | _ =>
    simp only [Event.host, hostOf, Prod.mk.injEq] at hhost
    exact .inl (hhost.1 ▸ hp)

lemma stays_before (hwf : Wf s) (allowed : e.Allowed cfg s)
    (hp : (e.apply cfg s).roster i = some p) (hstays : (e.apply cfg s).leaving i = false) :
    s.leaving i = false := by
  have hhost := hostOf_apply hwf allowed
  cases e with
  | disconnecting j =>
    simp only [Event.host, hostOf, Prod.mk.injEq] at hhost
    rw [hhost.2.1] at hstays
    have hij : i ≠ j := by
      rintro rfl
      rw [Function.update_self] at hstays
      cases hstays
    rwa [Function.update_of_ne hij] at hstays
  | disconnected j =>
    simp only [Event.host, hostOf, Prod.mk.injEq] at hhost
    rw [hhost.1] at hp
    have hij : i ≠ j := by
      rintro rfl
      rw [Function.update_self] at hp
      cases hp
    rwa [hhost.2.1, Function.update_of_ne hij] at hstays
  | _ =>
    simp only [Event.host, hostOf, Prod.mk.injEq] at hhost
    exact hhost.2.1 ▸ hstays

theorem live_cases (hwf : Wf s) (allowed : e.Allowed cfg s) (live : Live (e.apply cfg s) i p) :
    Live s i p ∨ ∃ q, e = .authorize i ∧ s.roster i = some q ∧ q.authorized = false ∧
      q.fake = false ∧ p = authorized q := by
  obtain ⟨hp, hstays, hauth, hfake⟩ := live
  rcases occupant_cases hwf allowed hp with hsame | ⟨q, he, hq, hunauthorized, _, rfl⟩ |
    ⟨_, hunauthorized⟩
  · exact .inl ⟨hsame, stays_before hwf allowed hp hstays, hauth, hfake⟩
  · exact .inr ⟨q, he, hq, hunauthorized, (authorized_fake q).symm.trans hfake, rfl⟩
  · rw [hunauthorized] at hauth
    cases hauth

lemma Sessions.live_before (h : Sessions cfg s) (allowed : e.Allowed cfg s)
    (live : Live (e.apply cfg s) i p) {sid : Bytes} (asked : .selectData p.serial sid ∈ s.sent) :
    Live s i p := by
  rcases live_cases h.wf allowed live with hlive | ⟨q, _, hq, hunauthorized, _, rfl⟩
  · exact hlive
  · rw [authorized_serial] at asked
    have hasked := (h.asked i q sid hq asked).1
    rw [hunauthorized] at hasked
    cases hasked

lemma live_after (hwf : Wf s) (allowed : e.Allowed cfg s) (live : Live s i p)
    (stays : e ≠ .disconnecting i) : Live (e.apply cfg s) i p := by
  obtain ⟨hp, hstays, hauth, hfake⟩ := live
  have hhost := hostOf_apply hwf allowed
  cases e with
  | connect j q =>
    simp only [Event.host, hostOf, Prod.mk.injEq] at hhost
    have hij : i ≠ j := by
      rintro rfl
      rw [allowed.2.1] at hp
      cases hp
    refine ⟨?_, hhost.2.1.symm ▸ hstays, hauth, hfake⟩
    rw [hhost.1, Function.update_of_ne hij, hp]
  | authorize j =>
    simp only [Event.host, hostOf, Prod.mk.injEq] at hhost
    have hij : i ≠ j := by
      rintro rfl
      obtain ⟨q, hq, _, hunauthorized, _⟩ := allowed
      obtain rfl : p = q := Option.some.inj (hp.symm.trans hq)
      rw [hauth] at hunauthorized
      cases hunauthorized
    refine ⟨?_, hhost.2.1.symm ▸ hstays, hauth, hfake⟩
    rw [hhost.1, Function.update_of_ne hij, hp]
  | disconnecting j =>
    simp only [Event.host, hostOf, Prod.mk.injEq] at hhost
    have hij : i ≠ j := by
      rintro rfl
      exact stays rfl
    refine ⟨hhost.1.symm ▸ hp, ?_, hauth, hfake⟩
    rw [hhost.2.1, Function.update_of_ne hij, hstays]
  | disconnected j =>
    simp only [Event.host, hostOf, Prod.mk.injEq] at hhost
    have hij : i ≠ j := by
      rintro rfl
      exact Bool.false_ne_true (hstays.symm.trans allowed)
    refine ⟨?_, ?_, hauth, hfake⟩
    · rw [hhost.1, Function.update_of_ne hij, hp]
    · rw [hhost.2.1, Function.update_of_ne hij, hstays]
  | _ =>
    simp only [Event.host, hostOf, Prod.mk.injEq] at hhost
    exact ⟨hhost.1.symm ▸ hp, hhost.2.1.symm ▸ hstays, hauth, hfake⟩

def Flagged (s : Server) (i : ℕ) : Prop := s.statsPending i = true ∨ s.statsLoaded i = true

lemma Flagged.authorizeAll {l : List ℕ} (h : Flagged s i) : Flagged (authorizeAll s l) i := by
  refine h.imp (fun hpending => ?_) id
  simp [LateLoad.authorizeAll, hpending]

lemma Flagged.onClientAuthorized (h : Flagged s i) (j : ℕ) :
    Flagged (onClientAuthorized cfg s j) i := by
  rw [onClientAuthorized_eq]
  split
  · exact h
  · split_ifs
    · exact h
    · have hflag : Flagged (flag s j) i := by
        refine h.imp (fun hpending => ?_) id
        by_cases hij : i = j
        · simp [flag, hij]
        · simp [flag, hij, hpending]
      exact hflag.authorizeAll

lemma flagged_onClientAuthorized (hp : s.roster i = some p) (hreal : p.fake = false) :
    Flagged (onClientAuthorized cfg s i) i := by
  have hflag : Flagged (flag s i) i := .inl (by simp [flag])
  rw [onClientAuthorized_eq, hp]
  simp only [hreal, Bool.false_eq_true, if_false]
  exact hflag.authorizeAll

lemma Flagged.onClientDisconnecting (hwf : Wf s) (h : Flagged s i) (hij : i ≠ j) :
    Flagged (onClientDisconnecting cfg s j) i := by
  have hreset : Flagged (resetFlags s j) i := by
    simp only [Flagged, resetFlags, Function.update_of_ne hij]
    exact h
  rw [onClientDisconnecting_eq hwf]
  exact hreset.authorizeAll

lemma flags_createCookie (name description : Bytes) (access : CookieAccess) :
    (createCookie cfg s name description access).1.statsPending = s.statsPending ∧
      (createCookie cfg s name description access).1.statsLoaded = s.statsLoaded := by
  unfold createCookie
  split <;> exact ⟨rfl, rfl⟩

lemma flags_loadRows (j : ℕ) (rows : List (Cookie × Bytes)) :
    (rows.foldl (loadRow cfg j) s).statsPending = s.statsPending ∧
      (rows.foldl (loadRow cfg j) s).statsLoaded = s.statsLoaded := by
  induction rows generalizing s with
  | nil => exact ⟨rfl, rfl⟩
  | cons row rows ih =>
    have hcreate : (findOrCreate cfg s row.1).1.statsPending = s.statsPending ∧
        (findOrCreate cfg s row.1).1.statsLoaded = s.statsLoaded := by
      unfold findOrCreate
      split
      · exact ⟨rfl, rfl⟩
      · exact flags_createCookie ..
    obtain ⟨hpending, hloaded⟩ := ih (s := loadRow cfg j s row)
    exact ⟨hpending.trans hcreate.1, hloaded.trans hcreate.2⟩

lemma Flagged.runFrame (h : Flagged s i) (k : ℕ) (outcome : Outcome) :
    Flagged (runFrame cfg s k outcome) i := by
  unfold Session.runFrame
  split
  · exact h
  · next q _ =>
    cases q with
    | insertCookie c =>
      simp only [runThinkPart, insertCookieCallback]
      split_ifs <;> exact h
    | selectData serial sid =>
      simp only [runThinkPart, clientConnectCallback]
      split_ifs
      · exact h
      · let start : Server :=
          clearPending { s with finished := s.finished ++ [k] } (getClientFromSerial cfg s serial)
        obtain ⟨hpending, hloaded⟩ :=
          @flags_loadRows cfg start (getClientFromSerial cfg s serial) outcome.results
        by_cases hi : i = getClientFromSerial cfg s serial
        · exact .inr (hi ▸ Function.update_self ..)
        · refine h.imp (fun hs => ?_) fun hs => ?_
          · refine (congrFun hpending i).trans ?_
            exact (Function.update_of_ne hi ..).trans hs
          · refine (Function.update_of_ne hi ..).trans ?_
            exact (congrFun hloaded i).trans hs
    | insertData sid id a => exact h
    | selectId c name => exact h

lemma Flagged.apply (hwf : Wf s) (h : Flagged s i) (plays : Plays cfg s e)
    (stays : e ≠ .disconnecting i) : Flagged (e.apply cfg s) i := by
  cases e with
  | connect j q => exact h
  | authorize j =>
    let given : Server :=
      { s with roster := Function.update s.roster j ((s.roster j).map authorized) }
    have hgiven : Flagged given i := h
    exact hgiven.onClientAuthorized j
  | disconnecting j =>
    have hij : i ≠ j := by
      rintro rfl
      exact stays rfl
    exact h.onClientDisconnecting hwf hij
  | disconnected j => exact h
  | reconnect =>
    have hafter : Flagged (attemptReconnection cfg s) i := by
      rw [attemptReconnection_eq]
      exact h.authorizeAll
    exact hafter
  | createCookie name description access =>
    obtain ⟨hpending, hloaded⟩ := @flags_createCookie cfg s name description access
    exact h.imp (fun hs => (congrFun hpending i).trans hs) fun hs => (congrFun hloaded i).trans hs
  | setCookieValue c j value now =>
    simp only [Event.apply, CookieManager.setCookieValue]
    split <;> exact h
  | getCookieValue c j =>
    simp only [Event.apply, CookieManager.getCookieValue]
    split <;> exact h
  | setAuthIdCookie authId c value now => exact plays.elim
  | think k talk outcome => exact h.runFrame k outcome

/-- No query of the list is about a player who is there, and the loads are about real players. -/
structure Distant (s : Server) (l : List Query) : Prop where
  apart : ∀ q ∈ l, ∀ i p, Live s i p → ¬ About p q
  asked : ∀ i p sid, .selectData p.serial sid ∈ l → s.roster i = some p →
    p.authorized = true ∧ p.fake = false
  ids : ∀ c name, .selectId c name ∉ l

/-- The event adds no query when it runs a think part. -/
def Silent (cfg : Config) (s : Server) (e : Event) : Prop :=
  ∀ k talk outcome, e = .think k talk outcome → (e.apply cfg s).sent = s.sent

lemma Distant.append {l l' : List Query} (h : Distant s l) (h' : Distant s l') :
    Distant s (l ++ l') where
  apart q hq := (List.mem_append.mp hq).elim (h.apart q) (h'.apart q)
  asked i p sid hq := (List.mem_append.mp hq).elim (h.asked i p sid) (h'.asked i p sid)
  ids c name hq := (List.mem_append.mp hq).elim (h.ids c name) (h'.ids c name)

lemma distant_selectQueries (host : Host cfg t) {u : Server} {l : List ℕ}
    (hl : ∀ j ∈ l, missed u j = true ∧ t.leaving j = true ∧ t.roster j = u.roster j) :
    Distant t (l.filterMap (selectQuery u)) := by
  have hmem : ∀ r ∈ l.filterMap (selectQuery u), ∃ j q, r = .selectData q.serial (steamIdOf q) ∧
      t.roster j = some q ∧ t.leaving j = true ∧ q.authorized = true ∧ q.fake = false := by
    intro r hr
    obtain ⟨j, hj, hselect⟩ := List.mem_filterMap.mp hr
    obtain ⟨q, hq, rfl⟩ := Option.map_eq_some_iff.mp hselect
    obtain ⟨hmissed, hleaves, hroster⟩ := hl j hj
    obtain ⟨_, _, q', hq', hreal⟩ := missed_iff.mp hmissed
    obtain rfl : q' = q := Option.some.inj (hq'.symm.trans hq)
    exact ⟨j, q', rfl, hroster.trans hq, hleaves, hreal⟩
  constructor
  · intro r hr i p live habout
    obtain ⟨j, q, rfl, hq, hleaves, _⟩ := hmem r hr
    have hsame : q.serial = p.serial := habout
    obtain rfl := host.distinct j i q p hq live.1 hsame
    exact Bool.false_ne_true (live.2.1.symm.trans hleaves)
  · intro i p sid hr hp
    obtain ⟨j, q, heq, hq, _, hreal⟩ := hmem _ hr
    obtain ⟨hserial, _⟩ := Query.selectData.inj heq
    obtain rfl := host.distinct i j p q hp hq hserial
    obtain rfl : p = q := Option.some.inj (hp.symm.trans hq)
    exact hreal
  · intro c name hr
    obtain ⟨_, _, heq, _⟩ := hmem _ hr
    cases heq

lemma Sessions.distant_saves (h : Sessions cfg s) (allowed : (Event.disconnecting i).Allowed cfg s) :
    Distant ((Event.disconnecting i).apply cfg s)
      ((s.clientData i).filterMap (savedQuery s (authOf (s.roster i)))) := by
  have hsave : ∀ r ∈ (s.clientData i).filterMap (savedQuery s (authOf (s.roster i))),
      ∃ a e auth, a ∈ s.clientData i ∧ s.heap a = some e ∧ authOf (s.roster i) = some auth ∧
        e.changed = true ∧ r = .insertData (steamIdParam (some auth)) (s.cookies e.parent).dbid a := by
    intro r hr
    obtain ⟨a, ha, hsaved⟩ := List.mem_filterMap.mp hr
    obtain ⟨e, auth, he, hauth, hchanged, _, rfl⟩ := savedQuery_eq_some hsaved
    exact ⟨a, e, auth, ha, he, hauth, hchanged, rfl⟩
  constructor
  case asked =>
    intro k p sid hr _
    obtain ⟨_, _, _, _, _, _, _, heq⟩ := hsave _ hr
    cases heq
  case ids =>
    intro c name hr
    obtain ⟨_, _, _, _, _, _, _, heq⟩ := hsave _ hr
    cases heq
  intro r hr k q live habout
  obtain ⟨a, e, auth, ha, he, hauth, hchanged, rfl⟩ := hsave r hr
  obtain ⟨p, served⟩ := h.changes i a e ha he hchanged
  have hlive : Live s i p := h.live_of_served served
  rw [served.1] at hauth
  have hhost := hostOf_apply h.wf allowed
  simp only [Event.host, hostOf, Prod.mk.injEq] at hhost
  obtain ⟨hq, hstays, hq'⟩ := live
  rw [hhost.1] at hq
  rw [hhost.2.1] at hstays
  have hki : k ≠ i := by
    rintro rfl
    rw [Function.update_self] at hstays
    cases hstays
  rw [Function.update_of_ne hki] at hstays
  exact hki (h.apart k i q p ⟨hq, hstays, hq'⟩ hlive
    ((habout : steamIdParam (some auth) = steamIdOf q).symm.trans
      (steamIdOf_of_authOf hauth).symm))

/-- What an event adds to the queue is about nobody who is there, but for the load of a player
who is authorized. -/
def AddsDistant (cfg : Config) (s : Server) (e : Event) : Prop :=
  ∃ new own, (e.apply cfg s).sent = s.sent ++ (new ++ own) ∧ Distant (e.apply cfg s) new ∧
    (own = [] ∨ ∃ i p, e = .authorize i ∧ s.roster i = some p ∧ p.authorized = false ∧
      p.fake = false ∧ own = [.selectData p.serial (steamIdOf p)])

lemma AddsDistant.nothing (hsent : (e.apply cfg s).sent = s.sent) : AddsDistant cfg s e :=
  ⟨[], [], hsent.trans (List.append_nil _).symm, ⟨by simp, by simp, by simp⟩, .inl rfl⟩

lemma Sessions.adds_authorize (h : Sessions cfg s) (allowed : (Event.authorize i).Allowed cfg s) :
    AddsDistant cfg s (.authorize i) := by
  have host : Host cfg ((Event.authorize i).apply cfg s) := h.host.apply h.wf allowed
  have hhost := hostOf_apply h.wf allowed
  obtain ⟨p, hp, _, hunauthorized, _⟩ := allowed
  have hsent : ((Event.authorize i).apply cfg s).sent = (onClientAuthorized cfg
      { s with roster := Function.update s.roster i ((s.roster i).map authorized) } i).sent := rfl
  rw [onClientAuthorized_eq] at hsent
  simp only [hp, Option.map_some, Function.update_self] at hsent
  by_cases hfake : (authorized p).fake = true
  · rw [if_pos hfake] at hsent
    exact .nothing hsent
  · rw [if_neg hfake, authorized_serial, authorized_steamIdOf] at hsent
    simp only [Event.host, hostOf, hp, Option.map_some, Prod.mk.injEq] at hhost
    refine ⟨_, _, hsent.trans (List.append_assoc ..), distant_selectQueries host fun j hj => ?_,
      .inr ⟨i, p, rfl, hp, hunauthorized, ?_, rfl⟩⟩
    · have hmissed := (mem_missedSlots.mp hj).2
      have hother := hmissed
      rw [missed_flag, Bool.and_eq_true, decide_eq_true_eq] at hother
      have hj' : missed s j = true := by
        have hroster := hother.1
        simp only [missed, Function.update_of_ne hother.2] at hroster
        exact hroster
      exact ⟨hmissed, hhost.2.1 ▸ h.leaving_of_missed hj', congrFun hhost.1 j⟩
    · rwa [authorized_fake, Bool.not_eq_true] at hfake

lemma Sessions.adds_disconnecting (h : Sessions cfg s)
    (allowed : (Event.disconnecting i).Allowed cfg s) : AddsDistant cfg s (.disconnecting i) := by
  have host : Host cfg ((Event.disconnecting i).apply cfg s) := h.host.apply h.wf allowed
  have hhost := hostOf_apply h.wf allowed
  have hsent : ((Event.disconnecting i).apply cfg s).sent =
      (onClientDisconnecting cfg s i).sent := rfl
  rw [onClientDisconnecting_sent h.wf] at hsent
  have distant := h.distant_saves allowed
  simp only [Event.host, hostOf, Prod.mk.injEq] at hhost
  have hselects : Distant ((Event.disconnecting i).apply cfg s)
      ((missedSlots cfg (resetFlags s i)).filterMap (selectQuery s)) := by
    refine distant_selectQueries (u := resetFlags s i) host fun j hj => ?_
    have hmissed := (mem_missedSlots.mp hj).2
    refine ⟨hmissed, ?_, congrFun hhost.1 j⟩
    rw [hhost.2.1]
    by_cases hij : j = i
    · rw [hij, Function.update_self]
    · simp only [missed, resetFlags, Function.update_of_ne hij] at hmissed
      rw [Function.update_of_ne hij]
      exact h.leaving_of_missed hmissed
  exact ⟨_, [], hsent.trans (by rw [List.append_nil]), hselects.append distant, .inl rfl⟩

lemma Sessions.adds_reconnect (h : Sessions cfg s) : AddsDistant cfg s .reconnect := by
  have host : Host cfg (Event.reconnect.apply cfg s) := h.host.apply h.wf trivial
  have hhost : hostOf (Event.reconnect.apply cfg s) = Event.reconnect.host s :=
    hostOf_apply h.wf trivial
  have hsent : (Event.reconnect.apply cfg s).sent = (attemptReconnection cfg s).sent := rfl
  rw [attemptReconnection_eq] at hsent
  simp only [Event.host, hostOf, Prod.mk.injEq] at hhost
  refine ⟨_, [], hsent.trans (by rw [List.append_nil]; rfl), distant_selectQueries host
    fun j hj => ?_, .inl rfl⟩
  have hmissed := (mem_missedSlots.mp hj).2
  exact ⟨hmissed, hhost.2.1 ▸ h.leaving_of_missed hmissed, congrFun hhost.1 j⟩

lemma Sessions.new_queries (h : Sessions cfg s) (allowed : e.Allowed cfg s)
    (plays : Plays cfg s e) (silent : Silent cfg s e) : AddsDistant cfg s e := by
  cases e with
  | connect i p => exact .nothing rfl
  | authorize i => exact h.adds_authorize allowed
  | disconnecting i => exact h.adds_disconnecting allowed
  | disconnected i => exact .nothing rfl
  | reconnect => exact h.adds_reconnect
  | createCookie name description access =>
    obtain ⟨c, hc⟩ := Option.isSome_iff_exists.mp plays
    exact .nothing (by simp only [Event.apply, CookieManager.createCookie, hc]; rfl)
  | setCookieValue c i value now =>
    refine .nothing ?_
    simp only [Event.apply, CookieManager.setCookieValue]
    split <;> rfl
  | getCookieValue c i =>
    refine .nothing ?_
    simp only [Event.apply, CookieManager.getCookieValue]
    split <;> rfl
  | setAuthIdCookie authId c value now => exact plays.elim
  | think k talk outcome => exact .nothing (silent k talk outcome rfl)

lemma Sessions.follows_apply (h : Sessions cfg s) (allowed : e.Allowed cfg s)
    (plays : Plays cfg s e) (silent : Silent cfg s e) :
    (e.apply cfg s).sent.Pairwise (Follows (e.apply cfg s)) := by
  obtain ⟨new, own, hsent, distant, howner⟩ := h.new_queries allowed plays silent
  have hnew : ∀ q, ∀ r ∈ new, Follows (e.apply cfg s) q r :=
    fun _ r hr i p _ _ live => distant.apart r hr i p live
  have hown : own.Pairwise (Follows (e.apply cfg s)) := by
    rcases howner with rfl | ⟨_, _, _, _, _, _, rfl⟩
    · exact .nil
    · exact List.pairwise_singleton ..
  rw [hsent, List.pairwise_append, List.pairwise_append]
  refine ⟨h.follows.imp_of_mem ?_, ⟨?_, hown, ?_⟩, ?_⟩
  · rintro q r hq - hfollows i p sid rfl live
    exact hfollows i p sid rfl (h.live_before allowed live hq)
  · exact List.pairwise_of_forall_mem_list fun q _ r hr => hnew q r hr
  · rintro q hq r - i p sid rfl live
    exact absurd rfl (distant.apart _ hq i p live)
  · rintro q hq r hr
    rcases List.mem_append.mp hr with hr | hr
    · exact hnew q r hr
    · rintro i p sid rfl live habout
      rcases howner with rfl | ⟨j, q, _, hj, hunauthorized, _, rfl⟩
      · cases hr
      · rw [List.mem_singleton.mp hr] at habout
        have hserial : q.serial = p.serial := habout
        have hasked := (h.asked j q sid hj (hserial ▸ hq)).1
        rw [hunauthorized] at hasked
        cases hasked

lemma Sessions.select_once (h : Sessions cfg s) (live : Live s i p) {k k' : ℕ} {sid sid' : Bytes}
    (hk : s.sent[k]? = some (.selectData p.serial sid))
    (hk' : s.sent[k']? = some (.selectData p.serial sid')) : k = k' := by
  obtain ⟨hlt, hget⟩ := List.getElem?_eq_some_iff.mp hk
  obtain ⟨hlt', hget'⟩ := List.getElem?_eq_some_iff.mp hk'
  have hpairs := List.pairwise_iff_getElem.mp h.follows
  rcases Nat.lt_trichotomy k k' with hlater | heq | hlater
  · have hnot := hpairs k k' hlt hlt' hlater i p sid hget live
    rw [hget'] at hnot
    exact absurd rfl hnot
  · exact heq
  · have hnot := hpairs k' k hlt' hlt hlater i p sid' hget' live
    rw [hget] at hnot
    exact absurd rfl hnot

lemma Sessions.not_saved (h : Sessions cfg s) (live : Live s i p) {k : ℕ} {sid : Bytes}
    (hk : s.sent[k]? = some (.selectData p.serial sid)) {id : ℤ} {a : DataRef} :
    .insertData (steamIdOf p) id a ∉ s.sent.drop k := by
  intro hmem
  obtain ⟨hlt, hget⟩ := List.getElem?_eq_some_iff.mp hk
  rw [List.drop_eq_getElem_cons hlt, hget] at hmem
  rcases List.mem_cons.mp hmem with heq | hmem
  · cases heq
  · obtain ⟨n, hn⟩ := List.mem_iff_getElem?.mp hmem
    rw [List.getElem?_drop] at hn
    obtain ⟨hlt', hget'⟩ := List.getElem?_eq_some_iff.mp hn
    have hnot := List.pairwise_iff_getElem.mp h.follows k (k + 1 + n) hlt hlt' (by omega) i p sid
      hget live
    rw [hget'] at hnot
    exact hnot rfl

lemma finished_after (hwf : Wf s) (allowed : e.Allowed cfg s) {k : ℕ} (hk : k ∈ s.finished) :
    k ∈ (e.apply cfg s).finished := by
  by_cases own : Own e
  · rwa [finished_apply hwf own allowed]
  · cases e with
    | think k' talk outcome =>
      obtain ⟨_, q, hq, _⟩ := allowed
      have hfinished : ((Event.think k' talk outcome).apply cfg s).finished = s.finished ++ [k'] :=
        finished_runFrame hq outcome
      rw [hfinished]
      exact List.mem_append_left _ hk
    | _ => exact absurd trivial own

lemma Sessions.served_after (h : Sessions cfg s) (allowed : e.Allowed cfg s)
    (served : Served s i p) (stays : e ≠ .disconnecting i) : Served (e.apply cfg s) i p := by
  obtain ⟨hp, hstays, _⟩ := live_after h.wf allowed (h.live_of_served served) stays
  obtain ⟨_, _, k, hk, sid, hquery⟩ := served
  obtain ⟨more, hmore⟩ := (CookieIds.Extends.apply h.wf allowed).sent
  have hlt := (List.getElem?_eq_some_iff.mp hquery).1
  refine ⟨hp, hstays, k, finished_after h.wf allowed hk, sid, ?_⟩
  rw [← hmore, List.getElem?_append_left hlt, hquery]

lemma Sessions.unserved (h : Sessions cfg s) (allowed : e.Allowed cfg s)
    {rows : List (Cookie × Bytes)} (delivers : Delivers cfg s i rows e) : ¬ Served s i p := by
  intro served
  cases e with
  | think k talk outcome =>
    obtain ⟨_, hpos, serial, sid, hk, hclient⟩ := delivers
    have live : Live s i p := h.live_of_served served
    obtain ⟨hp, _, k', hk', sid', hquery⟩ := served
    rcases getClientFromSerial_spec h.host serial with ⟨hzero, _⟩ | ⟨_, q, hq, hserial⟩
    · exact hpos (hclient.symm.trans hzero)
    · rw [hclient, hp, Option.some.injEq] at hq
      rw [← hserial, ← hq] at hk
      have hsame := h.select_once live hk hquery
      exact allowed.1 (hsame ▸ hk')
  | _ => exact delivers.elim

lemma Current.same (h : Current s) (same : SameTables s t) : Current t := by
  intro i a e ha he hchanged
  rw [same.clientData] at ha
  rw [same.data]
  exact h i a e ha ((same.heap i a ha).symm.trans he) hchanged

lemma Current.linkData (hwf : Wf s) (h : Current s) {c : CookieRef}
    (hnone : (s.cookies c).data j = none) (e : CookieData) (hparent : e.parent = c) :
    Current (linkData s c j e) := by
  intro i a e' ha he hchanged
  rw [linkData_data]
  rcases mem_linkData.mp ha with ha | ⟨rfl, rfl⟩
  · have hne : a ≠ s.nextData := by
      rintro rfl
      exact hwf.fresh i ha
    rw [linkData_heap, Function.update_of_ne hne] at he
    have hdata := h i a e' ha he hchanged
    rw [if_neg]
    · exact hdata
    · rintro ⟨hc, rfl⟩
      rw [hc, hnone] at hdata
      cases hdata
  · rw [linkData_heap, Function.update_self, Option.some.injEq] at he
    rw [← he, hparent, if_pos ⟨rfl, rfl⟩]

lemma Current.setCookieValue (hwf : Wf s) (h : Current s) (c : CookieRef) (j : ℕ) (v : Bytes)
    (now : ℕ) : Current (setCookieValue s c j v now) := by
  unfold CookieManager.setCookieValue
  split
  · next hnone => exact h.linkData hwf hnone _ rfl
  · next b hb =>
    intro i a e ha he hchanged
    obtain ⟨hmem, d, hd, hparent⟩ := hwf.linked c j b hb
    by_cases hab : a = b
    · subst hab
      obtain rfl := hwf.apart i j a ha hmem
      have hheap : s.heap a = some d := hd
      simp only [Server.modifyData, Function.update_self, hheap, Option.map_some,
        Option.some.injEq] at he
      subst he
      exact (congrArg (fun c => (s.cookies c).data i) hparent).trans hb
    · have hheap : s.heap a = some e := (Function.update_of_ne hab ..).symm.trans he
      exact h i a e ha hheap hchanged

lemma Current.getCookieValue (hwf : Wf s) (h : Current s) (c : CookieRef) (j : ℕ) :
    Current (getCookieValue s c j).1 := by
  unfold CookieManager.getCookieValue
  split
  · next hnone => exact h.linkData hwf hnone _ rfl
  · exact h

lemma data_loadRows_of_ne (hwf : Wf s) (hij : i ≠ j) (rows : List (Cookie × Bytes))
    (c : CookieRef) :
    ((rows.foldl (loadRow cfg j) s).cookies c).data i = (s.cookies c).data i := by
  induction rows generalizing s with
  | nil => rfl
  | cons row rows ih =>
    have hrow : ((loadRow cfg j s row).cookies c).data i =
        ((findOrCreate cfg s row.1).1.cookies c).data i := by
      unfold loadRow
      rw [linkData_data, if_neg fun hboth => hij hboth.2]
    rw [List.foldl_cons, ih (hwf.loadRow j row), hrow]
    exact (SameTables.findOrCreate hwf row.1).data c i

lemma Current.loadRows (hwf : Wf s) (h : Current s) {rows : List (Cookie × Bytes)}
    (unchanged : ∀ a e, a ∈ s.clientData j → s.heap a = some e → e.changed = false) :
    Current (rows.foldl (loadRow cfg j) s) := by
  intro i a e ha he hchanged
  obtain ⟨hold, hheap⟩ := mem_loadRows hwf ha he hchanged
  have hij : i ≠ j := by
    rintro rfl
    exact Bool.false_ne_true ((unchanged a e hold hheap).symm.trans hchanged)
  rw [data_loadRows_of_ne hwf hij]
  exact h i a e hold hheap hchanged

lemma Sessions.current_apply (h : Sessions cfg s) (allowed : e.Allowed cfg s) :
    Current (e.apply cfg s) := by
  have heffect := effect_of_apply h.wf allowed
  have hunserved : ∀ {j : ℕ} {rows : List (Cookie × Bytes)}, Delivers cfg s j rows e →
      ∀ p, ¬ Served s j p := fun delivers _ => h.unserved allowed delivers
  revert heffect
  generalize e.apply cfg s = t
  intro heffect
  cases heffect with
  | same t tables => exact h.current.same tables
  | set m c j v now tables wf sets => exact (h.current.same tables).setCookieValue wf c j v now
  | get c j => exact h.current.getCookieValue h.wf c j
  | release j t leaves tables =>
    intro i a e ha he hchanged
    rw [tables.clientData] at ha
    have hij : i ≠ j := by
      rintro rfl
      rw [Function.update_self] at ha
      cases ha
    rw [Function.update_of_ne hij] at ha
    rw [tables.data _ i hij]
    exact h.current i a e ha ((tables.heap i hij a ha).symm.trans he) hchanged
  | load q j rows t delivers tables =>
    have hstart : Wf (loadStart s q j) := h.wf.congr rfl rfl rfl rfl rfl rfl fun _ _ _ ha => ha
    have hcurrent : Current (loadStart s q j) := h.current
    refine Current.same (hcurrent.loadRows hstart fun a e ha he => ?_) tables
    by_contra hchanged
    obtain ⟨p, served⟩ := h.changes j a e ha he (Bool.eq_true_of_not_eq_false hchanged)
    exact hunserved delivers p served

lemma Sessions.asked_apply (h : Sessions cfg s) (allowed : e.Allowed cfg s)
    (plays : Plays cfg s e) (silent : Silent cfg s e) {sid : Bytes}
    (hp : (e.apply cfg s).roster i = some p)
    (hasked : .selectData p.serial sid ∈ (e.apply cfg s).sent) :
    p.authorized = true ∧ p.fake = false := by
  obtain ⟨new, own, hsent, distant, howner⟩ := h.new_queries allowed plays silent
  rw [hsent, List.mem_append, List.mem_append] at hasked
  rcases hasked with hold | hnew | hown
  · rcases occupant_cases h.wf allowed hp with hsame | ⟨q, _, hq, hunauthorized, _, rfl⟩ |
      ⟨hspent, _⟩
    · exact h.asked i p sid hsame hold
    · rw [authorized_serial] at hold
      have hauth := (h.asked i q sid hq hold).1
      rw [hunauthorized] at hauth
      cases hauth
    · exact absurd (h.addressed _ _ hold).1 hspent
  · exact distant.asked i p sid hnew hp
  · rcases howner with rfl | ⟨j, q, rfl, hq, _, hfake, rfl⟩
    · cases hown
    · obtain ⟨hserial, _⟩ := Query.selectData.inj (List.mem_singleton.mp hown)
      have hauth : q.authString.isSome = true := by
        obtain ⟨q', hq', _, _, hauth⟩ := allowed
        rwa [Option.some.inj (hq.symm.trans hq')]
      have hhost := hostOf_apply h.wf allowed
      simp only [Event.host, hostOf, hq, Option.map_some, Prod.mk.injEq] at hhost
      have hj : ((Event.authorize j).apply cfg s).roster j = some (authorized q) := by
        rw [hhost.1, Function.update_self]
      obtain rfl := (h.host.apply h.wf allowed).distinct i j p _ hp hj
        (hserial.trans (authorized_serial q).symm)
      obtain rfl : p = authorized q := Option.some.inj (hp.symm.trans hj)
      refine ⟨?_, (authorized_fake q).trans hfake⟩
      simp [authorized, hauth]

lemma Sessions.admitted_apply (h : Sessions cfg s) (allowed : e.Allowed cfg s)
    (plays : Plays cfg s e) (live : Live (e.apply cfg s) i p) :
    steamIdOf p = playerId p ∧ ¬ bytes "cookies." <+: playerId p := by
  rcases live_cases h.wf allowed live with hlive | ⟨q, rfl, hq, _, hfake, rfl⟩
  · exact h.admitted i p hlive
  · obtain ⟨hfits, houtside, _⟩ := plays q hq hfake
    rw [authorized_steamIdOf, authorized_playerId]
    exact ⟨steamIdOf_eq hfits, houtside⟩

lemma Sessions.apart_apply (h : Sessions cfg s) (allowed : e.Allowed cfg s)
    (plays : Plays cfg s e) (live : Live (e.apply cfg s) i p) (other : Live (e.apply cfg s) j q)
    (hsame : steamIdOf p = steamIdOf q) : i = j := by
  have hnew : ∀ {i j : ℕ} {p r : Player}, Live s i p → e = .authorize j → s.roster j = some r →
      r.fake = false → steamIdOf p ≠ steamIdOf r := by
    intro k l p' r hlive he hr hfake hid
    subst he
    obtain ⟨hfits, _, hothers⟩ := plays r hr hfake
    rw [(h.admitted k p' hlive).1, steamIdOf_eq hfits] at hid
    exact hothers k p' hlive hid
  rcases live_cases h.wf allowed live with hp | ⟨r, he, hr, _, hfake, rfl⟩
  · rcases live_cases h.wf allowed other with hq | ⟨r, he, hr, _, hfake, rfl⟩
    · exact h.apart i j p q hp hq hsame
    · rw [authorized_steamIdOf] at hsame
      exact absurd hsame (hnew hp he hr hfake)
  · rcases live_cases h.wf allowed other with hq | ⟨r', he', _⟩
    · rw [authorized_steamIdOf] at hsame
      exact absurd hsame.symm (hnew hq he hr hfake)
    · exact Event.authorize.inj (he.symm.trans he')

lemma Sessions.spares_apply (h : Sessions cfg s) (allowed : e.Allowed cfg s)
    (plays : Plays cfg s e) {sid : Bytes} {id : ℤ} {a : DataRef}
    (hq : .insertData sid id a ∈ (e.apply cfg s).sent) : ¬ bytes "cookies." <+: sid := by
  obtain ⟨new, hsent, hsaves⟩ := PendingSaves.saves_apply h.wf allowed
  rw [hsent] at hq
  rcases List.mem_append.mp hq with hq | hq
  · exact h.spares sid id a hq
  · have hsave : .insertData sid id a ∈ PendingSaves.savesOf cfg s e :=
      hsaves ▸ List.mem_filter.mpr ⟨hq, rfl⟩
    cases e with
    | disconnecting i =>
      obtain ⟨b, hb, hsaved⟩ := List.mem_filterMap.mp hsave
      obtain ⟨e, auth, he, hauth, hchanged, _, heq⟩ := savedQuery_eq_some hsaved
      obtain ⟨p, served⟩ := h.changes i b e hb he hchanged
      obtain ⟨hid, houtside⟩ := h.admitted i p (h.live_of_served served)
      rw [served.1] at hauth
      rw [(Query.insertData.inj heq).1, ← steamIdOf_of_authOf hauth, hid]
      exact houtside
    | setAuthIdCookie authId c value now => exact plays.elim
    | _ => cases hsave

/-- Every event of such players keeps the sessions in order. -/
theorem Sessions.apply (h : Sessions cfg s) (allowed : e.Allowed cfg s) (plays : Plays cfg s e)
    (silent : Silent cfg s e) : Sessions cfg (e.apply cfg s) where
  wf := Wf.apply h.wf allowed
  host := h.host.apply h.wf allowed
  addressed := h.addressed.apply h.wf h.host allowed
  flagged i p live := by
    rcases live_cases h.wf allowed live with hlive | ⟨q, rfl, hq, _, hfake, rfl⟩
    · refine Flagged.apply h.wf (h.flagged i p hlive) plays ?_
      rintro rfl
      have hhost := hostOf_apply h.wf allowed
      simp only [Event.host, hostOf, Prod.mk.injEq] at hhost
      have hleaves : ((Event.disconnecting i).apply cfg s).leaving i = true := by
        rw [hhost.2.1, Function.update_self]
      exact Bool.false_ne_true (live.2.1.symm.trans hleaves)
    · let given : Server :=
        { s with roster := Function.update s.roster i ((s.roster i).map authorized) }
      have hgiven : given.roster i = some (authorized q) := by simp [given, hq]
      exact flagged_onClientAuthorized hgiven ((authorized_fake q).trans hfake)
  asked i p sid hp hasked := h.asked_apply allowed plays silent hp hasked
  admitted i p live := h.admitted_apply allowed plays live
  apart i j p q live other hsame := h.apart_apply allowed plays live other hsame
  follows := h.follows_apply allowed plays silent
  current := h.current_apply allowed
  changes i a d ha hd hchanged := by
    rcases changed_of_apply h.wf allowed ha hd hchanged with ⟨hmem, hheap⟩ | ⟨v, sets, _⟩
    · obtain ⟨p, served⟩ := h.changes i a d hmem hheap hchanged
      refine ⟨p, h.served_after allowed served ?_⟩
      rintro rfl
      have hgone : ((Event.disconnecting i).apply cfg s).clientData i = [] :=
        (onClientDisconnecting_values cfg i h.wf).1
      rw [hgone] at ha
      cases ha
    · cases e with
      | setCookieValue c j v now =>
        obtain ⟨_, rfl, _⟩ := sets
        obtain ⟨p, served⟩ := plays
        exact ⟨p, h.served_after allowed served (by simp)⟩
      | setAuthIdCookie authId c v now => exact plays.elim
      | _ => exact sets.elim
  spares sid id a hq := h.spares_apply allowed plays hq

end ClientPrefs.LiveSessions
