import ClientPrefs.Ownership
import ClientPrefs.TableLinks
import ClientPrefs.UnloadSaves

/-!
# What unloading frees

`CookieManager::Unload` first disconnects every client that is flagged as connected, and then
deletes the cookies. The destructor of a cookie deletes the values that its `data` points to, so
a value that only `clientData` holds is lost unless a disconnect takes it. The two parts together
reach every value of the main thread once.
-/
namespace ClientPrefs.UnloadMemory
open ByteStrings Conversation Cookies CookieManager Disconnect Extension LateLoad LoadIsolation
open Loads Ownership PendingSaves QueryThread Session SlotRelease SlotTables SlotValues TableLinks
open Transition UnloadSaves

/-- `delete` of a `CookieData`; `none` when it is not there, or not any more. -/
def delete (s : Server) (a : DataRef) : Option Server :=
  if (s.heap a).isSome then some (s.deleteData a) else none

/-- `Cookie::~Cookie`. -/
def destroyCookie (maxPlayers : ℕ) (s : Server) (c : CookieRef) : Option Server :=
  (List.range (maxPlayers + 1)).foldlM (fun s i =>
    match (s.cookies c).data i with
    | none => some s
    | some a => delete s a) s

/-- The second loop of `Unload`. -/
def deleteCookies (maxPlayers : ℕ) (s : Server) : Option Server :=
  (List.range s.cookieCount).foldlM (destroyCookie maxPlayers) s

/-- `CookieManager::Unload` with what it deletes. -/
def unloadMemory (cfg : Config) (maxPlayers : ℕ) (s : Server) : Option Server :=
  (deleteCookies maxPlayers (unloadLoop cfg cfg.maxClients s)).map fun t =>
    { t with cookieCount := 0 }

/-- The cookies point to every value of the slot. -/
def LinkedAt (s : Server) (i : ℕ) : Prop :=
  ∀ a e, a ∈ s.clientData i → s.heap a = some e → (s.cookies e.parent).data i = some a

/-- The player in the slot is authorized, not fake, and flagged as connected. -/
def FlaggedAt (s : Server) (i : ℕ) (p : Player) : Prop :=
  s.roster i = some p ∧ p.authorized = true ∧ p.fake = false ∧ s.connected i = true

/-- What a session keeps about the slots. A load can give a cookie a second value for a slot, but
only for a player whose slot is flagged as connected. -/
structure Guarded (cfg : Config) (s : Server) : Prop where
  slots : ∀ i a, a ∈ s.clientData i → Client cfg i
  asked : ∀ k sid i p, .selectData k sid ∈ s.sent → s.roster i = some p → p.serial = k →
    FlaggedAt s i p
  linked : ∀ i, s.connected i = false → LinkedAt s i

/-- What an event does to the values of the slots: new ones only come to clients, and a slot stays
linked unless it is flagged. -/
structure Tends (cfg : Config) (s t : Server) : Prop where
  slots : ∀ i a, a ∈ t.clientData i → a ∈ s.clientData i ∨ Client cfg i
  linked : ∀ i, (s.connected i = false → LinkedAt s i) → t.connected i = false → LinkedAt t i

variable {cfg : Config} {s t : Server} {i j : ℕ}

lemma delete_of_live {a : DataRef} (live : (s.heap a).isSome = true) :
    delete s a = some (s.deleteData a) := if_pos live

lemma foldlM_delete {l : List DataRef} (nodup : l.Nodup)
    (live : ∀ a ∈ l, (s.heap a).isSome = true) :
    l.foldlM delete s = some { s with heap := fun a => if a ∈ l then none else s.heap a } := by
  induction l generalizing s with
  | nil => rfl
  | cons a l ih =>
    obtain ⟨notMem, rest⟩ := List.nodup_cons.mp nodup
    have still : ∀ b ∈ l, ((s.deleteData a).heap b).isSome = true := by
      intro b hb
      have hne : b ≠ a := fun h => notMem (h ▸ hb)
      have same : (s.deleteData a).heap b = s.heap b := Function.update_of_ne hne ..
      rw [same]
      exact live b (List.mem_cons_of_mem _ hb)
    rw [List.foldlM_cons, delete_of_live (live a (List.mem_cons_self ..))]
    refine (ih rest still).trans ?_
    congr 2
    funext b
    by_cases hb : b = a
    · simp [Server.deleteData, hb]
    · simp [Server.deleteData, hb]

/-- What a cookie deletes, in its order. -/
def valuesOf (maxPlayers : ℕ) (cookies : CookieRef → Cookie) (c : CookieRef) : List DataRef :=
  (List.range (maxPlayers + 1)).filterMap (cookies c).data

lemma delete_cookies {a : DataRef} (h : delete s a = some t) : t.cookies = s.cookies := by
  unfold delete at h
  split_ifs at h
  obtain rfl := Option.some.inj h
  rfl

lemma destroyCookie_eq (maxPlayers : ℕ) (s : Server) (c : CookieRef) :
    destroyCookie maxPlayers s c = (valuesOf maxPlayers s.cookies c).foldlM delete s := by
  have loop : ∀ (l : List ℕ) (t : Server), t.cookies = s.cookies →
      l.foldlM (fun s i =>
        match (s.cookies c).data i with
        | none => some s
        | some a => delete s a) t = (l.filterMap (s.cookies c).data).foldlM delete t := by
    intro l
    induction l with
    | nil => exact fun _ _ => rfl
    | cons i l ih =>
      intro t ht
      rw [List.foldlM_cons, ht]
      cases hd : (s.cookies c).data i with
      | none =>
        rw [List.filterMap_cons_none hd]
        exact ih t ht
      | some a =>
        rw [List.filterMap_cons_some hd, List.foldlM_cons]
        dsimp only
        cases hdel : delete t a with
        | none => rfl
        | some u => exact ih u ((delete_cookies hdel).trans ht)
  exact loop _ s rfl

lemma foldlM_delete_cookies {l : List DataRef} (h : l.foldlM delete s = some t) :
    t.cookies = s.cookies := by
  induction l generalizing s with
  | nil =>
    obtain rfl := Option.some.inj h
    rfl
  | cons a l ih =>
    rw [List.foldlM_cons] at h
    obtain ⟨u, hu, h⟩ := Option.bind_eq_some_iff.mp h
    exact (ih h).trans (delete_cookies hu)

def cookieValues (maxPlayers : ℕ) (s : Server) : List DataRef :=
  (List.range s.cookieCount).flatMap (valuesOf maxPlayers s.cookies)

lemma deleteCookies_eq (maxPlayers : ℕ) (s : Server) :
    deleteCookies maxPlayers s = (cookieValues maxPlayers s).foldlM delete s := by
  have loop : ∀ (l : List CookieRef) (t : Server), t.cookies = s.cookies →
      l.foldlM (destroyCookie maxPlayers) t =
        (l.flatMap (valuesOf maxPlayers s.cookies)).foldlM delete t := by
    intro l
    induction l with
    | nil => exact fun _ _ => rfl
    | cons c l ih =>
      intro t ht
      rw [List.foldlM_cons, List.flatMap_cons, List.foldlM_append, destroyCookie_eq, ht]
      cases hdel : (valuesOf maxPlayers s.cookies c).foldlM delete t with
      | none => rfl
      | some u => exact ih u ((foldlM_delete_cookies hdel).trans ht)
  exact loop _ s rfl

lemma mem_cookieValues {maxPlayers : ℕ} {a : DataRef} : a ∈ cookieValues maxPlayers s ↔
    ∃ c, c < s.cookieCount ∧ ∃ i, i ≤ maxPlayers ∧ (s.cookies c).data i = some a := by
  simp only [cookieValues, valuesOf, List.mem_flatMap, List.mem_filterMap, List.mem_range,
    Nat.lt_succ_iff]

lemma nodup_cookieValues (h : Wf s) (maxPlayers : ℕ) : (cookieValues maxPlayers s).Nodup := by
  unfold cookieValues
  rw [List.nodup_flatMap]
  constructor
  · intro c _
    apply List.Nodup.filterMap _ List.nodup_range
    intro i j a hi hj
    exact (data_unique h hi hj).2
  · apply List.nodup_range.imp
    intro c d hne a hc hd
    obtain ⟨i, _, hi⟩ := List.mem_filterMap.mp hc
    obtain ⟨j, _, hj⟩ := List.mem_filterMap.mp hd
    exact hne (data_unique h hi hj).1

/-- The second loop deletes everything that the cookies point to, and each value once. -/
theorem deleteCookies_spec (h : Wf s) (maxPlayers : ℕ) :
    deleteCookies maxPlayers s = some { s with
      heap := fun a => if a ∈ cookieValues maxPlayers s then none else s.heap a } := by
  rw [deleteCookies_eq]
  apply foldlM_delete (nodup_cookieValues h maxPlayers)
  intro a ha
  obtain ⟨c, _, i, _, hdata⟩ := mem_cookieValues.mp ha
  obtain ⟨_, e, he, _⟩ := h.linked c i a hdata
  rw [he]
  rfl

lemma connected_authorizeAll {l : List ℕ} (h : s.connected i = true) :
    (authorizeAll s l).connected i = true := by
  simp [authorizeAll, h]

lemma connected_flag (h : s.connected i = true) : (flag s j).connected i = true := by
  by_cases hij : i = j
  · simp [flag, hij]
  · simp [flag, hij, h]

lemma connected_attemptReconnection (h : s.connected i = true) :
    (attemptReconnection cfg s).connected i = true := by
  rw [attemptReconnection_eq]
  exact connected_authorizeAll h

lemma connected_onClientAuthorized (h : s.connected i = true) :
    (onClientAuthorized cfg s j).connected i = true := by
  rw [onClientAuthorized_eq]
  split
  · exact h
  · split_ifs
    · exact h
    · exact connected_authorizeAll (connected_flag h)

lemma connected_createCookie (name description : Bytes) (access : CookieAccess) :
    (createCookie cfg s name description access).1.connected = s.connected := by
  unfold createCookie
  split <;> rfl

lemma connected_loadRow (row : Cookie × Bytes) :
    (loadRow cfg j s row).connected = s.connected := by
  have found : (findOrCreate cfg s row.1).1.connected = s.connected := by
    unfold findOrCreate
    split
    · rfl
    · exact connected_createCookie ..
  exact found

lemma connected_loadRows (rows : List (Cookie × Bytes)) :
    (rows.foldl (loadRow cfg j) s).connected = s.connected := by
  induction rows generalizing s with
  | nil => rfl
  | cons row rows ih => exact ih.trans (connected_loadRow row)

lemma connected_setCookieValue (c : CookieRef) (v : Bytes) (now : ℕ) :
    (setCookieValue s c j v now).connected = s.connected := by
  unfold setCookieValue
  split <;> rfl

lemma connected_runFrame (k : ℕ) (outcome : Outcome) :
    (runFrame cfg s k outcome).connected = s.connected := by
  unfold runFrame
  split
  · rfl
  · next q _ =>
    cases q with
    | insertCookie c =>
      simp only [runThinkPart, insertCookieCallback]
      split_ifs <;> rfl
    | selectData serial sid =>
      simp only [runThinkPart, clientConnectCallback]
      split_ifs
      · rfl
      · exact connected_loadRows outcome.results
    | insertData sid id a => rfl
    | selectId c name => rfl

lemma connected_onClientDisconnecting (h : Wf s) (hij : i ≠ j) (hi : s.connected i = true) :
    (onClientDisconnecting cfg s j).connected i = true := by
  rw [onClientDisconnecting_eq h]
  have reset : (resetFlags s j).connected i = true := by simp [resetFlags, hij, hi]
  exact connected_authorizeAll reset

lemma connected_apply (h : Wf s) {e : Event} (allowed : e.Allowed cfg s)
    (stays : e ≠ .disconnecting i) (hi : s.connected i = true) :
    (e.apply cfg s).connected i = true := by
  cases e with
  | connect j p => exact hi
  | authorize j => exact connected_onClientAuthorized hi
  | disconnecting j =>
    have hij : i ≠ j := fun hij => stays (hij ▸ rfl)
    exact connected_onClientDisconnecting h hij hi
  | disconnected j => exact hi
  | reconnect => exact connected_attemptReconnection hi
  | createCookie name description access =>
    have same := @connected_createCookie cfg s name description access
    exact (congrFun same i).trans hi
  | setCookieValue c j v now => exact (congrFun (connected_setCookieValue c v now) i).trans hi
  | getCookieValue c j =>
    simp only [Event.apply, getCookieValue]
    split <;> exact hi
  | setAuthIdCookie authId c v now =>
    obtain ⟨t, ht⟩ := Option.isSome_iff_exists.mp allowed.2
    simp only [Event.apply, ht, Option.getD_some]
    obtain ⟨client, _, rfl⟩ := Option.map_eq_some_iff.mp ht
    have before : (attemptReconnection cfg s).connected i = true :=
      connected_attemptReconnection hi
    split_ifs
    · exact (congrFun (connected_setCookieValue c v now) i).trans before
    · exact before
  | think k talk outcome => exact (congrFun (connected_runFrame k outcome) i).trans hi

def Flagged (s : Server) (k : ℕ) : Prop := ∃ i p, p.serial = k ∧ FlaggedAt s i p

lemma flagged_of_authorizeAll {k : ℕ} {sid : Bytes}
    (h : .selectData k sid ∈ (authorizeAll s (missedSlots cfg s)).sent) :
    .selectData k sid ∈ s.sent ∨ Flagged (authorizeAll s (missedSlots cfg s)) k := by
  rcases List.mem_append.mp h with h | h
  · exact .inl h
  · obtain ⟨i, hi, hq⟩ := List.mem_filterMap.mp h
    obtain ⟨p, hp, heq⟩ := Option.map_eq_some_iff.mp hq
    obtain ⟨serial, _⟩ := Query.selectData.inj heq
    obtain ⟨_, _, r, hr, hauth, hfake⟩ := missed_iff.mp (mem_missedSlots.mp hi).2
    obtain rfl : r = p := Option.some.inj (hr.symm.trans hp)
    refine .inr ⟨i, r, serial, hp, hauth, hfake, ?_⟩
    simp [authorizeAll, hi]

lemma flagged_of_attemptReconnection {k : ℕ} {sid : Bytes}
    (h : .selectData k sid ∈ (attemptReconnection cfg s).sent) :
    .selectData k sid ∈ s.sent ∨ Flagged (attemptReconnection cfg s) k := by
  rw [attemptReconnection_eq] at h ⊢
  exact flagged_of_authorizeAll h

lemma flagged_of_onClientAuthorized {k : ℕ} {sid : Bytes}
    (auth : ∀ p, s.roster i = some p → p.authorized = true)
    (h : .selectData k sid ∈ (onClientAuthorized cfg s i).sent) :
    .selectData k sid ∈ s.sent ∨ Flagged (onClientAuthorized cfg s i) k := by
  rw [onClientAuthorized_eq] at h ⊢
  cases hp : s.roster i with
  | none =>
    rw [hp] at h
    exact .inl h
  | some p =>
    rw [hp] at h
    dsimp only at h ⊢
    split_ifs at h ⊢ with hfake
    · exact .inl h
    · rcases select_of_addQuery h with h | h
      · exact flagged_of_authorizeAll h
      · obtain ⟨serial, _⟩ := Query.selectData.inj h
        refine .inr ⟨i, p, serial.symm, hp, auth p hp, by simpa using hfake, ?_⟩
        have flagged : (flag s i).connected i = true := by simp [flag]
        exact connected_authorizeAll flagged

lemma flagged_of_onClientDisconnecting {k : ℕ} {sid : Bytes} (hwf : Wf s)
    (h : .selectData k sid ∈ (onClientDisconnecting cfg s i).sent) :
    .selectData k sid ∈ s.sent ∨ Flagged (onClientDisconnecting cfg s i) k := by
  rw [onClientDisconnecting_eq hwf] at h ⊢
  rcases mem_releaseAll_sent i h with h | ⟨a, _, hq⟩
  · exact flagged_of_authorizeAll h
  · obtain ⟨_, _, _, _, _, _, hq⟩ := savedQuery_eq_some hq
    cases hq

lemma flagged_of_apply (h : Wf s) {e : Event} (allowed : e.Allowed cfg s) {k : ℕ} {sid : Bytes}
    (mem : .selectData k sid ∈ (e.apply cfg s).sent) :
    .selectData k sid ∈ s.sent ∨ Flagged (e.apply cfg s) k := by
  cases e with
  | connect i p => exact .inl mem
  | authorize i =>
    apply flagged_of_onClientAuthorized _ mem
    obtain ⟨p, hp, _, _, hauth⟩ := allowed
    intro r hr
    simp only [hp, Option.map_some, Function.update_self, Option.some.injEq] at hr
    rw [← hr, authorized, dif_pos hauth]
  | disconnecting i => exact flagged_of_onClientDisconnecting h mem
  | disconnected i => exact .inl mem
  | reconnect => exact flagged_of_attemptReconnection mem
  | createCookie name description access => exact .inl (select_of_createCookie mem)
  | setCookieValue c i v now => exact .inl (select_of_setCookieValue mem)
  | getCookieValue c i =>
    left
    simp only [Event.apply, getCookieValue] at mem
    split at mem <;> exact mem
  | setAuthIdCookie authId c v now =>
    obtain ⟨t, ht⟩ := Option.isSome_iff_exists.mp allowed.2
    simp only [Event.apply, ht, Option.getD_some] at mem ⊢
    obtain ⟨client, _, rfl⟩ := Option.map_eq_some_iff.mp ht
    split_ifs at mem ⊢
    · rcases flagged_of_attemptReconnection (select_of_setCookieValue mem) with old | new
      · exact .inl old
      · obtain ⟨i, p, serial, hp, hauth, hfake, hconn⟩ := new
        refine .inr ⟨i, p, serial, ?_, hauth, hfake, ?_⟩
        · have same := @hostOf_setCookieValue (attemptReconnection cfg s) c client v now
          exact (congrFun (congrArg Prod.fst same) i).trans hp
        · exact (congrFun (connected_setCookieValue c v now) i).trans hconn
    · exact flagged_of_attemptReconnection ((select_of_addQuery mem).resolve_right (by simp))
  | think k talk outcome => exact .inl (select_of_runFrame mem)

lemma SameTables.linkedAt (same : SameTables s t) (linked : LinkedAt s i) : LinkedAt t i := by
  intro a e ha he
  rw [same.clientData] at ha
  rw [same.heap i a ha] at he
  rw [same.data]
  exact linked a e ha he

lemma linkedAt_linkData (h : Wf s) {c : CookieRef} {e : CookieData} (he : e.parent = c)
    (fresh : i = j → (s.cookies c).data j = none) (linked : LinkedAt s i) :
    LinkedAt (linkData s c j e) i := by
  intro a e' ha he'
  rw [linkData_data]
  rcases mem_linkData.mp ha with ha | ⟨hij, rfl⟩
  · have old : a ≠ s.nextData := by
      rintro rfl
      exact h.fresh i ha
    rw [linkData_heap, Function.update_of_ne old] at he'
    have entry := linked a e' ha he'
    rw [if_neg, entry]
    rintro ⟨rfl, rfl⟩
    rw [fresh rfl] at entry
    cases entry
  · obtain rfl : e = e' := by simpa using he'
    rw [if_pos ⟨he, hij⟩]

lemma linkedAt_setCookieValue (h : Wf s) (linked : LinkedAt s i) (c : CookieRef) (v : Bytes)
    (now : ℕ) : LinkedAt (setCookieValue s c j v now) i := by
  unfold setCookieValue
  split
  · next none => exact linkedAt_linkData h rfl (fun _ => none) linked
  · next b hb =>
    intro a e ha he
    simp only [Server.modifyData] at he
    by_cases hab : a = b
    · subst hab
      obtain ⟨_, e', he', hp⟩ := h.linked c j a hb
      simp only [Function.update_self, he', Option.map_some, Option.some.injEq] at he
      subst he
      exact linked a e' ha he'
    · rw [Function.update_of_ne hab] at he
      exact linked a e ha he

lemma linkedAt_getCookieValue (h : Wf s) (linked : LinkedAt s i) (c : CookieRef) :
    LinkedAt (getCookieValue s c j).1 i := by
  unfold getCookieValue
  split
  · next none => exact linkedAt_linkData h rfl (fun _ => none) linked
  · exact linked

lemma Released.linkedAt (released : Released j s t) (linked : i ≠ j → LinkedAt s i) :
    LinkedAt t i := by
  intro a e ha he
  rw [released.clientData] at ha
  by_cases hij : i = j
  · simp [hij] at ha
  · rw [Function.update_of_ne hij] at ha
    rw [released.heap i hij a ha] at he
    rw [released.data _ i hij]
    exact linked hij a e ha he

lemma linkedAt_loadRows (h : Wf s) (hij : i ≠ j) (rows : List (Cookie × Bytes))
    (linked : LinkedAt s i) : LinkedAt (rows.foldl (loadRow cfg j) s) i := by
  induction rows generalizing s with
  | nil => exact linked
  | cons row rows ih =>
    have same : SameTables s (findOrCreate cfg s row.1).1 := .findOrCreate h row.1
    apply ih (h.loadRow j row)
    exact linkedAt_linkData (h.findOrCreate row.1) rfl (fun heq => absurd heq hij)
      (SameTables.linkedAt same linked)

lemma clientData_loadRows (h : Wf s) {rows : List (Cookie × Bytes)} {a : DataRef}
    (ha : a ∈ (rows.foldl (loadRow cfg j) s).clientData i) : a ∈ s.clientData i ∨ i = j := by
  induction rows generalizing s with
  | nil => exact .inl ha
  | cons row rows ih =>
    have same : SameTables s (findOrCreate cfg s row.1).1 := .findOrCreate h row.1
    rcases ih (h.loadRow j row) ha with ha | hij
    · rcases mem_linkData.mp ha with ha | ⟨hij, _⟩
      · have before : a ∈ (findOrCreate cfg s row.1).1.clientData i := ha
        rw [same.clientData] at before
        exact .inl before
      · exact .inr hij
    · exact .inr hij

lemma clientData_setCookieValue {c : CookieRef} {v : Bytes} {now : ℕ} {a : DataRef}
    (ha : a ∈ (setCookieValue s c j v now).clientData i) : a ∈ s.clientData i ∨ i = j := by
  unfold setCookieValue at ha
  split at ha
  · rcases mem_linkData.mp ha with ha | ⟨hij, _⟩
    · exact .inl ha
    · exact .inr hij
  · exact .inl ha

lemma clientData_getCookieValue {c : CookieRef} {a : DataRef}
    (ha : a ∈ (getCookieValue s c j).1.clientData i) : a ∈ s.clientData i ∨ i = j := by
  unfold getCookieValue at ha
  split at ha
  · rcases mem_linkData.mp ha with ha | ⟨hij, _⟩
    · exact .inl ha
    · exact .inr hij
  · exact .inl ha

lemma Guarded.start (roster : ℕ → Option Player) (spent : List ℕ) :
    Guarded cfg (start roster spent) where
  slots i a ha := by cases ha
  asked k sid i p hq := by cases hq
  linked i _ a e ha := by cases ha

lemma roster_apply (h : Wf s) {e : Event} (allowed : e.Allowed cfg s) {p : Player}
    (hp : (e.apply cfg s).roster i = some p) :
    s.roster i = some p ∨ p.serial ∉ s.spent ∨
      ∃ q, s.roster i = some q ∧ q.serial = p.serial ∧ q.authorized = false := by
  have roster : (e.apply cfg s).roster = (e.host s).1 :=
    congrArg Prod.fst (hostOf_apply h allowed)
  rw [roster] at hp
  cases e with
  | connect j q =>
    by_cases hij : i = j
    · obtain rfl : q = p := by simpa [Event.host, hij] using hp
      exact .inr (.inl allowed.2.2.2)
    · simp only [Event.host, Function.update_of_ne hij] at hp
      exact .inl hp
  | authorize j =>
    by_cases hij : i = j
    · obtain ⟨q, hq, _, hauth, has⟩ := allowed
      subst hij
      simp only [Event.host, hq, Function.update_self, Option.map_some, Option.some.injEq] at hp
      refine .inr (.inr ⟨q, hq, ?_, hauth⟩)
      rw [← hp, authorized, dif_pos has]
    · simp only [Event.host, Function.update_of_ne hij] at hp
      exact .inl hp
  | disconnected j =>
    by_cases hij : i = j
    · simp [Event.host, hij] at hp
    · simp only [Event.host, Function.update_of_ne hij] at hp
      exact .inl hp
  | _ => exact .inl hp

lemma connected_again (h : Wf s) (hi : Client cfg i) (there : StillThere s i) :
    (onClientDisconnecting cfg s i).connected i = true := by
  rw [(onClientDisconnecting_flags cfg i h).1, decide_eq_true_eq]
  exact (mem_missedSlots_resetFlags hi).mpr there

lemma asked_apply (h : Wf s) (host : Host cfg s) (addressed : Addressed s)
    (guarded : Guarded cfg s) {e : Event} (allowed : e.Allowed cfg s) {k : ℕ} {sid : Bytes}
    {p : Player} (mem : .selectData k sid ∈ (e.apply cfg s).sent)
    (hp : (e.apply cfg s).roster i = some p) (serial : p.serial = k) :
    FlaggedAt (e.apply cfg s) i p := by
  rcases flagged_of_apply h allowed mem with old | ⟨j, q, hq, flagged⟩
  · have spent := (addressed k sid old).1
    rcases roster_apply h allowed hp with before | fresh | ⟨q, hq, same, unauthorized⟩
    · obtain ⟨_, hauth, hfake, hconn⟩ := guarded.asked k sid i p old before serial
      refine ⟨hp, hauth, hfake, ?_⟩
      by_cases stays : e = .disconnecting i
      · subst stays
        exact connected_again h allowed.1 ⟨p, before, hauth, hfake⟩
      · exact connected_apply h allowed stays hconn
    · exact absurd (serial ▸ spent) fresh
    · have flagged := guarded.asked k sid i q old hq (same.trans serial)
      rw [flagged.2.1] at unauthorized
      cases unauthorized
  · have distinct := (host.apply h allowed).distinct
    obtain rfl : i = j := distinct i j p q hp flagged.1 (serial.trans hq.symm)
    obtain rfl : q = p := Option.some.inj (flagged.1.symm.trans hp)
    exact flagged

lemma connected_of_delivers (host : Host cfg s) (guarded : Guarded cfg s) {e : Event}
    {rows : List (Cookie × Bytes)} (delivers : Delivers cfg s i rows e) :
    Client cfg i ∧ s.connected i = true := by
  cases e with
  | think q talk outcome =>
    obtain ⟨_, hpos, k, sid, hq, hi⟩ := delivers
    rcases getClientFromSerial_spec host k with ⟨hzero, _⟩ | ⟨_, p, hp, hk⟩
    · exact absurd (hi.symm.trans hzero) hpos
    · rw [hi] at hp
      have flagged := guarded.asked k sid i p (List.mem_of_getElem? hq) hp hk
      exact ⟨host.range i p hp, flagged.2.2.2⟩
  | _ => exact delivers.elim

lemma client_of_authIdLoop {authId : Bytes} {n : ℕ} (h : authIdLoop s authId n = some i)
    (hi : i ≠ 0) : 1 ≤ i ∧ i ≤ n := by
  induction n with
  | zero => exact absurd (Option.some.inj h).symm hi
  | succ n ih =>
    have below : authIdLoop s authId n = some i → 1 ≤ i ∧ i ≤ n + 1 := by
      intro h
      have := ih h
      omega
    unfold authIdLoop at h
    split at h
    · exact below h
    · split_ifs at h
      · split at h
        · cases h
        · obtain rfl := Option.some.inj h
          omega
        · exact below h
      · exact below h

lemma unflagged (h : Wf s) {e : Event} (allowed : e.Allowed cfg s)
    (stays : e ≠ .disconnecting i) (hi : (e.apply cfg s).connected i = false) :
    s.connected i = false := by
  rw [← Bool.not_eq_true] at hi ⊢
  exact fun before => hi (connected_apply h allowed stays before)

lemma Tends.of_linked (slots : ∀ i a, a ∈ t.clientData i → a ∈ s.clientData i ∨ Client cfg i)
    (mono : ∀ i, t.connected i = false → s.connected i = false)
    (linked : ∀ i, s.connected i = false → LinkedAt s i → LinkedAt t i) : Tends cfg s t :=
  ⟨slots, fun i before hi => linked i (mono i hi) (before (mono i hi))⟩

lemma Tends.of_same (same : SameTables s t)
    (mono : ∀ i, t.connected i = false → s.connected i = false) : Tends cfg s t :=
  .of_linked (fun i a ha => .inl (by rwa [same.clientData] at ha)) mono
    fun _ _ linked => SameTables.linkedAt same linked

lemma Tends.runFrame (h : Wf s) (host : Host cfg s) (guarded : Guarded cfg s) {k : ℕ}
    {q : Query} (hq : s.sent[k]? = some q) (outcome : Outcome) :
    Tends cfg s (runFrame cfg s k outcome) := by
  have mono : ∀ i, (Session.runFrame cfg s k outcome).connected i = false →
      s.connected i = false := fun i hi => by rwa [connected_runFrame] at hi
  have taken : SameTables s { s with finished := s.finished ++ [k] } := .of_eq rfl rfl rfl
  have run : Session.runFrame cfg s k outcome =
      runThinkPart cfg { s with finished := s.finished ++ [k] } q outcome := by
    simp only [Session.runFrame, hq]
  cases q with
  | insertCookie c =>
    apply Tends.of_same _ mono
    rw [run]
    simp only [runThinkPart, insertCookieCallback]
    split_ifs
    · exact taken.trans (.modifyCookie c fun _ => rfl)
    · exact .of_eq rfl rfl rfl
  | selectData serial sid =>
    by_cases gone : getClientFromSerial cfg s serial = 0
    · apply Tends.of_same _ mono
      have same : getClientFromSerial cfg { s with finished := s.finished ++ [k] } serial = 0 :=
        gone
      rw [run]
      simp only [runThinkPart, clientConnectCallback, same, if_true]
      exact taken
    · have delivers : Delivers cfg s (getClientFromSerial cfg s serial) outcome.results
          (.think k [] outcome) := ⟨rfl, gone, serial, sid, hq, rfl⟩
      obtain ⟨client, flagged⟩ := connected_of_delivers host guarded delivers
      obtain ⟨t, tables⟩ := apply_of_delivers delivers
      have start : Wf (loadStart s t (getClientFromSerial cfg s serial)) :=
        h.congr rfl rfl rfl rfl rfl rfl fun _ _ _ ha => ha
      refine .of_linked (fun i a ha => ?_) mono fun i hi linked => ?_
      · rw [show (Session.runFrame cfg s k outcome).clientData = _ from tables.clientData] at ha
        rcases clientData_loadRows start ha with old | rfl
        · exact .inl old
        · exact .inr client
      · have other : i ≠ getClientFromSerial cfg s serial := by
          rintro rfl
          rw [flagged] at hi
          cases hi
        exact SameTables.linkedAt tables (linkedAt_loadRows start other outcome.results linked)
  | insertData sid id a =>
    apply Tends.of_same _ mono
    rw [run]
    exact taken.trans (.deletePayload (h.queued sid id a (List.mem_of_getElem? hq)).2)
  | selectId c name =>
    apply Tends.of_same _ mono
    rw [run]
    simp only [runThinkPart, selectIdCallback]
    exact taken.trans (.modifyCookie c fun _ => rfl)

lemma Tends.setCookieValue {m : Server} (same : SameTables s m) (h : Wf m) (hj : Client cfg j)
    (c : CookieRef) (v : Bytes) (now : ℕ)
    (mono : ∀ i, (setCookieValue m c j v now).connected i = false → s.connected i = false) :
    Tends cfg s (setCookieValue m c j v now) := by
  refine .of_linked (fun i a ha => ?_) mono fun i _ linked => ?_
  · rcases clientData_setCookieValue ha with old | rfl
    · rw [same.clientData] at old
      exact .inl old
    · exact .inr hj
  · exact linkedAt_setCookieValue h (SameTables.linkedAt same linked) c v now

lemma tends_apply (h : Wf s) (host : Host cfg s) (guarded : Guarded cfg s) {e : Event}
    (allowed : e.Allowed cfg s) : Tends cfg s (e.apply cfg s) := by
  have mono : ∀ i, e ≠ .disconnecting i → (e.apply cfg s).connected i = false →
      s.connected i = false := fun _ stays hi => unflagged h allowed stays hi
  cases e with
  | connect i p => exact .of_same (.of_eq rfl rfl rfl) fun i => mono i (by simp)
  | authorize i =>
    refine .of_same (.trans ?_ (.onClientAuthorized _ i)) fun i => mono i (by simp)
    exact .of_eq rfl rfl rfl
  | disconnecting j =>
    have released := @Released.onClientDisconnecting cfg s h j
    have tables : Released j s ((Event.disconnecting j).apply cfg s) :=
      ⟨released.clientData, released.gone, released.data, released.heap⟩
    refine ⟨fun i a ha => ?_, fun i before hi => ?_⟩
    · rw [tables.clientData] at ha
      by_cases hij : i = j
      · simp [hij] at ha
      · rw [Function.update_of_ne hij] at ha
        exact .inl ha
    · apply Released.linkedAt tables
      intro hij
      apply before
      apply mono i _ hi
      rintro ⟨⟩
      exact hij rfl
  | disconnected i => exact .of_same (.of_eq rfl rfl rfl) fun i => mono i (by simp)
  | reconnect => exact .of_same (.attemptReconnection s) fun i => mono i (by simp)
  | createCookie name description access =>
    exact .of_same (.createCookie h _ _ _) fun i => mono i (by simp)
  | setCookieValue c j v now =>
    exact .setCookieValue (.refl s) h allowed.2 c v now fun i => mono i (by simp)
  | getCookieValue c j =>
    refine .of_linked (fun i a ha => ?_) (fun i => mono i (by simp)) fun i _ linked => ?_
    · rcases clientData_getCookieValue ha with old | rfl
      · exact .inl old
      · exact .inr allowed.2
    · exact linkedAt_getCookieValue h linked c
  | setAuthIdCookie authId c v now =>
    obtain ⟨t, ht⟩ := Option.isSome_iff_exists.mp allowed.2
    have still : ∀ i, t.connected i = false → s.connected i = false := by
      intro i hi
      apply mono i (by simp)
      simpa only [Event.apply, ht, Option.getD_some] using hi
    simp only [Event.apply, ht, Option.getD_some]
    obtain ⟨client, hclient, rfl⟩ := Option.map_eq_some_iff.mp ht
    have before : Wf (attemptReconnection cfg s) := h.attemptReconnection
    split_ifs at still ⊢ with hpos
    · exact .setCookieValue (.attemptReconnection s) before (client_of_authIdLoop hclient hpos)
        c v now still
    · exact .of_same (.trans (.attemptReconnection s) (.payload before _ _)) still
  | think k talk outcome =>
    obtain ⟨_, q, hq, _⟩ := allowed
    exact .runFrame h host guarded hq outcome

lemma Guarded.apply (h : Wf s) (host : Host cfg s) (addressed : Addressed s)
    (guarded : Guarded cfg s) {e : Event} (allowed : e.Allowed cfg s) :
    Guarded cfg (e.apply cfg s) := by
  have tends := tends_apply h host guarded allowed
  refine ⟨fun i a ha => ?_, fun _ _ _ _ mem hp serial => ?_, fun i hi => ?_⟩
  · rcases tends.slots i a ha with old | client
    · exact guarded.slots i a old
    · exact client
  · exact asked_apply h host addressed guarded allowed mem hp serial
  · exact tends.linked i (guarded.linked i) hi

lemma mem_newPayloads (h : Wf s) {a : DataRef} :
    a ∈ newPayloads s (onClientDisconnecting cfg s i) ↔
      a ∈ s.clientData i ∧ savedQuery s (authOf (s.roster i)) a ≠ none := by
  rw [newPayloads_onClientDisconnecting h, payloadsOf_disconnecting, List.mem_filter,
    Option.isSome_iff_ne_none]

lemma Kept.onClientDisconnecting (h : Wf s) (kept : Kept s) (i : ℕ) :
    Kept (onClientDisconnecting cfg s i) := by
  obtain ⟨new, sent⟩ := @sent_prefix_onClientDisconnecting cfg s h i
  have finished : (CookieManager.onClientDisconnecting cfg s i).finished = s.finished := by
    rw [onClientDisconnecting_eq h]
    rfl
  have fresh : newPayloads s (CookieManager.onClientDisconnecting cfg s i) =
      new.filterMap payloadOf := by
    rw [newPayloads, ← sent, List.drop_left]
  constructor
  · intro a live
    rcases Houses.onClientDisconnecting h i a live with housed | handed | ⟨before, out⟩
    · exact .inl housed
    · rw [← newPayloads_onClientDisconnecting h, fresh] at handed
      obtain ⟨q, hq, ha⟩ := List.mem_filterMap.mp handed
      obtain ⟨n, hn⟩ := List.mem_iff_getElem?.mp hq
      refine .inr ⟨s.sent.length + n, ⟨q, ?_, ha⟩, fun mem => ?_⟩
      · rw [← sent, List.getElem?_append_right (Nat.le_add_right _ _), Nat.add_sub_cancel_left, hn]
      · rw [finished] at mem
        have := kept.ticket _ mem
        omega
    · rcases kept.housed a before with ⟨j, hj⟩ | ⟨k, ⟨q, hq, ha⟩, hk⟩
      · exact absurd hj (out j)
      · refine .inr ⟨k, ⟨q, ?_, ha⟩, finished.symm ▸ hk⟩
        rw [← sent, List.getElem?_append_left (List.getElem?_eq_some_iff.mp hq).1, hq]
  · rintro k a ⟨⟨q, hq, ha⟩, hk⟩
    rw [finished] at hk
    rw [← sent] at hq
    rw [heap_onClientDisconnecting h]
    rcases Nat.lt_or_ge k s.sent.length with hlt | hge
    · rw [List.getElem?_append_left hlt] at hq
      have queued : a ∈ s.sent.filterMap payloadOf :=
        List.mem_filterMap.mpr ⟨q, List.mem_of_getElem? hq, ha⟩
      rw [if_neg fun both => (payload_queued h queued).2 i both.1]
      exact kept.waiting k a ⟨⟨q, hq, ha⟩, hk⟩
    · rw [List.getElem?_append_right hge] at hq
      have handed : a ∈ newPayloads s (CookieManager.onClientDisconnecting cfg s i) := by
        rw [fresh]
        exact List.mem_filterMap.mpr ⟨q, List.mem_of_getElem? hq, ha⟩
      obtain ⟨mine, saved⟩ := (mem_newPayloads h).mp handed
      rw [if_neg fun both => saved both.2]
      obtain ⟨e, he, _⟩ := h.owned i a mine
      rw [he]
      rfl
  · intro k hk
    rw [finished] at hk
    rw [← sent, List.length_append]
    exact (kept.ticket k hk).trans_le (Nat.le_add_right _ _)

/-- What the first loop leaves for the second one. -/
structure Unloaded (s t : Server) : Prop where
  wf : Wf t
  kept : Kept t
  slots : ∀ i a, a ∈ t.clientData i → a ∈ s.clientData i
  linked : ∀ i, LinkedAt t i

/-- The loop invariant: a slot is linked unless it is flagged and still to come. -/
theorem unloadLoop_spec (n : ℕ) (h : Wf s) (kept : Kept s)
    (linked : ∀ i, (1 ≤ i → i ≤ n → s.connected i = false) → LinkedAt s i) :
    Unloaded s (unloadLoop cfg n s) := by
  induction n generalizing s with
  | zero => exact ⟨h, kept, fun _ _ ha => ha, fun i => linked i fun h1 h0 => by omega⟩
  | succ n ih =>
    unfold unloadLoop
    split_ifs with flagged
    · have released := @Released.onClientDisconnecting cfg s h (n + 1)
      have rest : Unloaded (onClientDisconnecting cfg s (n + 1))
          (unloadLoop cfg n (onClientDisconnecting cfg s (n + 1))) := by
        apply ih (Wf.onClientDisconnecting h _) (Kept.onClientDisconnecting h kept _)
        intro i unflagged
        apply Released.linkedAt released
        intro other
        apply linked i
        intro h1 hle
        have after := unflagged h1 (by omega)
        rw [← Bool.not_eq_true] at after ⊢
        exact fun before => after (connected_onClientDisconnecting h other before)
      refine ⟨rest.wf, rest.kept, fun i a ha => ?_, rest.linked⟩
      have ha := rest.slots i a ha
      rw [released.clientData] at ha
      by_cases mine : i = n + 1
      · simp [mine] at ha
      · rwa [Function.update_of_ne mine] at ha
    · apply ih h kept
      intro i unflagged
      apply linked i
      intro h1 hle
      by_cases mine : i = n + 1
      · rw [mine]
        simpa using flagged
      · exact unflagged h1 (by omega)

/-- In every state of a session `Unload` deletes no value twice, and afterwards a value is left
only in a query. -/
theorem unload_frees {roster : ℕ → Option Player} {spent : List ℕ}
    {trace : List (Server × Event)} (host : Host cfg (start roster spent))
    (run : Run (Session.Step cfg) (start roster spent) trace s) {maxPlayers : ℕ}
    (room : cfg.maxClients ≤ maxPlayers) :
    ∃ t, unloadMemory cfg maxPlayers s = some t ∧
      ∀ a, (t.heap a).isSome = true ↔ ∃ k, Owns t (.query k) a := by
  have preserved : ∀ (a : Server) (e : Event) (b : Server),
      ((Wf a ∧ OnePayload a ∧ Kept a) ∧ Host cfg a ∧ Addressed a ∧ Guarded cfg a) →
      Session.Step cfg a e b →
      ((Wf b ∧ OnePayload b ∧ Kept b) ∧ Host cfg b ∧ Addressed b ∧ Guarded cfg b) := by
    rintro a e b ⟨⟨wf, once, kept⟩, host, addressed, guarded⟩ ⟨allowed, rfl⟩
    exact ⟨⟨Wf.apply wf allowed, once.apply wf allowed, kept.apply wf once allowed⟩,
      host.apply wf allowed, addressed.apply wf host allowed,
      guarded.apply wf host addressed allowed⟩
  have first : (Wf (start roster spent) ∧ OnePayload (start roster spent) ∧
      Kept (start roster spent)) ∧ Host cfg (start roster spent) ∧
      Addressed (start roster spent) ∧ Guarded cfg (start roster spent) :=
    ⟨⟨Wf.start roster spent, List.nodup_nil, .start roster spent⟩, host,
      by simp [Addressed, start], .start roster spent⟩
  obtain ⟨⟨wf, _, kept⟩, _, _, guarded⟩ := run.stable first preserved
  have linked : ∀ i, (1 ≤ i → i ≤ cfg.maxClients → s.connected i = false) → LinkedAt s i := by
    intro i unflagged a e ha he
    obtain ⟨h1, hle⟩ := guarded.slots i a ha
    exact guarded.linked i (unflagged h1 hle) a e ha he
  have unloaded : Unloaded s (unloadLoop cfg cfg.maxClients s) :=
    unloadLoop_spec cfg.maxClients wf kept linked
  generalize hu : unloadLoop cfg cfg.maxClients s = u at unloaded
  have freed : ∀ i a, a ∈ u.clientData i → a ∈ cookieValues maxPlayers u := by
    intro i a ha
    obtain ⟨e, he, _⟩ := unloaded.wf.owned i a ha
    have entry := unloaded.linked i a e ha he
    have client := guarded.slots i a (unloaded.slots i a ha)
    refine mem_cookieValues.mpr ⟨e.parent, ?_, i, client.2.trans room, entry⟩
    by_contra unborn
    rw [unloaded.wf.unborn e.parent (Nat.le_of_not_lt unborn) i] at entry
    cases entry
  refine ⟨_, by rw [unloadMemory, hu, deleteCookies_spec unloaded.wf]; rfl, fun a => ?_⟩
  constructor
  · intro live
    by_cases mem : a ∈ cookieValues maxPlayers u
    · simp [mem] at live
    · have live : (u.heap a).isSome = true := by simpa [mem] using live
      rcases unloaded.kept.housed a live with ⟨i, hi⟩ | owns
      · exact absurd (freed i a hi) mem
      · exact owns
  · rintro ⟨k, owns⟩
    have owned : Owns u (.query k) a := owns
    have mem : a ∉ cookieValues maxPlayers u := by
      intro mem
      obtain ⟨c, _, i, _, hdata⟩ := mem_cookieValues.mp mem
      obtain ⟨⟨q, hq, ha⟩, _⟩ := owned
      have queued : a ∈ u.sent.filterMap payloadOf :=
        List.mem_filterMap.mpr ⟨q, List.mem_of_getElem? hq, ha⟩
      exact (payload_queued unloaded.wf queued).2 i (unloaded.wf.linked c i a hdata).1
    simp only [mem, if_false]
    exact unloaded.kept.waiting k a owned

/-- The player has two values for the cookie, and the cookie points to the second one. -/
theorem unload_frees_loadLast : ∃ t,
    unloadMemory oneSlot 65 (play oneSlot vacant loadLast) = some t ∧
      ∀ a, (t.heap a).isSome = true ↔ ∃ k, Owns t (.query k) a :=
  unload_frees host_start_vacant (play_run loadLast_playable) (by decide)

end ClientPrefs.UnloadMemory
