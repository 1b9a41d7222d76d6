import ClientPrefs.Loads

/-!
# Loads reach the player they were made for

A `SelectData` query carries the serial and the steam id of one player. Its result is
stored in the slot of that player, or nowhere when the player has left.
-/
namespace ClientPrefs.LoadIsolation
open ByteStrings Cookies CookieManager Conversation Conv LateLoad Loads QueryThread RedisReply
open RedisStore Session SlotRelease SlotTables Transition

/-- The value was read from Redis under the steam id: in a row of the script's reply, or
with `GET steamId.id`. -/
def ReadUnder (steamId : Bytes) (talk : List (Command × Option Reply)) (value : Bytes) : Prop :=
  (∃ sha rows name desc access reply, (.evalsha sha steamId, some (.arrays rows)) ∈ talk ∧
    .arrays [name, desc, access, reply] ∈ rows ∧ readValue reply = value) ∨
  ∃ id reply, (.get (valueKey steamId id), some reply) ∈ talk ∧ readValue reply = value

section Reads
variable {steamId : Bytes} {talk : List (Command × Option Reply)}

/-- Every result is a cookie with a value read under the steam id. -/
def AllRead (steamId : Bytes) (talk : List (Command × Option Reply))
    (results : List (Cookie × Bytes)) : Prop :=
  ∀ row ∈ results, (∃ name desc access, row.1 = Cookie.new name desc access) ∧
    ReadUnder steamId talk row.2

/-- All that a `SelectData` query returns it has read under its steam id. -/
theorem selectData_reads (sha : Bytes) :
    (selectData sha steamId).Keeps (fun x r => (x, r) ∈ talk) (fun _ => True)
      fun out => AllRead steamId talk out.results := by
  apply selectData_each trivial trivial fun _ => trivial
  · intro rows name desc access value asked hrow
    exact ⟨⟨_, _, _, rfl⟩, .inl ⟨sha, rows, _, _, _, value, asked, hrow, rfl⟩⟩
  · intro items key id value desc access _ _ _ asked
    exact ⟨⟨_, _, _, rfl⟩, .inr ⟨id, value, asked, rfl⟩⟩

end Reads
lemma Talks.allRead {hash : Bytes → ℕ} {steamId : Bytes}
    {talk : List (Command × Option Reply)} {outcome : Outcome}
    (h : Talks (bindParamsAndRun hash (.selectData steamId)) talk outcome) :
    AllRead steamId talk outcome.results :=
  h.keeps (selectData_reads scriptSha) fun _ hx => hx

section Addressed
variable {cfg : Config} {s : Server} {k : ℕ} {sid : Bytes}

/-- Somebody in the roster has this serial and this steam id. -/
def Occupies (s : Server) (k : ℕ) (sid : Bytes) : Prop :=
  ∃ i p, s.roster i = some p ∧ p.serial = k ∧ steamIdOf p = sid

lemma select_of_authorizeAll {l : List ℕ}
    (h : .selectData k sid ∈ (authorizeAll s l).sent) :
    .selectData k sid ∈ s.sent ∨ Occupies s k sid := by
  rcases List.mem_append.mp h with h | h
  · exact .inl h
  · obtain ⟨i, _, hi⟩ := List.mem_filterMap.mp h
    obtain ⟨p, hp, heq⟩ := Option.map_eq_some_iff.mp hi
    simp only [Query.selectData.injEq] at heq
    exact .inr ⟨i, p, hp, heq⟩

lemma select_of_addQuery {q : Query} (h : .selectData k sid ∈ (s.addQueryToQueue q).sent) :
    .selectData k sid ∈ s.sent ∨ .selectData k sid = q := by
  rcases List.mem_append.mp h with h | h
  · exact .inl h
  · exact .inr (List.mem_singleton.mp h)

lemma select_of_createCookie {name description : Bytes} {access : CookieAccess}
    (h : .selectData k sid ∈ (createCookie cfg s name description access).1.sent) :
    .selectData k sid ∈ s.sent := by
  unfold createCookie at h
  split at h
  · exact h
  · exact (select_of_addQuery h).resolve_right (by simp)

lemma select_of_loadRow {i : ℕ} {row : Cookie × Bytes}
    (h : .selectData k sid ∈ (loadRow cfg i s row).sent) : .selectData k sid ∈ s.sent := by
  have hcreate : .selectData k sid ∈ (findOrCreate cfg s row.1).1.sent := h
  unfold findOrCreate at hcreate
  split at hcreate
  · exact hcreate
  · exact select_of_createCookie hcreate

lemma select_of_loadRows {i : ℕ} {rows : List (Cookie × Bytes)}
    (h : .selectData k sid ∈ (rows.foldl (loadRow cfg i) s).sent) :
    .selectData k sid ∈ s.sent := by
  induction rows generalizing s with
  | nil => exact h
  | cons row rows ih => exact select_of_loadRow (ih h)

lemma select_of_setCookieValue {c : CookieRef} {i : ℕ} {v : Bytes} {now : ℕ}
    (h : .selectData k sid ∈ (setCookieValue s c i v now).sent) : .selectData k sid ∈ s.sent := by
  unfold setCookieValue at h
  split at h <;> exact h

lemma select_of_runFrame {t : ℕ} {outcome : Outcome}
    (h : .selectData k sid ∈ (runFrame cfg s t outcome).sent) : .selectData k sid ∈ s.sent := by
  unfold runFrame at h
  split at h
  · exact h
  · next q _ =>
    cases q with
    | insertCookie c =>
      simp only [runThinkPart, insertCookieCallback] at h
      split_ifs at h
      · exact h
      · exact (select_of_addQuery h).resolve_right (by simp)
    | selectData serial sid' =>
      simp only [runThinkPart, clientConnectCallback] at h
      split_ifs at h
      · exact h
      · have hloop : .selectData k sid ∈ (outcome.results.foldl
            (loadRow cfg (getClientFromSerial cfg s serial))
            (clearPending { s with finished := s.finished ++ [t] }
              (getClientFromSerial cfg s serial))).sent := h
        exact (select_of_loadRows hloop : _)
    | insertData sid' id a => exact h
    | selectId c name => exact h

lemma select_of_attemptReconnection (h : .selectData k sid ∈ (attemptReconnection cfg s).sent) :
    .selectData k sid ∈ s.sent ∨ Occupies s k sid := by
  rw [attemptReconnection_eq] at h
  exact select_of_authorizeAll h

lemma select_of_onClientAuthorized {i : ℕ}
    (h : .selectData k sid ∈ (onClientAuthorized cfg s i).sent) :
    .selectData k sid ∈ s.sent ∨ Occupies s k sid := by
  rw [onClientAuthorized_eq] at h
  split at h
  · exact .inl h
  · next p hp =>
    split_ifs at h
    · exact .inl h
    · rcases select_of_addQuery h with h | h
      · exact select_of_authorizeAll h
      · simp only [Query.selectData.injEq] at h
        exact .inr ⟨i, p, hp, h.1.symm, h.2.symm⟩

lemma select_of_onClientDisconnecting {i : ℕ} (hwf : Wf s)
    (h : .selectData k sid ∈ (onClientDisconnecting cfg s i).sent) :
    .selectData k sid ∈ s.sent ∨ Occupies s k sid := by
  rw [onClientDisconnecting_eq hwf] at h
  rcases mem_releaseAll_sent i h with h | ⟨a, _, hq⟩
  · exact select_of_authorizeAll h
  · obtain ⟨_, _, _, _, _, _, hq⟩ := savedQuery_eq_some hq
    cases hq

lemma select_of_setAuthIdCookie {authId : Bytes} {c : CookieRef} {v : Bytes} {now : ℕ}
    {t : Server} (ht : setAuthIdCookie cfg s authId c v now = some t)
    (h : .selectData k sid ∈ t.sent) : .selectData k sid ∈ s.sent ∨ Occupies s k sid := by
  obtain ⟨i, _, rfl⟩ := Option.map_eq_some_iff.mp ht
  split_ifs at h
  · exact select_of_attemptReconnection (select_of_setCookieValue h)
  · exact select_of_attemptReconnection ((select_of_addQuery h).resolve_right (by simp))

lemma select_of_apply (h : Wf s) {e : Event} (allowed : e.Allowed cfg s)
    (hmem : .selectData k sid ∈ (e.apply cfg s).sent) :
    .selectData k sid ∈ s.sent ∨ Occupies (e.apply cfg s) k sid := by
  have hroster : (e.apply cfg s).roster = (e.host s).1 :=
    congrArg Prod.fst (hostOf_apply h allowed)
  unfold Occupies
  rw [hroster]
  cases e with
  | connect i p => exact .inl hmem
  | authorize i => exact select_of_onClientAuthorized hmem
  | disconnecting i => exact select_of_onClientDisconnecting h hmem
  | disconnected i => exact .inl hmem
  | reconnect => exact select_of_attemptReconnection hmem
  | createCookie name description access => exact .inl (select_of_createCookie hmem)
  | setCookieValue c i v now => exact .inl (select_of_setCookieValue hmem)
  | getCookieValue c i =>
    left
    simp only [Event.apply, getCookieValue] at hmem
    split at hmem <;> exact hmem
  | setAuthIdCookie authId c v now =>
    obtain ⟨t, ht⟩ := Option.isSome_iff_exists.mp allowed.2
    simp only [Event.apply, ht, Option.getD_some] at hmem
    exact select_of_setAuthIdCookie ht hmem
  | think t talk outcome => exact .inl (select_of_runFrame hmem)

/-- Every query about a player has a serial that was given out, and the steam id of whoever
has that serial. -/
def Addressed (s : Server) : Prop :=
  ∀ k sid, .selectData k sid ∈ s.sent → k ∈ s.spent ∧
    ∀ i p, s.roster i = some p → p.serial = k → steamIdOf p = sid

lemma Addressed.apply (h : Addressed s) (hwf : Wf s) (hhost : Host cfg s) {e : Event}
    (allowed : e.Allowed cfg s) : Addressed (e.apply cfg s) := by
  have hhost' : Host cfg (e.apply cfg s) := hhost.apply hwf allowed
  intro k sid hmem
  rcases select_of_apply hwf allowed hmem with hold | ⟨j, q, hq, hser, hsid⟩
  · obtain ⟨hspent, hsame⟩ := h k sid hold
    refine ⟨spent_of_apply hwf allowed hspent, fun i r hr hk => ?_⟩
    rcases occupant_of_apply hwf allowed hr with ⟨p, hp, hpser, hpsid⟩ | hnew
    · rw [← hpsid]
      exact hsame i p hp (hpser.trans hk)
    · exact absurd (hk ▸ hspent) hnew
  · refine ⟨hser ▸ hhost'.serial j q hq, fun i r hr hk => ?_⟩
    obtain rfl : i = j := hhost'.distinct i j r q hr hq (hk.trans hser.symm)
    obtain rfl : q = r := by simpa [hq] using hr
    exact hsid

theorem Addressed.reachable {roster : ℕ → Option Player} {spent : List ℕ}
    {trace : List (Server × Event)} (host : Host cfg (start roster spent))
    (run : Run (Step cfg) (start roster spent) trace s) : Wf s ∧ Host cfg s ∧ Addressed s := by
  have preserved : ∀ a e b, Wf a ∧ Host cfg a ∧ Addressed a → Step cfg a e b →
      Wf b ∧ Host cfg b ∧ Addressed b := by
    intro a e b h step
    obtain ⟨hwf, hhost, haddr⟩ := h
    obtain ⟨allowed, rfl⟩ := step
    exact ⟨Wf.apply hwf allowed, hhost.apply hwf allowed, haddr.apply hwf hhost allowed⟩
  have first : Addressed (start roster spent) := by simp [Addressed, start]
  exact run.stable ⟨Wf.start roster spent, host, first⟩ preserved

end Addressed

section Delivery
variable {cfg : Config} {s : Server}

/-- The result of a `SelectData` query, at any time: nothing happens when its player has left,
and otherwise every value it stores goes to that player's slot and was read under that
player's steam id. -/
theorem load_isolated {roster : ℕ → Option Player} {spent : List ℕ}
    {trace : List (Server × Event)} (host : Host cfg (start roster spent))
    (run : Run (Step cfg) (start roster spent) trace s) {t k : ℕ} {sid : Bytes}
    {talk : List (Command × Option Reply)} {outcome : Outcome}
    (hquery : s.sent[t]? = some (.selectData k sid))
    (allowed : (Event.think t talk outcome).Allowed cfg s) :
    ((∀ i p, s.roster i = some p → p.serial ≠ k) →
      runFrame cfg s t outcome = { s with finished := s.finished ++ [t] }) ∧
    (∀ i a, (a ∈ (runFrame cfg s t outcome).clientData i ∧ a ∉ s.clientData i ∨
        ∃ c, ((runFrame cfg s t outcome).cookies c).data i = some a ∧
          (s.cookies c).data i ≠ some a) →
      ∃ p v e, s.roster i = some p ∧ p.serial = k ∧ ReadUnder (steamIdOf p) talk v ∧
        (runFrame cfg s t outcome).heap a = some e ∧ e.value = storedValue v) ∧
    ∀ a, a < s.nextData → (runFrame cfg s t outcome).heap a = s.heap a := by
  obtain ⟨hwf, hhost, haddr⟩ := Addressed.reachable host run
  have hread : AllRead sid talk outcome.results := by
    obtain ⟨_, q, hq, htalk⟩ := allowed
    obtain rfl : Query.selectData k sid = q := by simpa [hquery] using hq
    exact Talks.allRead htalk
  obtain ⟨_, hsid⟩ := haddr k sid (List.mem_of_getElem? hquery)
  let s' : Server := { s with finished := s.finished ++ [t] }
  have hrun : runFrame cfg s t outcome = clientConnectCallback cfg s' k outcome.results := by
    simp only [runFrame, hquery]
    rfl
  have hclient : getClientFromSerial cfg s' k = getClientFromSerial cfg s k := rfl
  rcases getClientFromSerial_spec hhost k with ⟨hzero, hnobody⟩ | ⟨hpos, p, hp, hk⟩
  · have hsame : runFrame cfg s t outcome = s' := by
      simp only [hrun, clientConnectCallback, hclient, hzero, if_true]
    rw [hsame]
    refine ⟨fun _ => rfl, fun i a ha => ?_, fun _ _ => rfl⟩
    rcases ha with ⟨hin, hout⟩ | ⟨c, hin, hout⟩
    · exact absurd hin hout
    · exact absurd hin hout
  · generalize hi : getClientFromSerial cfg s k = i at hpos hp
    have hwf' : Wf (clearPending s' i) := hwf.congr rfl rfl rfl rfl rfl rfl fun _ _ _ ha => ha
    have hstores : Stores i (fun e => ∃ v, ReadUnder sid talk v ∧ e.value = storedValue v)
        (clearPending s' i) (outcome.results.foldl (loadRow cfg i) (clearPending s' i)) :=
      Stores.loadRows hwf' fun row hrow c => ⟨row.2, (hread row hrow).2, rfl⟩
    have hloaded : Wf (outcome.results.foldl (loadRow cfg i) (clearPending s' i)) :=
      hwf'.loadRows i _
    have hfields : runFrame cfg s t outcome =
        let u := outcome.results.foldl (loadRow cfg i) (clearPending s' i)
        { u with
          statsLoaded := Function.update u.statsLoaded i true
          cached := u.cached ++ [i] } := by
      simp only [hrun, clientConnectCallback, hclient, hi, hpos, if_false]
      rfl
    rw [hfields]
    refine ⟨fun hnobody => absurd hk (hnobody i p hp), fun j a ha => ?_, hstores.kept⟩
    have hnew : j = i ∧ s.nextData ≤ a ∧
        ∃ e, (outcome.results.foldl (loadRow cfg i) (clearPending s' i)).heap a = some e := by
      rcases ha with ⟨hin, hout⟩ | ⟨c, hin, hout⟩
      · obtain ⟨e, he, _⟩ := hloaded.owned j a hin
        have hji := (hstores.clientData j a hin).resolve_left hout
        exact ⟨hji.1, hji.2, e, he⟩
      · obtain ⟨_, e, he, _⟩ := hloaded.linked c j a hin
        have hji := (hstores.data c j a hin).resolve_left hout
        exact ⟨hji.1, hji.2, e, he⟩
    obtain ⟨rfl, hge, e, he⟩ := hnew
    obtain ⟨v, hv, hvalue⟩ := hstores.stored a e hge he
    exact ⟨p, v, e, hp, hk, (hsid j p hp hk).symm ▸ hv, he, hvalue⟩

end Delivery

/-- The extension is loaded late: the player is already authorized. -/
def lateLoad : Server := start (alone (authorized newcomer7)) [7]

/-- The value in the player's slot after the load is the one read for the player. -/
theorem load_isolated_music : ∃ p v e,
    (attemptReconnection oneSlot lateLoad).roster 1 = some p ∧ p.serial = 7 ∧
    ReadUnder (steamIdOf p) (musicTalk "on") v ∧
    (runFrame oneSlot (attemptReconnection oneSlot lateLoad) 0 (musicOutcome "on")).heap 0 =
      some e ∧ e.value = storedValue v := by
  have run : Run (Step oneSlot) lateLoad [(lateLoad, .reconnect)]
      (attemptReconnection oneSlot lateLoad) := .one ⟨trivial, rfl⟩
  have hquery : (attemptReconnection oneSlot lateLoad).sent[0]? =
      some (.selectData 7 (bytes "STEAM_1:0:7")) := by decide
  have allowed : (Event.think 0 (musicTalk "on") (musicOutcome "on")).Allowed oneSlot
      (attemptReconnection oneSlot lateLoad) := ⟨by decide, _, hquery, musicTalk_talks "on"⟩
  exact (load_isolated (host_start_alone _) run hquery allowed).2.1 1 0
    (.inl ⟨by decide, by decide⟩)

end ClientPrefs.LoadIsolation
