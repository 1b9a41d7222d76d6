import ClientPrefs.PendingSaves

/-!
# Who owns a value

A `CookieData` is created for a position of one `clientData[i]` or for one `InsertData` query.
The save loop of a disconnect deletes it or hands it over to a query, and the query deletes it
when it is destroyed.
-/
namespace ClientPrefs.Ownership
open ByteStrings Conversation Cookies CookieManager Disconnect Extension LateLoad PendingSaves
open QueryThread SerialQueries Session SlotRelease SlotTables SlotValues Transition

inductive Place
  | slot (i n : ℕ)
  | query (k : ℕ)
  deriving DecidableEq, Repr

/-- The value is at this position of a slot, or in this query, which is not destroyed yet. -/
def Owns (s : Server) : Place → DataRef → Prop
  | .slot i n, a => (s.clientData i)[n]? = some a
  | .query k, a => (∃ q, s.sent[k]? = some q ∧ payloadOf q = some a) ∧ k ∉ s.finished

structure Owned (s : Server) : Prop where
  one : ∀ a, (s.heap a).isSome = true → ∃! place, Owns s place a
  live : ∀ place a, Owns s place a → (s.heap a).isSome = true
  back : ∀ c i a, (s.cookies c).data i = some a →
    a ∈ s.clientData i ∧ ∃ e, s.heap a = some e ∧ e.parent = c

/-- The values that the queries sent since `s` carry. -/
def newPayloads (s t : Server) : List DataRef := (t.sent.drop s.sent.length).filterMap payloadOf

inductive Turn (m t : Server) (a : DataRef) : Prop
  | deleted (gone : t.heap a = none) (sent : t.sent = m.sent)
  | handed (sid : Bytes) (id : ℤ) (heap : t.heap a = m.heap a)
      (sent : t.sent = m.sent ++ [.insertData sid id a])

def saveLoop (cfg : Config) (s : Server) (i : ℕ) (l : List DataRef) : Server :=
  l.foldl (releaseData i (authOf (s.roster i))) (afterReconnect cfg s i)

/-- What `OnClientDisconnecting` does with the values of its slot, and with the others. -/
structure LetsGo (cfg : Config) (s : Server) (i : ℕ) : Prop where
  /-- The handler runs the save loop over the values of the slot. -/
  loop : onClientDisconnecting cfg s i = { saveLoop cfg s i (s.clientData i) with
    clientData := Function.update s.clientData i [] }
  /-- Each value is still there when its turn comes. -/
  turn : ∀ before a after, s.clientData i = before ++ a :: after →
    ((saveLoop cfg s i before).heap a).isSome = true ∧
      Turn (saveLoop cfg s i before) (saveLoop cfg s i (before ++ [a])) a
  once : ∀ a ∈ s.clientData i,
    let t := onClientDisconnecting cfg s i
    (t.heap a = none ∧ a ∉ newPayloads s t) ∨
      ((t.heap a).isSome = true ∧ (newPayloads s t).count a = 1)
  gone : ∀ c, ((onClientDisconnecting cfg s i).cookies c).data i = none
  data : ∀ c j, j ≠ i →
    ((onClientDisconnecting cfg s i).cookies c).data j = (s.cookies c).data j
  clientData : ∀ j, j ≠ i → (onClientDisconnecting cfg s i).clientData j = s.clientData j

variable {cfg : Config} {s t u : Server} {a : DataRef}

/-- A value that is live afterwards is in a slot, or among the new payloads `l`, or it was live
and outside the slots before. -/
def Houses (l : List DataRef) (s t : Server) : Prop :=
  ∀ a, (t.heap a).isSome = true → (∃ i, a ∈ t.clientData i) ∨ a ∈ l ∨
    ((s.heap a).isSome = true ∧ ∀ i, a ∉ s.clientData i)

lemma Houses.of_same {l : List DataRef} (heap : t.heap = s.heap)
    (clientData : t.clientData = s.clientData) : Houses l s t := by
  intro a live
  by_cases housed : ∃ i, a ∈ t.clientData i
  · exact .inl housed
  · rw [clientData] at housed
    rw [heap] at live
    exact .inr (.inr ⟨live, not_exists.mp housed⟩)

lemma Houses.trans {l l' : List DataRef} (first : Houses l s t) (second : Houses l' t u) :
    Houses (l ++ l') s u := by
  intro a live
  rcases second a live with housed | new | ⟨before, out⟩
  · exact .inl housed
  · exact .inr (.inl (List.mem_append_right _ new))
  · rcases first a before with ⟨i, hi⟩ | new | old
    · exact absurd hi (out i)
    · exact .inr (.inl (List.mem_append_left _ new))
    · exact .inr (.inr old)

lemma Houses.linkData (s : Server) (c : CookieRef) (i : ℕ) (e : CookieData) :
    Houses [] s (linkData s c i e) := by
  intro a live
  by_cases new : a = s.nextData
  · exact .inl ⟨i, mem_linkData.mpr (.inr ⟨rfl, new⟩)⟩
  · rw [linkData_heap, Function.update_of_ne new] at live
    by_cases housed : ∃ j, a ∈ s.clientData j
    · obtain ⟨j, hj⟩ := housed
      exact .inl ⟨j, mem_linkData.mpr (.inl hj)⟩
    · exact .inr (.inr ⟨live, not_exists.mp housed⟩)

lemma Houses.setCookieValue (s : Server) (c : CookieRef) (i : ℕ) (v : Bytes) (now : ℕ) :
    Houses [] s (setCookieValue s c i v now) := by
  unfold CookieManager.setCookieValue
  split
  · exact .linkData s c i _
  · next b _ =>
    intro a live
    by_cases housed : ∃ j, a ∈ s.clientData j
    · exact .inl housed
    · refine .inr (.inr ⟨?_, not_exists.mp housed⟩)
      by_cases hab : a = b
      · subst hab
        simpa [Server.modifyData] using live
      · simpa [Server.modifyData, hab] using live

lemma Houses.getCookieValue (s : Server) (c : CookieRef) (i : ℕ) :
    Houses [] s (getCookieValue s c i).1 := by
  unfold CookieManager.getCookieValue
  split
  · exact .linkData s c i _
  · exact .of_same rfl rfl

lemma Houses.loadRow (cfg : Config) (i : ℕ) (s : Server) (row : Cookie × Bytes) :
    Houses [] s (loadRow cfg i s row) := by
  have found : Houses [] s (findOrCreate cfg s row.1).1 := by
    unfold findOrCreate
    split
    · exact .of_same rfl rfl
    · unfold CookieManager.createCookie
      split
      · exact .of_same rfl rfl
      · exact .of_same rfl rfl
  exact found.trans (.linkData _ _ i _)

lemma Houses.loadRows (cfg : Config) (i : ℕ) (s : Server) (rows : List (Cookie × Bytes)) :
    Houses [] s (rows.foldl (CookieManager.loadRow cfg i) s) := by
  induction rows generalizing s with
  | nil => exact .of_same rfl rfl
  | cons row rows ih => exact (Houses.loadRow cfg i s row).trans (ih _)

lemma Houses.attemptReconnection (cfg : Config) (s : Server) :
    Houses [] s (attemptReconnection cfg s) := by
  obtain ⟨heap, _, clientData⟩ := heap_attemptReconnection cfg s
  exact .of_same heap clientData

def payloadsOf (cfg : Config) (s : Server) (e : Event) : List DataRef :=
  (savesOf cfg s e).filterMap payloadOf

lemma payloadsOf_disconnecting (i : ℕ) : payloadsOf cfg s (.disconnecting i) =
    (s.clientData i).filter fun a => (savedQuery s (authOf (s.roster i)) a).isSome := by
  unfold payloadsOf savesOf
  rw [List.filterMap_filterMap, ← List.filterMap_eq_filter]
  apply List.filterMap_congr
  intro a _
  cases hsaved : savedQuery s (authOf (s.roster i)) a with
  | none => simp [Option.guard, hsaved]
  | some q => simp [Option.guard, hsaved, isSave_savedQuery hsaved]

lemma heap_onClientDisconnecting (h : Wf s) (i : ℕ) (a : DataRef) :
    (onClientDisconnecting cfg s i).heap a =
      if a ∈ s.clientData i ∧ savedQuery s (authOf (s.roster i)) a = none then none
      else s.heap a := by
  rw [onClientDisconnecting_eq h]
  rfl

lemma Houses.onClientDisconnecting (h : Wf s) (i : ℕ) :
    Houses (payloadsOf cfg s (.disconnecting i)) s (onClientDisconnecting cfg s i) := by
  intro a live
  rw [heap_onClientDisconnecting h] at live
  have kept : ¬ (a ∈ s.clientData i ∧ savedQuery s (authOf (s.roster i)) a = none) := by
    intro released
    rw [if_pos released] at live
    cases live
  rw [if_neg kept] at live
  by_cases mine : a ∈ s.clientData i
  · refine .inr (.inl ?_)
    rw [payloadsOf_disconnecting, List.mem_filter]
    exact ⟨mine, Option.isSome_iff_ne_none.mpr fun hnone => kept ⟨mine, hnone⟩⟩
  · by_cases housed : ∃ j, a ∈ s.clientData j
    · obtain ⟨j, hj⟩ := housed
      have hji : j ≠ i := by
        rintro rfl
        exact mine hj
      refine .inl ⟨j, ?_⟩
      rw [(Released.onClientDisconnecting h i).clientData, Function.update_of_ne hji]
      exact hj
    · exact .inr (.inr ⟨live, not_exists.mp housed⟩)

lemma heap_newData_of_ne (h : a ≠ s.nextData) (e : CookieData) :
    (s.newData e).heap a = s.heap a := Function.update_of_ne h ..

lemma Houses.setAuthIdCookie {authId : Bytes} {c : CookieRef} {v : Bytes} {now : ℕ}
    (ht : setAuthIdCookie cfg s authId c v now = some t) :
    Houses (payloadsOf cfg s (.setAuthIdCookie authId c v now)) s t := by
  obtain ⟨client, hclient, rfl⟩ := Option.map_eq_some_iff.mp ht
  have before := Houses.attemptReconnection cfg s
  split_ifs with hzero
  · have both := before.trans (.setCookieValue _ c client v now)
    intro a live
    rcases both a live with housed | new | old
    · exact .inl housed
    · cases new
    · exact .inr (.inr old)
  · obtain rfl : client = 0 := by omega
    have new : payloadsOf cfg s (.setAuthIdCookie authId c v now) = [s.nextData] := by
      simp only [payloadsOf, savesOf]
      rw [if_pos hclient]
      rfl
    rw [new]
    intro a live
    by_cases ha : a = s.nextData
    · exact .inr (.inl (List.mem_singleton.mpr ha))
    · obtain ⟨heap, next, clientData⟩ := heap_attemptReconnection cfg s
      have hne : a ≠ (CookieManager.attemptReconnection cfg s).nextData := next.symm ▸ ha
      apply Houses.of_same (l := [s.nextData]) heap clientData a
      rw [← heap_newData_of_ne hne ⟨storedValue v, true, now, c⟩]
      exact live

lemma clientData_onClientAuthorized (i : ℕ) :
    (onClientAuthorized cfg s i).clientData = s.clientData := by
  rw [onClientAuthorized_eq]
  split
  · rfl
  · split_ifs <;> rfl

lemma clientData_createCookie (name description : Bytes) (access : CookieAccess) :
    (createCookie cfg s name description access).1.clientData = s.clientData := by
  unfold createCookie
  split <;> rfl

lemma Houses.runFrame {k : ℕ} {q : Query} (hq : s.sent[k]? = some q) (outcome : Outcome) :
    Houses [] s (runFrame cfg s k outcome) := by
  simp only [Session.runFrame, hq]
  cases q with
  | insertCookie c =>
    simp only [runThinkPart, insertCookieCallback]
    split_ifs
    · exact .of_same rfl rfl
    · exact .of_same rfl rfl
  | selectData serial sid =>
    simp only [runThinkPart, clientConnectCallback]
    split_ifs
    · exact .of_same rfl rfl
    · exact Houses.loadRows cfg _ (clearPending { s with finished := s.finished ++ [k] } _) _
  | insertData sid id b =>
    intro a live
    have hab : a ≠ b := by
      rintro rfl
      simp [runThinkPart, Server.deleteData] at live
    simp only [runThinkPart, Server.deleteData, Function.update_of_ne hab] at live
    exact Houses.of_same (l := []) (s := s) rfl rfl a live
  | selectId c name => exact .of_same rfl rfl

/-- A value stays in its slot or is handed over by every event that does not delete it. -/
theorem houses_apply (h : Wf s) {e : Event} (allowed : e.Allowed cfg s) :
    Houses (payloadsOf cfg s e) s (e.apply cfg s) := by
  cases e with
  | connect i p => exact .of_same rfl rfl
  | authorize i => exact .of_same (heap_onClientAuthorized i) (clientData_onClientAuthorized i)
  | disconnecting i => exact .onClientDisconnecting h i
  | disconnected i => exact .of_same rfl rfl
  | reconnect => exact .attemptReconnection cfg s
  | createCookie name description access =>
    exact .of_same (heap_createCookie ..) (clientData_createCookie ..)
  | setCookieValue c i v now => exact .setCookieValue s c i v now
  | getCookieValue c i => exact .getCookieValue s c i
  | setAuthIdCookie authId c v now =>
    obtain ⟨t, ht⟩ := Option.isSome_iff_exists.mp allowed.2
    simp only [Event.apply, ht, Option.getD_some]
    exact .setAuthIdCookie ht
  | think k talk outcome =>
    obtain ⟨_, q, hq, _⟩ := allowed
    exact .runFrame hq outcome

lemma live_payloadsOf (h : Wf s) {e : Event} (allowed : e.Allowed cfg s)
    (ha : a ∈ payloadsOf cfg s e) : ((e.apply cfg s).heap a).isSome = true := by
  cases e with
  | disconnecting i =>
    rw [payloadsOf_disconnecting, List.mem_filter] at ha
    obtain ⟨mine, saved⟩ := ha
    have kept : ¬ (a ∈ s.clientData i ∧ savedQuery s (authOf (s.roster i)) a = none) := by
      rintro ⟨_, hnone⟩
      rw [hnone] at saved
      cases saved
    obtain ⟨e, he, _⟩ := h.owned i a mine
    have heap := @heap_onClientDisconnecting cfg s h i a
    rw [if_neg kept, he] at heap
    exact Option.isSome_iff_exists.mpr ⟨e, heap⟩
  | setAuthIdCookie authId c v now =>
    simp only [payloadsOf, savesOf] at ha
    split_ifs at ha with offline
    · obtain rfl : a = s.nextData := List.mem_singleton.mp ha
      have next := (heap_attemptReconnection cfg s).2.1
      simp only [Event.apply, setAuthIdCookie, offline, Option.map_some, Option.getD_some, ne_eq,
        not_true_eq_false, if_false, Server.addQueryToQueue, Server.newData, next]
      simp
    · cases ha
  | _ => cases ha

/-- No live value is without an owner, and no query carries a deleted value. -/
structure Kept (s : Server) : Prop where
  housed : ∀ a, (s.heap a).isSome = true → (∃ i, a ∈ s.clientData i) ∨ ∃ k, Owns s (.query k) a
  waiting : ∀ k a, Owns s (.query k) a → (s.heap a).isSome = true
  ticket : ∀ k ∈ s.finished, k < s.sent.length

lemma Kept.start (roster : ℕ → Option Player) (spent : List ℕ) : Kept (start roster spent) where
  housed a live := by cases live
  waiting k a owns := by
    obtain ⟨⟨q, hq, _⟩, _⟩ := owns
    simp [Session.start] at hq
  ticket k hk := by cases hk

theorem finished_cases (h : Wf s) {e : Event} (allowed : e.Allowed cfg s) :
    (e.apply cfg s).finished = s.finished ∨ ∃ k talk outcome q, e = .think k talk outcome ∧
      s.sent[k]? = some q ∧ (e.apply cfg s).finished = s.finished ++ [k] := by
  by_cases own : Own e
  · exact .inl (finished_apply h own allowed)
  · cases e with
    | think k talk outcome =>
      obtain ⟨_, q, hq, _⟩ := allowed
      exact .inr ⟨k, talk, outcome, q, rfl, hq, finished_runFrame hq outcome⟩
    | _ => exact absurd trivial own

lemma payloadOf_eq_some {q : Query} (h : payloadOf q = some a) :
    ∃ sid id, q = .insertData sid id a := by
  cases q with
  | insertData sid id b =>
    obtain rfl : b = a := Option.some.inj h
    exact ⟨sid, id, rfl⟩
  | _ => cases h

lemma heap_of_dropped {k : ℕ} {q : Query} (hq : s.sent[k]? = some q) (ha : payloadOf q = some a)
    (outcome : Outcome) : (runFrame cfg s k outcome).heap a = none := by
  obtain ⟨sid, id, rfl⟩ := payloadOf_eq_some ha
  simp [Session.runFrame, hq, runThinkPart, Server.deleteData]

lemma owns_after (h : Wf s) {e : Event} (allowed : e.Allowed cfg s) {k : ℕ}
    (owns : Owns s (.query k) a) (live : ((e.apply cfg s).heap a).isSome = true) :
    Owns (e.apply cfg s) (.query k) a := by
  obtain ⟨⟨q, hq, ha⟩, hk⟩ := owns
  obtain ⟨new, hsent, _⟩ := saves_apply h allowed
  have hlt : k < s.sent.length := (List.getElem?_eq_some_iff.mp hq).1
  refine ⟨⟨q, ?_, ha⟩, ?_⟩
  · rw [hsent, List.getElem?_append_left hlt, hq]
  · rcases finished_cases h allowed with same | ⟨j, talk, outcome, r, rfl, hr, hfin⟩
    · rwa [same]
    · rw [hfin]
      intro hmem
      rcases List.mem_append.mp hmem with hmem | hmem
      · exact hk hmem
      · obtain rfl := List.mem_singleton.mp hmem
        have gone : ((Event.think k talk outcome).apply cfg s).heap a = none :=
          heap_of_dropped hq ha outcome
        rw [gone] at live
        cases live

lemma owns_before (h : Wf s) {e : Event} (allowed : e.Allowed cfg s) {k : ℕ}
    (owns : Owns (e.apply cfg s) (.query k) a) :
    Owns s (.query k) a ∨ a ∈ payloadsOf cfg s e := by
  obtain ⟨⟨q, hq, ha⟩, hk⟩ := owns
  obtain ⟨new, hsent, hnew⟩ := saves_apply h allowed
  rw [hsent] at hq
  rcases Nat.lt_or_ge k s.sent.length with hlt | hge
  · rw [List.getElem?_append_left hlt] at hq
    refine .inl ⟨⟨q, hq, ha⟩, fun hmem => hk ?_⟩
    rcases finished_cases h allowed with same | ⟨j, talk, outcome, r, rfl, hr, hfin⟩
    · rwa [same]
    · rw [hfin]
      exact List.mem_append_left _ hmem
  · rw [List.getElem?_append_right hge] at hq
    refine .inr ?_
    rw [payloadsOf, ← hnew, filterMap_isSave fun _ hq => hq]
    exact List.mem_filterMap.mpr ⟨q, List.mem_of_getElem? hq, ha⟩

lemma Kept.apply (h : Wf s) (once : OnePayload s) (kept : Kept s) {e : Event}
    (allowed : e.Allowed cfg s) : Kept (e.apply cfg s) := by
  obtain ⟨new, hsent, hnew⟩ := saves_apply h allowed
  have ticket : ∀ k ∈ (e.apply cfg s).finished, k < s.sent.length := by
    rcases finished_cases h allowed with same | ⟨j, talk, outcome, r, rfl, hr, hfin⟩
    · rw [same]
      exact kept.ticket
    · rw [hfin]
      intro k hk
      rcases List.mem_append.mp hk with hk | hk
      · exact kept.ticket k hk
      · obtain rfl := List.mem_singleton.mp hk
        exact (List.getElem?_eq_some_iff.mp hr).1
  constructor
  · intro a live
    rcases houses_apply h allowed a live with housed | fresh | ⟨before, out⟩
    · exact .inl housed
    · rw [payloadsOf, ← hnew, filterMap_isSave fun _ hq => hq] at fresh
      obtain ⟨q, hq, ha⟩ := List.mem_filterMap.mp fresh
      obtain ⟨n, hn⟩ := List.mem_iff_getElem?.mp hq
      refine .inr ⟨s.sent.length + n, ⟨q, ?_, ha⟩, fun hmem => ?_⟩
      · rw [hsent, List.getElem?_append_right (Nat.le_add_right _ _), Nat.add_sub_cancel_left, hn]
      · have := ticket _ hmem
        omega
    · rcases kept.housed a before with ⟨i, hi⟩ | ⟨k, owns⟩
      · exact absurd hi (out i)
      · exact .inr ⟨k, owns_after h allowed owns live⟩
  · intro k a owns
    rcases owns_before h allowed owns with before | fresh
    · obtain ⟨⟨q, hq, ha⟩, hk⟩ := before
      have queued : a ∈ s.sent.filterMap payloadOf :=
        List.mem_filterMap.mpr ⟨q, List.mem_of_getElem? hq, ha⟩
      obtain ⟨hlt, hnot⟩ := payload_queued h queued
      have stays : ¬ Drops s a e := by
        intro drops
        cases e with
        | think j talk outcome =>
          obtain ⟨sid, id, hj⟩ := drops
          obtain rfl : j = k := payload_unique once hj hq rfl ha
          apply owns.2
          have hfin : ((Event.think j talk outcome).apply cfg s).finished = s.finished ++ [j] :=
            finished_runFrame hj outcome
          rw [hfin]
          exact List.mem_append_right _ (List.mem_singleton_self j)
        | _ => exact drops
      rw [heap_apply h allowed hlt hnot stays]
      exact kept.waiting k a ⟨⟨q, hq, ha⟩, hk⟩
    · exact live_payloadsOf h allowed fresh
  · intro k hk
    rw [hsent, List.length_append]
    exact (ticket k hk).trans_le (Nat.le_add_right _ _)

lemma owned_of_kept (h : Wf s) (once : OnePayload s) (kept : Kept s) : Owned s := by
  have apart : ∀ i n k a, Owns s (.slot i n) a → ¬ Owns s (.query k) a := by
    rintro i n k a slot ⟨⟨q, hq, ha⟩, _⟩
    have queued : a ∈ s.sent.filterMap payloadOf :=
      List.mem_filterMap.mpr ⟨q, List.mem_of_getElem? hq, ha⟩
    exact (payload_queued h queued).2 i (List.mem_of_getElem? slot)
  refine ⟨fun a live => ?_, fun place a owns => ?_, h.linked⟩
  · rcases kept.housed a live with ⟨i, hi⟩ | ⟨k, hk⟩
    · obtain ⟨n, hn⟩ := List.mem_iff_getElem?.mp hi
      refine ⟨.slot i n, hn, fun place owns => ?_⟩
      cases place with
      | slot j m =>
        obtain rfl : j = i := h.apart j i a (List.mem_of_getElem? owns) hi
        have hm : m < (s.clientData j).length := (List.getElem?_eq_some_iff.mp owns).1
        have heq : (s.clientData j)[m]? = (s.clientData j)[n]? := Eq.trans owns hn.symm
        rw [(List.getElem?_inj hm (h.nodup j)).mp heq]
      | query k => exact absurd owns (apart i n k a hn)
    · refine ⟨.query k, hk, fun place owns => ?_⟩
      cases place with
      | slot j m => exact absurd hk (apart j m k a owns)
      | query j =>
        obtain ⟨⟨q, hq, ha⟩, _⟩ := hk
        obtain ⟨⟨r, hr, hb⟩, _⟩ := owns
        rw [payload_unique once hr hq hb ha]
  · cases place with
    | slot i n =>
      obtain ⟨e, he, _⟩ := h.owned i a (List.mem_of_getElem? owns)
      rw [he]
      rfl
    | query k => exact kept.waiting k a owns

lemma saveLoop_eq {i : ℕ} {l : List DataRef} (nodup : l.Nodup) : saveLoop cfg s i l =
    releaseAll i (authOf (s.roster i)) (afterReconnect cfg s i) l := foldl_releaseData nodup

lemma heap_saveLoop {i : ℕ} {l : List DataRef} (nodup : l.Nodup) (ha : a ∉ l) :
    (saveLoop cfg s i l).heap a = s.heap a := by
  rw [saveLoop_eq nodup]
  exact releaseAll_heap_of_notMem ha

lemma turn_releaseData {m : Server} {i : ℕ} {auth : Option Bytes} {e : CookieData}
    (he : m.heap a = some e) : Turn m (releaseData i auth m a) a := by
  rw [releaseData_eq, he]
  dsimp only
  cases hsaved : savedQuery m auth a with
  | none =>
    refine .deleted ?_ rfl
    simp [Server.deleteData]
  | some q =>
    obtain ⟨e', auth', _, _, _, _, rfl⟩ := savedQuery_eq_some hsaved
    exact .handed _ _ rfl rfl

lemma newPayloads_onClientDisconnecting (h : Wf s) (i : ℕ) :
    newPayloads s (onClientDisconnecting cfg s i) = payloadsOf cfg s (.disconnecting i) := by
  obtain ⟨new, hsent, hnew⟩ := @Saves.onClientDisconnecting cfg s h i
  rw [newPayloads, payloadsOf, hsent, List.drop_left, ← hnew, filterMap_isSave fun _ hq => hq]

lemma letsGo (h : Wf s) (i : ℕ) : LetsGo cfg s i := by
  have released := @Released.onClientDisconnecting cfg s h i
  refine ⟨?_, fun before a after split => ?_, fun a ha => ?_, released.gone, released.data,
    fun j hj => ?_⟩
  · rw [onClientDisconnecting_eq h, saveLoop_eq (h.nodup i)]
  · have nodup : (before ++ a :: after).Nodup := split ▸ h.nodup i
    have hbefore : a ∉ before := fun hmem =>
      (List.nodup_append.mp nodup).2.2 a hmem a (List.mem_cons_self ..) rfl
    have hmem : a ∈ s.clientData i := by simp [split]
    obtain ⟨e, he, _⟩ := h.owned i a hmem
    have heap : (saveLoop cfg s i before).heap a = some e := by
      rw [heap_saveLoop (List.nodup_append.mp nodup).1 hbefore, he]
    have last : saveLoop cfg s i (before ++ [a]) =
        releaseData i (authOf (s.roster i)) (saveLoop cfg s i before) a := by
      rw [saveLoop, List.foldl_append]
      rfl
    refine ⟨by simp [heap], ?_⟩
    rw [last]
    exact turn_releaseData heap
  · dsimp only
    rw [newPayloads_onClientDisconnecting h, heap_onClientDisconnecting h,
      payloadsOf_disconnecting]
    cases hsaved : savedQuery s (authOf (s.roster i)) a with
    | none =>
      refine .inl ⟨if_pos ⟨ha, rfl⟩, ?_⟩
      simp [hsaved]
    | some q =>
      obtain ⟨e, he, _⟩ := h.owned i a ha
      refine .inr ⟨by simp [he], ?_⟩
      apply List.count_eq_one_of_mem ((h.nodup i).filter _)
      simp [ha, hsaved]
  · rw [released.clientData, Function.update_of_ne hj]

/-- In every state of a session each value has one owner, and a disconnect deletes or hands over
each value of its slot once and touches nothing else. -/
theorem values_owned {roster : ℕ → Option Player} {spent : List ℕ} {trace : List (Server × Event)}
    (run : Run (Session.Step cfg) (start roster spent) trace s) :
    Owned s ∧ ∀ i, LetsGo cfg s i := by
  have preserved : ∀ (a : Server) (e : Event) (b : Server), (Wf a ∧ OnePayload a ∧ Kept a) →
      Session.Step cfg a e b → (Wf b ∧ OnePayload b ∧ Kept b) := by
    rintro a e b ⟨wf, once, kept⟩ ⟨allowed, rfl⟩
    exact ⟨Wf.apply wf allowed, once.apply wf allowed, kept.apply wf once allowed⟩
  have first : Wf (start roster spent) ∧ OnePayload (start roster spent) ∧
      Kept (start roster spent) := ⟨Wf.start roster spent, List.nodup_nil, .start roster spent⟩
  obtain ⟨wf, once, kept⟩ := run.stable first preserved
  exact ⟨owned_of_kept wf once kept, fun i => letsGo wf i⟩

def visit : List Event :=
  [.connect 1 newcomer7, .authorize 1, .setCookieValue 0 1 (bytes "on") 0, .getCookieValue 0 1,
    .disconnecting 1]

lemma visit_playable : Playable oneSlot (play oneSlot vacant registration) visit := by
  refine ⟨⟨client_one, by decide, rfl, by decide⟩, ⟨newcomer7, by decide, by decide, rfl, rfl⟩,
    ⟨by decide, client_one⟩, ⟨by decide, client_one⟩, ⟨client_one, by decide, by decide⟩, trivial⟩

theorem values_owned_visit : Owned (play oneSlot vacant (registration ++ visit)) ∧
    ∀ i, LetsGo oneSlot (play oneSlot vacant (registration ++ visit)) i :=
  values_owned (play_run (registration_playable.append visit_playable))

end ClientPrefs.Ownership
