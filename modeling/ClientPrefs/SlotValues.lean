import ClientPrefs.Loads

/-!
# What each event does to the values

Every event leaves the values of all slots alone, sets one, creates an empty one,
releases those of one slot, or loads rows into one slot.
-/
namespace ClientPrefs.SlotValues
open ByteStrings Cookies CookieManager LateLoad Loads QueryThread Session SlotRelease SlotTables

/-- The value of a cookie for a slot, as `pCookie->data[client]` leads to it. -/
def entryAt (s : Server) (c : CookieRef) (i : ℕ) : Option CookieData :=
  ((s.cookies c).data i).bind s.heap

def Sets (cfg : Config) (s : Server) (c : CookieRef) (i : ℕ) (v : Bytes) : Event → Prop
  | .setCookieValue c' i' v' _ => c' = c ∧ i' = i ∧ v' = v
  | .setAuthIdCookie authId c' v' _ => c' = c ∧ v' = v ∧ i ≠ 0 ∧
      isAuthIdConnected cfg (attemptReconnection cfg s) authId = some i
  | _ => False

/-- The result of a `SelectData` query reaches slot `i` with these rows. -/
def Delivers (cfg : Config) (s : Server) (i : ℕ) (rows : List (Cookie × Bytes)) : Event → Prop
  | .think t _ outcome => outcome.results = rows ∧ i ≠ 0 ∧
      ∃ k sid, s.sent[t]? = some (.selectData k sid) ∧ getClientFromSerial cfg s k = i
  | _ => False

/-- The state in which the load loop starts. -/
def loadStart (s : Server) (t i : ℕ) : Server :=
  clearPending { s with finished := s.finished ++ [t] } i

structure SameTables (s t : Server) : Prop where
  clientData : t.clientData = s.clientData
  data : ∀ c i, (t.cookies c).data i = (s.cookies c).data i
  heap : ∀ i, ∀ a ∈ s.clientData i, t.heap a = s.heap a

structure Released (i : ℕ) (s t : Server) : Prop where
  clientData : t.clientData = Function.update s.clientData i []
  gone : ∀ c, (t.cookies c).data i = none
  data : ∀ c j, j ≠ i → (t.cookies c).data j = (s.cookies c).data j
  heap : ∀ j, j ≠ i → ∀ a ∈ s.clientData j, t.heap a = s.heap a

inductive Effect (cfg : Config) (s : Server) (e : Event) : Server → Prop
  | same (t : Server) (tables : SameTables s t) : Effect cfg s e t
  | set (m : Server) (c : CookieRef) (i : ℕ) (v : Bytes) (now : ℕ) (tables : SameTables s m)
      (wf : Wf m) (sets : Sets cfg s c i v e) : Effect cfg s e (setCookieValue m c i v now)
  | get (c : CookieRef) (i : ℕ) : Effect cfg s e (getCookieValue s c i).1
  | release (i : ℕ) (t : Server) (leaves : e = .disconnecting i) (tables : Released i s t) :
      Effect cfg s e t
  | load (q i : ℕ) (rows : List (Cookie × Bytes)) (t : Server) (delivers : Delivers cfg s i rows e)
      (tables : SameTables (rows.foldl (loadRow cfg i) (loadStart s q i)) t) : Effect cfg s e t

variable {cfg : Config} {s t : Server}

lemma SameTables.refl (s : Server) : SameTables s s := ⟨rfl, fun _ _ => rfl, fun _ _ _ => rfl⟩

lemma SameTables.trans {u : Server} (first : SameTables s t) (second : SameTables t u) :
    SameTables s u where
  clientData := second.clientData.trans first.clientData
  data c i := (second.data c i).trans (first.data c i)
  heap i a ha := (second.heap i a (first.clientData.symm ▸ ha)).trans (first.heap i a ha)

lemma SameTables.of_eq (hclient : t.clientData = s.clientData) (hcookies : t.cookies = s.cookies)
    (hheap : t.heap = s.heap) : SameTables s t :=
  ⟨hclient, fun _ _ => by rw [hcookies], fun _ _ _ => by rw [hheap]⟩

lemma SameTables.modifyCookie (c : CookieRef) {f : Cookie → Cookie}
    (hf : ∀ k, (f k).data = k.data) : SameTables s (s.modifyCookie c f) := by
  refine ⟨rfl, fun d i => ?_, fun _ _ _ => rfl⟩
  by_cases hd : d = c
  · simp [Server.modifyCookie, hd, hf]
  · simp [Server.modifyCookie, hd]

lemma SameTables.attemptReconnection (s : Server) :
    SameTables s (attemptReconnection cfg s) := by
  rw [attemptReconnection_eq]
  exact .of_eq rfl rfl rfl

lemma SameTables.onClientAuthorized (s : Server) (i : ℕ) :
    SameTables s (onClientAuthorized cfg s i) := by
  rw [onClientAuthorized_eq]
  split
  · exact .refl s
  · split_ifs
    · exact .refl s
    · exact .of_eq rfl rfl rfl

lemma SameTables.createCookie (h : Wf s) (name description : Bytes) (access : CookieAccess) :
    SameTables s (createCookie cfg s name description access).1 := by
  unfold CookieManager.createCookie
  split
  · dsimp only
    exact .modifyCookie _ fun _ => rfl
  · refine ⟨rfl, fun d i => ?_, fun _ _ _ => rfl⟩
    by_cases hd : d = s.cookieCount
    · simp [Server.addQueryToQueue, hd, Cookie.new, h.unborn s.cookieCount le_rfl i]
    · simp [Server.addQueryToQueue, hd]

lemma SameTables.payload (h : Wf s) (e : CookieData) (q : Query) :
    SameTables s ((s.newData e).addQueryToQueue q) := by
  refine ⟨rfl, fun _ _ => rfl, fun i a ha => ?_⟩
  apply Function.update_of_ne
  rintro rfl
  exact h.fresh i ha

lemma SameTables.deletePayload {a : DataRef} (ha : ∀ i, a ∉ s.clientData i) :
    SameTables s (s.deleteData a) := by
  refine ⟨rfl, fun _ _ => rfl, fun i b hb => ?_⟩
  apply Function.update_of_ne
  rintro rfl
  exact ha i hb

lemma Released.onClientDisconnecting (h : Wf s) (i : ℕ) :
    Released i s (onClientDisconnecting cfg s i) := by
  have hwf : Wf (CookieManager.onClientDisconnecting cfg s i) :=
    SlotRelease.Wf.onClientDisconnecting h i
  have hclient : (CookieManager.onClientDisconnecting cfg s i).clientData =
      Function.update s.clientData i [] := by rw [onClientDisconnecting_eq h]
  refine ⟨hclient, fun c => ?_, fun c j hj => ?_, fun j hj a ha => ?_⟩
  · cases hd : ((CookieManager.onClientDisconnecting cfg s i).cookies c).data i with
    | none => rfl
    | some a =>
      have hmem := (hwf.linked c i a hd).1
      simp [hclient] at hmem
  · rw [onClientDisconnecting_eq h]
    dsimp only
    rw [releaseAll_data_of_ne c hj]
    rfl
  · have hnot : a ∉ s.clientData i := fun hi => hj (h.apart j i a ha hi)
    rw [onClientDisconnecting_eq h]
    dsimp only
    rw [releaseAll_heap_of_notMem hnot]
    rfl

/-- Every event has one of the effects. -/
theorem effect_of_apply (h : Wf s) {e : Event} (allowed : e.Allowed cfg s) :
    Effect cfg s e (e.apply cfg s) := by
  cases e with
  | connect i p => exact .same _ (.of_eq rfl rfl rfl)
  | authorize i =>
    refine .same _ (.trans ?_ (.onClientAuthorized _ i))
    exact .of_eq rfl rfl rfl
  | disconnecting i =>
    have hreleased : Released i s (onClientDisconnecting cfg s i) :=
      Released.onClientDisconnecting h i
    exact .release i _ rfl ⟨hreleased.clientData, hreleased.gone, hreleased.data, hreleased.heap⟩
  | disconnected i => exact .same _ (.of_eq rfl rfl rfl)
  | reconnect => exact .same _ (.attemptReconnection s)
  | createCookie name description access => exact .same _ (.createCookie h _ _ _)
  | setCookieValue c i v now => exact .set s c i v now (.refl s) h ⟨rfl, rfl, rfl⟩
  | getCookieValue c i => exact .get c i
  | setAuthIdCookie authId c v now =>
    obtain ⟨t, ht⟩ := Option.isSome_iff_exists.mp allowed.2
    simp only [Event.apply, ht, Option.getD_some]
    obtain ⟨i, hi, rfl⟩ := Option.map_eq_some_iff.mp ht
    have hr : Wf (attemptReconnection cfg s) := h.attemptReconnection
    split_ifs with hpos
    · exact .set _ c i v now (.attemptReconnection s) hr ⟨rfl, rfl, hpos, hi⟩
    · exact .same _ (.trans (.attemptReconnection s) (.payload hr _ _))
  | think q talk outcome =>
    obtain ⟨_, query, hq, _⟩ := allowed
    let s' : Server := { s with finished := s.finished ++ [q] }
    have hs' : SameTables s s' := .of_eq rfl rfl rfl
    have hrun : (Event.think q talk outcome).apply cfg s = runThinkPart cfg s' query outcome := by
      simp only [Event.apply, runFrame, hq]
      rfl
    rw [hrun]
    cases query with
    | insertCookie c =>
      simp only [runThinkPart, insertCookieCallback]
      split_ifs
      · exact .same _ (hs'.trans (.modifyCookie c fun _ => rfl))
      · exact .same _ (.of_eq rfl rfl rfl)
    | selectData k sid =>
      simp only [runThinkPart, clientConnectCallback]
      split_ifs with hzero
      · exact .same _ hs'
      · exact .load q _ outcome.results _ ⟨rfl, hzero, k, sid, hq, rfl⟩ (.of_eq rfl rfl rfl)
    | insertData sid id a =>
      exact .same _ (hs'.trans (.deletePayload (h.queued sid id a (List.mem_of_getElem? hq)).2))
    | selectId c name =>
      simp only [runThinkPart, selectIdCallback]
      exact .same _ (hs'.trans (.modifyCookie c fun _ => rfl))

lemma apply_of_delivers {e : Event} {i : ℕ} {rows : List (Cookie × Bytes)}
    (h : Delivers cfg s i rows e) :
    ∃ q, SameTables (rows.foldl (loadRow cfg i) (loadStart s q i)) (e.apply cfg s) := by
  cases e with
  | think q talk outcome =>
    obtain ⟨rfl, hpos, k, sid, hq, rfl⟩ := h
    refine ⟨q, ?_⟩
    have hclient : getClientFromSerial cfg { s with finished := s.finished ++ [q] } k =
        getClientFromSerial cfg s k := rfl
    simp only [Event.apply, runFrame, hq, runThinkPart, clientConnectCallback, hclient, hpos,
      if_false]
    exact .of_eq rfl rfl rfl
  | _ => exact h.elim

section Entry
variable {c : CookieRef} {i : ℕ}

lemma entryAt_eq_some (h : Wf s) {e : CookieData} (he : entryAt s c i = some e) :
    ∃ a, (s.cookies c).data i = some a ∧ s.heap a = some e ∧ a ∈ s.clientData i ∧ e.parent = c := by
  obtain ⟨a, ha, he⟩ := Option.bind_eq_some_iff.mp he
  obtain ⟨hmem, e', he', hp⟩ := h.linked c i a ha
  obtain rfl : e = e' := by simpa [he] using he'
  exact ⟨a, ha, he, hmem, hp⟩

lemma getCookieValue_snd (s : Server) (c : CookieRef) (i : ℕ) :
    (getCookieValue s c i).2 = ((entryAt s c i).map CookieData.value).getD [] := by
  unfold getCookieValue entryAt
  split
  · next h => simp [h]
  · next a h => simp [h]

lemma SameTables.entryAt (h : Wf s) (same : SameTables s t) (c : CookieRef) (i : ℕ) :
    entryAt t c i = entryAt s c i := by
  unfold SlotValues.entryAt
  rw [same.data]
  cases hd : (s.cookies c).data i with
  | none => rfl
  | some a => exact same.heap i a (h.linked c i a hd).1

lemma entryAt_linkData (h : Wf s) (c' : CookieRef) (i' : ℕ) (e : CookieData) :
    entryAt (linkData s c' i' e) c i = if c = c' ∧ i = i' then some e else entryAt s c i := by
  unfold entryAt
  rw [linkData_data]
  split_ifs
  · simp
  · cases hd : (s.cookies c).data i with
    | none => rfl
    | some a =>
      have hne : a ≠ s.nextData := by
        rintro rfl
        exact h.fresh i (h.linked c i _ hd).1
      simp [hne]

/-- Two cookies or two slots never share a `CookieData`. -/
theorem data_unique (h : Wf s) {c' : CookieRef} {i' : ℕ} {a : DataRef}
    (ha : (s.cookies c).data i = some a) (ha' : (s.cookies c').data i' = some a) :
    c = c' ∧ i = i' := by
  obtain ⟨hmem, e, he, hp⟩ := h.linked c i a ha
  obtain ⟨hmem', e', he', hp'⟩ := h.linked c' i' a ha'
  obtain rfl : e = e' := by simpa [he] using he'
  exact ⟨hp.symm.trans hp', h.apart i i' a hmem hmem'⟩

lemma entryAt_setCookieValue (h : Wf s) (c' : CookieRef) (i' : ℕ) (v : Bytes) (now : ℕ) :
    entryAt (setCookieValue s c' i' v now) c i =
      if c = c' ∧ i = i' then some ⟨storedValue v, true, now, c⟩ else entryAt s c i := by
  unfold setCookieValue
  split
  · rw [entryAt_linkData h]
    split_ifs with hc
    · rw [hc.1]
    · rfl
  · next a ha =>
    have hdata : ((s.modifyData a fun e =>
        { e with value := storedValue v, changed := true, timestamp := now }).cookies c).data i =
        (s.cookies c).data i := rfl
    unfold entryAt
    rw [hdata]
    split_ifs with hc
    · obtain ⟨rfl, rfl⟩ := hc
      obtain ⟨_, e, he, hp⟩ := h.linked c i a ha
      simp [ha, Server.modifyData, he, hp]
    · cases hd : (s.cookies c).data i with
      | none => rfl
      | some b =>
        have hne : b ≠ a := by
          rintro rfl
          exact hc (data_unique h hd ha)
        simp [Server.modifyData, hne]

lemma entryAt_getCookieValue (h : Wf s) (c' : CookieRef) (i' : ℕ) :
    entryAt (getCookieValue s c' i').1 c i =
      if c = c' ∧ i = i' ∧ (s.cookies c).data i = none then some ⟨storedValue [], false, 0, c⟩
      else entryAt s c i := by
  unfold getCookieValue
  split
  · next hnone =>
    rw [entryAt_linkData h]
    by_cases hc : c = c' ∧ i = i'
    · obtain ⟨rfl, rfl⟩ := hc
      simp [hnone]
    · rw [if_neg hc, if_neg fun hcn => hc ⟨hcn.1, hcn.2.1⟩]
  · next a ha =>
    rw [if_neg]
    rintro ⟨rfl, rfl, hnone⟩
    rw [ha] at hnone
    cases hnone

lemma entryAt_getCookieValue_of_some (h : Wf s) (c' : CookieRef) (i' : ℕ) {e : CookieData}
    (he : entryAt s c i = some e) : entryAt (getCookieValue s c' i').1 c i = entryAt s c i := by
  rw [entryAt_getCookieValue h, if_neg]
  rintro ⟨_, _, hnone⟩
  simp [entryAt, hnone] at he

lemma Released.entryAt_of_ne (h : Wf s) {j : ℕ} (released : Released j s t) (hij : i ≠ j) :
    entryAt t c i = entryAt s c i := by
  unfold entryAt
  rw [released.data c i hij]
  cases hd : (s.cookies c).data i with
  | none => rfl
  | some a => exact released.heap i hij a (h.linked c i a hd).1

lemma SameTables.findOrCreate (h : Wf s) (k : Cookie) :
    SameTables s (findOrCreate cfg s k).1 := by
  unfold CookieManager.findOrCreate
  split
  · exact .refl s
  · exact .createCookie h _ _ _

lemma entryAt_loadRow (h : Wf s) {j : ℕ} {row : Cookie × Bytes} (hc : c < s.cookieCount) :
    entryAt (loadRow cfg j s row) c i =
      if findCookie cfg s row.1.name = some c ∧ i = j then some ⟨storedValue row.2, false, 0, c⟩
      else entryAt s c i := by
  have hlink : entryAt (loadRow cfg j s row) c i =
      if c = (findOrCreate cfg s row.1).2 ∧ i = j then
        some ⟨storedValue row.2, false, 0, (findOrCreate cfg s row.1).2⟩
      else entryAt (findOrCreate cfg s row.1).1 c i := entryAt_linkData (h.findOrCreate row.1) ..
  have hsame : SameTables s (findOrCreate cfg s row.1).1 := .findOrCreate h row.1
  have htarget : (findOrCreate cfg s row.1).2 = c ↔ findCookie cfg s row.1.name = some c :=
    findOrCreate_snd_iff hc row.1
  rw [hlink, hsame.entryAt h]
  by_cases hd : c = (findOrCreate cfg s row.1).2
  · simp [← hd, htarget.mp hd.symm]
  · rw [if_neg fun hall => hd hall.1, if_neg fun hall => hd (htarget.mpr hall.1).symm]

/-- The last of the rows that goes to the cookie. -/
def lastRow (cfg : Config) (s : Server) (c : CookieRef) (rows : List (Cookie × Bytes)) :
    Option Bytes :=
  ((rows.filter fun row => findCookie cfg s row.1.name = some c).getLast?).map Prod.snd

lemma lastRow_cons (row : Cookie × Bytes) (rows : List (Cookie × Bytes)) :
    lastRow cfg s c (row :: rows) = (lastRow cfg s c rows).or
      (if findCookie cfg s row.1.name = some c then some row.2 else none) := by
  unfold lastRow
  by_cases hrow : findCookie cfg s row.1.name = some c
  · rw [List.filter_cons_of_pos (by simpa using hrow), List.getLast?_cons, if_pos hrow]
    cases (rows.filter fun row => findCookie cfg s row.1.name = some c).getLast? <;> rfl
  · rw [List.filter_cons_of_neg (by simpa using hrow), if_neg hrow, Option.or_none]

lemma lastRow_loadRow (h : Wf s) {j : ℕ} {row : Cookie × Bytes} (hc : c < s.cookieCount)
    (rows : List (Cookie × Bytes)) :
    lastRow cfg (loadRow cfg j s row) c rows = lastRow cfg s c rows := by
  simp only [lastRow, findCookie_loadRow_iff h hc]

lemma entryAt_loadRows (h : Wf s) {j : ℕ} {rows : List (Cookie × Bytes)}
    (hc : c < s.cookieCount) :
    entryAt (rows.foldl (loadRow cfg j) s) c i =
      if i = j then ((lastRow cfg s c rows).map fun v => ⟨storedValue v, false, 0, c⟩).or
        (entryAt s c i)
      else entryAt s c i := by
  induction rows generalizing s with
  | nil => simp [lastRow]
  | cons row rows ih =>
    have hcount : c < (loadRow cfg j s row).cookieCount :=
      hc.trans_le (findOrCreate_cookieCount row.1)
    rw [List.foldl_cons, ih (h.loadRow j row) hcount, lastRow_loadRow h hc, lastRow_cons,
      entryAt_loadRow h hc]
    by_cases hi : i = j
    · by_cases hrow : findCookie cfg s row.1.name = some c
      · cases lastRow cfg s c rows <;> simp [hi, hrow]
      · cases lastRow cfg s c rows <;> simp [hi, hrow]
    · simp [hi]

lemma entryAt_delivers (h : Wf s) (hc : c < s.cookieCount) {e : Event} {j : ℕ}
    {rows : List (Cookie × Bytes)} (delivers : Delivers cfg s j rows e) (i : ℕ) :
    entryAt (e.apply cfg s) c i =
      if i = j then ((lastRow cfg s c rows).map fun v => ⟨storedValue v, false, 0, c⟩).or
        (entryAt s c i)
      else entryAt s c i := by
  obtain ⟨q, tables⟩ := apply_of_delivers delivers
  have hstart : Wf (loadStart s q j) := h.congr rfl rfl rfl rfl rfl rfl fun _ _ _ ha => ha
  have hcount : c < (loadStart s q j).cookieCount := hc
  rw [tables.entryAt (hstart.loadRows j rows), entryAt_loadRows hstart hcount]
  rfl

end Entry

end ClientPrefs.SlotValues
