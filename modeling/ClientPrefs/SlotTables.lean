import ClientPrefs.LateLoad

/-!
# The two tables of values

`clientData[i]` lists the `CookieData` of a slot and `pCookie->data[i]` points into
it. `Wf` is the invariant that ties them together; every operation keeps it.
-/
namespace ClientPrefs.SlotTables
open ByteStrings Cookies CookieManager LateLoad

structure Wf (s : Server) : Prop where
  linked : ∀ c i a, (s.cookies c).data i = some a →
    a ∈ s.clientData i ∧ ∃ e, s.heap a = some e ∧ e.parent = c
  owned : ∀ i, ∀ a ∈ s.clientData i, ∃ e, s.heap a = some e ∧ e.parent < s.cookieCount
  nodup : ∀ i, (s.clientData i).Nodup
  apart : ∀ i j a, a ∈ s.clientData i → a ∈ s.clientData j → i = j
  born : ∀ a, s.nextData ≤ a → s.heap a = none
  queued : ∀ sid id a, .insertData sid id a ∈ s.sent →
    a < s.nextData ∧ ∀ i, a ∉ s.clientData i
  unborn : ∀ c, s.cookieCount ≤ c → ∀ i, (s.cookies c).data i = none
  filed : ∀ e ∈ s.cookieFinder, e.2 < s.cookieCount

variable {cfg : Config} {s : Server}

lemma Wf.fresh (h : Wf s) (i : ℕ) : s.nextData ∉ s.clientData i := by
  intro hmem
  obtain ⟨e, he, _⟩ := h.owned i _ hmem
  rw [h.born _ le_rfl] at he
  cases he

lemma Wf.congr {t : Server} (h : Wf s) (hcookies : t.cookies = s.cookies)
    (hcount : t.cookieCount = s.cookieCount) (hfinder : t.cookieFinder = s.cookieFinder)
    (hclient : t.clientData = s.clientData) (hheap : t.heap = s.heap)
    (hnext : t.nextData = s.nextData)
    (hsent : ∀ sid id a, .insertData sid id a ∈ t.sent → .insertData sid id a ∈ s.sent) :
    Wf t := by
  constructor <;> simp only [hcookies, hcount, hfinder, hclient, hheap, hnext]
  · exact h.linked
  · exact h.owned
  · exact h.nodup
  · exact h.apart
  · exact h.born
  · exact fun sid id a ha => h.queued sid id a (hsent sid id a ha)
  · exact h.unborn
  · exact h.filed

lemma Wf.addQuery (h : Wf s) {q : Query} (hq : ∀ sid id a, q ≠ .insertData sid id a) :
    Wf (s.addQueryToQueue q) := by
  refine h.congr rfl rfl rfl rfl rfl rfl fun sid id a ha => ?_
  rcases List.mem_append.mp ha with ha | ha
  · exact ha
  · exact absurd (List.mem_singleton.mp ha).symm (hq sid id a)

lemma Wf.authorizeAll (h : Wf s) (l : List ℕ) : Wf (authorizeAll s l) := by
  refine h.congr rfl rfl rfl rfl rfl rfl fun sid id a ha => ?_
  rcases List.mem_append.mp ha with ha | ha
  · exact ha
  · obtain ⟨i, _, hi⟩ := List.mem_filterMap.mp ha
    simp [selectQuery] at hi

lemma Wf.attemptReconnection (h : Wf s) : Wf (attemptReconnection cfg s) := by
  rw [attemptReconnection_eq]
  exact h.authorizeAll _

lemma Wf.onClientAuthorized (h : Wf s) (client : ℕ) : Wf (onClientAuthorized cfg s client) := by
  rw [onClientAuthorized_eq]
  have hflag : Wf (flag s client) := h.congr rfl rfl rfl rfl rfl rfl fun _ _ _ ha => ha
  split
  · exact h
  · split_ifs
    · exact h
    · exact (hflag.authorizeAll _).addQuery (by simp)

lemma Wf.modifyCookie (h : Wf s) (c : CookieRef) {f : Cookie → Cookie}
    (hf : ∀ k, (f k).data = k.data) : Wf (s.modifyCookie c f) := by
  have hdata : ∀ d, ((s.modifyCookie c f).cookies d).data = (s.cookies d).data := by
    intro d
    by_cases hd : d = c
    · simp [Server.modifyCookie, hd, hf]
    · simp [Server.modifyCookie, hd]
  constructor
  case linked =>
    intro d i a ha
    rw [hdata] at ha
    exact h.linked d i a ha
  case owned =>
    exact h.owned
  case nodup =>
    exact h.nodup
  case apart =>
    exact h.apart
  case born =>
    exact h.born
  case queued =>
    exact h.queued
  case unborn =>
    intro d hd i
    rw [hdata]
    exact h.unborn d hd i
  case filed =>
    exact h.filed

lemma Wf.modifyData (h : Wf s) (a : DataRef) {f : CookieData → CookieData}
    (hf : ∀ e, (f e).parent = e.parent) : Wf (s.modifyData a f) := by
  have hheap : ∀ {b e}, s.heap b = some e →
      ∃ e', (s.modifyData a f).heap b = some e' ∧ e'.parent = e.parent := by
    intro b e he
    by_cases hb : b = a
    · subst hb
      exact ⟨f e, by simp [Server.modifyData, he], hf e⟩
    · exact ⟨e, by simp [Server.modifyData, hb, he], rfl⟩
  constructor
  case linked =>
    intro c i b hb
    obtain ⟨hmem, e, he, hp⟩ := h.linked c i b hb
    obtain ⟨e', he', hp'⟩ := hheap he
    exact ⟨hmem, e', he', hp'.trans hp⟩
  case owned =>
    intro i b hb
    obtain ⟨e, he, hp⟩ := h.owned i b hb
    obtain ⟨e', he', hp'⟩ := hheap he
    exact ⟨e', he', hp'.symm ▸ hp⟩
  case nodup =>
    exact h.nodup
  case apart =>
    exact h.apart
  case born =>
    intro b hb
    have hnone : s.heap b = none := h.born b hb
    by_cases hba : b = a
    · subst hba
      simp [Server.modifyData, hnone]
    · simp [Server.modifyData, hba, hnone]
  case queued =>
    exact h.queued
  case unborn =>
    exact h.unborn
  case filed =>
    exact h.filed

section Link
variable (s) (c : CookieRef) (client : ℕ) (e : CookieData)

@[simp] lemma linkData_clientData_same :
    (linkData s c client e).clientData client = s.clientData client ++ [s.nextData] := by
  simp [linkData, Server.setData, Server.modifyCookie, Server.appendData, Server.newData]

lemma linkData_clientData_of_ne {i : ℕ} (h : i ≠ client) :
    (linkData s c client e).clientData i = s.clientData i := by
  simp [linkData, Server.setData, Server.modifyCookie, Server.appendData, Server.newData, h]

@[simp] lemma linkData_heap :
    (linkData s c client e).heap = Function.update s.heap s.nextData (some e) := rfl

@[simp] lemma linkData_nextData : (linkData s c client e).nextData = s.nextData + 1 := rfl
@[simp] lemma linkData_sent : (linkData s c client e).sent = s.sent := rfl
@[simp] lemma linkData_cookieCount :
    (linkData s c client e).cookieCount = s.cookieCount := rfl

lemma linkData_data (d : CookieRef) (i : ℕ) :
    ((linkData s c client e).cookies d).data i =
      if d = c ∧ i = client then some s.nextData else (s.cookies d).data i := by
  by_cases hd : d = c
  · subst hd
    by_cases hi : i = client <;>
      simp [linkData, Server.setData, Server.modifyCookie, Server.appendData, Server.newData, hi]
  · simp [linkData, Server.setData, Server.modifyCookie, Server.appendData, Server.newData, hd]

end Link

lemma mem_linkData {c : CookieRef} {client i : ℕ} {e : CookieData} {a : DataRef} :
    a ∈ (linkData s c client e).clientData i ↔
      a ∈ s.clientData i ∨ (i = client ∧ a = s.nextData) := by
  by_cases hi : i = client
  · subst hi
    simp
  · simp [linkData_clientData_of_ne _ _ _ _ hi, hi]

lemma Wf.linkData (h : Wf s) {c : CookieRef} (client : ℕ) {e : CookieData}
    (hc : c < s.cookieCount) (he : e.parent = c) : Wf (linkData s c client e) := by
  have hold : ∀ {i a}, a ∈ s.clientData i → a ≠ s.nextData := by
    rintro i a ha rfl
    exact h.fresh i ha
  constructor
  case linked =>
    intro d i a ha
    rw [linkData_data] at ha
    split_ifs at ha with hd
    · obtain rfl : s.nextData = a := by simpa using ha
      exact ⟨mem_linkData.mpr (.inr ⟨hd.2, rfl⟩), e, by simp, he.trans hd.1.symm⟩
    · obtain ⟨hmem, e', he', hp⟩ := h.linked d i a ha
      exact ⟨mem_linkData.mpr (.inl hmem), e', by simp [hold hmem, he'], hp⟩
  case owned =>
    intro i a ha
    rcases mem_linkData.mp ha with ha | ⟨_, rfl⟩
    · obtain ⟨e', he', hp⟩ := h.owned i a ha
      exact ⟨e', by simp [hold ha, he'], hp⟩
    · exact ⟨e, by simp, he.symm ▸ hc⟩
  case nodup =>
    intro i
    by_cases hi : i = client
    · subst hi
      rw [linkData_clientData_same, List.nodup_append]
      refine ⟨h.nodup i, List.nodup_singleton _, ?_⟩
      intro a ha b hb
      rw [List.mem_singleton.mp hb]
      exact hold ha
    · rw [linkData_clientData_of_ne _ _ _ _ hi]
      exact h.nodup i
  case apart =>
    intro i j a hi hj
    rcases mem_linkData.mp hi with hi' | ⟨hic, hia⟩
    · rcases mem_linkData.mp hj with hj' | ⟨_, hja⟩
      · exact h.apart i j a hi' hj'
      · exact absurd hja (hold hi')
    · rcases mem_linkData.mp hj with hj' | ⟨hjc, _⟩
      · exact absurd hia (hold hj')
      · exact hic.trans hjc.symm
  case born =>
    intro a ha
    have hne : a ≠ s.nextData := by
      rintro rfl
      simp at ha
    rw [linkData_heap, Function.update_of_ne hne]
    apply h.born
    rw [linkData_nextData] at ha
    omega
  case queued =>
    intro sid id a ha
    obtain ⟨hlt, hnot⟩ := h.queued sid id a ha
    refine ⟨by rw [linkData_nextData]; omega, fun i hi => ?_⟩
    rcases mem_linkData.mp hi with hi | ⟨_, rfl⟩
    · exact hnot i hi
    · omega
  case unborn =>
    intro d hd i
    rw [linkData_cookieCount] at hd
    have hdc : d ≠ c := (Nat.lt_of_lt_of_le hc hd).ne'
    rw [linkData_data, if_neg fun hd' => hdc hd'.1]
    exact h.unborn d hd i
  case filed =>
    exact h.filed

lemma findCookie_lt (h : Wf s) {name : Bytes} {c : CookieRef}
    (hc : findCookie cfg s name = some c) : c < s.cookieCount := by
  simp only [findCookie, Option.map_eq_some_iff] at hc
  obtain ⟨e, he, rfl⟩ := hc
  exact h.filed e (List.mem_of_find?_eq_some he)

lemma Wf.createCookie (h : Wf s) (name description : Bytes) (access : CookieAccess) :
    Wf (createCookie cfg s name description access).1 := by
  unfold CookieManager.createCookie
  split
  · dsimp only
    exact h.modifyCookie _ fun _ => rfl
  · apply Wf.addQuery
    · have hne : ∀ {d}, d ≠ s.cookieCount →
          Function.update s.cookies s.cookieCount (Cookie.new name description access) d =
            s.cookies d := fun hd => Function.update_of_ne hd ..
      constructor
      case linked =>
        intro d i a ha
        dsimp only at ha
        by_cases hd : d = s.cookieCount
        · subst hd
          simp [Cookie.new] at ha
        · rw [hne hd] at ha
          exact h.linked d i a ha
      case owned =>
        intro i a ha
        obtain ⟨e, he, hp⟩ := h.owned i a ha
        exact ⟨e, he, Nat.lt_succ_of_lt hp⟩
      case nodup =>
        exact h.nodup
      case apart =>
        exact h.apart
      case born =>
        exact h.born
      case queued =>
        exact h.queued
      case unborn =>
        intro d hd i
        dsimp only at hd ⊢
        rw [hne (by omega)]
        exact h.unborn d (by omega) i
      case filed =>
        intro e he
        rcases List.mem_append.mp he with he | he
        · exact Nat.lt_succ_of_lt (h.filed e he)
        · rw [List.mem_singleton.mp he]
          exact Nat.lt_succ_self _
    · simp

lemma findOrCreate_lt (h : Wf s) (k : Cookie) :
    (findOrCreate cfg s k).2 < (findOrCreate cfg s k).1.cookieCount := by
  unfold findOrCreate
  cases hf : findCookie cfg s k.name with
  | some c => exact findCookie_lt h hf
  | none =>
    simp only [CookieManager.createCookie, hf]
    exact Nat.lt_succ_self _

lemma Wf.findOrCreate (h : Wf s) (k : Cookie) : Wf (findOrCreate cfg s k).1 := by
  unfold CookieManager.findOrCreate
  split
  · exact h
  · exact h.createCookie _ _ _

lemma Wf.loadRow (h : Wf s) (client : ℕ) (row : Cookie × Bytes) :
    Wf (loadRow cfg client s row) :=
  (h.findOrCreate row.1).linkData client (findOrCreate_lt h row.1) rfl

lemma Wf.loadRows (h : Wf s) (client : ℕ) (rows : List (Cookie × Bytes)) :
    Wf (rows.foldl (CookieManager.loadRow cfg client) s) := by
  induction rows generalizing s with
  | nil => exact h
  | cons row rows ih => exact ih (h.loadRow client row)

/-- The state in which `ClientConnectCallback` starts its loop. -/
def clearPending (s : Server) (client : ℕ) : Server :=
  { s with statsPending := Function.update s.statsPending client false }

lemma Wf.clientConnectCallback (h : Wf s) (serial : ℕ) (rows : List (Cookie × Bytes)) :
    Wf (clientConnectCallback cfg s serial rows) := by
  unfold CookieManager.clientConnectCallback
  dsimp only
  split_ifs
  · exact h
  · have hstart : Wf (clearPending s (getClientFromSerial cfg s serial)) :=
      h.congr rfl rfl rfl rfl rfl rfl fun _ _ _ ha => ha
    have hloop : Wf (rows.foldl (CookieManager.loadRow cfg (getClientFromSerial cfg s serial))
        (clearPending s (getClientFromSerial cfg s serial))) := hstart.loadRows _ rows
    exact hloop.congr rfl rfl rfl rfl rfl rfl fun _ _ _ ha => ha

lemma Wf.getCookieValue (h : Wf s) {c : CookieRef} (hc : c < s.cookieCount) (client : ℕ) :
    Wf (getCookieValue s c client).1 := by
  unfold CookieManager.getCookieValue
  split
  · exact h.linkData client hc rfl
  · exact h

lemma Wf.setCookieValue (h : Wf s) {c : CookieRef} (hc : c < s.cookieCount) (client : ℕ)
    (value : Bytes) (now : ℕ) : Wf (setCookieValue s c client value now) := by
  unfold CookieManager.setCookieValue
  split
  · exact h.linkData client hc rfl
  · exact h.modifyData _ fun _ => rfl

lemma Wf.payload (h : Wf s) (e : CookieData) (sid : Bytes) (id : ℤ) :
    Wf ((s.newData e).addQueryToQueue (.insertData sid id s.nextData)) := by
  have hheap : ∀ {i a}, a ∈ s.clientData i →
      Function.update s.heap s.nextData (some e) a = s.heap a := by
    intro i a ha
    apply Function.update_of_ne
    rintro rfl
    exact h.fresh i ha
  constructor
  case linked =>
    intro c i a ha
    obtain ⟨hmem, e', he', hp⟩ := h.linked c i a ha
    exact ⟨hmem, e', (hheap hmem).trans he', hp⟩
  case owned =>
    intro i a ha
    obtain ⟨e', he', hp⟩ := h.owned i a ha
    exact ⟨e', (hheap ha).trans he', hp⟩
  case nodup =>
    exact h.nodup
  case apart =>
    exact h.apart
  case born =>
    intro a ha
    have hlt : s.nextData < a := ha
    have hne : a ≠ s.nextData := hlt.ne'
    exact (Function.update_of_ne hne ..).trans (h.born a hlt.le)
  case queued =>
    intro sid' id' a ha
    rcases List.mem_append.mp ha with ha | ha
    · obtain ⟨hlt, hnot⟩ := h.queued sid' id' a ha
      exact ⟨Nat.lt_succ_of_lt hlt, hnot⟩
    · simp only [List.mem_singleton, Query.insertData.injEq] at ha
      obtain ⟨_, _, rfl⟩ := ha
      exact ⟨Nat.lt_succ_self _, h.fresh⟩
  case unborn =>
    exact h.unborn
  case filed =>
    exact h.filed

lemma attemptReconnection_cookieCount :
    (attemptReconnection cfg s).cookieCount = s.cookieCount := by
  rw [attemptReconnection_eq]
  rfl

lemma Wf.setAuthIdCookie (h : Wf s) {authId : Bytes} {c : CookieRef} {value : Bytes} {now : ℕ}
    {t : Server} (hc : c < s.cookieCount) (ht : setAuthIdCookie cfg s authId c value now = some t) :
    Wf t := by
  obtain ⟨client, _, rfl⟩ := Option.map_eq_some_iff.mp ht
  have hr : Wf (CookieManager.attemptReconnection cfg s) := h.attemptReconnection
  split_ifs
  · exact hr.setCookieValue (attemptReconnection_cookieCount.symm ▸ hc) client value now
  · exact hr.payload _ _ _

lemma Wf.deletePayload (h : Wf s) {a : DataRef} (ha : ∀ i, a ∉ s.clientData i) :
    Wf (s.deleteData a) := by
  have hheap : ∀ {i b}, b ∈ s.clientData i → Function.update s.heap a none b = s.heap b := by
    intro i b hb
    apply Function.update_of_ne
    rintro rfl
    exact ha i hb
  constructor
  case linked =>
    intro c i b hb
    obtain ⟨hmem, e, he, hp⟩ := h.linked c i b hb
    exact ⟨hmem, e, (hheap hmem).trans he, hp⟩
  case owned =>
    intro i b hb
    obtain ⟨e, he, hp⟩ := h.owned i b hb
    exact ⟨e, (hheap hb).trans he, hp⟩
  case nodup =>
    exact h.nodup
  case apart =>
    exact h.apart
  case born =>
    intro b hb
    have hnone := h.born b hb
    by_cases hba : b = a
    · simp [Server.deleteData, hba]
    · simpa [Server.deleteData, hba] using hnone
  case queued =>
    exact h.queued
  case unborn =>
    exact h.unborn
  case filed =>
    exact h.filed

lemma Wf.insertCookieCallback (h : Wf s) (c : CookieRef) (dbId : ℤ) :
    Wf (insertCookieCallback s c dbId) := by
  unfold CookieManager.insertCookieCallback
  split_ifs
  · exact h.modifyCookie c fun _ => rfl
  · exact h.addQuery (by simp)

lemma Wf.selectIdCallback (h : Wf s) (c : CookieRef) (dbId : ℤ) :
    Wf (selectIdCallback s c dbId) := h.modifyCookie c fun _ => rfl

end ClientPrefs.SlotTables
