import ClientPrefs.SlotTables

/-! The save loop of `OnClientDisconnecting`: every value of the slot is deleted or handed over. -/
namespace ClientPrefs.SlotRelease
open ByteStrings Cookies CookieManager LateLoad SlotTables

/-- The query that hands a value over to Redis, if the loop saves it. -/
def savedQuery (s : Server) (pAuth : Option Bytes) (a : DataRef) : Option Query :=
  match s.heap a, pAuth with
  | some current, some auth =>
    if current.changed = false ∨ (s.cookies current.parent).dbid = -1 then none
    else some (.insertData (steamIdParam (some auth)) (s.cookies current.parent).dbid a)
  | _, _ => none

def hasValueIn (s : Server) (l : List DataRef) (c : CookieRef) : Bool :=
  l.any fun a => (s.heap a).any fun e => e.parent = c

def clearData (client : ℕ) (k : Cookie) : Cookie :=
  { k with data := Function.update k.data client none }

def releaseAll (client : ℕ) (pAuth : Option Bytes) (s : Server) (l : List DataRef) : Server :=
  { s with
    cookies := fun c =>
      if hasValueIn s l c then clearData client (s.cookies c) else s.cookies c
    heap := fun a => if a ∈ l ∧ savedQuery s pAuth a = none then none else s.heap a
    sent := s.sent ++ l.filterMap (savedQuery s pAuth) }

variable {cfg : Config} {s : Server} {client : ℕ} {pAuth : Option Bytes}

lemma releaseData_eq (a : DataRef) : releaseData client pAuth s a =
    match s.heap a with
    | none => s
    | some e =>
      match savedQuery s pAuth a with
      | none => (s.setData e.parent client none).deleteData a
      | some q => (s.addQueryToQueue q).setData e.parent client none := by
  unfold releaseData savedQuery
  cases s.heap a with
  | none => rfl
  | some e =>
    cases pAuth with
    | none => rfl
    | some auth =>
      dsimp only
      by_cases h : e.changed = false ∨ (s.cookies e.parent).dbid = -1
      · simp only [if_pos h]
      · simp only [if_neg h]

lemma savedQuery_unborn {a : DataRef} (h : s.heap a = none) : savedQuery s pAuth a = none := by
  simp [savedQuery, h]

lemma setData_none_cookies (c d : CookieRef) : (s.setData c client none).cookies d =
    if d = c then clearData client (s.cookies d) else s.cookies d := by
  by_cases hd : d = c
  · subst hd
    simp [Server.setData, Server.modifyCookie, clearData]
  · simp [Server.setData, Server.modifyCookie, hd]

lemma clearData_clearData (k : Cookie) : clearData client (clearData client k) =
    clearData client k := by
  simp [clearData]

lemma releaseData_fields (a : DataRef) : releaseData client pAuth s a = { s with
    cookies := fun c =>
      if hasValueIn s [a] c then clearData client (s.cookies c) else s.cookies c
    heap := Function.update s.heap a
      (if savedQuery s pAuth a = none then none else s.heap a)
    sent := s.sent ++ (savedQuery s pAuth a).toList } := by
  rw [releaseData_eq]
  cases ha : s.heap a with
  | none =>
    have hval : ∀ c, hasValueIn s [a] c = false := by simp [hasValueIn, ha]
    have hheap : Function.update s.heap a none = s.heap := by
      rw [← ha, Function.update_eq_self]
    simp [hval, savedQuery_unborn ha, hheap]
  | some e =>
    have hval : ∀ c, hasValueIn s [a] c = decide (c = e.parent) := by
      simp [hasValueIn, ha, eq_comm]
    have hcookies : (s.setData e.parent client none).cookies = fun c =>
        if hasValueIn s [a] c then clearData client (s.cookies c) else s.cookies c := by
      funext c
      simp only [setData_none_cookies, hval, decide_eq_true_eq]
    cases hq : savedQuery s pAuth a with
    | none =>
      rw [← hcookies]
      simp [Server.deleteData, Server.setData, Server.modifyCookie]
    | some q =>
      rw [← hcookies]
      have hheap : Function.update s.heap a (some e) = s.heap := by
        rw [← ha, Function.update_eq_self]
      simp [Server.setData, Server.modifyCookie, Server.addQueryToQueue, hheap]

lemma savedQuery_releaseData {a b : DataRef} (h : b ≠ a) :
    savedQuery (releaseData client pAuth s a) pAuth b = savedQuery s pAuth b := by
  have hdbid : ∀ c, ((releaseData client pAuth s a).cookies c).dbid = (s.cookies c).dbid := by
    intro c
    rw [releaseData_fields]
    dsimp only
    split_ifs <;> rfl
  have hheap : (releaseData client pAuth s a).heap b = s.heap b := by
    rw [releaseData_fields]
    exact Function.update_of_ne h ..
  simp only [savedQuery, hheap, hdbid]

lemma hasValueIn_releaseData {a : DataRef} {l : List DataRef} (h : a ∉ l) (c : CookieRef) :
    hasValueIn (releaseData client pAuth s a) l c = hasValueIn s l c := by
  have hheap : ∀ b ∈ l, (releaseData client pAuth s a).heap b = s.heap b := by
    intro b hb
    rw [releaseData_fields]
    exact Function.update_of_ne (by rintro rfl; exact h hb) ..
  unfold hasValueIn
  apply Bool.eq_iff_iff.mpr
  simp only [List.any_eq_true]
  constructor
  · rintro ⟨b, hb, hp⟩
    exact ⟨b, hb, hheap b hb ▸ hp⟩
  · rintro ⟨b, hb, hp⟩
    exact ⟨b, hb, (hheap b hb).symm ▸ hp⟩

/-- The whole loop at once; the values of a slot are distinct. -/
theorem foldl_releaseData {l : List DataRef} (h : l.Nodup) :
    l.foldl (releaseData client pAuth) s = releaseAll client pAuth s l := by
  induction l generalizing s with
  | nil => simp [releaseAll, hasValueIn]
  | cons a l ih =>
    obtain ⟨ha, hl⟩ := List.nodup_cons.mp h
    have hne : ∀ b ∈ l, b ≠ a := by
      rintro b hb rfl
      exact ha hb
    have hsaved : l.filterMap (savedQuery (releaseData client pAuth s a) pAuth) =
        l.filterMap (savedQuery s pAuth) :=
      List.filterMap_congr fun b hb => savedQuery_releaseData (hne b hb)
    have hcons : ∀ c, hasValueIn s (a :: l) c = (hasValueIn s [a] c || hasValueIn s l c) := by
      simp [hasValueIn]
    rw [List.foldl_cons, ih hl, releaseAll, hsaved]
    simp only [hasValueIn_releaseData ha]
    apply Server.ext
    case cookies =>
      funext c
      simp only [releaseAll, hcons, releaseData_fields]
      cases hasValueIn s [a] c <;> cases hasValueIn s l c <;> simp [clearData_clearData]
    case heap =>
      funext b
      by_cases hb : b = a
      · subst hb
        simp [releaseAll, ha, releaseData_fields]
      · have hb' : savedQuery (releaseData client pAuth s a) pAuth b = savedQuery s pAuth b :=
          savedQuery_releaseData hb
        simp only [hb', releaseAll, List.mem_cons, hb, false_or]
        rw [releaseData_fields]
        simp [hb]
    case sent =>
      simp only [releaseAll, releaseData_fields, List.filterMap_cons]
      cases savedQuery s pAuth a <;> simp
    all_goals simp [releaseAll, releaseData_fields]

/-- The first lines of `OnClientDisconnecting`. -/
def resetFlags (s : Server) (client : ℕ) : Server :=
  { s with
    connected := Function.update s.connected client false
    statsLoaded := Function.update s.statsLoaded client false
    statsPending := Function.update s.statsPending client false }

/-- The state in which the save loop starts. -/
def afterReconnect (cfg : Config) (s : Server) (client : ℕ) : Server :=
  authorizeAll (resetFlags s client) (missedSlots cfg (resetFlags s client))

lemma onClientDisconnecting_eq (h : Wf s) : onClientDisconnecting cfg s client =
    { releaseAll client (authOf (s.roster client)) (afterReconnect cfg s client)
        (s.clientData client) with
      clientData := Function.update s.clientData client [] } := by
  have hstart : attemptReconnection cfg (resetFlags s client) = afterReconnect cfg s client :=
    attemptReconnection_eq cfg _
  have hloop : (s.clientData client).foldl (releaseData client (authOf (s.roster client)))
      (afterReconnect cfg s client) =
      releaseAll client (authOf (s.roster client)) (afterReconnect cfg s client)
        (s.clientData client) := foldl_releaseData (h.nodup client)
  have hdef : onClientDisconnecting cfg s client =
      let r := attemptReconnection cfg (resetFlags s client)
      let r := (r.clientData client).foldl (releaseData client (authOf (r.roster client))) r
      { r with clientData := Function.update r.clientData client [] } := rfl
  have hclient : (afterReconnect cfg s client).clientData = s.clientData := rfl
  have hroster : (afterReconnect cfg s client).roster = s.roster := rfl
  rw [hdef, hstart]
  dsimp only
  rw [hclient, hroster, hloop]
  rfl

lemma mem_releaseAll_sent (client : ℕ) {l : List DataRef} {q : Query}
    (hq : q ∈ (releaseAll client pAuth s l).sent) :
    q ∈ s.sent ∨ ∃ a ∈ l, savedQuery s pAuth a = some q := by
  rcases List.mem_append.mp hq with hq | hq
  · exact .inl hq
  · obtain ⟨a, ha, hq⟩ := List.mem_filterMap.mp hq
    exact .inr ⟨a, ha, hq⟩

lemma savedQuery_eq_some {a : DataRef} {q : Query} (h : savedQuery s pAuth a = some q) :
    ∃ e auth, s.heap a = some e ∧ pAuth = some auth ∧ e.changed = true ∧
      (s.cookies e.parent).dbid ≠ -1 ∧
      q = .insertData (steamIdParam (some auth)) (s.cookies e.parent).dbid a := by
  unfold savedQuery at h
  split at h
  · next e auth he =>
    split_ifs at h with hc
    simp only [not_or, Bool.not_eq_false] at hc
    exact ⟨e, auth, he, rfl, hc.1, hc.2, by simpa using h.symm⟩
  · cases h

lemma Wf.afterReconnect (h : Wf s) (client : ℕ) : Wf (afterReconnect cfg s client) := by
  have hreset : Wf (resetFlags s client) := h.congr rfl rfl rfl rfl rfl rfl fun _ _ _ ha => ha
  exact hreset.authorizeAll _

lemma releaseAll_heap_of_notMem {l : List DataRef} {a : DataRef} (h : a ∉ l) :
    (releaseAll client pAuth s l).heap a = s.heap a := by
  simp [releaseAll, h]

lemma releaseAll_data_of_ne {l : List DataRef} (c : CookieRef) {i : ℕ} (h : i ≠ client) :
    ((releaseAll client pAuth s l).cookies c).data i = (s.cookies c).data i := by
  simp only [releaseAll]
  split_ifs
  · simp [clearData, h]
  · rfl

lemma releaseAll_data_same (h : Wf s) (c : CookieRef) :
    ((releaseAll client pAuth s (s.clientData client)).cookies c).data client = none := by
  simp only [releaseAll]
  split_ifs with hval
  · simp [clearData]
  · cases hd : (s.cookies c).data client with
    | none => rfl
    | some a =>
      obtain ⟨hmem, e, he, hp⟩ := h.linked c client a hd
      exfalso
      apply hval
      simp only [hasValueIn, List.any_eq_true]
      exact ⟨a, hmem, by simp [he, hp]⟩

lemma Wf.handed_over (h : Wf s) (client : ℕ) {sid : Bytes} {id : ℤ} {a : DataRef}
    (hq : .insertData sid id a ∈ (releaseAll client pAuth (SlotRelease.afterReconnect cfg s client)
      (s.clientData client)).sent) :
    a < s.nextData ∧ ∀ i, a ∉ Function.update s.clientData client [] i := by
  have hr : Wf (SlotRelease.afterReconnect cfg s client) := Wf.afterReconnect h client
  have hcases : (a < s.nextData ∧ ∀ i, a ∉ s.clientData i) ∨ a ∈ s.clientData client := by
    rcases mem_releaseAll_sent client hq with hold | ⟨b, hb, hsaved⟩
    · exact .inl (hr.queued sid id a hold)
    · obtain ⟨_, _, _, _, _, _, hquery⟩ := savedQuery_eq_some hsaved
      obtain ⟨_, _, rfl⟩ := Query.insertData.inj hquery
      exact .inr hb
  rcases hcases with ⟨hlt, hnot⟩ | hmem
  · refine ⟨hlt, fun i => ?_⟩
    by_cases hi : i = client
    · simp [hi]
    · rw [Function.update_of_ne hi]
      exact hnot i
  · obtain ⟨e, he, _⟩ := h.owned client a hmem
    constructor
    · by_contra hlt
      have hnone : s.heap a = none := h.born a (Nat.le_of_not_lt hlt)
      rw [he] at hnone
      cases hnone
    · intro i
      by_cases hi : i = client
      · simp [hi]
      · rw [Function.update_of_ne hi]
        exact fun hai => hi (h.apart _ _ _ hai hmem)

lemma Wf.onClientDisconnecting (h : Wf s) (client : ℕ) :
    Wf (onClientDisconnecting cfg s client) := by
  have hr : Wf (SlotRelease.afterReconnect cfg s client) := Wf.afterReconnect h client
  have hother : ∀ {i a}, i ≠ client → a ∈ s.clientData i → a ∉ s.clientData client :=
    fun hi ha hc => hi (h.apart _ _ _ ha hc)
  have hgone : ∀ c, ((releaseAll client (authOf (s.roster client))
      (SlotRelease.afterReconnect cfg s client) (s.clientData client)).cookies c).data client =
      none := releaseAll_data_same hr
  rw [onClientDisconnecting_eq h]
  constructor
  case linked =>
    intro c i a ha
    dsimp only at ha ⊢
    by_cases hi : i = client
    · subst hi
      rw [hgone] at ha
      cases ha
    · rw [releaseAll_data_of_ne c hi] at ha
      obtain ⟨hmem, e, he, hp⟩ := hr.linked c i a ha
      have hnot : a ∉ s.clientData client := hother hi hmem
      rw [Function.update_of_ne hi, releaseAll_heap_of_notMem hnot]
      exact ⟨hmem, e, he, hp⟩
  case owned =>
    intro i a ha
    dsimp only at ha ⊢
    by_cases hi : i = client
    · simp [hi] at ha
    · rw [Function.update_of_ne hi] at ha
      rw [releaseAll_heap_of_notMem (hother hi ha)]
      exact hr.owned i a ha
  case nodup =>
    intro i
    dsimp only
    by_cases hi : i = client
    · simp [hi]
    · rw [Function.update_of_ne hi]
      exact h.nodup i
  case apart =>
    intro i j a hai haj
    dsimp only at hai haj
    by_cases hi : i = client
    · simp [hi] at hai
    · by_cases hj : j = client
      · simp [hj] at haj
      · rw [Function.update_of_ne hi] at hai
        rw [Function.update_of_ne hj] at haj
        exact h.apart i j a hai haj
  case born =>
    intro a ha
    have hnone : (SlotRelease.afterReconnect cfg s client).heap a = none := hr.born a ha
    simp only [releaseAll, hnone, ite_self]
  case queued =>
    intro sid id a ha
    exact Wf.handed_over h client ha
  case unborn =>
    intro c hc i
    by_cases hi : i = client
    · subst hi
      exact hgone c
    · dsimp only
      rw [releaseAll_data_of_ne c hi]
      exact hr.unborn c hc i
  case filed =>
    exact hr.filed

end ClientPrefs.SlotRelease
