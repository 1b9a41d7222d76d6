import ClientPrefs.Session

/-!
# Names and ids of cookies

A cookie keeps its name. Its `dbid` is what `InsertCookieCallback` or `SelectIdCallback`
was last given for it.
-/
namespace ClientPrefs.CookieIds
open ByteStrings Cookies CookieManager LateLoad QueryThread Session SlotRelease SlotTables

def Tells (s : Server) (c : CookieRef) (id : ℤ) : Event → Prop
  | .think t _ outcome => outcome.insertId = id ∧
      (s.sent[t]? = some (.insertCookie c) ∨ ∃ name, s.sent[t]? = some (.selectId c name))
  | _ => False

def KeepsId (s t : Server) (c : CookieRef) : Prop :=
  (t.cookies c).name = (s.cookies c).name ∧ (t.cookies c).dbid = (s.cookies c).dbid

/-- From `s` to `t` the queue and the cookies only grow, and ids change only as `told`. -/
structure Extends (told : CookieRef → ℤ → Prop) (s t : Server) : Prop where
  sent : s.sent <+: t.sent
  count : s.cookieCount ≤ t.cookieCount
  names : ∀ c, c < s.cookieCount → (t.cookies c).name = (s.cookies c).name
  ids : ∀ c, KeepsId s t c ∨ (s.cookieCount ≤ c ∧ (t.cookies c).dbid = -1) ∨
    told c (t.cookies c).dbid
  registers : ∀ c, .insertCookie c ∈ t.sent → .insertCookie c ∈ s.sent ∨ c < t.cookieCount

variable {cfg : Config} {s t u : Server} {told : CookieRef → ℤ → Prop}

lemma Extends.trans (first : Extends told s t) (second : Extends told t u) :
    Extends told s u where
  sent := first.sent.trans second.sent
  count := first.count.trans second.count
  names c hc := (second.names c (hc.trans_le first.count)).trans (first.names c hc)
  ids c := by
    rcases second.ids c with hsame | ⟨hnew, hid⟩ | htold
    · rw [KeepsId, hsame.1, hsame.2]
      exact first.ids c
    · exact .inr (.inl ⟨first.count.trans hnew, hid⟩)
    · exact .inr (.inr htold)
  registers c hc := by
    rcases second.registers c hc with hold | hlt
    · rcases first.registers c hold with hold | hlt
      · exact .inl hold
      · exact .inr (hlt.trans_le second.count)
    · exact .inr hlt

lemma Extends.of_same {l : List Query} (hsent : t.sent = s.sent ++ l)
    (hl : ∀ c, .insertCookie c ∉ l) (hcount : t.cookieCount = s.cookieCount)
    (hcookies : ∀ c, KeepsId s t c) : Extends told s t where
  sent := ⟨l, hsent.symm⟩
  count := hcount.ge
  names c _ := (hcookies c).1
  ids c := .inl (hcookies c)
  registers c hc := by
    rw [hsent] at hc
    exact .inl ((List.mem_append.mp hc).resolve_right (hl c))

lemma Extends.refl (s : Server) : Extends told s s :=
  .of_same (List.append_nil _).symm (by simp) rfl fun _ => ⟨rfl, rfl⟩

lemma Extends.modifyCookie (c : CookieRef) {f : Cookie → Cookie}
    (hname : ∀ k, (f k).name = k.name) (hdbid : ∀ k, (f k).dbid = k.dbid) :
    Extends told s (s.modifyCookie c f) := by
  refine .of_same (List.append_nil _).symm (by simp) rfl fun d => ?_
  by_cases hd : d = c
  · subst hd
    simp [KeepsId, Server.modifyCookie, hname, hdbid]
  · simp [KeepsId, Server.modifyCookie, hd]

lemma Extends.tell {c : CookieRef} {id : ℤ} (h : told c id) :
    Extends told s (s.modifyCookie c fun k => { k with dbid := id }) where
  sent := List.prefix_rfl
  count := le_rfl
  names d _ := by
    by_cases hd : d = c
    · subst hd
      simp [Server.modifyCookie]
    · simp [Server.modifyCookie, hd]
  ids d := by
    by_cases hd : d = c
    · subst hd
      exact .inr (.inr (by simpa [Server.modifyCookie] using h))
    · exact .inl (by simp [KeepsId, Server.modifyCookie, hd])
  registers d hd := .inl hd

lemma Extends.addQuery {q : Query} (hq : ∀ c, q ≠ .insertCookie c) :
    Extends told s (s.addQueryToQueue q) := by
  refine .of_same rfl (fun c hc => ?_) rfl fun _ => ⟨rfl, rfl⟩
  exact hq c (List.mem_singleton.mp hc).symm

lemma Extends.createCookie (name description : Bytes) (access : CookieAccess) :
    Extends told s (createCookie cfg s name description access).1 := by
  unfold CookieManager.createCookie
  split
  · dsimp only
    exact .modifyCookie _ (fun _ => rfl) fun _ => rfl
  · refine ⟨⟨_, rfl⟩, Nat.le_succ _, fun c hc => ?_, fun c => ?_, fun c hc => ?_⟩
    · simp [Server.addQueryToQueue, hc.ne]
    · by_cases hd : c = s.cookieCount
      · subst hd
        exact .inr (.inl ⟨le_rfl, by simp [Server.addQueryToQueue, Cookie.new]⟩)
      · exact .inl (by simp [KeepsId, Server.addQueryToQueue, hd])
    · rcases List.mem_append.mp hc with hold | hnew
      · exact .inl hold
      · obtain rfl : c = s.cookieCount := by simpa using hnew
        exact .inr (Nat.lt_succ_self _)

lemma Extends.linkData (c : CookieRef) (i : ℕ) (e : CookieData) :
    Extends told s (linkData s c i e) := by
  have hstart : Extends told s ((s.newData e).appendData i s.nextData) :=
    .of_same (List.append_nil _).symm (by simp) rfl fun _ => ⟨rfl, rfl⟩
  refine hstart.trans ?_
  unfold CookieManager.linkData Server.setData
  apply Extends.modifyCookie
  · exact fun _ => rfl
  · exact fun _ => rfl

lemma Extends.setCookieValue (c : CookieRef) (i : ℕ) (v : Bytes) (now : ℕ) :
    Extends told s (setCookieValue s c i v now) := by
  unfold CookieManager.setCookieValue
  split
  · exact .linkData c i _
  · exact .of_same (List.append_nil _).symm (by simp) rfl fun _ => ⟨rfl, rfl⟩

lemma Extends.getCookieValue (c : CookieRef) (i : ℕ) :
    Extends told s (getCookieValue s c i).1 := by
  unfold CookieManager.getCookieValue
  split
  · exact .linkData c i _
  · exact .refl s

lemma Extends.loadRows (i : ℕ) (rows : List (Cookie × Bytes)) :
    Extends told s (rows.foldl (loadRow cfg i) s) := by
  induction rows generalizing s with
  | nil => exact .refl s
  | cons row rows ih =>
    have hfind : Extends told s (findOrCreate cfg s row.1).1 := by
      unfold findOrCreate
      split
      · exact .refl s
      · exact .createCookie _ _ _
    exact (hfind.trans (.linkData _ i _)).trans ih

lemma insertCookie_notMem_selectQueries (l : List ℕ) (c : CookieRef) :
    .insertCookie c ∉ l.filterMap (selectQuery s) := by
  intro hmem
  obtain ⟨i, _, hi⟩ := List.mem_filterMap.mp hmem
  simp [selectQuery] at hi

lemma Extends.authorizeAll (l : List ℕ) : Extends told s (authorizeAll s l) :=
  .of_same rfl (insertCookie_notMem_selectQueries l) rfl fun _ => ⟨rfl, rfl⟩

lemma Extends.attemptReconnection : Extends told s (attemptReconnection cfg s) := by
  rw [attemptReconnection_eq]
  exact .authorizeAll _

lemma Extends.onClientAuthorized (i : ℕ) : Extends told s (onClientAuthorized cfg s i) := by
  rw [onClientAuthorized_eq]
  split
  · exact .refl s
  · split_ifs
    · exact .refl s
    · have hflag : Extends told s (flag s i) :=
        .of_same (List.append_nil _).symm (by simp) rfl fun _ => ⟨rfl, rfl⟩
      exact (hflag.trans (.authorizeAll _)).trans (.addQuery (by simp))

lemma Extends.onClientDisconnecting (h : Wf s) (i : ℕ) :
    Extends told s (onClientDisconnecting cfg s i) := by
  have hreset : Extends told s (resetFlags s i) :=
    .of_same (List.append_nil _).symm (by simp) rfl fun _ => ⟨rfl, rfl⟩
  have hstart : Extends told s (afterReconnect cfg s i) := hreset.trans (.authorizeAll _)
  rw [onClientDisconnecting_eq h]
  refine hstart.trans (.of_same rfl (fun c hc => ?_) rfl fun c => ?_)
  · obtain ⟨a, _, hq⟩ := List.mem_filterMap.mp hc
    obtain ⟨_, _, _, _, _, _, hq⟩ := savedQuery_eq_some hq
    cases hq
  · simp only [KeepsId, releaseAll]
    split_ifs <;> exact ⟨rfl, rfl⟩

lemma Extends.setAuthIdCookie {authId : Bytes} {c : CookieRef} {v : Bytes} {now : ℕ}
    (ht : setAuthIdCookie cfg s authId c v now = some t) : Extends told s t := by
  obtain ⟨i, _, rfl⟩ := Option.map_eq_some_iff.mp ht
  have hr : Extends told s (CookieManager.attemptReconnection cfg s) := .attemptReconnection
  split_ifs
  · exact hr.trans (.setCookieValue c i v now)
  · exact hr.trans (.of_same rfl (by simp) rfl fun _ => ⟨rfl, rfl⟩)

/-- Every event extends the state; ids are told by the results of the two id queries. -/
theorem Extends.apply (h : Wf s) {e : Event} (allowed : e.Allowed cfg s) :
    Extends (fun c id => Tells s c id e) s (e.apply cfg s) := by
  cases e with
  | connect i p => exact .of_same (List.append_nil _).symm (by simp) rfl fun _ => ⟨rfl, rfl⟩
  | authorize i =>
    let s' : Server :=
      { s with roster := Function.update s.roster i ((s.roster i).map authorized) }
    have hput : Extends (fun c id => Tells s c id (.authorize i)) s s' :=
      .of_same (List.append_nil _).symm (by simp) rfl fun _ => ⟨rfl, rfl⟩
    exact hput.trans (.onClientAuthorized i)
  | disconnecting i =>
    have hleave : Extends (fun c id => Tells s c id (.disconnecting i)) s
        (CookieManager.onClientDisconnecting cfg s i) := .onClientDisconnecting h i
    exact hleave.trans (.of_same (List.append_nil _).symm (by simp) rfl fun _ => ⟨rfl, rfl⟩)
  | disconnected i => exact .of_same (List.append_nil _).symm (by simp) rfl fun _ => ⟨rfl, rfl⟩
  | reconnect => exact .attemptReconnection
  | createCookie name description access => exact .createCookie name description access
  | setCookieValue c i v now => exact .setCookieValue c i v now
  | getCookieValue c i => exact .getCookieValue c i
  | setAuthIdCookie authId c v now =>
    obtain ⟨t, ht⟩ := Option.isSome_iff_exists.mp allowed.2
    simp only [Event.apply, ht, Option.getD_some]
    exact .setAuthIdCookie ht
  | think q talk outcome =>
    obtain ⟨_, query, hq, _⟩ := allowed
    let s' : Server := { s with finished := s.finished ++ [q] }
    have hs' : Extends (fun c id => Tells s c id (.think q talk outcome)) s s' :=
      .of_same (List.append_nil _).symm (by simp) rfl fun _ => ⟨rfl, rfl⟩
    have hrun : (Event.think q talk outcome).apply cfg s = runThinkPart cfg s' query outcome := by
      simp only [Event.apply, runFrame, hq]
      rfl
    rw [hrun]
    refine hs'.trans ?_
    cases query with
    | insertCookie c =>
      simp only [runThinkPart, insertCookieCallback]
      split_ifs
      · exact .tell ⟨rfl, .inl hq⟩
      · exact .addQuery (by simp)
    | selectData k sid =>
      simp only [runThinkPart, clientConnectCallback]
      split_ifs
      · exact .refl s'
      · have hclear : Extends (fun c id => Tells s c id (.think q talk outcome)) s'
            (clearPending s' (getClientFromSerial cfg s' k)) :=
          .of_same (List.append_nil _).symm (by simp) rfl fun _ => ⟨rfl, rfl⟩
        have hloop : Extends (fun c id => Tells s c id (.think q talk outcome)) s'
            (outcome.results.foldl (loadRow cfg (getClientFromSerial cfg s' k))
              (clearPending s' (getClientFromSerial cfg s' k))) := hclear.trans (.loadRows _ _)
        exact hloop.trans <| .of_same (List.append_nil _).symm (by simp) rfl fun _ => ⟨rfl, rfl⟩
    | insertData sid id a =>
      exact .of_same (List.append_nil _).symm (by simp) rfl fun _ => ⟨rfl, rfl⟩
    | selectId c name => exact .tell ⟨rfl, .inr ⟨name, hq⟩⟩

end ClientPrefs.CookieIds
