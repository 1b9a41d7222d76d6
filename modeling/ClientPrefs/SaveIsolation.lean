import ClientPrefs.Disconnect
import ClientPrefs.SlotValues

/-!
# Saves carry the occupant's own values

As long as values are only set for slots with a player who is not leaving, a value that
`OnClientDisconnecting` hands over was set during the connection that ends.
-/
namespace ClientPrefs.SaveIsolation
open ByteStrings Cookies CookieManager Disconnect LateLoad Loads QueryThread Session SlotRelease
open SlotTables SlotValues Transition

/-- A call of the past set `value` for the cookie and the slot, while the player with this
serial was there. -/
def SetDuring (cfg : Config) (past : List (Server × Event)) (c : CookieRef) (i serial : ℕ)
    (value : Bytes) : Prop :=
  ∃ x ∈ past, ∃ p v, x.1.roster i = some p ∧ p.serial = serial ∧ Sets cfg x.1 c i v x.2 ∧
    storedValue v = value

/-- The slot has a player whose disconnecting event has not come yet. -/
def Present (s : Server) (i : ℕ) : Prop := (s.roster i).isSome = true ∧ s.leaving i = false

/-- A value is set only for a slot with a present player. -/
def SetsPresent (cfg : Config) (s : Server) (e : Event) : Prop :=
  ∀ c i v, Sets cfg s c i v e → Present s i

/-- Every changed value was set for the present player of its slot. -/
def Tracked (cfg : Config) (past : List (Server × Event)) (s : Server) : Prop :=
  ∀ i a e, a ∈ s.clientData i → s.heap a = some e → e.changed = true →
    ∃ p, s.roster i = some p ∧ s.leaving i = false ∧
      SetDuring cfg past e.parent i p.serial e.value

variable {cfg : Config} {s t : Server} {i : ℕ} {a : DataRef} {e : CookieData}

lemma mem_setCookieValue (h : Wf s) {c : CookieRef} {j : ℕ} {v : Bytes} {now : ℕ}
    (ha : a ∈ (setCookieValue s c j v now).clientData i)
    (he : (setCookieValue s c j v now).heap a = some e) :
    (a ∈ s.clientData i ∧ s.heap a = some e) ∨
      e.parent = c ∧ i = j ∧ e.value = storedValue v := by
  unfold setCookieValue at ha he
  split at ha
  · next hnone =>
    simp only [hnone] at he
    rcases mem_linkData.mp ha with hold | ⟨hij, rfl⟩
    · have hne : a ≠ s.nextData := by
        rintro rfl
        exact h.fresh i hold
      rw [linkData_heap, Function.update_of_ne hne] at he
      exact .inl ⟨hold, he⟩
    · obtain rfl : _ = e := by simpa using he
      exact .inr ⟨rfl, hij, rfl⟩
  · next b hb =>
    simp only [hb, Server.modifyData] at he
    by_cases hab : a = b
    · subst hab
      obtain ⟨hmem, e', he', hp⟩ := h.linked c j a hb
      simp only [Function.update_self, he', Option.map_some, Option.some.injEq] at he
      subst he
      exact .inr ⟨hp, h.apart i j a ha hmem, rfl⟩
    · rw [Function.update_of_ne hab] at he
      exact .inl ⟨ha, he⟩

lemma mem_getCookieValue (h : Wf s) {c : CookieRef} {j : ℕ}
    (ha : a ∈ (getCookieValue s c j).1.clientData i)
    (he : (getCookieValue s c j).1.heap a = some e) (hchanged : e.changed = true) :
    a ∈ s.clientData i ∧ s.heap a = some e := by
  unfold getCookieValue at ha he
  split at ha
  · next hnone =>
    simp only [hnone] at he
    rcases mem_linkData.mp ha with hold | ⟨_, rfl⟩
    · have hne : a ≠ s.nextData := by
        rintro rfl
        exact h.fresh i hold
      rw [linkData_heap, Function.update_of_ne hne] at he
      exact ⟨hold, he⟩
    · obtain rfl : _ = e := by simpa using he
      cases hchanged
  · next b hb =>
    simp only [hb] at he
    exact ⟨ha, he⟩

lemma mem_loadRows (h : Wf s) {j : ℕ} {rows : List (Cookie × Bytes)}
    (ha : a ∈ (rows.foldl (loadRow cfg j) s).clientData i)
    (he : (rows.foldl (loadRow cfg j) s).heap a = some e) (hchanged : e.changed = true) :
    a ∈ s.clientData i ∧ s.heap a = some e := by
  have hstores : Stores j (fun e => e.changed = false) s (rows.foldl (loadRow cfg j) s) :=
    Stores.loadRows h fun _ _ _ => rfl
  have hlt : a < s.nextData := by
    by_contra hge
    have hfalse := hstores.stored a e (Nat.le_of_not_lt hge) he
    rw [hchanged] at hfalse
    cases hfalse
  rcases hstores.clientData i a ha with hold | ⟨_, hge⟩
  · exact ⟨hold, (hstores.kept a hlt).symm.trans he⟩
  · exact absurd hge (Nat.not_le_of_lt hlt)

/-- A changed value after an event was there before, unchanged, or the event set it. -/
theorem changed_of_apply (h : Wf s) {ev : Event} (allowed : ev.Allowed cfg s)
    (ha : a ∈ (ev.apply cfg s).clientData i) (he : (ev.apply cfg s).heap a = some e)
    (hchanged : e.changed = true) :
    (a ∈ s.clientData i ∧ s.heap a = some e) ∨
      ∃ v, Sets cfg s e.parent i v ev ∧ storedValue v = e.value := by
  have heffect := effect_of_apply h allowed
  revert ha he heffect
  generalize ev.apply cfg s = t
  intro ha he heffect
  cases heffect with
  | same t tables =>
    rw [tables.clientData] at ha
    exact .inl ⟨ha, (tables.heap i a ha).symm.trans he⟩
  | set m c j v now tables wf sets =>
    rcases mem_setCookieValue wf ha he with ⟨hold, he⟩ | ⟨hp, rfl, hv⟩
    · rw [tables.clientData] at hold
      exact .inl ⟨hold, (tables.heap i a hold).symm.trans he⟩
    · exact .inr ⟨v, hp ▸ sets, hv.symm⟩
  | get c j => exact .inl (mem_getCookieValue h ha he hchanged)
  | release j t leaves tables =>
    rw [tables.clientData] at ha
    by_cases hij : i = j
    · simp [hij] at ha
    · rw [Function.update_of_ne hij] at ha
      exact .inl ⟨ha, (tables.heap i hij a ha).symm.trans he⟩
  | load q j rows t delivers tables =>
    have hstart : Wf (loadStart s q j) := h.congr rfl rfl rfl rfl rfl rfl fun _ _ _ ha => ha
    rw [tables.clientData] at ha
    rw [tables.heap i a ha] at he
    have hold := mem_loadRows hstart ha he hchanged
    exact .inl hold

lemma SetDuring.past {past : List (Server × Event)} {x : Server × Event} {c : CookieRef}
    {k : ℕ} {v : Bytes} (h : SetDuring cfg past c i k v) : SetDuring cfg (past ++ [x]) c i k v := by
  obtain ⟨y, hy, rest⟩ := h
  exact ⟨y, List.mem_append_left _ hy, rest⟩

lemma present_of_apply (h : Wf s) {ev : Event} (allowed : ev.Allowed cfg s) {p : Player}
    (hp : s.roster i = some p) (hpresent : s.leaving i = false) (hev : ev ≠ .disconnecting i) :
    ∃ q, (ev.apply cfg s).roster i = some q ∧ q.serial = p.serial ∧
      (ev.apply cfg s).leaving i = false := by
  have hhost := hostOf_apply h allowed
  simp only [hostOf] at hhost
  have hroster : (ev.apply cfg s).roster = (ev.host s).1 := congrArg Prod.fst hhost
  have hleaving : (ev.apply cfg s).leaving = (ev.host s).2.1 := congrArg (fun x => x.2.1) hhost
  rw [hroster, hleaving]
  cases ev with
  | connect j q =>
    have hij : i ≠ j := by
      rintro rfl
      rw [allowed.2.1] at hp
      cases hp
    exact ⟨p, by simp [Event.host, hij, hp], rfl, hpresent⟩
  | authorize j =>
    by_cases hij : i = j
    · subst hij
      exact ⟨authorized p, by simp [Event.host, hp], authorized_serial p, hpresent⟩
    · exact ⟨p, by simp [Event.host, hij, hp], rfl, hpresent⟩
  | disconnecting j =>
    have hij : i ≠ j := by
      rintro rfl
      exact hev rfl
    exact ⟨p, hp, rfl, by simp [Event.host, hij, hpresent]⟩
  | disconnected j =>
    have hij : i ≠ j := by
      rintro rfl
      have hleave : s.leaving i = true := allowed
      rw [hpresent] at hleave
      cases hleave
    exact ⟨p, by simp [Event.host, hij, hp], rfl, by simp [Event.host, hij, hpresent]⟩
  | _ => exact ⟨p, hp, rfl, hpresent⟩

lemma Tracked.apply (h : Wf s) {past : List (Server × Event)} (tracked : Tracked cfg past s)
    {ev : Event} (allowed : ev.Allowed cfg s) (present : SetsPresent cfg s ev) :
    Tracked cfg (past ++ [(s, ev)]) (ev.apply cfg s) := by
  intro i a e ha he hchanged
  have hev : ev ≠ .disconnecting i := by
    rintro rfl
    have hreleased : Released i s (onClientDisconnecting cfg s i) :=
      Released.onClientDisconnecting h i
    have hnil : a ∈ (onClientDisconnecting cfg s i).clientData i := ha
    simp [hreleased.clientData] at hnil
  rcases changed_of_apply h allowed ha he hchanged with ⟨ha, he⟩ | ⟨v, sets, hv⟩
  · obtain ⟨p, hp, hleaving, hset⟩ := tracked i a e ha he hchanged
    obtain ⟨q, hq, hser, hleaving'⟩ := present_of_apply h allowed hp hleaving hev
    exact ⟨q, hq, hleaving', hser ▸ hset.past⟩
  · obtain ⟨hsome, hleaving⟩ := present _ _ _ sets
    obtain ⟨p, hp⟩ := Option.isSome_iff_exists.mp hsome
    obtain ⟨q, hq, hser, hleaving'⟩ := present_of_apply h allowed hp hleaving hev
    have hnew : (s, ev) ∈ past ++ [(s, ev)] := by simp
    exact ⟨q, hq, hleaving', (s, ev), hnew, p, v, hp, hser.symm, sets, hv⟩

lemma mem_new_insertData (h : Wf s) {sid : Bytes} {id : ℤ}
    (hq : .insertData sid id a ∈ (onClientDisconnecting cfg s i).sent.drop s.sent.length) :
    a ∈ s.clientData i ∧ ∃ e auth, s.heap a = some e ∧ e.changed = true ∧
      authOf (s.roster i) = some auth ∧ sid = steamIdParam (some auth) ∧
      id = (s.cookies e.parent).dbid ∧ id ≠ -1 ∧
      (onClientDisconnecting cfg s i).heap a = some e := by
  rw [onClientDisconnecting_sent h, List.drop_left, List.mem_append] at hq
  rcases hq with hq | hq
  · obtain ⟨j, _, hj⟩ := List.mem_filterMap.mp hq
    simp [selectQuery] at hj
  · obtain ⟨b, hb, hsaved⟩ := List.mem_filterMap.mp hq
    obtain ⟨e, auth, he, hauth, hchanged, hid, heq⟩ := savedQuery_eq_some hsaved
    simp only [Query.insertData.injEq] at heq
    obtain ⟨rfl, rfl, rfl⟩ := heq
    refine ⟨hb, e, auth, he, hchanged, hauth, rfl, rfl, hid, ?_⟩
    have hkept : ¬ savedQuery (afterReconnect cfg s i) (authOf (s.roster i)) a = none := by
      have hsame : savedQuery (afterReconnect cfg s i) (authOf (s.roster i)) a =
          savedQuery s (authOf (s.roster i)) a := rfl
      rw [hsame, hsaved]
      simp
    rw [onClientDisconnecting_eq h]
    simp only [releaseAll, hkept, and_false, if_false]
    exact he

lemma steamIdOf_of_authOf {p : Player} {auth : Bytes} (h : authOf (some p) = some auth) :
    steamIdOf p = steamIdParam (some auth) := by
  simp only [authOf] at h
  split_ifs at h
  unfold steamIdOf
  rw [h]

/-- In every run that sets values only for present players, a disconnect saves only values
set during the connection that ends, under that player's steam id. -/
theorem saves_isolated {roster : ℕ → Option Player} {spent : List ℕ}
    {trace : List (Server × Event)} (run : Run (Step cfg) (start roster spent) trace s)
    (present : ∀ x ∈ trace, SetsPresent cfg x.1 x.2) {sid : Bytes} {id : ℤ}
    (hq : .insertData sid id a ∈ (onClientDisconnecting cfg s i).sent.drop s.sent.length) :
    ∃ p e, s.roster i = some p ∧ sid = steamIdOf p ∧
      (onClientDisconnecting cfg s i).heap a = some e ∧
      SetDuring cfg trace e.parent i p.serial e.value := by
  have hboth : Wf s ∧ Tracked cfg trace s := by
    have preserved : ∀ past a e b, Wf a ∧ Tracked cfg past a → SetsPresent cfg a e →
        Step cfg a e b → Wf b ∧ Tracked cfg (past ++ [(a, e)]) b := by
      intro past a e b h present step
      obtain ⟨allowed, rfl⟩ := step
      exact ⟨Wf.apply h.1 allowed, h.2.apply h.1 allowed present⟩
    have first : Tracked cfg [] (start roster spent) := by simp [Tracked, start]
    exact run.history ⟨Wf.start roster spent, first⟩ preserved present
  obtain ⟨hwf, tracked⟩ := hboth
  obtain ⟨ha, e, auth, he, hchanged, hauth, rfl, _, _, hafter⟩ := mem_new_insertData hwf hq
  obtain ⟨p, hp, _, hset⟩ := tracked i a e ha he hchanged
  rw [hp] at hauth
  exact ⟨p, e, hp, (steamIdOf_of_authOf hauth).symm, hafter, hset⟩

/-- A delivery of the past brought `value` into the slot of the player with this serial. -/
def LoadedDuring (cfg : Config) (past : List (Server × Event)) (i serial : ℕ)
    (value : Bytes) : Prop :=
  ∃ x ∈ past, ∃ p rows, x.1.roster i = some p ∧ p.serial = serial ∧
    Delivers cfg x.1 i rows x.2 ∧ ∃ row ∈ rows, storedValue row.2 = value

/-- The slot is still empty when the value is set; then a player connects and is authorized. -/
def setBeforeConnect : List Event :=
  registration ++ [.setCookieValue 0 1 (bytes "on") 0, .connect 1 newcomer7, .authorize 1]

lemma setBeforeConnect_playable : Playable oneSlot vacant setBeforeConnect := by
  refine registration_playable.append ⟨⟨by decide, client_one⟩, ?_, ?_, trivial⟩
  · exact ⟨client_one, by decide, rfl, by decide⟩
  · exact ⟨newcomer7, by decide, by decide, rfl, rfl⟩

theorem saves_foreign_value : ¬ ∀ (cfg : Config) (roster : ℕ → Option Player) (spent : List ℕ)
    (trace : List (Server × Event)) (s : Server) (i : ℕ) (sid : Bytes) (id : ℤ) (a : DataRef),
    Host cfg (start roster spent) → Run (Step cfg) (start roster spent) trace s →
    (Event.disconnecting i).Allowed cfg s →
    .insertData sid id a ∈ (onClientDisconnecting cfg s i).sent.drop s.sent.length →
    ∃ p e, s.roster i = some p ∧ sid = steamIdOf p ∧
      (onClientDisconnecting cfg s i).heap a = some e ∧
      (SetDuring cfg trace e.parent i p.serial e.value ∨
        LoadedDuring cfg trace i p.serial e.value) := by
  intro h
  have hsaved : .insertData (bytes "STEAM_1:0:7") 5 0 ∈
      (onClientDisconnecting oneSlot (play oneSlot vacant setBeforeConnect) 1).sent.drop
        (play oneSlot vacant setBeforeConnect).sent.length := by decide
  obtain ⟨p, e, _, _, _, hset | hloaded⟩ := h oneSlot _ _ _ _ 1 _ _ _ host_start_vacant
    (play_run setBeforeConnect_playable) ⟨client_one, by decide, by decide⟩ hsaved
  · obtain ⟨x, hx, p, v, hp, _, hsets, _⟩ := hset
    simp only [setBeforeConnect, registration, List.cons_append, List.nil_append, enactTrace,
      List.mem_cons, List.not_mem_nil, or_false] at hx
    rcases hx with rfl | rfl | rfl | rfl | rfl
    · exact hsets.elim
    · exact hsets.elim
    · have hsome := Option.isSome_iff_exists.mpr ⟨p, hp⟩
      revert hsome
      decide
    · exact hsets.elim
    · exact hsets.elim
  · obtain ⟨x, hx, p, rows, _, _, hdelivers, row, hrow, _⟩ := hloaded
    simp only [setBeforeConnect, registration, List.cons_append, List.nil_append, enactTrace,
      List.mem_cons, List.not_mem_nil, or_false] at hx
    rcases hx with rfl | rfl | rfl | rfl | rfl
    · exact hdelivers.elim
    · obtain ⟨rfl, _⟩ := hdelivers
      cases hrow
    · exact hdelivers.elim
    · exact hdelivers.elim
    · exact hdelivers.elim

def setAfterConnect : List Event :=
  registration ++ [.connect 1 newcomer7, .authorize 1, .setCookieValue 0 1 (bytes "on") 0]

lemma setAfterConnect_playable : Playable oneSlot vacant setAfterConnect := by
  refine registration_playable.append ⟨?_, ?_, ⟨by decide, client_one⟩, trivial⟩
  · exact ⟨client_one, by decide, rfl, by decide⟩
  · exact ⟨newcomer7, by decide, by decide, rfl, rfl⟩

theorem saves_own_value : ∃ p e,
    (play oneSlot vacant setAfterConnect).roster 1 = some p ∧ bytes "STEAM_1:0:7" = steamIdOf p ∧
    (onClientDisconnecting oneSlot (play oneSlot vacant setAfterConnect) 1).heap 0 = some e ∧
    SetDuring oneSlot (playTrace oneSlot vacant setAfterConnect) e.parent 1 p.serial e.value := by
  have hsaved : .insertData (bytes "STEAM_1:0:7") 5 0 ∈
      (onClientDisconnecting oneSlot (play oneSlot vacant setAfterConnect) 1).sent.drop
        (play oneSlot vacant setAfterConnect).sent.length := by decide
  refine saves_isolated (play_run setAfterConnect_playable) ?_ hsaved
  intro x hx c i v hsets
  simp only [setAfterConnect, registration, List.cons_append, List.nil_append, enactTrace,
    List.mem_cons, List.not_mem_nil, or_false] at hx
  rcases hx with rfl | rfl | rfl | rfl | rfl
  · exact hsets.elim
  · exact hsets.elim
  · exact hsets.elim
  · exact hsets.elim
  · obtain ⟨_, rfl, _⟩ := hsets
    exact ⟨by decide, by decide⟩

end ClientPrefs.SaveIsolation
