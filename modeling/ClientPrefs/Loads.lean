import ClientPrefs.Session
import Mathlib.Data.List.Find

/-!
# The load loop

What `ClientConnectCallback` stores, where, and which cookie each row goes to.
-/
namespace ClientPrefs.Loads
open ByteStrings Cookies CookieManager Session SlotTables

variable {cfg : Config} {s : Server} {i : ℕ} {P : CookieData → Prop}

/-- From `s` to `t` nothing but new values satisfying `P` was stored, all in slot `i`. -/
structure Stores (i : ℕ) (P : CookieData → Prop) (s t : Server) : Prop where
  next : s.nextData ≤ t.nextData
  kept : ∀ a, a < s.nextData → t.heap a = s.heap a
  stored : ∀ a e, s.nextData ≤ a → t.heap a = some e → P e
  clientData : ∀ j a, a ∈ t.clientData j → a ∈ s.clientData j ∨ j = i ∧ s.nextData ≤ a
  data : ∀ c j a, (t.cookies c).data j = some a →
    (s.cookies c).data j = some a ∨ j = i ∧ s.nextData ≤ a

lemma Stores.refl (h : Wf s) : Stores i P s s where
  next := le_rfl
  kept _ _ := rfl
  stored a e ha he := by
    rw [h.born a ha] at he
    cases he
  clientData _ _ ha := .inl ha
  data _ _ _ ha := .inl ha

lemma Stores.trans {t u : Server} (first : Stores i P s t) (second : Stores i P t u) :
    Stores i P s u where
  next := first.next.trans second.next
  kept a ha := (second.kept a (ha.trans_le first.next)).trans (first.kept a ha)
  stored a e ha he := by
    rcases Nat.lt_or_ge a t.nextData with hlt | hge
    · exact first.stored a e ha ((second.kept a hlt).symm.trans he)
    · exact second.stored a e hge he
  clientData j a ha := by
    rcases second.clientData j a ha with ha | ⟨hj, ha⟩
    · exact first.clientData j a ha
    · exact .inr ⟨hj, first.next.trans ha⟩
  data c j a ha := by
    rcases second.data c j a ha with ha | ⟨hj, ha⟩
    · exact first.data c j a ha
    · exact .inr ⟨hj, first.next.trans ha⟩

lemma Stores.createCookie (h : Wf s) (name description : Bytes) (access : CookieAccess) :
    Stores i P s (createCookie cfg s name description access).1 := by
  have same : Stores i P s s := Stores.refl h
  unfold CookieManager.createCookie
  split
  · next c _ =>
    refine ⟨le_rfl, fun _ _ => rfl, same.stored, fun _ _ ha => .inl ha, ?_⟩
    intro d j a ha
    by_cases hd : d = c
    · subst hd
      exact .inl (by simpa [Server.modifyCookie] using ha)
    · exact .inl (by simpa [Server.modifyCookie, hd] using ha)
  · refine ⟨le_rfl, fun _ _ => rfl, same.stored, fun _ _ ha => .inl ha, ?_⟩
    intro d j a ha
    by_cases hd : d = s.cookieCount
    · simp [Server.addQueryToQueue, hd, Cookie.new] at ha
    · exact .inl (by simpa [Server.addQueryToQueue, hd] using ha)

lemma Stores.linkData (h : Wf s) (c : CookieRef) {e : CookieData} (he : P e) :
    Stores i P s (linkData s c i e) where
  next := Nat.le_succ _
  kept a ha := by
    rw [linkData_heap]
    exact Function.update_of_ne ha.ne ..
  stored a e' ha he' := by
    by_cases hnext : a = s.nextData
    · obtain rfl : e = e' := by simpa [hnext] using he'
      exact he
    · rw [linkData_heap, Function.update_of_ne hnext, h.born a ha] at he'
      cases he'
  clientData j a ha := by
    rcases mem_linkData.mp ha with ha | ⟨hj, rfl⟩
    · exact .inl ha
    · exact .inr ⟨hj, le_rfl⟩
  data d j a ha := by
    rw [linkData_data] at ha
    split_ifs at ha with hd
    · exact .inr ⟨hd.2, (Option.some.inj ha).le⟩
    · exact .inl ha

lemma Stores.loadRow (h : Wf s) {row : Cookie × Bytes}
    (hrow : ∀ c, P ⟨storedValue row.2, false, 0, c⟩) :
    Stores i P s (loadRow cfg i s row) := by
  have hfind : Stores i P s (findOrCreate cfg s row.1).1 := by
    unfold findOrCreate
    split
    · exact Stores.refl h
    · exact Stores.createCookie h _ _ _
  exact hfind.trans (Stores.linkData (h.findOrCreate row.1) _ (hrow _))

lemma Stores.loadRows (h : Wf s) {rows : List (Cookie × Bytes)}
    (hrows : ∀ row ∈ rows, ∀ c, P ⟨storedValue row.2, false, 0, c⟩) :
    Stores i P s (rows.foldl (CookieManager.loadRow cfg i) s) := by
  induction rows generalizing s with
  | nil => exact Stores.refl h
  | cons row rows ih =>
    have hfirst : Stores i P s (CookieManager.loadRow cfg i s row) :=
      Stores.loadRow h (hrows row (List.mem_cons_self ..))
    exact hfirst.trans (ih (h.loadRow i row) fun r hr => hrows r (List.mem_cons_of_mem _ hr))

/-- The host finds the slot of a serial, or reports 0 when nobody has it. -/
theorem getClientFromSerial_spec (hhost : Host cfg s) (k : ℕ) :
    (getClientFromSerial cfg s k = 0 ∧ ∀ i p, s.roster i = some p → p.serial ≠ k) ∨
      getClientFromSerial cfg s k ≠ 0 ∧
        ∃ p, s.roster (getClientFromSerial cfg s k) = some p ∧ p.serial = k := by
  unfold getClientFromSerial
  cases hf : (List.range' 1 cfg.maxClients).find?
      fun i => (s.roster i).any fun p => p.serial = k with
  | none =>
    refine .inl ⟨rfl, fun i p hp hk => ?_⟩
    obtain ⟨hlo, hhi⟩ := hhost.range i p hp
    have hmem : i ∈ List.range' 1 cfg.maxClients := List.mem_range'_1.mpr ⟨hlo, by omega⟩
    have hnone := List.find?_eq_none.mp hf i hmem
    simp [hp, hk] at hnone
  | some i =>
    have hmem := List.mem_range'_1.mp (List.mem_of_find?_eq_some hf)
    have hany := List.find?_some hf
    have hpos : (some i).getD 0 ≠ 0 := by
      rw [Option.getD_some]
      omega
    cases hp : s.roster i with
    | none => simp [hp] at hany
    | some p =>
      refine .inr ⟨hpos, p, hp, ?_⟩
      simpa [hp] using hany

section Names
variable {cfg : Config} {s : Server}

lemma findCookie_name {name : Bytes} {c : CookieRef} (h : findCookie cfg s name = some c) :
    (s.cookies c).name = cstr name := by
  simp only [findCookie, Option.map_eq_some_iff] at h
  obtain ⟨e, he, rfl⟩ := h
  have hfound := List.find?_some he
  simp only [decide_eq_true_eq] at hfound
  exact hfound.2

lemma findCookie_linkData (c : CookieRef) (i : ℕ) (e : CookieData) (name : Bytes) :
    findCookie cfg (linkData s c i e) name = findCookie cfg s name := by
  have hname : ∀ d, ((linkData s c i e).cookies d).name = (s.cookies d).name := by
    intro d
    by_cases hd : d = c
    · simp [linkData, Server.setData, Server.modifyCookie, Server.appendData, Server.newData, hd]
    · simp [linkData, Server.setData, Server.modifyCookie, Server.appendData, Server.newData, hd]
  have hfinder : (linkData s c i e).cookieFinder = s.cookieFinder := rfl
  simp only [findCookie, hname, hfinder]

lemma findCookie_append {t : Server} {e : UInt32 × CookieRef}
    (hfinder : t.cookieFinder = s.cookieFinder ++ [e])
    (hname : ∀ x ∈ s.cookieFinder, (t.cookies x.2).name = (s.cookies x.2).name) (name : Bytes) :
    findCookie cfg t name = (findCookie cfg s name).or
      (if e.1 = cfg.nameHash (cstr name) ∧ (t.cookies e.2).name = cstr name then some e.2
        else none) := by
  have hold : s.cookieFinder.find? (fun x =>
        x.1 = cfg.nameHash (cstr name) ∧ (t.cookies x.2).name = cstr name) =
      s.cookieFinder.find? fun x =>
        x.1 = cfg.nameHash (cstr name) ∧ (s.cookies x.2).name = cstr name :=
    List.find?_congr fun x hx => by simp [hname x hx]
  unfold findCookie
  rw [hfinder, List.find?_append, Option.map_or, hold, List.find?_singleton]
  congr 1
  split_ifs <;> simp_all

lemma findCookie_createCookie (h : Wf s) {name description : Bytes} {access : CookieAccess}
    (hnone : findCookie cfg s name = none) (other : Bytes) :
    findCookie cfg (createCookie cfg s name description access).1 other =
      (findCookie cfg s other).or
        (if cfg.nameHash (cstr name) = cfg.nameHash (cstr other) ∧
          utilStrncpy (some name) maxNameLength = cstr other then some s.cookieCount
        else none) := by
  simp only [createCookie, hnone]
  rw [findCookie_append (e := (cfg.nameHash (cstr name), s.cookieCount)) rfl]
  · simp [Server.addQueryToQueue, Cookie.new]
  · intro x hx
    have hne : x.2 ≠ s.cookieCount := (h.filed x hx).ne
    simp [Server.addQueryToQueue, hne]

variable {row : Cookie × Bytes} {i : ℕ}

lemma findCookie_loadRow (h : Wf s) (other : Bytes) :
    findCookie cfg (loadRow cfg i s row) other =
      (findCookie cfg s other).or (if findCookie cfg s row.1.name = none ∧
        cfg.nameHash (cstr row.1.name) = cfg.nameHash (cstr other) ∧
        utilStrncpy (some row.1.name) maxNameLength = cstr other
        then some s.cookieCount else none) := by
  have hlink : findCookie cfg (loadRow cfg i s row) other =
      findCookie cfg (findOrCreate cfg s row.1).1 other := findCookie_linkData ..
  rw [hlink]
  unfold findOrCreate
  cases hf : findCookie cfg s row.1.name with
  | some c => simp
  | none =>
    dsimp only
    rw [findCookie_createCookie h hf]
    simp

theorem findCookie_loadRow_iff (h : Wf s) {c : CookieRef} (hc : c < s.cookieCount)
    (other : Bytes) : findCookie cfg (loadRow cfg i s row) other = some c ↔
      findCookie cfg s other = some c := by
  rw [findCookie_loadRow h]
  cases hf : findCookie cfg s other with
  | some d => simp
  | none =>
    rw [Option.none_or]
    split_ifs
    · have hne : s.cookieCount ≠ c := hc.ne'
      simp [hne]
    · simp

lemma findCookie_loadRow_of_ne (h : Wf s) {other : Bytes} (hrow : Whole row.1.name)
    (hother : Whole other) (hne : row.1.name ≠ other) :
    findCookie cfg (loadRow cfg i s row) other = findCookie cfg s other := by
  have hnot : utilStrncpy (some row.1.name) maxNameLength ≠ cstr other := by
    rw [hother.cut, hrow]
    exact hne
  rw [findCookie_loadRow h, if_neg fun hall => hnot hall.2.2, Option.or_none]

lemma findCookie_loadRow_self (h : Wf s) (hrow : Whole row.1.name) :
    findCookie cfg (loadRow cfg i s row) row.1.name = some (findOrCreate cfg s row.1).2 := by
  rw [findCookie_loadRow h]
  unfold findOrCreate
  cases hf : findCookie cfg s row.1.name with
  | some c => simp
  | none =>
    have hself : utilStrncpy (some row.1.name) maxNameLength = row.1.name := hrow
    simp [hrow.cut, hself, createCookie, hf]

theorem findOrCreate_snd_iff {c : CookieRef} (hc : c < s.cookieCount) (k : Cookie) :
    (findOrCreate cfg s k).2 = c ↔ findCookie cfg s k.name = some c := by
  unfold findOrCreate
  cases hf : findCookie cfg s k.name with
  | some d => simp
  | none =>
    have hne : s.cookieCount ≠ c := hc.ne'
    simp [createCookie, hf, hne]

lemma findOrCreate_cookieCount (k : Cookie) :
    s.cookieCount ≤ (findOrCreate cfg s k).1.cookieCount := by
  unfold findOrCreate
  cases hf : findCookie cfg s k.name with
  | some d => exact le_rfl
  | none =>
    simp only [createCookie, hf]
    exact Nat.le_succ _

end Names

end ClientPrefs.Loads
