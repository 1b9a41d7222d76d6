import ClientPrefs.MenuChoices
import ClientPrefs.Natives
import Mathlib.Data.FinEnum
import Mathlib.Data.Set.Card

/-!
# What plugins can do is a session

Handles, iterators and menus stay in order whatever plugins call and players choose, so that the
server runs a session and the menus run as they do on their own.
-/
namespace ClientPrefs.PluginSessions
open ByteStrings CookieIds Cookies LateLoad MenuChoices Natives SlotTables Transition
open CookieManager hiding setAuthIdCookie
open Session hiding start
open SlotAccesses (invalidClient index_of_valid)

noncomputable def handlesOf {κ ω : Type*} (handles : κ → Option ω) (object : ω) : ℕ :=
  {hndl | handles hndl = some object}.ncard

/-- The host counts the handles of each iterator, and the iterators that are there are those with a
handle. -/
structure Cursors (handles : Int32 → Option Object) (refcount : ℕ → ℕ)
    (iterators : ℕ → Option ℕ) (next : ℕ) : Prop where
  counted : ∀ a, refcount a = handlesOf handles (.iterator a)
  live : ∀ a, (iterators a).isSome = true ↔ 0 < refcount a
  fresh : ∀ a, next ≤ a → refcount a = 0

/-- Handles lead to objects that are there. What the menus hold was tested when it came in. -/
structure Valid (S : Setup) (p : Plugins) : Prop where
  badHandle : p.handles 0 = none
  cookies : ∀ hndl c, p.handles hndl = some (.cookie c) → c < p.server.cookieCount
  cursors : Cursors p.handles p.refcount p.iterators p.nextIterator
  passed : ∀ a n, p.iterators a = some n → n ≤ p.server.cookieCount
  items : ∀ a d c, p.menus.data a = some d → d.pCookie = some c → c < p.server.cookieCount
  players : ∀ menu sub, p.menus.submenus menu = some sub → Client S.cfg sub.client

section Definitions
variable (S : Setup)

/-- The event of the menus that an act amounts to, if there is one. -/
def menuEvent (p : Plugins) : Act → Option SettingsMenu.Event
  | .native (.setCookieMenuItem plugin display datavalue) =>
    some (.addSettingsMenuItem plugin display datavalue)
  | .native (.setCookiePrefabMenu plugin hndl type display callback datavalue) =>
    match readCookie S p hndl with
    | .error _ => none
    | .ok c => some (.addSettingsPrefabMenuItem plugin c type display callback datavalue)
  | .clientMenuSelect client item => some (.clientMenuSelect client item)
  | .autoMenuSelect menu item _ => some (.autoMenuSelect menu item)
  | .autoMenuEnd menu => some (.autoMenuEnd menu)
  | .pluginDestroyed plugin => some (.pluginDestroyed plugin)
  | _ => none

end Definitions

/-- What an act does besides what it does to the server, which becomes `t`. -/
inductive Frame (S : Setup) (p : Plugins) : Act → Plugins → Prop
  | server (act : Act) (t : Server) (menu : menuEvent S p act = none) :
      Frame S p act { p with server := t }
  | menus (act : Act) (t : Server) (e : SettingsMenu.Event) (m : SettingsMenu.Menus)
      (menu : menuEvent S p act = some e) (step : SettingsMenu.Step p.menus e m) :
      Frame S p act { p with server := t, menus := m }
  | cookie (act : Act) (t : Server) (hndl : Int32) (c : CookieRef) (made : hndl ≠ 0)
      (free : act.Allowed S p → p.handles hndl = none)
      (registered : Wf p.server → c < t.cookieCount) (menu : menuEvent S p act = none) :
      Frame S p act
        { p with server := t, handles := Function.update p.handles hndl (some (.cookie c)) }
  | unopened (t : Server) : Frame S p (.native (.getCookieIterator 0)) { p with
      server := t
      iterators := Function.update p.iterators p.nextIterator none
      nextIterator := p.nextIterator + 1 }
  | opened (t : Server) (hndl : Int32) (made : hndl ≠ 0) :
      Frame S p (.native (.getCookieIterator hndl)) { p with
        server := t
        handles := Function.update p.handles hndl (some (.iterator p.nextIterator))
        refcount := Function.update p.refcount p.nextIterator (p.refcount p.nextIterator + 1)
        iterators := Function.update p.iterators p.nextIterator (some 0)
        nextIterator := p.nextIterator + 1 }
  | passed (t : Server) (hndl : Int32) (a n : ℕ) (holds : p.handles hndl = some (.iterator a))
      (at_n : p.iterators a = some n) (next : n < p.server.cookieCount) :
      Frame S p (.native (.readCookieIterator hndl))
        { p with server := t, iterators := Function.update p.iterators a (some (n + 1)) }
  | titled (t : Server) (client : Int32) (title : Bytes) :
      Frame S p (.native (.showCookieMenu client))
        { p with server := t, title := title, displayed := p.displayed ++ [client] }
  | cloned (hndl copy : Int32) (object : Object) (made : copy ≠ 0)
      (holds : p.handles hndl = some object) :
      Frame S p (.clone hndl copy) { p with
        handles := Function.update p.handles copy (some object)
        refcount := object.retain p.refcount }
  | released (hndl : Int32) (object : Object) (holds : p.handles hndl = some object)
      (stays : ∀ a, object = .iterator a → 1 < p.refcount a) :
      Frame S p (.close hndl) { p with
        handles := Function.update p.handles hndl none
        refcount := object.release p.refcount }
  | closed (hndl : Int32) (a : ℕ) (holds : p.handles hndl = some (.iterator a))
      (last : p.refcount a ≤ 1) :
      Frame S p (.close hndl) { p with
        handles := Function.update p.handles hndl none
        refcount := Function.update p.refcount a (p.refcount a - 1)
        iterators := Function.update p.iterators a none }

variable {S : Setup} {p q : Plugins} {answer : Answer} {act : Act}

lemma readCookie_ok {hndl : Int32} {c : CookieRef} (h : readCookie S p hndl = .ok c) :
    p.handles hndl = some (.cookie c) := by
  unfold readCookie at h
  split at h
  · next d hd =>
    obtain rfl := Except.ok.inj h
    exact hd
  · cases h

lemma readIterator_ok {hndl : Int32} {a : ℕ} (h : readIterator S p hndl = .ok a) :
    p.handles hndl = some (.iterator a) := by
  unfold readIterator at h
  split at h
  · next b hb =>
    obtain rfl := Except.ok.inj h
    exact hb
  · cases h

lemma createHandle_server (p : Plugins) (hndl : Int32) (object : Object) :
    (createHandle p hndl object).server = p.server := by
  unfold createHandle
  split_ifs <;> rfl

/-- The events are allowed, and lead from the server of `p` to that of `q`. -/
def Plays (S : Setup) (p : Plugins) (es : List Event) (q : Plugins) : Prop :=
  Playable S.cfg p.server es ∧ q.server = play S.cfg p.server es

lemma plays_reconnect (h : q.server = attemptReconnection S.cfg p.server) :
    Plays S p [.reconnect] q := ⟨⟨trivial, trivial⟩, h⟩

lemma plays_value (valid : Valid S p) {client hndl : Int32} (event : CookieRef → ℕ → Event)
    (allowed : ∀ s c i, c < s.cookieCount → Client S.cfg i → (event c i).Allowed S.cfg s)
    (result : q.server = if invalidClient S.cfg client then attemptReconnection S.cfg p.server
      else
        match readCookie S p hndl with
        | .error _ => attemptReconnection S.cfg p.server
        | .ok c => (event c client.toInt.toNat).apply S.cfg
            (attemptReconnection S.cfg p.server)) :
    Plays S p (valueEvents S p client hndl event) q := by
  unfold valueEvents
  cases hvalid : invalidClient S.cfg client with
  | true =>
    simp only [hvalid, if_true] at result ⊢
    exact plays_reconnect result
  | false =>
    simp only [hvalid, Bool.false_eq_true, if_false] at result ⊢
    cases hread : readCookie S p hndl with
    | error err =>
      simp only [hread] at result ⊢
      exact plays_reconnect result
    | ok c =>
      simp only [hread] at result ⊢
      obtain ⟨i, hi, low, high⟩ := index_of_valid hvalid
      have count : (attemptReconnection S.cfg p.server).cookieCount = p.server.cookieCount := by
        rw [attemptReconnection_eq]
        rfl
      have hc := valid.cookies hndl c (readCookie_ok hread)
      rw [hi, Int.toNat_natCast] at result ⊢
      exact ⟨⟨trivial, allowed _ c i (count ▸ hc) ⟨low, high⟩, trivial⟩, result⟩

lemma plays_call (valid : Valid S p) {n : Native} (h : call S p n = some (q, answer)) :
    Plays S p (nativeEvents S p n) q := by
  cases n with
  | regClientCookie name description access hndl =>
    simp only [call, regClientPrefCookie, Option.some.injEq] at h
    simp only [nativeEvents]
    split_ifs at h ⊢
    · obtain ⟨rfl, _⟩ := Prod.mk.inj h
      exact plays_reconnect rfl
    · obtain ⟨rfl, _⟩ := Prod.mk.inj h
      exact ⟨⟨trivial, trivial, trivial⟩, createHandle_server ..⟩
  | findClientCookie name hndl =>
    simp only [call, findClientPrefCookie, Option.some.injEq] at h
    split at h
    · obtain ⟨rfl, _⟩ := Prod.mk.inj h
      exact plays_reconnect rfl
    · obtain ⟨rfl, _⟩ := Prod.mk.inj h
      exact plays_reconnect (createHandle_server ..)
  | setAuthIdCookie authId hndl value now =>
    simp only [call, Natives.setAuthIdCookie] at h
    simp only [nativeEvents]
    cases hread : readCookie S p hndl with
    | error err =>
      simp only [hread] at h ⊢
      obtain ⟨rfl, _⟩ := Prod.mk.inj (Option.some.inj h)
      exact plays_reconnect rfl
    | ok c =>
      simp only [hread] at h ⊢
      obtain ⟨t, ht, heq⟩ := Option.map_eq_some_iff.mp h
      obtain ⟨rfl, _⟩ := Prod.mk.inj heq
      have hc := valid.cookies hndl c (readCookie_ok hread)
      refine ⟨⟨⟨hc, by rw [ht]; rfl⟩, trivial⟩, ?_⟩
      simp only [play, enact, List.foldl_cons, List.foldl_nil, Event.apply, ht, Option.getD_some]
  | setClientCookie client hndl value now =>
    simp only [call, setClientPrefCookie, onServer, setClientPrefCookie_server S.room,
      Option.map_some, Option.some.injEq] at h
    obtain ⟨rfl, _⟩ := Prod.mk.inj h
    apply plays_value valid (.setCookieValue · · value now) fun _ _ _ hc hi => ⟨hc, hi⟩
    dsimp only
    split_ifs
    · rfl
    · cases readCookie S p hndl <;> rfl
  | getClientCookie client hndl =>
    simp only [call, getClientPrefCookie, onServer, getClientPrefCookie_server S.room,
      Option.map_some, Option.some.injEq] at h
    obtain ⟨rfl, _⟩ := Prod.mk.inj h
    apply plays_value valid .getCookieValue fun _ _ _ hc hi => ⟨hc, hi⟩
    dsimp only
    split_ifs
    · rfl
    · cases readCookie S p hndl <;> rfl
  | areClientCookiesCached client =>
    simp only [call, areClientCookiesCached, onServer, areClientCookiesCached_server S.room,
      Option.map_some, Option.some.injEq] at h
    obtain ⟨rfl, _⟩ := Prod.mk.inj h
    exact plays_reconnect rfl
  | getCookieAccess hndl =>
    simp only [call, getCookieAccess, Option.some.injEq] at h
    split at h
    · obtain ⟨rfl, _⟩ := Prod.mk.inj h
      exact plays_reconnect rfl
    · obtain ⟨rfl, _⟩ := Prod.mk.inj h
      exact plays_reconnect rfl
  | getCookieIterator hndl =>
    simp only [call, getCookieIterator, Option.some.injEq] at h
    split_ifs at h
    · obtain ⟨rfl, _⟩ := Prod.mk.inj h
      exact plays_reconnect rfl
    · obtain ⟨rfl, _⟩ := Prod.mk.inj h
      exact plays_reconnect (createHandle_server ..)
  | readCookieIterator hndl =>
    simp only [call, readCookieIterator] at h
    split at h
    · obtain ⟨rfl, _⟩ := Prod.mk.inj (Option.some.inj h)
      exact plays_reconnect rfl
    · obtain ⟨iter, _, heq⟩ := Option.map_eq_some_iff.mp h
      split_ifs at heq
      · obtain ⟨rfl, _⟩ := Prod.mk.inj heq
        exact plays_reconnect rfl
      · obtain ⟨rfl, _⟩ := Prod.mk.inj heq
        exact plays_reconnect rfl
  | showCookieMenu client =>
    obtain ⟨_, _, heq⟩ := Option.map_eq_some_iff.mp h
    obtain ⟨rfl, _⟩ := Prod.mk.inj heq
    exact plays_reconnect rfl
  | setCookieMenuItem plugin display datavalue =>
    obtain ⟨rfl, _⟩ := Prod.mk.inj (Option.some.inj h)
    exact plays_reconnect rfl
  | setCookiePrefabMenu plugin hndl type display callback datavalue =>
    simp only [call, addSettingsPrefabMenuItem, Option.some.injEq] at h
    split at h
    · obtain ⟨rfl, _⟩ := Prod.mk.inj h
      exact plays_reconnect rfl
    · obtain ⟨rfl, _⟩ := Prod.mk.inj h
      exact plays_reconnect rfl
  | getClientCookieTime client hndl =>
    simp only [call, getClientCookieTime, onServer] at h
    rcases @getClientCookieTime_server S.cfg S.maxPlayers p.server (readCookie S p) client hndl
      S.room with ⟨none, _⟩ | ⟨⟨time, htime⟩, _⟩
    · simp [none] at h
    · simp only [htime, Option.map_some, Option.some.injEq] at h
      obtain ⟨rfl, _⟩ := Prod.mk.inj h
      exact plays_reconnect rfl

lemma choice_of_select {m : SettingsMenu.Menus} {menu item : ℕ} {c : CookieRef} {i : ℕ}
    {v : Bytes} (h : SettingsMenu.autoMenuSelect m menu item = some (c, i, v)) :
    (∃ a d, m.data a = some d ∧ d.pCookie = some c) ∧
      ∃ sub, m.submenus menu = some sub ∧ sub.client = i := by
  simp only [SettingsMenu.autoMenuSelect, Option.bind_eq_bind, Option.bind_eq_some_iff,
    Option.some.injEq, Prod.mk.injEq] at h
  obtain ⟨sub, hsub, info, _, d, hd, _, _, _, hc, rfl, hi, _⟩ := h
  exact ⟨⟨info, d, hd, hc⟩, sub, hsub, hi⟩

lemma closeHandle_server {hndl : Int32} (h : closeHandle p hndl = some q) :
    q.server = p.server := by
  unfold closeHandle at h
  split at h
  · obtain rfl := Option.some.inj h
    rfl
  · next object _ =>
    dsimp only at h
    split_ifs at h
    · obtain rfl := Option.some.inj h
      rfl
    · cases object with
      | cookie c =>
        obtain rfl := Option.some.inj h
        rfl
      | iterator a =>
        obtain ⟨_, _, rfl⟩ := Option.map_eq_some_iff.mp h
        rfl

lemma clientMenuSelect_eq {client item : ℕ}
    (h : Natives.clientMenuSelect S p client item = some (q, answer)) :
    ∃ m, SettingsMenu.clientMenuSelect p.menus client item = some m ∧ q = { p with menus := m } := by
  obtain ⟨m, hm, h⟩ := Option.bind_eq_some_iff.mp h
  refine ⟨m, hm, ?_⟩
  split at h
  · exact (Prod.mk.inj (Option.some.inj h)).1.symm
  · obtain ⟨_, _, heq⟩ := Option.map_eq_some_iff.mp h
    exact (Prod.mk.inj heq).1.symm

lemma clientMenuDisplay_eq {item : ℕ} {text : Bytes}
    (h : clientMenuDisplay p item text = some (q, answer)) : q = p := by
  simp only [clientMenuDisplay, Option.bind_eq_bind, Option.bind_eq_some_iff, Option.some.injEq,
    Prod.mk.injEq] at h
  obtain ⟨_, _, _, _, _, _, same, _⟩ := h
  exact same.symm

lemma autoMenuSelect_eq {menu item now : ℕ}
    (h : Natives.autoMenuSelect S p menu item now = some (q, answer)) :
    ∃ c i v, SettingsMenu.autoMenuSelect p.menus menu item = some (c, i, v) ∧
      q = { p with server :=
        (getCookieValue (CookieManager.setCookieValue p.server c i v now) c i).1 } := by
  obtain ⟨⟨c, i, v⟩, hchoice, h⟩ := Option.bind_eq_some_iff.mp h
  obtain ⟨_, _, heq⟩ := Option.map_eq_some_iff.mp h
  exact ⟨c, i, v, hchoice, (Prod.mk.inj heq).1.symm⟩

/-- Every act amounts to events that a session allows. -/
theorem plays_act (valid : Valid S p) (allowed : act.Allowed S p)
    (h : perform S p act = some (q, answer)) : Plays S p (eventsOf S p act) q := by
  have stays : ∀ {r : Plugins}, r.server = p.server → Plays S p [] r := fun h => ⟨trivial, h⟩
  cases act with
  | native n => exact plays_call valid h
  | host e =>
    obtain ⟨rfl, _⟩ := Prod.mk.inj (Option.some.inj h)
    exact ⟨⟨allowed.2, trivial⟩, rfl⟩
  | clone hndl copy =>
    obtain ⟨rfl, _⟩ := Prod.mk.inj (Option.some.inj h)
    apply stays
    unfold cloneHandle
    split
    · rfl
    · exact createHandle_server ..
  | close hndl =>
    obtain ⟨r, hr, heq⟩ := Option.map_eq_some_iff.mp h
    obtain ⟨rfl, _⟩ := Prod.mk.inj heq
    exact stays (closeHandle_server hr)
  | clientMenuSelect client item =>
    obtain ⟨m, _, rfl⟩ := clientMenuSelect_eq h
    exact stays rfl
  | clientMenuDisplay item text =>
    obtain rfl := clientMenuDisplay_eq h
    exact stays rfl
  | autoMenuSelect menu item now =>
    obtain ⟨c, i, v, hchoice, rfl⟩ := autoMenuSelect_eq h
    obtain ⟨⟨a, d, hd, hcookie⟩, sub, hsub, rfl⟩ := choice_of_select hchoice
    have hc := valid.items a d c hd hcookie
    have hi := valid.players menu sub hsub
    have count : (CookieManager.setCookieValue p.server c sub.client v now).cookieCount =
        p.server.cookieCount := by
      unfold CookieManager.setCookieValue
      split <;> rfl
    simp only [eventsOf, hchoice]
    exact ⟨⟨⟨hc, hi⟩, ⟨count.symm ▸ hc, hi⟩, trivial⟩, rfl⟩
  | autoMenuEnd menu =>
    obtain ⟨rfl, _⟩ := Prod.mk.inj (Option.some.inj h)
    exact stays rfl
  | pluginDestroyed plugin =>
    obtain ⟨rfl, _⟩ := Prod.mk.inj (Option.some.inj h)
    exact stays rfl

lemma grows_of_playable {s : Server} {es : List Event} (h : Wf s) (playable : Playable S.cfg s es) :
    Wf (play S.cfg s es) ∧ s.cookieCount ≤ (play S.cfg s es).cookieCount := by
  induction es generalizing s with
  | nil => exact ⟨h, le_rfl⟩
  | cons e es ih =>
    obtain ⟨allowed, rest⟩ := playable
    obtain ⟨wf, le⟩ := ih (Wf.apply h allowed) rest
    exact ⟨wf, (Extends.apply h allowed).count.trans le⟩

lemma grows_of_plays {es : List Event} (h : Wf p.server) (plays : Plays S p es q) :
    Wf q.server ∧ p.server.cookieCount ≤ q.server.cookieCount := by
  rw [plays.2]
  exact grows_of_playable h plays.1

section Cursors
variable {handles : Int32 → Option Object} {refcount : ℕ → ℕ} {iterators : ℕ → Option ℕ}
  {next : ℕ} {hndl : Int32} {a : ℕ}

lemma handlesOf_update {κ ω : Type*} [Finite κ] [DecidableEq κ] [DecidableEq ω]
    (handles : κ → Option ω) (k : κ) (v : Option ω) (object : ω) :
    handlesOf (Function.update handles k v) object + (if handles k = some object then 1 else 0) =
      handlesOf handles object + if v = some object then 1 else 0 := by
  have others : {h | Function.update handles k v h = some object} \ {k} =
      {h | handles h = some object} \ {k} := by
    ext h
    refine and_congr_left fun hne => ?_
    rw [Set.mem_ofPred_eq, Set.mem_ofPred_eq, Function.update_of_ne hne]
  have split (f : κ → Option ω) : handlesOf f object =
      ({h | f h = some object} \ {k}).ncard + if f k = some object then 1 else 0 := by
    unfold handlesOf
    by_cases hk : f k = some object
    · have mem : k ∈ {h | f h = some object} := hk
      rw [if_pos hk, Set.ncard_sdiff_singleton_add_one mem]
    · have mem : k ∉ {h | f h = some object} := hk
      rw [if_neg hk, Set.sdiff_singleton_eq_self mem, Nat.add_zero]
  rw [split, split handles, others, Function.update_self]
  omega

lemma Cursors.pos (h : Cursors handles refcount iterators next)
    (holds : handles hndl = some (.iterator a)) : 0 < refcount a := by
  rw [h.counted]
  exact (Set.ncard_pos).mpr ⟨hndl, holds⟩

lemma Cursors.there (h : Cursors handles refcount iterators next)
    (holds : handles hndl = some (.iterator a)) : (iterators a).isSome = true :=
  (h.live a).mpr (h.pos holds)

lemma Cursors.retain (h : Cursors handles refcount iterators next)
    (free : handles hndl = none) (object : Object) (there : ∀ a, object = .iterator a → a < next)
    (live : ∀ a, object = .iterator a → (iterators a).isSome = true) :
    Cursors (Function.update handles hndl (some object)) (object.retain refcount) iterators next := by
  have count (b : ℕ) := handlesOf_update handles hndl (some object) (.iterator b)
  have counted := h.counted
  simp only [free, reduceCtorEq, if_false, Option.some.injEq, Nat.add_zero] at count
  cases object with
  | cookie c =>
    refine ⟨fun b => ?_, h.live, h.fresh⟩
    rw [count, if_neg nofun]
    exact counted b
  | iterator a =>
    refine ⟨fun b => ?_, fun b => ?_, fun b hb => ?_⟩
    · rw [count]
      by_cases hba : b = a
      · subst hba
        simp [Object.retain, counted]
      · simp [Object.retain, counted, hba, Ne.symm hba]
    · by_cases hba : b = a
      · subst hba
        simp [Object.retain, live b rfl]
      · simp [Object.retain, hba, h.live]
    · have hba : b ≠ a := by
        rintro rfl
        exact absurd (there b rfl) (not_lt.mpr hb)
      simp [Object.retain, hba, h.fresh b hb]

lemma Cursors.new (h : Cursors handles refcount iterators next) (free : handles hndl = none)
    (n : ℕ) : Cursors (Function.update handles hndl (some (.iterator next)))
      (Function.update refcount next (refcount next + 1)) (Function.update iterators next (some n))
      (next + 1) := by
  have count (b : ℕ) := handlesOf_update handles hndl (some (.iterator next)) (.iterator b)
  simp only [free, reduceCtorEq, if_false, Option.some.injEq, Nat.add_zero] at count
  refine ⟨fun b => ?_, fun b => ?_, fun b hb => ?_⟩
  · rw [count]
    by_cases hb : b = next
    · subst hb
      simp [h.counted]
    · simp [h.counted, hb, Ne.symm hb]
  · by_cases hb : b = next
    · subst hb
      simp
    · simp [hb, h.live]
  · have hne : b ≠ next := by omega
    simp [hne, h.fresh b (by omega)]

lemma Cursors.advance (h : Cursors handles refcount iterators next)
    (live : (iterators a).isSome = true) (n : ℕ) :
    Cursors handles refcount (Function.update iterators a (some n)) next := by
  refine ⟨h.counted, fun b => ?_, h.fresh⟩
  by_cases hba : b = a
  · subst hba
    simp [← h.live, live]
  · simp [hba, h.live]

lemma Cursors.release (h : Cursors handles refcount iterators next) {object : Object}
    (holds : handles hndl = some object) (stays : ∀ a, object = .iterator a → 1 < refcount a) :
    Cursors (Function.update handles hndl none) (object.release refcount) iterators next := by
  have count (b : ℕ) := handlesOf_update handles hndl none (.iterator b)
  have counted := h.counted
  simp only [holds, reduceCtorEq, if_false, Option.some.injEq, Nat.add_zero] at count
  cases object with
  | cookie c =>
    refine ⟨fun b => ?_, h.live, h.fresh⟩
    have same := count b
    rw [if_neg nofun] at same
    exact (counted b).trans same.symm
  | iterator a =>
    have more := stays a rfl
    refine ⟨fun b => ?_, fun b => ?_, fun b hb => ?_⟩
    · have here := count b
      have before := counted b
      by_cases hba : b = a
      · subst hba
        rw [if_pos rfl] at here
        simp only [Object.release, Function.update_self]
        omega
      · rw [if_neg fun heq => hba (Object.iterator.inj heq).symm] at here
        simp only [Object.release, Function.update_of_ne hba]
        omega
    · by_cases hba : b = a
      · subst hba
        simp only [Object.release, Function.update_self, h.live]
        omega
      · simp [Object.release, hba, h.live]
    · have none := h.fresh b hb
      by_cases hba : b = a
      · subst hba
        simp [Object.release, none]
      · simp [Object.release, hba, none]

lemma Cursors.close (h : Cursors handles refcount iterators next)
    (holds : handles hndl = some (.iterator a)) (last : refcount a ≤ 1) :
    Cursors (Function.update handles hndl none) (Function.update refcount a (refcount a - 1))
      (Function.update iterators a none) next := by
  have count (b : ℕ) := handlesOf_update handles hndl none (.iterator b)
  simp only [holds, reduceCtorEq, if_false, Option.some.injEq, Nat.add_zero] at count
  refine ⟨fun b => ?_, fun b => ?_, fun b hb => ?_⟩
  · have here := count b
    have before := h.counted b
    by_cases hba : b = a
    · subst hba
      rw [if_pos rfl] at here
      rw [Function.update_self]
      omega
    · rw [if_neg fun heq => hba (Object.iterator.inj heq).symm] at here
      rw [Function.update_of_ne hba]
      omega
  · by_cases hba : b = a
    · subst hba
      simp only [Function.update_self, Option.isSome_none, Bool.false_eq_true, false_iff]
      omega
    · simp [hba, h.live]
  · have none := h.fresh b hb
    by_cases hba : b = a
    · subst hba
      simp [none]
    · simp [hba, none]

end Cursors

lemma count_attemptReconnection (cfg : Config) (s : Server) :
    (attemptReconnection cfg s).cookieCount = s.cookieCount := by
  rw [attemptReconnection_eq]
  rfl

lemma createCookie_lt {cfg : Config} {s : Server} (h : Wf s) (name description : Bytes)
    (access : CookieAccess) : (createCookie cfg s name description access).2 <
      (createCookie cfg s name description access).1.cookieCount := by
  unfold createCookie
  split
  · next c hc => exact findCookie_lt h hc
  · exact Nat.lt_succ_self _

lemma frame_call {n : Native} (h : call S p n = some (q, answer)) : Frame S p (.native n) q := by
  cases n with
  | regClientCookie name description access hndl =>
    simp only [call, regClientPrefCookie, Option.some.injEq] at h
    split_ifs at h
    · obtain ⟨rfl, _⟩ := Prod.mk.inj h
      exact .server _ _ rfl
    · obtain ⟨rfl, _⟩ := Prod.mk.inj h
      unfold createHandle
      split_ifs with bad
      · exact .server _ _ rfl
      · exact .cookie _ _ hndl _ bad id (fun wf => createCookie_lt wf.attemptReconnection ..) rfl
  | findClientCookie name hndl =>
    simp only [call, findClientPrefCookie, Option.some.injEq] at h
    split at h
    · obtain ⟨rfl, _⟩ := Prod.mk.inj h
      exact .server _ _ rfl
    · next c hc =>
      obtain ⟨rfl, _⟩ := Prod.mk.inj h
      unfold createHandle
      split_ifs with bad
      · exact .server _ _ rfl
      · exact .cookie _ _ hndl _ bad id (fun wf => findCookie_lt wf.attemptReconnection hc) rfl
  | setAuthIdCookie authId hndl value now =>
    simp only [call, Natives.setAuthIdCookie] at h
    split at h
    · obtain ⟨rfl, _⟩ := Prod.mk.inj (Option.some.inj h)
      exact .server _ _ rfl
    · obtain ⟨_, _, heq⟩ := Option.map_eq_some_iff.mp h
      obtain ⟨rfl, _⟩ := Prod.mk.inj heq
      exact .server _ _ rfl
  | setClientCookie client hndl value now =>
    obtain ⟨r, _, heq⟩ := Option.map_eq_some_iff.mp h
    obtain ⟨rfl, _⟩ := Prod.mk.inj heq
    exact .server _ _ rfl
  | getClientCookie client hndl =>
    obtain ⟨r, _, heq⟩ := Option.map_eq_some_iff.mp h
    obtain ⟨rfl, _⟩ := Prod.mk.inj heq
    exact .server _ _ rfl
  | areClientCookiesCached client =>
    obtain ⟨r, _, heq⟩ := Option.map_eq_some_iff.mp h
    obtain ⟨rfl, _⟩ := Prod.mk.inj heq
    exact .server _ _ rfl
  | getCookieAccess hndl =>
    simp only [call, getCookieAccess, Option.some.injEq] at h
    split at h
    · obtain ⟨rfl, _⟩ := Prod.mk.inj h
      exact .server _ _ rfl
    · obtain ⟨rfl, _⟩ := Prod.mk.inj h
      exact .server _ _ rfl
  | getCookieIterator hndl =>
    simp only [call, getCookieIterator, Option.some.injEq] at h
    split_ifs at h with bad
    · obtain ⟨rfl, _⟩ := Prod.mk.inj h
      subst bad
      rw [Function.update_idem]
      exact .unopened _
    · obtain ⟨rfl, _⟩ := Prod.mk.inj h
      rw [createHandle, if_neg bad]
      exact .opened _ hndl bad
  | readCookieIterator hndl =>
    simp only [call, readCookieIterator] at h
    split at h
    · obtain ⟨rfl, _⟩ := Prod.mk.inj (Option.some.inj h)
      exact .server _ _ rfl
    · next a ha =>
      obtain ⟨n, at_n, heq⟩ := Option.map_eq_some_iff.mp h
      split_ifs at heq with last
      · obtain ⟨rfl, _⟩ := Prod.mk.inj heq
        exact .server _ _ rfl
      · obtain ⟨rfl, _⟩ := Prod.mk.inj heq
        have next : n < p.server.cookieCount := by
          rw [← count_attemptReconnection S.cfg p.server]
          exact Nat.lt_of_not_le last
        exact .passed _ hndl a n (readIterator_ok ha) at_n next
  | showCookieMenu client =>
    obtain ⟨title, _, heq⟩ := Option.map_eq_some_iff.mp h
    obtain ⟨rfl, _⟩ := Prod.mk.inj heq
    exact .titled _ client title
  | setCookieMenuItem plugin display datavalue =>
    obtain ⟨rfl, _⟩ := Prod.mk.inj (Option.some.inj h)
    exact .menus _ _ _ _ rfl rfl
  | setCookiePrefabMenu plugin hndl type display callback datavalue =>
    have same : readCookie S (reconnect S p) hndl = readCookie S p hndl := rfl
    simp only [call, addSettingsPrefabMenuItem, same, Option.some.injEq] at h
    cases hread : readCookie S p hndl with
    | error err =>
      rw [hread] at h
      obtain ⟨rfl, _⟩ := Prod.mk.inj h
      exact .server _ _ (by rw [menuEvent, hread])
    | ok c =>
      rw [hread] at h
      obtain ⟨rfl, _⟩ := Prod.mk.inj h
      exact .menus _ _ _ _ (by rw [menuEvent, hread]) rfl
  | getClientCookieTime client hndl =>
    obtain ⟨r, _, heq⟩ := Option.map_eq_some_iff.mp h
    obtain ⟨rfl, _⟩ := Prod.mk.inj heq
    exact .server _ _ rfl

lemma frame_act (h : perform S p act = some (q, answer)) : Frame S p act q := by
  cases act with
  | native n => exact frame_call h
  | host e =>
    obtain ⟨rfl, _⟩ := Prod.mk.inj (Option.some.inj h)
    exact .server _ _ rfl
  | clone hndl copy =>
    obtain ⟨rfl, _⟩ := Prod.mk.inj (Option.some.inj h)
    unfold cloneHandle createHandle
    split
    · exact .server _ _ rfl
    · next object holds =>
      split_ifs with bad
      · exact .server _ _ rfl
      · exact .cloned hndl copy object bad holds
  | close hndl =>
    obtain ⟨r, hr, heq⟩ := Option.map_eq_some_iff.mp h
    obtain ⟨rfl, _⟩ := Prod.mk.inj heq
    unfold closeHandle at hr
    split at hr
    · obtain rfl := Option.some.inj hr
      exact .server _ _ rfl
    · next object holds =>
      cases object with
      | cookie c =>
        obtain rfl := Option.some.inj hr
        exact .released hndl (.cookie c) holds nofun
      | iterator a =>
        simp only [Object.held, Object.release, Function.update_self, decide_eq_true_eq] at hr
        split_ifs at hr with more
        · obtain rfl := Option.some.inj hr
          refine .released hndl (.iterator a) holds fun b hb => ?_
          obtain rfl := Object.iterator.inj hb
          omega
        · obtain ⟨_, _, rfl⟩ := Option.map_eq_some_iff.mp hr
          exact .closed hndl a holds (by omega)
  | clientMenuSelect client item =>
    obtain ⟨m, hm, rfl⟩ := clientMenuSelect_eq h
    exact .menus _ _ _ _ rfl hm
  | clientMenuDisplay item text =>
    obtain rfl := clientMenuDisplay_eq h
    exact .server _ _ rfl
  | autoMenuSelect menu item now =>
    obtain ⟨c, i, v, hchoice, rfl⟩ := autoMenuSelect_eq h
    refine .menus _ _ _ p.menus rfl ?_
    simp only [SettingsMenu.Step, SettingsMenu.step, hchoice, Option.map_some]
  | autoMenuEnd menu =>
    obtain ⟨rfl, _⟩ := Prod.mk.inj (Option.some.inj h)
    exact .menus _ _ _ _ rfl rfl
  | pluginDestroyed plugin =>
    obtain ⟨rfl, _⟩ := Prod.mk.inj (Option.some.inj h)
    exact .menus _ _ _ _ rfl rfl

lemma tested_of_menuEvent (valid : Valid S p) (allowed : act.Allowed S p)
    {e : SettingsMenu.Event} (menu : menuEvent S p act = some e) :
    (∀ plugin c type display callback datavalue,
      e = .addSettingsPrefabMenuItem plugin c type display callback datavalue →
        c < p.server.cookieCount) ∧
      ∀ client item, e = .clientMenuSelect client item → Client S.cfg client := by
  cases act with
  | native n =>
    cases n with
    | setCookiePrefabMenu plugin hndl type display callback datavalue =>
      simp only [menuEvent] at menu
      split at menu
      · cases menu
      · next c hread =>
        obtain rfl := Option.some.inj menu
        refine ⟨fun _ d _ _ _ _ heq => ?_, fun _ _ heq => (by cases heq)⟩
        obtain ⟨_, rfl, _⟩ := SettingsMenu.Event.addSettingsPrefabMenuItem.inj heq
        exact valid.cookies hndl c (readCookie_ok hread)
    | setCookieMenuItem plugin display datavalue =>
      obtain rfl := Option.some.inj menu
      exact ⟨fun _ _ _ _ _ _ heq => (by cases heq), fun _ _ heq => (by cases heq)⟩
    | _ => cases menu
  | clientMenuSelect client item =>
    obtain rfl := Option.some.inj menu
    refine ⟨fun _ _ _ _ _ _ heq => (by cases heq), fun _ _ heq => ?_⟩
    obtain ⟨rfl, _⟩ := SettingsMenu.Event.clientMenuSelect.inj heq
    exact allowed
  | host e => cases menu
  | clone hndl copy => cases menu
  | close hndl => cases menu
  | clientMenuDisplay item text => cases menu
  | _ =>
    obtain rfl := Option.some.inj menu
    exact ⟨fun _ _ _ _ _ _ heq => (by cases heq), fun _ _ heq => (by cases heq)⟩

lemma Valid.frame (wf : Wf p.server) (valid : Valid S p) (allowed : act.Allowed S p)
    (count : p.server.cookieCount ≤ q.server.cookieCount) (frame : Frame S p act q) :
    Valid S q := by
  have cookies : ∀ hndl c, p.handles hndl = some (.cookie c) → c < q.server.cookieCount :=
    fun hndl c h => (valid.cookies hndl c h).trans_le count
  have passed : ∀ a n, p.iterators a = some n → n ≤ q.server.cookieCount :=
    fun a n h => (valid.passed a n h).trans count
  have items : ∀ a d c, p.menus.data a = some d → d.pCookie = some c →
      c < q.server.cookieCount := fun a d c hd hc => (valid.items a d c hd hc).trans_le count
  -- Handles that are made or closed leave the others as they are.
  have others : ∀ {hndl : Int32} {object : Option Object} {k : Int32} {c : CookieRef},
      Function.update p.handles hndl object k = some (.cookie c) → object ≠ some (.cookie c) →
        p.handles k = some (.cookie c) := by
    intro hndl object k c h hne
    by_cases heq : k = hndl
    · rw [heq, Function.update_self] at h
      exact absurd h hne
    · rwa [Function.update_of_ne heq] at h
  have closed : ∀ hndl : Int32, Function.update p.handles hndl none 0 = none := by
    intro hndl
    by_cases heq : 0 = hndl
    · rw [heq, Function.update_self]
    · rw [Function.update_of_ne heq, valid.badHandle]
  cases frame with
  | server _ t => exact ⟨valid.badHandle, cookies, valid.cursors, passed, items, valid.players⟩
  | menus _ t e m menu step =>
    obtain ⟨registered, client⟩ := tested_of_menuEvent valid allowed menu
    refine ⟨valid.badHandle, cookies, valid.cursors, passed, fun a d c hd hc => ?_,
      fun k sub hsub => ?_⟩
    · rcases data_of_step step hd with old | bare | ⟨plugin, c', type, display, _, _, he, hc'⟩
      · exact items a d c old hc
      · rw [bare] at hc
        cases hc
      · obtain rfl : c' = c := Option.some.inj (hc'.symm.trans hc)
        exact (registered _ _ _ _ _ _ he).trans_le count
    · rcases submenus_of_step step hsub with old | ⟨item, he⟩
      · exact valid.players k sub old
      · exact client _ _ he
  | titled t client title =>
    exact ⟨valid.badHandle, cookies, valid.cursors, passed, items, valid.players⟩
  | cookie _ t hndl c made free registered =>
    refine ⟨(Function.update_of_ne (Ne.symm made) ..).trans valid.badHandle, fun k d hk => ?_,
      valid.cursors.retain (free allowed) (.cookie c) nofun nofun, passed, items, valid.players⟩
    by_cases hcd : c = d
    · exact hcd ▸ registered wf
    · exact cookies k d (others hk (by simpa using hcd))
  | unopened t =>
    have dead : (p.iterators p.nextIterator).isSome = false := by
      rw [Bool.eq_false_iff, ne_eq, valid.cursors.live, valid.cursors.fresh _ le_rfl]
      exact Nat.lt_irrefl 0
    have same : Function.update p.iterators p.nextIterator none = p.iterators := by
      rw [← Option.not_isSome_iff_eq_none.mp (Bool.eq_false_iff.mp dead),
        Function.update_eq_self]
    rw [same]
    refine ⟨valid.badHandle, cookies, ⟨valid.cursors.counted, valid.cursors.live, fun a ha => ?_⟩,
      passed, items, valid.players⟩
    exact valid.cursors.fresh a (Nat.le_of_succ_le ha)
  | opened t hndl made =>
    refine ⟨(Function.update_of_ne (Ne.symm made) ..).trans valid.badHandle,
      fun k c hk => cookies k c (others hk (by simp)), valid.cursors.new allowed 0,
      fun a n ha => ?_, items, valid.players⟩
    dsimp only at ha
    by_cases heq : a = p.nextIterator
    · rw [heq, Function.update_self] at ha
      obtain rfl := Option.some.inj ha
      exact Nat.zero_le _
    · rw [Function.update_of_ne heq] at ha
      exact passed a n ha
  | passed t hndl a n holds at_n next =>
    refine ⟨valid.badHandle, cookies, valid.cursors.advance (valid.cursors.there holds) _,
      fun b m hb => ?_, items, valid.players⟩
    dsimp only at hb
    by_cases hba : b = a
    · rw [hba, Function.update_self] at hb
      obtain rfl := Option.some.inj hb
      exact next.trans_le count
    · rw [Function.update_of_ne hba] at hb
      exact passed b m hb
  | cloned hndl copy object made holds =>
    refine ⟨(Function.update_of_ne (Ne.symm made) ..).trans valid.badHandle, fun k c hk => ?_,
      valid.cursors.retain allowed object (fun a ha => ?_) (fun a ha => ?_), passed, items,
      valid.players⟩
    · by_cases hc : object = .cookie c
      · exact cookies hndl c (hc ▸ holds)
      · exact cookies k c (others hk (by simpa using hc))
    · by_contra late
      have pos := valid.cursors.pos (ha ▸ holds)
      rw [valid.cursors.fresh a (not_lt.mp late)] at pos
      exact Nat.lt_irrefl 0 pos
    · exact valid.cursors.there (ha ▸ holds)
  | released hndl object holds stays =>
    exact ⟨closed hndl, fun k d hk => cookies k d (others hk (by simp)),
      valid.cursors.release holds stays, passed, items, valid.players⟩
  | closed hndl a holds last =>
    refine ⟨closed hndl, fun k d hk => cookies k d (others hk (by simp)),
      valid.cursors.close holds last, fun b n hb => ?_, items, valid.players⟩
    dsimp only at hb
    by_cases hba : b = a
    · simp [hba] at hb
    · rw [Function.update_of_ne hba] at hb
      exact passed b n hb

lemma closeHandle_isSome (valid : Valid S p) (hndl : Int32) :
    (closeHandle p hndl).isSome = true := by
  unfold closeHandle
  split
  · rfl
  · next object holds =>
    dsimp only
    split_ifs
    · rfl
    · cases object with
      | cookie c => rfl
      | iterator a =>
        obtain ⟨n, hn⟩ := Option.isSome_iff_exists.mp (valid.cursors.there holds)
        simp only [onHandleDestroy, hn, Option.map_some, Option.isSome_some]

theorem Valid.step (wf : Wf p.server) (valid : Valid S p) (allowed : act.Allowed S p)
    (h : perform S p act = some (q, answer)) : Valid S q :=
  valid.frame wf allowed (grows_of_plays wf (plays_act valid allowed h)).2 (frame_act h)

lemma Valid.start (S : Setup) (roster : ℕ → Option Player) (spent : List ℕ) :
    Valid S (start roster spent) where
  badHandle := rfl
  cookies hndl c h := by cases h
  cursors := by
    refine ⟨fun a => ?_, fun a => by simp [Natives.start], fun _ _ => rfl⟩
    have none : {hndl : Int32 | (none : Option Object) = some (.iterator a)} = ∅ :=
      Set.eq_empty_of_forall_notMem fun _ h => by cases h
    exact ((congrArg Set.ncard none).trans (Set.ncard_empty _)).symm
  passed a n h := by cases h
  items a d c h := by cases h
  players menu sub h := by cases h

theorem valid_of_run {roster : ℕ → Option Player} {spent : List ℕ}
    {trace : List (Plugins × Act)} (run : Run (Step S) (start roster spent) trace p) :
    Wf p.server ∧ Valid S p := by
  have preserved : ∀ (a : Plugins) (e : Act) (b : Plugins), (Wf a.server ∧ Valid S a) →
      Step S a e b → (Wf b.server ∧ Valid S b) := by
    rintro a e b ⟨wf, valid⟩ ⟨allowed, _, h⟩
    exact ⟨(grows_of_plays wf (plays_act valid allowed h)).1, valid.step wf allowed h⟩
  have first : Wf (start roster spent).server ∧ Valid S (start roster spent) :=
    ⟨Wf.start roster spent, .start S roster spent⟩
  exact run.stable first preserved

theorem menus_of_run {roster : ℕ → Option Player} {spent : List ℕ}
    {trace : List (Plugins × Act)} (run : Run (Step S) (start roster spent) trace p) :
    ∃ events, Run SettingsMenu.Step SettingsMenu.start events p.menus ∧
      events.map Prod.snd = trace.filterMap fun x => menuEvent S x.1 x.2 := by
  induction run with
  | refl => exact ⟨[], .refl, rfl⟩
  | @snoc trace t u act _ step ih =>
    obtain ⟨events, menus, same⟩ := ih
    obtain ⟨_, answer, h⟩ := step
    have more : (trace ++ [(t, act)]).filterMap (fun x => menuEvent S x.1 x.2) =
        trace.filterMap (fun x => menuEvent S x.1 x.2) ++ (menuEvent S t act).toList := by
      rw [List.filterMap_append]
      rfl
    have quiet : menuEvent S t act = none → u.menus = t.menus → ∃ events,
        Run SettingsMenu.Step SettingsMenu.start events u.menus ∧ events.map Prod.snd =
          (trace ++ [(t, act)]).filterMap fun x => menuEvent S x.1 x.2 := by
      intro none kept
      rw [kept, more, none]
      exact ⟨events, menus, by rw [same, Option.toList_none, List.append_nil]⟩
    cases frame_act h with
    | server _ _ none => exact quiet none rfl
    | menus _ _ e m menu step =>
      refine ⟨events ++ [(t.menus, e)], menus.snoc step, ?_⟩
      rw [more, menu, List.map_append, same]
      rfl
    | cookie _ _ _ _ _ _ _ none => exact quiet none rfl
    | unopened => exact quiet rfl rfl
    | opened => exact quiet rfl rfl
    | passed => exact quiet rfl rfl
    | titled => exact quiet rfl rfl
    | cloned => exact quiet rfl rfl
    | released => exact quiet rfl rfl
    | closed => exact quiet rfl rfl

theorem server_of_run {roster : ℕ → Option Player} {spent : List ℕ}
    {trace : List (Plugins × Act)} (run : Run (Step S) (start roster spent) trace p) :
    ∃ events : List (Server × Event),
      Run (Session.Step S.cfg) (Session.start roster spent) events p.server ∧
      events.map Prod.snd = trace.flatMap fun x => eventsOf S x.1 x.2 := by
  induction run with
  | refl => exact ⟨[], .refl, rfl⟩
  | @snoc trace t u act before step ih =>
    obtain ⟨events, session, same⟩ := ih
    obtain ⟨allowed, answer, h⟩ := step
    obtain ⟨playable, result⟩ := plays_act (valid_of_run before).2 allowed h
    refine ⟨events ++ playTrace S.cfg t.server (eventsOf S t act), ?_, ?_⟩
    · rw [result]
      exact session.trans (play_run playable)
    · rw [List.map_append, same, List.flatMap_append, List.flatMap_singleton]
      congr 1
      exact map_snd_enactTrace ..

/-- Whatever plugins call and players choose is a session on the server and a run of the menus: the
tests of the natives let nothing else through. -/
theorem plays_session {roster : ℕ → Option Player} {spent : List ℕ}
    {trace : List (Plugins × Act)} (run : Run (Step S) (start roster spent) trace p) :
    (∃ events, Run (Session.Step S.cfg) (Session.start roster spent) events p.server ∧
      events.map Prod.snd = trace.flatMap fun x => eventsOf S x.1 x.2) ∧
    ∃ events, Run SettingsMenu.Step SettingsMenu.start events p.menus ∧
      events.map Prod.snd = trace.filterMap fun x => menuEvent S x.1 x.2 :=
  ⟨server_of_run run, menus_of_run run⟩

section Acts
variable (S : Setup)

def after (p : Plugins) (act : Act) : Plugins := ((perform S p act).map Prod.fst).getD p

def Possible (p : Plugins) (act : Act) : Prop :=
  act.Allowed S p ∧ (perform S p act).isSome = true

end Acts

theorem acts_run {acts : List Act} (h : Enactable (after S) (Possible S) p acts) :
    Run (Step S) p (enactTrace (after S) p acts) (enact (after S) p acts) := by
  induction acts generalizing p with
  | nil => exact .refl
  | cons act acts ih =>
    obtain ⟨⟨allowed, possible⟩, rest⟩ := h
    obtain ⟨⟨q, answer⟩, hq⟩ := Option.isSome_iff_exists.mp possible
    have result : after S p act = q := by simp [after, hq]
    have first : Run (Step S) p [(p, act)] (after S p act) :=
      .one ⟨allowed, answer, result ▸ hq⟩
    exact first.trans (ih rest)

/-- One slot; handles that are not valid have `HandleError_Index`, and a phrase is translated by
itself. -/
def oneSetup : Setup where
  cfg := oneSlot
  maxPlayers := 65
  room := by decide
  errorOf := fun _ _ => 4
  formatString := fun _ phrase _ _ => some phrase

def loaded : Plugins := start (fun _ => none) []

/-- A plugin registers a cookie, adds an item for it and sets it for a player, who chooses in the
menu; another plugin finds the cookie and reads the value. -/
def choosing : List Act :=
  [.native (.regClientCookie (bytes "music") [] 0 1),
    .native (.setCookiePrefabMenu 1 1 2 (bytes "Music") (-1) 0),
    .native (.setClientCookie 1 1 (bytes "loud") 5), .clientMenuSelect 1 0,
    .autoMenuSelect 0 1 6, .native (.findClientCookie (bytes "music") 2),
    .native (.getClientCookie 1 2)]

lemma choosing_possible : Enactable (after oneSetup) (Possible oneSetup) loaded choosing := by
  refine ⟨⟨rfl, rfl⟩, ⟨trivial, rfl⟩, ⟨trivial, rfl⟩, ⟨client_one, rfl⟩,
    ⟨⟨⟨1, [0, 0]⟩, rfl, by decide⟩, rfl⟩, ⟨rfl, rfl⟩, ⟨trivial, rfl⟩, trivial⟩

theorem plays_session_choosing :
    (∃ events, Run (Session.Step oneSlot) vacant events
      (enact (after oneSetup) loaded choosing).server ∧
      events.map Prod.snd = (enactTrace (after oneSetup) loaded choosing).flatMap
        fun x => eventsOf oneSetup x.1 x.2) ∧
    ∃ events, Run SettingsMenu.Step SettingsMenu.start events
      (enact (after oneSetup) loaded choosing).menus ∧
      events.map Prod.snd = (enactTrace (after oneSetup) loaded choosing).filterMap
        fun x => menuEvent oneSetup x.1 x.2 :=
  plays_session (acts_run choosing_possible)

end ClientPrefs.PluginSessions
