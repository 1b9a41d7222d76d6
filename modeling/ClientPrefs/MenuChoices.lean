import ClientPrefs.OpenMenus

/-!
# What can be chosen in the menus

The item of a submenu leads to a record with a cookie and a type of values, as long as the
record is there.
-/
namespace ClientPrefs.MenuChoices
open ByteStrings Cookies CookieManager SettingsMenu Transition

/-- Taking items down opens no submenu and makes no object. -/
structure Shrinks (m m' : Menus) : Prop where
  submenus : m'.submenus = m.submenus
  next : m'.next = m.next
  data : ∀ a d, m'.data a = some d → m.data a = some d
  handlers : ∀ a h, m'.handlers a = some h → m.handlers a = some h

/-- What a choice in the main menu opens can be chosen from. -/
structure Choosable (m : Menus) : Prop where
  /-- A record of a prefab item has a cookie. -/
  prefab : ∀ a d h, m.data a = some d → m.handlers d.handler = some h → h.isAutoMenu = true →
    d.pCookie.isSome = true
  born : ∀ menu sub a, m.submenus menu = some sub → a ∈ sub.infos → a < m.next
  typed : ∀ menu sub a d, m.submenus menu = some sub → a ∈ sub.infos → m.data a = some d →
    d.pCookie.isSome = true ∧ (d.type.bind CookieMenu.ofCell).isSome = true

variable {m m' : Menus} {e : Event} {a : ℕ} {d : AutoMenuData}

lemma Shrinks.refl (m : Menus) : Shrinks m m := ⟨rfl, rfl, fun _ _ h => h, fun _ _ h => h⟩

lemma Shrinks.trans {m'' : Menus} (first : Shrinks m m') (second : Shrinks m' m'') :
    Shrinks m m'' where
  submenus := second.submenus.trans first.submenus
  next := second.next.trans first.next
  data a d h := first.data a d (second.data a d h)
  handlers a h hh := first.handlers a h (second.handlers a h hh)

lemma shrinks_deleteRecord (m : Menus) (info : ℕ) : Shrinks m (deleteRecord m info) := by
  have less : ∀ {α : Type} {f : ℕ → Option α} {b a : ℕ} {x : α},
      Function.update f b none a = some x → f a = some x := by
    intro α f b a x h
    by_cases ha : a = b
    · simp [ha] at h
    · rwa [Function.update_of_ne ha] at h
  unfold deleteRecord
  split
  · exact .refl m
  · split
    · exact .refl m
    · exact ⟨rfl, rfl, fun _ _ h => less h, fun _ _ h => less h⟩

lemma shrinks_takeDown (m : Menus) (name : Bytes) : Shrinks m (takeDown m name) := by
  unfold takeDown
  split
  · exact .refl m
  · next item _ =>
    have deleted := shrinks_deleteRecord m item.info
    exact ⟨deleted.submenus, deleted.next, deleted.data, deleted.handlers⟩

lemma shrinks_onPluginDestroyed (m : Menus) (plugin : ℕ) :
    Shrinks m (onPluginDestroyed m plugin) := by
  have loop : ∀ (names : List Bytes) (m : Menus), Shrinks m (names.foldl takeDown m) := by
    intro names
    induction names with
    | nil => exact .refl
    | cons name names ih => exact fun m => (shrinks_takeDown m name).trans (ih _)
  unfold onPluginDestroyed
  split
  · exact .refl m
  · next names _ =>
    have taken := loop names m
    exact ⟨taken.submenus, taken.next, taken.data, taken.handlers⟩

theorem data_of_step (hstep : Step m e m') (h : m'.data a = some d) :
    m.data a = some d ∨ d.pCookie = none ∨ ∃ plugin c type display callback datavalue,
      e = .addSettingsPrefabMenuItem plugin c type display callback datavalue ∧
        d.pCookie = some c := by
  cases e with
  | addSettingsMenuItem plugin display datavalue =>
    obtain rfl := Option.some.inj hstep
    simp only [addSettingsMenuItem, addItem] at h
    by_cases ha : a = m.next
    · rw [ha, Function.update_self] at h
      obtain rfl := Option.some.inj h
      exact .inr (.inl rfl)
    · rw [Function.update_of_ne ha] at h
      exact .inl h
  | addSettingsPrefabMenuItem plugin c type display callback datavalue =>
    obtain rfl := Option.some.inj hstep
    simp only [addSettingsPrefabMenuItem, addItem] at h
    by_cases ha : a = m.next
    · rw [ha, Function.update_self] at h
      obtain rfl := Option.some.inj h
      exact .inr (.inr ⟨plugin, c, type, display, callback, datavalue, rfl, rfl⟩)
    · rw [Function.update_of_ne ha] at h
      exact .inl h
  | clientMenuSelect client item =>
    simp only [Step, step, clientMenuSelect, Option.bind_eq_bind,
      Option.bind_eq_some_iff] at hstep
    obtain ⟨_, _, _, _, _, _, hopen⟩ := hstep
    split_ifs at hopen
    · obtain rfl := Option.some.inj hopen
      exact .inl h
    · obtain rfl := Option.some.inj hopen
      exact .inl h
  | autoMenuSelect menu item =>
    obtain ⟨_, _, rfl⟩ := Option.map_eq_some_iff.mp hstep
    exact .inl h
  | autoMenuEnd menu =>
    obtain rfl := Option.some.inj hstep
    exact .inl h
  | pluginDestroyed plugin =>
    obtain rfl := Option.some.inj hstep
    exact .inl ((shrinks_onPluginDestroyed m plugin).data a d h)

theorem submenus_of_step (hstep : Step m e m') {menu : ℕ} {sub : Submenu}
    (h : m'.submenus menu = some sub) :
    m.submenus menu = some sub ∨ ∃ item, e = .clientMenuSelect sub.client item := by
  cases step_cases hstep with
  | add => exact .inl h
  | opened client i item d handler =>
    by_cases hmenu : menu = m.nextMenu
    · simp only [hmenu, Function.update_self, Option.some.injEq] at h
      exact .inr ⟨i, by rw [← h]⟩
    · simp only [Function.update_of_ne hmenu] at h
      exact .inl h
  | selected => exact .inl h
  | ended closed =>
    simp only [autoMenuEnd] at h
    by_cases hmenu : menu = closed
    · simp [hmenu] at h
    · rw [Function.update_of_ne hmenu] at h
      exact .inl h
  | destroyed plugin =>
    rw [(shrinks_onPluginDestroyed m plugin).submenus] at h
    exact .inl h

lemma Choosable.start : Choosable start where
  prefab a d h hd := by cases hd
  born menu sub a h := by cases h
  typed menu sub a d h := by cases h

lemma Choosable.addItem (sound : Sound m) (h : Choosable m) (plugin : ℕ) (display : Bytes)
    (callback isAutoMenu : Bool) (pCookie : Option CookieRef) (datavalue : ℤ) (type : Option ℤ)
    (whole : isAutoMenu = true → pCookie.isSome = true) :
    Choosable (addItem m plugin display callback isAutoMenu pCookie datavalue type) := by
  have own : ∀ {a d}, m.data a = some d → a ≠ m.next ∧ d.handler = a := by
    intro a d hd
    have mem := sound.only a (by rw [hd]; rfl)
    obtain ⟨item, hitem, rfl⟩ := List.mem_map.mp mem
    obtain ⟨d', _, hd', handler, _⟩ := sound.records item hitem
    obtain rfl : d' = d := Option.some.inj (hd'.symm.trans hd)
    exact ⟨(sound.fresh item hitem).ne, handler⟩
  constructor
  · intro a d handler hd hh auto
    simp only [SettingsMenu.addItem] at hd hh
    by_cases ha : a = m.next
    · rw [ha, Function.update_self] at hd
      obtain rfl := Option.some.inj hd
      rw [Function.update_self] at hh
      obtain rfl := Option.some.inj hh
      exact whole auto
    · rw [Function.update_of_ne ha] at hd
      have handler_a := (own hd).2
      rw [handler_a, Function.update_of_ne ha, ← handler_a] at hh
      exact h.prefab a d handler hd hh auto
  · exact fun menu sub a hsub ha => (h.born menu sub a hsub ha).trans (Nat.lt_succ_self _)
  · intro menu sub a d hsub ha hd
    simp only [SettingsMenu.addItem] at hd
    rw [Function.update_of_ne (h.born menu sub a hsub ha).ne] at hd
    exact h.typed menu sub a d hsub ha hd

theorem Choosable.step (sound : Sound m) (h : Choosable m) (hstep : step m e = some m') :
    Choosable m' := by
  cases e with
  | addSettingsMenuItem plugin display datavalue =>
    obtain rfl := Option.some.inj hstep
    exact h.addItem sound plugin display true false none datavalue none (by simp)
  | addSettingsPrefabMenuItem plugin c type display callback datavalue =>
    obtain rfl := Option.some.inj hstep
    exact h.addItem sound plugin display _ true (some c) datavalue (some type) fun _ => rfl
  | clientMenuSelect client i =>
    simp only [SettingsMenu.step, clientMenuSelect, Option.bind_eq_bind,
      Option.bind_eq_some_iff] at hstep
    obtain ⟨item, hitem, d, hd, handler, hh, hopen⟩ := hstep
    split_ifs at hopen with auto
    · obtain rfl := Option.some.inj hopen
      have below := sound.fresh item (List.mem_of_getElem? hitem)
      refine ⟨h.prefab, fun menu sub a hsub ha => ?_, fun menu sub a d' hsub ha hd' => ?_⟩
      · by_cases hmenu : menu = m.nextMenu
        · simp only [hmenu, Function.update_self, Option.some.injEq] at hsub
          rw [← hsub] at ha
          rw [OpenMenus.mem_submenuInfos ha]
          exact below
        · simp only [Function.update_of_ne hmenu] at hsub
          exact h.born menu sub a hsub ha
      · by_cases hmenu : menu = m.nextMenu
        · simp only [hmenu, Function.update_self, Option.some.injEq] at hsub
          rw [← hsub] at ha
          obtain rfl := OpenMenus.mem_submenuInfos ha
          obtain rfl : d' = d := Option.some.inj (hd'.symm.trans hd)
          refine ⟨h.prefab _ d' handler hd' hh auto, ?_⟩
          unfold submenuInfos at ha
          split at ha
          · cases ha
          · next htype =>
            rw [htype]
            rfl
        · simp only [Function.update_of_ne hmenu] at hsub
          exact h.typed menu sub a d' hsub ha hd'
    · obtain rfl := Option.some.inj hopen
      exact h
  | autoMenuSelect menu i =>
    obtain ⟨_, _, rfl⟩ := Option.map_eq_some_iff.mp hstep
    exact h
  | autoMenuEnd closed =>
    obtain rfl := Option.some.inj hstep
    have old : ∀ {menu sub}, (autoMenuEnd m closed).submenus menu = some sub →
        m.submenus menu = some sub := by
      intro menu sub hsub
      simp only [autoMenuEnd] at hsub
      by_cases hmenu : menu = closed
      · simp [hmenu] at hsub
      · rwa [Function.update_of_ne hmenu] at hsub
    exact ⟨h.prefab, fun menu sub a hsub => h.born menu sub a (old hsub),
      fun menu sub a d hsub => h.typed menu sub a d (old hsub)⟩
  | pluginDestroyed plugin =>
    obtain rfl := Option.some.inj hstep
    have shrinks := shrinks_onPluginDestroyed m plugin
    refine ⟨fun a d handler hd hh => h.prefab a d handler (shrinks.data a d hd)
      (shrinks.handlers _ handler hh), fun menu sub a hsub ha => ?_,
      fun menu sub a d hsub ha hd => ?_⟩
    · rw [shrinks.submenus] at hsub
      rw [shrinks.next]
      exact h.born menu sub a hsub ha
    · rw [shrinks.submenus] at hsub
      exact h.typed menu sub a d hsub ha (shrinks.data a d hd)

theorem choosable_of_run {trace : List (Menus × Event)} (run : Run Step start trace m) :
    Sound m ∧ Choosable m := by
  have preserved : ∀ (a : Menus) (e : Event) (b : Menus), (Sound a ∧ Choosable a) → Step a e b →
      (Sound b ∧ Choosable b) := fun _ _ _ both step =>
    ⟨both.1.step step, both.2.step both.1 step⟩
  exact run.stable ⟨.start, .start⟩ preserved

lemma clientMenuSelect_isSome (sound : Sound m) {client item : ℕ}
    (chosen : item < m.clientMenu.length) : (clientMenuSelect m client item).isSome = true := by
  obtain ⟨d, h, hd, handler, hh, _⟩ := sound.records _ (List.getElem_mem chosen)
  simp only [clientMenuSelect, List.getElem?_eq_getElem chosen, hd, handler, hh,
    Option.bind_eq_bind, Option.bind_some]
  split_ifs <;> rfl

/-- A choice in a submenu reads a record that is not there, or it sets a value. -/
theorem autoMenuSelect_eq_none_iff (h : Choosable m) {menu item : ℕ} {sub : Submenu}
    (hsub : m.submenus menu = some sub) (chosen : item < sub.infos.length) :
    autoMenuSelect m menu item = none ↔ m.data sub.infos[item] = none := by
  simp only [autoMenuSelect, hsub, List.getElem?_eq_getElem chosen, Option.bind_eq_bind,
    Option.bind_some]
  cases hd : m.data sub.infos[item] with
  | none => simp
  | some d =>
    obtain ⟨cookie, type⟩ := h.typed menu sub _ d hsub (List.getElem_mem chosen) hd
    obtain ⟨c, hc⟩ := Option.isSome_iff_exists.mp cookie
    obtain ⟨t, ht⟩ := Option.isSome_iff_exists.mp type
    simp [hc, ht]

end ClientPrefs.MenuChoices
