import ClientPrefs.SettingsMenu

/-!
# Menus that outlive their items

A submenu that a player has open carries the address of the item it was opened from. It stays
open when the plugin of the item is destroyed.
-/
namespace ClientPrefs.OpenMenus
open ByteStrings SettingsMenu Transition

/-- The address is that of a record that is not deleted, and neither is its handler. -/
def Denotes (s : Menus) (a : ℕ) : Prop :=
  ∃ d h, s.data a = some d ∧ s.handlers d.handler = some h

/-- Every info that a later selection can read denotes a record. -/
structure Live (s : Menus) : Prop where
  clientMenu : ∀ item ∈ s.clientMenu, Denotes s item.info
  submenus : ∀ menu sub, s.submenus menu = some sub → ∀ a ∈ sub.infos, Denotes s a

/-- No submenu was opened from an item that the plugin's destruction takes down. -/
def Spares (s : Menus) : Event → Prop
  | .pluginDestroyed plugin => ∀ menu sub, s.submenus menu = some sub → ∀ a ∈ sub.infos,
      a ∉ (takenDown ((s.names plugin).getD []) s.clientMenu).map Item.info
  | _ => True

variable {s t : Menus} {e : Event} {trace : List (Menus × Event)}

theorem denotes_iff (h : Sound s) (a : ℕ) : Denotes s a ↔ a ∈ s.clientMenu.map Item.info := by
  constructor
  · intro ⟨d, _, hd, _⟩
    exact h.only a (by simp [hd])
  · intro ha
    obtain ⟨item, hitem, rfl⟩ := List.mem_map.mp ha
    obtain ⟨d, handler, hdata, hd, hhandler, _⟩ := h.records item hitem
    exact ⟨d, handler, hdata, by rw [hd, hhandler]⟩

theorem live_iff (h : Sound s) : Live s ↔ ∀ menu sub, s.submenus menu = some sub →
    ∀ a ∈ sub.infos, a ∈ s.clientMenu.map Item.info := by
  constructor
  · intro live menu sub hsub a ha
    exact (denotes_iff h a).mp (live.submenus menu sub hsub a ha)
  · intro inside
    refine ⟨fun item hitem => ?_, fun menu sub hsub a ha => ?_⟩
    · exact (denotes_iff h _).mpr (List.mem_map_of_mem hitem)
    · exact (denotes_iff h a).mpr (inside menu sub hsub a ha)

theorem mem_remaining_iff {names : List Bytes} {items : List Item}
    (nodup : (items.map Item.info).Nodup) (a : ℕ) : a ∈ (remaining names items).map Item.info ↔
      a ∈ items.map Item.info ∧ a ∉ (takenDown names items).map Item.info := by
  induction items generalizing names with
  | nil => simp [remaining, takenDown]
  | cons x items ih =>
    rw [List.map_cons, List.nodup_cons] at nodup
    by_cases hx : x.display ∈ names
    · simp only [remaining, takenDown, if_pos hx, List.map_cons, List.mem_cons, ih nodup.2]
      constructor
      · rintro ⟨hmem, hnot⟩
        refine ⟨.inr hmem, fun hor => ?_⟩
        rcases hor with rfl | htaken
        · exact nodup.1 hmem
        · exact hnot htaken
      · rintro ⟨hmem, hnot⟩
        exact ⟨hmem.resolve_left fun heq => hnot (.inl heq), fun htaken => hnot (.inr htaken)⟩
    · simp only [remaining, takenDown, if_neg hx, List.map_cons, List.mem_cons, ih nodup.2]
      constructor
      · rintro (rfl | ⟨hmem, hnot⟩)
        · refine ⟨.inl rfl, fun htaken => nodup.1 ?_⟩
          exact ((takenDown_sublist names items).map Item.info).mem htaken
        · exact ⟨.inr hmem, hnot⟩
      · rintro ⟨rfl | hmem, hnot⟩
        · exact .inl rfl
        · exact .inr ⟨hmem, hnot⟩

lemma mem_submenuInfos {a info : ℕ} {type : Option ℤ} (h : a ∈ submenuInfos info type) :
    a = info := by
  unfold submenuInfos at h
  split at h
  · cases h
  · simpa using h

/-- A step that spares the open submenus keeps them alive. -/
theorem Live.step (sound : Sound s) (live : Live s) (spares : Spares s e)
    (hstep : SettingsMenu.step s e = some t) : Live t := by
  have inside := (live_iff sound).mp live
  rw [live_iff (sound.step hstep)]
  cases step_cases hstep with
  | add =>
    intro menu sub hsub a ha
    simp only [addItem, List.map_append]
    exact List.mem_append_left _ (inside menu sub hsub a ha)
  | opened client i item d h hitem hdata hhandler =>
    intro menu sub hsub a ha
    dsimp only at hsub
    by_cases hmenu : menu = s.nextMenu
    · subst hmenu
      rw [Function.update_self] at hsub
      obtain rfl := Option.some.inj hsub
      rw [mem_submenuInfos ha]
      exact List.mem_map_of_mem (List.mem_of_getElem? hitem)
    · rw [Function.update_of_ne hmenu] at hsub
      exact inside menu sub hsub a ha
  | selected => exact inside
  | ended closed =>
    intro menu sub hsub a ha
    dsimp only [autoMenuEnd] at hsub
    by_cases hmenu : menu = closed
    · simp [hmenu] at hsub
    · rw [Function.update_of_ne hmenu] at hsub
      exact inside menu sub hsub a ha
  | destroyed plugin =>
    rw [onPluginDestroyed_eq sound]
    intro menu sub hsub a ha
    exact (mem_remaining_iff sound.infos a).mpr
      ⟨inside menu sub hsub a ha, spares menu sub hsub a ha⟩

lemma spares_of_live (sound : Sound s) (live : Live t)
    (hstep : SettingsMenu.step s e = some t) : Spares s e := by
  cases e with
  | pluginDestroyed plugin =>
    have after := (live_iff (sound.step hstep)).mp live
    obtain rfl : onPluginDestroyed s plugin = t := Option.some.inj hstep
    rw [onPluginDestroyed_eq sound] at after
    intro menu sub hsub a ha
    exact ((mem_remaining_iff sound.infos a).mp (after menu sub hsub a ha)).2
  | _ => trivial

/-- All infos denote live records throughout a run exactly when every plugin that is destroyed
spares the open submenus. -/
theorem menus_live_iff (run : Run Step start trace s) :
    (∀ t ∈ visited trace s, Live t) ↔ ∀ x ∈ trace, Spares x.1 x.2 := by
  constructor
  · intro all ⟨t, e⟩ hx
    obtain ⟨_, _, _, _, before, _, _⟩ := run.split hx
    obtain ⟨u, hu, step⟩ := run.next_visited hx
    exact spares_of_live (sound_of_run before) (all u hu) step
  · intro spares t ht
    have preserved : ∀ (a : Menus) (e : Event) (b : Menus), (Sound a ∧ Live a) → Spares a e →
        Step a e b → (Sound b ∧ Live b) :=
      fun _ _ _ both spares step => ⟨both.1.step step, both.2.step both.1 spares step⟩
    have first : Live start := (live_iff .start).mpr fun _ _ h => by cases h
    exact (run.invariant_visited ⟨.start, first⟩ preserved spares ht).2

lemma Live.clientMenuSelect (live : Live s) (client : ℕ) {i : ℕ}
    (hi : i < s.clientMenu.length) : (clientMenuSelect s client i).isSome = true := by
  obtain ⟨d, h, hd, hh⟩ := live.clientMenu _ (List.getElem_mem hi)
  simp only [SettingsMenu.clientMenuSelect, List.getElem?_eq_getElem hi, hd, hh,
    Option.bind_eq_bind, Option.bind_some]
  split_ifs <;> rfl

def navigation : List Event :=
  [.addSettingsPrefabMenuItem 1 0 2 (bytes "Music") (-1) 0, .clientMenuSelect 3 0,
    .autoMenuSelect 0 1, .autoMenuEnd 0, .pluginDestroyed 1]

theorem menus_live_navigation : ∃ s, s.clientMenu = [] ∧
    ∀ t ∈ visited (advanceTrace step start navigation) s, Live t := by
  have plays : (advance step start navigation).any (fun s => s.clientMenu = []) = true := by decide
  obtain ⟨s, hs, hempty⟩ := (Option.any_eq_true ..).mp plays
  refine ⟨s, by simpa using hempty, (menus_live_iff (advance_run hs)).mpr fun x hx => ?_⟩
  change x ∈ [_, _, _, _, _] at hx
  simp only [List.mem_cons, List.not_mem_nil, or_false] at hx
  rcases hx with rfl | rfl | rfl | rfl | rfl
  · trivial
  · trivial
  · trivial
  · trivial
  · intro menu sub hsub
    cases menu with
    | zero => cases hsub
    | succ menu => cases hsub

/-- The plugin is destroyed while the submenu is open. -/
def unloadBelow : List Event :=
  [.addSettingsPrefabMenuItem 1 0 2 (bytes "Music") (-1) 0, .clientMenuSelect 3 0,
    .pluginDestroyed 1]

theorem deleted_record_open : ¬ ∀ (trace : List (Menus × Event)) (s : Menus),
    Run Step start trace s → ∀ t ∈ visited trace s, Live t := by
  intro h
  have plays : (advance step start unloadBelow).any
      (fun s => s.submenus 0 = some ⟨3, [0, 0]⟩ ∧ s.data 0 = none) = true := by decide
  obtain ⟨s, hs, hopen⟩ := (Option.any_eq_true ..).mp plays
  obtain ⟨hsub, hdata⟩ : s.submenus 0 = some ⟨3, [0, 0]⟩ ∧ s.data 0 = none := by simpa using hopen
  have last : s ∈ visited (advanceTrace step start unloadBelow) s :=
    List.mem_append_right _ (List.mem_singleton_self s)
  obtain ⟨d, _, hd, _⟩ := (h _ s (advance_run hs) s last).submenus 0 _ hsub 0 (by simp)
  rw [hdata] at hd
  cases hd

end ClientPrefs.OpenMenus
