import ClientPrefs.CookieTable
import ClientPrefs.PluginSessions
import ClientPrefs.SessionReads

/-!
# What is undefined

The acts that read a null string, an uninitialised text, an array outside its bounds or an object
that is deleted.
-/
namespace ClientPrefs.UndefinedCalls
open ByteStrings Cookies CookieTable LateLoad MenuChoices Natives PluginSessions SessionReads SlotTables
open SlotValues Transition
open CookieManager hiding setAuthIdCookie
open Session hiding start

variable {S : Setup} {p : Plugins} {act : Act}

/-- The title of the main menu or of a submenu has no text. -/
def Untitled (S : Setup) (phrase : Bytes) (client : ℤ) : Prop :=
  S.formatString (bytes "%T:") phrase client [] = none

/-- `SetAuthIdCookie` that comes to a player with a null id, `GetClientCookieTime` with an index
outside of the array, a choice or a display of an item that is not in the main menu any more, a
choice in a submenu whose record is deleted, and every text that has no translation, unless an
earlier one is in its buffer. -/
def Undefined (S : Setup) (p : Plugins) : Act → Prop
  | .native (.setAuthIdCookie authId hndl _ _) => (∃ c, readCookie S p hndl = .ok c) ∧
      isAuthIdConnected S.cfg (reconnect S p).server authId = none
  | .native (.getClientCookieTime client hndl) =>
    OutOfArray S.maxPlayers (readCookie S p) client hndl
  | .native (.showCookieMenu client) => Untitled S (bytes "Client Settings") client.toInt
  | .clientMenuSelect client item => p.menus.clientMenu.length ≤ item ∨
      (prefabType p.menus item).isSome = true ∧ Untitled S (bytes "Choose Option") client
  | .clientMenuDisplay item _ => p.menus.clientMenu.length ≤ item
  | .autoMenuSelect menu item _ =>
    (∃ sub a, p.menus.submenus menu = some sub ∧ sub.infos[item]? = some a ∧
      p.menus.data a = none) ∨
    ∃ c i v, SettingsMenu.autoMenuSelect p.menus menu item = some (c, i, v) ∧
      S.formatString (bytes "[SM] %T") (bytes "Cookie Changed Value") i
        [(p.server.cookies c).name, storedValue v] = none
  | _ => False

theorem translate_eq_none_iff {format phrase : Bytes} {client : ℤ} {texts : List Bytes} :
    Natives.translate S none format phrase client texts = none ↔
      S.formatString format phrase client texts = none := by
  unfold Natives.translate
  rw [Option.or_none]

theorem call_eq_none_iff (valid : Valid S p) (n : Native) :
    call S p n = none ↔ Undefined S p (.native n) := by
  cases n with
  | setAuthIdCookie authId hndl value now =>
    simp only [call, setAuthIdCookie, Undefined]
    cases readCookie S p hndl with
    | error err => simp
    | ok c => simp [CookieManager.setAuthIdCookie, reconnect]
  | setClientCookie client hndl value now =>
    simp [call, setClientPrefCookie, onServer, setClientPrefCookie_server S.room, Undefined]
  | getClientCookie client hndl =>
    simp [call, getClientPrefCookie, onServer, getClientPrefCookie_server S.room, Undefined]
  | areClientCookiesCached client =>
    simp [call, areClientCookiesCached, onServer, areClientCookiesCached_server S.room, Undefined]
  | readCookieIterator hndl =>
    simp only [call, readCookieIterator, Undefined, iff_false]
    split
    · simp
    · next a ha =>
      obtain ⟨n, hn⟩ := Option.isSome_iff_exists.mp (valid.cursors.there (readIterator_ok ha))
      have same : (reconnect S p).iterators a = some n := hn
      simp [same]
  | showCookieMenu client =>
    simp only [call, showSettingsMenu, Undefined, Untitled, Option.map_eq_none_iff,
      translate_eq_none_iff]
  | getClientCookieTime client hndl =>
    simp only [call, getClientCookieTime, onServer, Undefined, Option.map_eq_none_iff]
    rcases @getClientCookieTime_server S.cfg S.maxPlayers p.server (readCookie S p) client hndl
      S.room with ⟨none, out⟩ | ⟨⟨time, some⟩, inside⟩
    · exact iff_of_true none out
    · exact iff_of_false (by rw [some]; simp) inside
  | _ => simp [call, Undefined]

theorem select_eq_none_iff (sound : SettingsMenu.Sound p.menus) (client item : ℕ) :
    clientMenuSelect S p client item = none ↔ Undefined S p (.clientMenuSelect client item) := by
  rcases Nat.lt_or_ge item p.menus.clientMenu.length with there | gone
  · obtain ⟨m, hm⟩ := Option.isSome_iff_exists.mp
      (@clientMenuSelect_isSome p.menus sound client item there)
    simp only [clientMenuSelect, hm, Option.bind_some, Undefined, not_le.mpr there, false_or]
    cases prefabType p.menus item with
    | none => simp
    | some type => simp [Untitled, translate_eq_none_iff]
  · have none : SettingsMenu.clientMenuSelect p.menus client item = none := by
      simp [SettingsMenu.clientMenuSelect, List.getElem?_eq_none gone]
    simp [clientMenuSelect, none, Undefined, gone]

theorem display_eq_none_iff (sound : SettingsMenu.Sound p.menus) (item : ℕ) (text : Bytes) :
    clientMenuDisplay p item text = none ↔ p.menus.clientMenu.length ≤ item := by
  rcases Nat.lt_or_ge item p.menus.clientMenu.length with there | gone
  · obtain ⟨d, h, hd, handler, hh, _⟩ := sound.records _ (List.getElem_mem there)
    simp [clientMenuDisplay, hd, handler, hh, there]
  · simp [clientMenuDisplay, gone]

theorem choose_eq_none_iff (wf : Wf p.server) (choosable : Choosable p.menus) {menu item : ℕ}
    {sub : SettingsMenu.Submenu} (hsub : p.menus.submenus menu = some sub)
    (chosen : item < sub.infos.length) (now : ℕ) : autoMenuSelect S p menu item now = none ↔
      Undefined S p (.autoMenuSelect menu item now) := by
  have record := autoMenuSelect_eq_none_iff choosable hsub chosen
  have deleted : (∃ sub a, p.menus.submenus menu = some sub ∧ sub.infos[item]? = some a ∧
      p.menus.data a = none) ↔ SettingsMenu.autoMenuSelect p.menus menu item = none := by
    rw [record]
    constructor
    · rintro ⟨sub', a, hsub', ha, none⟩
      obtain rfl : sub = sub' := Option.some.inj (hsub.symm.trans hsub')
      rw [List.getElem?_eq_getElem chosen] at ha
      rwa [Option.some.inj ha]
    · exact fun none => ⟨sub, _, hsub, List.getElem?_eq_getElem chosen, none⟩
  simp only [Undefined, deleted]
  cases hchoice : SettingsMenu.autoMenuSelect p.menus menu item with
  | none => simp [autoMenuSelect, hchoice]
  | some choice =>
    obtain ⟨c, i, v⟩ := choice
    have value : (getCookieValue (setCookieValue p.server c i v now) c i).2 = storedValue v :=
      getCookieValue_of_entryAt ((entryAt_setCookieValue wf ..).trans (if_pos ⟨rfl, rfl⟩))
    have name : ((setCookieValue p.server c i v now).cookies c).name =
        (p.server.cookies c).name := name_of_table (tableOf_setCookieValue ..) c
    simp [autoMenuSelect, hchoice, value, name, translate_eq_none_iff]

/-- From every state that plugins, players and the host can lead to, the undefined acts are these
and no others. -/
theorem undefined_iff {roster : ℕ → Option Player} {spent : List ℕ}
    {trace : List (Plugins × Act)} (run : Run (Step S) (start roster spent) trace p)
    (allowed : act.Allowed S p) : perform S p act = none ↔ Undefined S p act := by
  obtain ⟨wf, valid⟩ := valid_of_run run
  obtain ⟨_, menus, _⟩ := menus_of_run run
  obtain ⟨sound, choosable⟩ := choosable_of_run menus
  cases act with
  | native n => exact call_eq_none_iff valid n
  | close hndl =>
    obtain ⟨q, hq⟩ := Option.isSome_iff_exists.mp (closeHandle_isSome valid hndl)
    simp [perform, Undefined, hq]
  | clientMenuSelect client item => exact select_eq_none_iff sound client item
  | clientMenuDisplay item text => exact display_eq_none_iff sound item text
  | autoMenuSelect menu item now =>
    obtain ⟨sub, hsub, chosen⟩ := allowed
    exact choose_eq_none_iff wf choosable hsub chosen now
  | _ => simp [perform, Undefined]

/-- A player has opened the submenu of an item, and the plugin goes: neither a choice in the submenu
nor another one in the main menu is defined any more. -/
def withoutPlugin : List Act := choosing.take 4 ++ [.pluginDestroyed 1]

lemma withoutPlugin_possible :
    Enactable (after oneSetup) (Possible oneSetup) loaded withoutPlugin :=
  ⟨⟨rfl, rfl⟩, ⟨trivial, rfl⟩, ⟨trivial, rfl⟩, ⟨client_one, rfl⟩, ⟨trivial, rfl⟩, trivial⟩

theorem undefined_iff_withoutPlugin :
    perform oneSetup (enact (after oneSetup) loaded withoutPlugin) (.autoMenuSelect 0 1 6) = none ∧
      perform oneSetup (enact (after oneSetup) loaded withoutPlugin) (.clientMenuSelect 1 0) =
        none := by
  have run := acts_run withoutPlugin_possible
  have inSubmenu : (Act.autoMenuSelect 0 1 6).Allowed oneSetup
      (enact (after oneSetup) loaded withoutPlugin) := ⟨⟨1, [0, 0]⟩, rfl, by decide⟩
  have inMenu : (Act.clientMenuSelect 1 0).Allowed oneSetup
      (enact (after oneSetup) loaded withoutPlugin) := client_one
  exact ⟨(undefined_iff run inSubmenu).mpr (.inl ⟨⟨1, [0, 0]⟩, 0, rfl, rfl, rfl⟩),
    (undefined_iff run inMenu).mpr (.inl (by decide))⟩

end ClientPrefs.UndefinedCalls
