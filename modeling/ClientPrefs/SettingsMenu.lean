import ClientPrefs.CookieManager
import ClientPrefs.Transition

/-!
# The settings menu

Plugins add items to `clientMenu`; each item carries the address of an `AutoMenuData` as its
info. The items of a plugin are tracked by their display texts, and taken down when the plugin
is destroyed.
-/
namespace ClientPrefs.SettingsMenu
open ByteStrings Cookies CookieManager Transition

inductive CookieMenu
  | yesNo
  | yesNoInt
  | onOff
  | onOffInt
  deriving DecidableEq, Repr

/-- The menu type that a plugin's number stands for. -/
def CookieMenu.ofCell (cell : ℤ) : Option CookieMenu :=
  if cell = 0 then some .yesNo
  else if cell = 1 then some .yesNoInt
  else if cell = 2 then some .onOff
  else if cell = 3 then some .onOffInt
  else none

def settings : CookieMenu → Bytes × Bytes
  | .yesNo => (bytes "yes", bytes "no")
  | .yesNoInt => (bytes "1", bytes "0")
  | .onOff => (bytes "on", bytes "off")
  | .onOffInt => (bytes "1", bytes "0")

structure ItemHandler where
  forward : Option ℕ
  isAutoMenu : Bool
  deriving DecidableEq, Repr

/-- `pCookie` and `type` are only set for a prefab item. -/
structure AutoMenuData where
  handler : ℕ
  pCookie : Option CookieRef
  datavalue : ℤ
  type : Option ℤ
  deriving DecidableEq, Repr

/-- An item of `clientMenu`. The info text is the address of the `AutoMenuData`; `owner` is the
plugin that added the item, which the source does not keep. -/
structure Item where
  info : ℕ
  display : Bytes
  owner : ℕ
  deriving DecidableEq, Repr

/-- An open menu of `AutoMenuHandler`: its player and the infos of its items. -/
structure Submenu where
  client : ℕ
  infos : List ℕ
  deriving DecidableEq, Repr

structure Menus where
  clientMenu : List Item
  /-- The property `SettingsMenuItems` of each plugin. -/
  names : ℕ → Option (List Bytes)
  /-- The objects at each address; a deleted or unborn one is `none`. -/
  data : ℕ → Option AutoMenuData
  handlers : ℕ → Option ItemHandler
  forwards : ℕ → Bool
  next : ℕ
  /-- The open submenus by handle. -/
  submenus : ℕ → Option Submenu
  nextMenu : ℕ

def start : Menus where
  clientMenu := []
  names := fun _ => none
  data := fun _ => none
  handlers := fun _ => none
  forwards := fun _ => false
  next := 0
  submenus := fun _ => none
  nextMenu := 0

/-- A new handler, with a forward if there is a callback, a new record, a new item, and the copy
of its text in the plugin's list. -/
def addItem (s : Menus) (plugin : ℕ) (display : Bytes) (callback isAutoMenu : Bool)
    (pCookie : Option CookieRef) (datavalue : ℤ) (type : Option ℤ) : Menus :=
  let a := s.next
  { s with
    clientMenu := s.clientMenu ++ [⟨a, cstr display, plugin⟩]
    names := Function.update s.names plugin (some ((s.names plugin).getD [] ++ [cstr display]))
    data := Function.update s.data a (some ⟨a, pCookie, datavalue, type⟩)
    handlers := Function.update s.handlers a (some ⟨if callback then some a else none, isAutoMenu⟩)
    forwards := Function.update s.forwards a callback
    next := a + 1 }

def addSettingsMenuItem (s : Menus) (plugin : ℕ) (display : Bytes) (datavalue : ℤ) : Menus :=
  addItem s plugin display true false none datavalue none

/-- The native after its handle check; there is a callback unless the plugin passes -1. -/
def addSettingsPrefabMenuItem (s : Menus) (plugin : ℕ) (c : CookieRef) (type : ℤ)
    (display : Bytes) (callback : ℤ) (datavalue : ℤ) : Menus :=
  addItem s plugin display (decide (callback ≠ -1)) true (some c) datavalue (some type)

/-- `ReleaseForward` and the two deletions of `OnPluginDestroyed`. -/
def deleteRecord (s : Menus) (info : ℕ) : Menus :=
  match s.data info with
  | none => s
  | some d =>
    match s.handlers d.handler with
    | none => s
    | some h =>
      { s with
        forwards :=
          match h.forward with
          | none => s.forwards
          | some f => Function.update s.forwards f false
        handlers := Function.update s.handlers d.handler none
        data := Function.update s.data info none }

/-- One turn of the outer loop of `OnPluginDestroyed`: the first item with the text goes. -/
def takeDown (s : Menus) (name : Bytes) : Menus :=
  match s.clientMenu.find? (·.display = name) with
  | none => s
  | some item =>
    { deleteRecord s item.info with clientMenu := s.clientMenu.eraseP (·.display = name) }

def onPluginDestroyed (s : Menus) (plugin : ℕ) : Menus :=
  match s.names plugin with
  | none => s
  | some names => { names.foldl takeDown s with names := Function.update s.names plugin none }

/-- What `ClientMenuHandler::OnMenuSelect` puts into the submenu of a prefab item. -/
def submenuInfos (info : ℕ) (type : Option ℤ) : List ℕ :=
  match type.bind CookieMenu.ofCell with
  | none => []
  | some _ => [info, info]

/-- `ClientMenuHandler::OnMenuSelect`, without the plugin's callback; `none` when it reads an
object that is deleted. -/
def clientMenuSelect (s : Menus) (client item : ℕ) : Option Menus := do
  let chosen ← s.clientMenu[item]?
  let d ← s.data chosen.info
  let h ← s.handlers d.handler
  if h.isAutoMenu then
    some { s with
      submenus := Function.update s.submenus s.nextMenu
        (some ⟨client, submenuInfos chosen.info d.type⟩)
      nextMenu := s.nextMenu + 1 }
  else some s

/-- `AutoMenuHandler::OnMenuSelect`: the cookie, the client and the value that it sets; `none`
when it reads an object that is deleted. -/
def autoMenuSelect (s : Menus) (menu item : ℕ) : Option (CookieRef × ℕ × Bytes) := do
  let sub ← s.submenus menu
  let info ← sub.infos[item]?
  let d ← s.data info
  let type ← d.type.bind CookieMenu.ofCell
  let c ← d.pCookie
  some (c, sub.client, if item = 0 then (settings type).1 else (settings type).2)

/-- `AutoMenuHandler::OnMenuEnd` frees the handle of the submenu. -/
def autoMenuEnd (s : Menus) (menu : ℕ) : Menus :=
  { s with submenus := Function.update s.submenus menu none }

inductive Event
  | addSettingsMenuItem (plugin : ℕ) (display : Bytes) (datavalue : ℤ)
  | addSettingsPrefabMenuItem (plugin : ℕ) (c : CookieRef) (type : ℤ) (display : Bytes)
      (callback datavalue : ℤ)
  | clientMenuSelect (client item : ℕ)
  | autoMenuSelect (menu item : ℕ)
  | autoMenuEnd (menu : ℕ)
  | pluginDestroyed (plugin : ℕ)
  deriving DecidableEq, Repr

/-- One event; a selection that would read a deleted object does not go on. -/
def step (s : Menus) : Event → Option Menus
  | .addSettingsMenuItem plugin display datavalue =>
    some (addSettingsMenuItem s plugin display datavalue)
  | .addSettingsPrefabMenuItem plugin c type display callback datavalue =>
    some (addSettingsPrefabMenuItem s plugin c type display callback datavalue)
  | .clientMenuSelect client item => clientMenuSelect s client item
  | .autoMenuSelect menu item => (autoMenuSelect s menu item).map fun _ => s
  | .autoMenuEnd menu => some (autoMenuEnd s menu)
  | .pluginDestroyed plugin => some (onPluginDestroyed s plugin)

abbrev Step (s : Menus) (e : Event) (t : Menus) : Prop := step s e = some t

def ownInfo (s : Menus) (plugin a : ℕ) : Bool :=
  decide (a ∈ (s.clientMenu.filter (·.owner = plugin)).map Item.info)

/-- Exactly the plugin's items go, with their objects; the others stay, in their order. -/
structure RemovesOwn (s : Menus) (plugin : ℕ) : Prop where
  clientMenu : (onPluginDestroyed s plugin).clientMenu = s.clientMenu.filter (·.owner ≠ plugin)
  data : ∀ a, (onPluginDestroyed s plugin).data a =
    if ownInfo s plugin a then none else s.data a
  handlers : ∀ a, (onPluginDestroyed s plugin).handlers a =
    if ownInfo s plugin a then none else s.handlers a
  forwards : ∀ a, (onPluginDestroyed s plugin).forwards a =
    (!ownInfo s plugin a && s.forwards a)

/-- No item of the plugin comes after another plugin's item with the same text. -/
def InOrder (s : Menus) (plugin : ℕ) : Prop :=
  s.clientMenu.Pairwise fun x y => x.owner ≠ plugin → y.owner = plugin → x.display ≠ y.display

instance (s : Menus) (plugin : ℕ) : Decidable (InOrder s plugin) :=
  inferInstanceAs (Decidable (List.Pairwise _ _))

/-- The items that go when the names are taken down: for each text the first ones that show it,
as many as there are such names. -/
def takenDown : List Bytes → List Item → List Item
  | _, [] => []
  | names, x :: items =>
    if x.display ∈ names then x :: takenDown (names.erase x.display) items
    else takenDown names items

def remaining : List Bytes → List Item → List Item
  | _, [] => []
  | names, x :: items =>
    if x.display ∈ names then remaining (names.erase x.display) items
    else x :: remaining names items

variable {s t : Menus} {names : List Bytes} {items : List Item} {name : Bytes}

@[simp] lemma remaining_nil_names (items : List Item) : remaining [] items = items := by
  induction items with
  | nil => rfl
  | cons x items ih => simp [remaining, ih]

@[simp] lemma takenDown_nil_names (items : List Item) : takenDown [] items = [] := by
  induction items with
  | nil => rfl
  | cons x items ih => simp [takenDown, ih]

lemma remaining_cons (name : Bytes) (names : List Bytes) (items : List Item) :
    remaining (name :: names) items = remaining names (items.eraseP (·.display = name)) := by
  induction items generalizing names with
  | nil => rfl
  | cons x items ih =>
    by_cases hx : x.display = name
    · simp [remaining, hx]
    · have erase : (name :: names).erase x.display = name :: names.erase x.display :=
        List.erase_cons_tail (by simpa using Ne.symm hx)
      have mem : x.display ∈ name :: names ↔ x.display ∈ names := by simp [hx]
      rw [List.eraseP_cons_of_neg (by simpa using hx)]
      simp only [remaining, mem, erase, ih]

lemma takenDown_cons (name : Bytes) (names : List Bytes) (items : List Item) :
    (takenDown (name :: names) items).Perm ((items.find? (·.display = name)).toList ++
      takenDown names (items.eraseP (·.display = name))) := by
  induction items generalizing names with
  | nil => exact .refl _
  | cons x items ih =>
    by_cases hx : x.display = name
    · simp [takenDown, hx]
    · have erase : (name :: names).erase x.display = name :: names.erase x.display :=
        List.erase_cons_tail (by simpa using Ne.symm hx)
      have mem : x.display ∈ name :: names ↔ x.display ∈ names := by simp [hx]
      rw [List.eraseP_cons_of_neg (by simpa using hx), List.find?_cons_of_neg (by simpa using hx)]
      simp only [takenDown, mem, erase]
      split_ifs
      · exact ((ih _).cons x).trans List.perm_middle.symm
      · exact ih names

lemma remaining_sublist (names : List Bytes) (items : List Item) :
    (remaining names items).Sublist items := by
  induction items generalizing names with
  | nil => exact .refl _
  | cons x items ih =>
    unfold remaining
    split_ifs
    · exact (ih _).cons x
    · exact (ih names).cons_cons x

lemma takenDown_sublist (names : List Bytes) (items : List Item) :
    (takenDown names items).Sublist items := by
  induction items generalizing names with
  | nil => exact .refl _
  | cons x items ih =>
    unfold takenDown
    split_ifs
    · exact (ih _).cons_cons x
    · exact (ih names).cons x

lemma eraseP_of_find {p : Item → Bool} {x : Item} (h : items.find? p = some x) :
    ∃ before after, items = before ++ x :: after ∧ items.eraseP p = before ++ after := by
  obtain ⟨hx, before, after, rfl, hbefore⟩ := List.find?_eq_some_iff_append.mp h
  refine ⟨before, after, rfl, ?_⟩
  rw [List.eraseP_append_right _ (fun y hy => by simpa using hbefore y hy),
    List.eraseP_cons_of_pos hx]

/-- The live objects are those of the items, and each item has its own. -/
structure Sound (s : Menus) : Prop where
  infos : (s.clientMenu.map Item.info).Nodup
  records : ∀ item ∈ s.clientMenu, ∃ d h, s.data item.info = some d ∧ d.handler = item.info ∧
    s.handlers item.info = some h ∧ (∀ f, h.forward = some f → f = item.info) ∧
    s.forwards item.info = h.forward.isSome
  only : ∀ a, (s.data a).isSome = true → a ∈ s.clientMenu.map Item.info
  fresh : ∀ item ∈ s.clientMenu, item.info < s.next

lemma Sound.start : Sound start where
  infos := List.nodup_nil
  records item h := by cases h
  only a h := by cases h
  fresh item h := by cases h

lemma Sound.addItem (h : Sound s) (plugin : ℕ) (display : Bytes) (callback isAutoMenu : Bool)
    (pCookie : Option CookieRef) (datavalue : ℤ) (type : Option ℤ) :
    Sound (addItem s plugin display callback isAutoMenu pCookie datavalue type) := by
  have new : s.next ∉ s.clientMenu.map Item.info := by
    intro hmem
    obtain ⟨item, hitem, heq⟩ := List.mem_map.mp hmem
    have := h.fresh item hitem
    omega
  constructor
  · simp only [SettingsMenu.addItem, List.map_append, List.map_cons, List.map_nil]
    exact List.nodup_append.mpr ⟨h.infos, List.nodup_singleton _, by
      rintro a ha b hb rfl
      exact new (List.mem_singleton.mp hb ▸ ha)⟩
  · intro item hitem
    rcases List.mem_append.mp hitem with hitem | hitem
    · have hne : item.info ≠ s.next := (h.fresh item hitem).ne
      simpa [SettingsMenu.addItem, hne] using h.records item hitem
    · obtain rfl := List.mem_singleton.mp hitem
      cases callback <;> simp [SettingsMenu.addItem]
  · intro a ha
    by_cases hne : a = s.next
    · simp [SettingsMenu.addItem, hne]
    · have := h.only a (by simpa [SettingsMenu.addItem, hne] using ha)
      simp only [SettingsMenu.addItem, List.map_append]
      exact List.mem_append_left _ this
  · intro item hitem
    rcases List.mem_append.mp hitem with hitem | hitem
    · exact (h.fresh item hitem).trans (Nat.lt_succ_self _)
    · obtain rfl := List.mem_singleton.mp hitem
      exact Nat.lt_succ_self _

lemma deleteRecord_eq (h : Sound s) {item : Item} (hitem : item ∈ s.clientMenu) :
    deleteRecord s item.info = { s with
      forwards := Function.update s.forwards item.info false
      handlers := Function.update s.handlers item.info none
      data := Function.update s.data item.info none } := by
  obtain ⟨d, handler, hdata, hd, hhandler, hforward, hreleased⟩ := h.records item hitem
  simp only [deleteRecord, hdata, hd, hhandler]
  cases hf : handler.forward with
  | none =>
    have released : s.forwards item.info = false := by simp [hreleased, hf]
    rw [← released, Function.update_eq_self]
  | some f => rw [hforward f hf]

/-- What one name does: the first item that shows it goes, with its objects. -/
structure Without (s t : Menus) (item : Item) (rest : List Item) : Prop where
  mem : item ∈ s.clientMenu
  apart : item.info ∉ rest.map Item.info
  sub : ∀ x ∈ rest, x ∈ s.clientMenu
  infos : (rest.map Item.info).Nodup
  all : ∀ a ∈ s.clientMenu.map Item.info, a = item.info ∨ a ∈ rest.map Item.info
  eq : t = { s with
    clientMenu := rest
    forwards := Function.update s.forwards item.info false
    handlers := Function.update s.handlers item.info none
    data := Function.update s.data item.info none }

lemma takeDown_of_find (h : Sound s) {item : Item}
    (hfind : s.clientMenu.find? (·.display = name) = some item) :
    Without s (takeDown s name) item (s.clientMenu.eraseP (·.display = name)) := by
  obtain ⟨before, after, hsplit, herase⟩ := eraseP_of_find hfind
  have hitem : item ∈ s.clientMenu := by simp [hsplit]
  have nodup := h.infos
  rw [hsplit, List.map_append, List.map_cons, List.nodup_middle, ← List.map_append,
    List.nodup_cons] at nodup
  refine ⟨hitem, herase ▸ nodup.1, fun x hx => ?_, herase ▸ nodup.2, fun a ha => ?_, ?_⟩
  · exact List.mem_of_mem_eraseP hx
  · rw [herase]
    rw [hsplit, List.map_append, List.map_cons, List.mem_append, List.mem_cons] at ha
    rw [List.map_append, List.mem_append]
    tauto
  · simp only [takeDown, hfind, deleteRecord_eq h hitem]

lemma Without.sound {item : Item} {rest : List Item} (w : Without s t item rest)
    (h : Sound s) : Sound t := by
  obtain ⟨mem, apart, sub, infos, all, rfl⟩ := w
  have ne : ∀ x ∈ rest, x.info ≠ item.info := by
    intro x hx heq
    exact apart (heq ▸ List.mem_map_of_mem hx)
  refine ⟨infos, fun x hx => ?_, fun a ha => ?_, fun x hx => h.fresh x (sub x hx)⟩
  · simpa [ne x hx] using h.records x (sub x hx)
  · by_cases hne : a = item.info
    · simp [hne] at ha
    · exact (all a (h.only a (by simpa [hne] using ha))).resolve_left hne

def goes (s : Menus) (names : List Bytes) (a : ℕ) : Bool :=
  decide (a ∈ (takenDown names s.clientMenu).map Item.info)

def without (s : Menus) (names : List Bytes) : Menus :=
  { s with
    clientMenu := remaining names s.clientMenu
    data := fun a => if goes s names a then none else s.data a
    handlers := fun a => if goes s names a then none else s.handlers a
    forwards := fun a => !goes s names a && s.forwards a }

lemma without_nil (s : Menus) : without s [] = s := by
  simp [without, goes]

lemma goes_cons (s : Menus) (name : Bytes) (names : List Bytes) (a : ℕ) :
    goes s (name :: names) a = true ↔
      (∃ item, s.clientMenu.find? (·.display = name) = some item ∧ a = item.info) ∨
      a ∈ (takenDown names (s.clientMenu.eraseP (·.display = name))).map Item.info := by
  have perm := (takenDown_cons name names s.clientMenu).map Item.info
  rw [goes, decide_eq_true_iff, perm.mem_iff, List.map_append, List.mem_append]
  cases s.clientMenu.find? (·.display = name) <;> simp

/-- The whole loop of `OnPluginDestroyed`. -/
theorem foldl_takeDown (h : Sound s) (names : List Bytes) :
    names.foldl takeDown s = without s names := by
  induction names generalizing s with
  | nil => exact (without_nil s).symm
  | cons name names ih =>
    rw [List.foldl_cons]
    cases hfind : s.clientMenu.find? (·.display = name) with
    | none =>
      have same : takeDown s name = s := by simp only [takeDown, hfind]
      have whole : s.clientMenu.eraseP (·.display = name) = s.clientMenu :=
        List.eraseP_of_forall_not (List.find?_eq_none.mp hfind)
      have gone : goes s (name :: names) = goes s names := by
        funext a
        rw [Bool.eq_iff_iff, goes_cons, hfind, whole]
        simp [goes]
      rw [same, ih h, without, without, remaining_cons, whole, gone]
    | some item =>
      have w := takeDown_of_find h hfind
      have gone : ∀ a, goes s (name :: names) a =
          (decide (a = item.info) || goes (takeDown s name) names a) := by
        intro a
        have menu : (takeDown s name).clientMenu = s.clientMenu.eraseP (·.display = name) := by
          rw [w.eq]
        rw [Bool.eq_iff_iff, goes_cons, hfind]
        simp [goes, menu]
      rw [ih (w.sound h), without, without, remaining_cons]
      simp only [gone]
      generalize goes (takeDown s name) names = later
      rw [w.eq]
      have pick : ∀ {β : Type} (f : ℕ → β) (b : β),
          (fun a => if later a then b else Function.update f item.info b a) =
            fun a => if decide (a = item.info) || later a then b else f a := by
        intro β f b
        funext a
        by_cases ha : a = item.info
        · simp [ha]
        · simp [ha]
      have released : (fun a => !later a && Function.update s.forwards item.info false a) =
          fun a => !(decide (a = item.info) || later a) && s.forwards a := by
        funext a
        by_cases ha : a = item.info
        · simp [ha]
        · simp [ha]
      simp only [pick, released]

lemma Sound.foldl_takeDown (h : Sound s) (names : List Bytes) :
    Sound (names.foldl takeDown s) := by
  induction names generalizing s with
  | nil => exact h
  | cons name names ih =>
    refine ih ?_
    cases hfind : s.clientMenu.find? (·.display = name) with
    | none =>
      have same : takeDown s name = s := by simp only [takeDown, hfind]
      rwa [same]
    | some item => exact (takeDown_of_find h hfind).sound h

lemma onPluginDestroyed_eq (h : Sound s) (plugin : ℕ) : onPluginDestroyed s plugin =
    { without s ((s.names plugin).getD []) with
      names := Function.update s.names plugin none } := by
  unfold onPluginDestroyed
  cases hnames : s.names plugin with
  | none =>
    have same : Function.update s.names plugin none = s.names := by
      rw [← hnames, Function.update_eq_self]
    rw [Option.getD_none, without_nil, same]
  | some names => simp only [foldl_takeDown h, Option.getD_some]

lemma Sound.onPluginDestroyed (h : Sound s) (plugin : ℕ) :
    Sound (onPluginDestroyed s plugin) := by
  unfold SettingsMenu.onPluginDestroyed
  cases s.names plugin with
  | none => exact h
  | some names =>
    have hfold := h.foldl_takeDown names
    exact ⟨hfold.infos, hfold.records, hfold.only, hfold.fresh⟩

section Owners
variable {plugin : ℕ}

/-- The texts that a plugin's list holds. -/
def textsOf (plugin : ℕ) (items : List Item) : List Bytes :=
  (items.filter (·.owner = plugin)).map Item.display

lemma takenDown_textsOf (order : items.Pairwise fun x y =>
      x.owner ≠ plugin → y.owner = plugin → x.display ≠ y.display) :
    takenDown (textsOf plugin items) items = items.filter (·.owner = plugin) ∧
      remaining (textsOf plugin items) items = items.filter (·.owner ≠ plugin) := by
  induction items with
  | nil => exact ⟨rfl, rfl⟩
  | cons x items ih =>
    obtain ⟨head, tail⟩ := List.pairwise_cons.mp order
    by_cases mine : x.owner = plugin
    · have texts : textsOf plugin (x :: items) = x.display :: textsOf plugin items := by
        simp [textsOf, mine]
      simp [texts, takenDown, remaining, mine, ih tail]
    · have texts : textsOf plugin (x :: items) = textsOf plugin items := by
        simp [textsOf, mine]
      have other : x.display ∉ textsOf plugin items := by
        intro hmem
        obtain ⟨y, hy, heq⟩ := List.mem_map.mp hmem
        obtain ⟨hy, howner⟩ := List.mem_filter.mp hy
        exact head y hy mine (by simpa using howner) heq.symm
      simp [texts, takenDown, remaining, mine, other, ih tail]

lemma order_of_remaining (nodup : items.Nodup)
    (others : remaining (textsOf plugin items) items = items.filter (·.owner ≠ plugin)) :
    items.Pairwise fun x y => x.owner ≠ plugin → y.owner = plugin → x.display ≠ y.display := by
  induction items with
  | nil => exact .nil
  | cons x items ih =>
    obtain ⟨hx, nodup⟩ := List.nodup_cons.mp nodup
    by_cases mine : x.owner = plugin
    · have texts : textsOf plugin (x :: items) = x.display :: textsOf plugin items := by
        simp [textsOf, mine]
      refine List.pairwise_cons.mpr ⟨fun y _ hne => absurd mine hne, ih nodup ?_⟩
      simpa [texts, remaining, mine] using others
    · have texts : textsOf plugin (x :: items) = textsOf plugin items := by
        simp [textsOf, mine]
      by_cases shared : x.display ∈ textsOf plugin items
      · rw [texts, remaining, if_pos shared] at others
        have stays : x ∈ (x :: items).filter (·.owner ≠ plugin) := by simp [mine]
        rw [← others] at stays
        exact absurd ((remaining_sublist _ _).mem stays) hx
      · refine List.pairwise_cons.mpr ⟨fun y hy _ howner heq => shared ?_, ih nodup ?_⟩
        · rw [heq]
          exact List.mem_map_of_mem (List.mem_filter.mpr ⟨hy, by simpa using howner⟩)
        · simpa [texts, remaining, mine, shared] using others

/-- The plugins' lists hold the texts of their items. -/
def Tracked (s : Menus) : Prop :=
  ∀ plugin, (s.names plugin).getD [] = textsOf plugin s.clientMenu

theorem removesOwn_iff (sound : Sound s) (tracked : Tracked s) (plugin : ℕ) :
    RemovesOwn s plugin ↔ InOrder s plugin := by
  have heq := onPluginDestroyed_eq sound plugin
  rw [tracked plugin] at heq
  constructor
  · intro removes
    apply order_of_remaining sound.infos.of_map
    rw [← removes.clientMenu, heq]
    rfl
  · intro order
    obtain ⟨taken, stay⟩ := takenDown_textsOf order
    have gone : ∀ a, goes s (textsOf plugin s.clientMenu) a = ownInfo s plugin a := by
      intro a
      rw [goes, taken, ownInfo]
    refine ⟨?_, fun a => ?_, fun a => ?_, fun a => ?_⟩
    · rw [heq]
      exact stay
    · rw [heq, ← gone]
      rfl
    · rw [heq, ← gone]
      rfl
    · rw [heq, ← gone]
      rfl

lemma Tracked.addItem (h : Tracked s) (owner : ℕ) (display : Bytes) (callback isAutoMenu : Bool)
    (pCookie : Option CookieRef) (datavalue : ℤ) (type : Option ℤ) :
    Tracked (addItem s owner display callback isAutoMenu pCookie datavalue type) := by
  intro plugin
  by_cases hp : plugin = owner
  · subst hp
    simp [SettingsMenu.addItem, textsOf, h plugin]
  · simp [SettingsMenu.addItem, textsOf, hp, Ne.symm hp, h plugin]

lemma Tracked.onPluginDestroyed (sound : Sound s) (h : Tracked s) {owner : ℕ}
    (removes : RemovesOwn s owner) : Tracked (onPluginDestroyed s owner) := by
  intro plugin
  rw [removes.clientMenu, onPluginDestroyed_eq sound]
  by_cases hp : plugin = owner
  · subst hp
    simp [textsOf, List.filter_filter]
  · have own : (s.clientMenu.filter (·.owner ≠ owner)).filter (·.owner = plugin) =
        s.clientMenu.filter (·.owner = plugin) := by
      rw [List.filter_filter]
      apply List.filter_congr
      intro x _
      by_cases hx : x.owner = plugin
      · simp [hx, hp]
      · simp [hx]
    simp only [Function.update_of_ne hp, h plugin, textsOf, own]

end Owners

inductive Steps (s : Menus) : Event → Menus → Prop
  | add (e : Event) (plugin : ℕ) (display : Bytes) (callback isAutoMenu : Bool)
      (pCookie : Option CookieRef) (datavalue : ℤ) (type : Option ℤ)
      (adds : ∀ owner, e ≠ .pluginDestroyed owner) :
      Steps s e (addItem s plugin display callback isAutoMenu pCookie datavalue type)
  | opened (client i : ℕ) (item : Item) (d : AutoMenuData) (h : ItemHandler)
      (hitem : s.clientMenu[i]? = some item) (hdata : s.data item.info = some d)
      (hhandler : s.handlers d.handler = some h) :
      Steps s (.clientMenuSelect client i) { s with
        submenus := Function.update s.submenus s.nextMenu
          (some ⟨client, submenuInfos item.info d.type⟩)
        nextMenu := s.nextMenu + 1 }
  | selected (e : Event) (selects : ∀ owner, e ≠ .pluginDestroyed owner) : Steps s e s
  | ended (menu : ℕ) : Steps s (.autoMenuEnd menu) (autoMenuEnd s menu)
  | destroyed (plugin : ℕ) : Steps s (.pluginDestroyed plugin) (onPluginDestroyed s plugin)

variable {e : Event} {trace : List (Menus × Event)}

theorem step_cases (h : step s e = some t) : Steps s e t := by
  cases e with
  | addSettingsMenuItem plugin display datavalue =>
    obtain rfl := Option.some.inj h
    exact .add _ _ _ _ _ _ _ _ (by simp)
  | addSettingsPrefabMenuItem plugin c type display callback datavalue =>
    obtain rfl := Option.some.inj h
    exact .add _ _ _ _ _ _ _ _ (by simp)
  | clientMenuSelect client i =>
    simp only [step, clientMenuSelect, Option.bind_eq_bind, Option.bind_eq_some_iff] at h
    obtain ⟨item, hitem, d, hdata, handler, hhandler, hopen⟩ := h
    split_ifs at hopen
    · obtain rfl := Option.some.inj hopen
      exact .opened client i item d handler hitem hdata hhandler
    · obtain rfl := Option.some.inj hopen
      exact .selected _ (by simp)
  | autoMenuSelect menu i =>
    obtain ⟨_, _, rfl⟩ := Option.map_eq_some_iff.mp h
    exact .selected _ (by simp)
  | autoMenuEnd menu =>
    obtain rfl := Option.some.inj h
    exact .ended menu
  | pluginDestroyed plugin =>
    obtain rfl := Option.some.inj h
    exact .destroyed plugin

theorem Sound.step (h : Sound s) (hstep : step s e = some t) : Sound t := by
  cases step_cases hstep with
  | add => exact h.addItem ..
  | opened => exact ⟨h.infos, h.records, h.only, h.fresh⟩
  | selected => exact h
  | ended menu => exact ⟨h.infos, h.records, h.only, h.fresh⟩
  | destroyed plugin => exact h.onPluginDestroyed plugin

theorem Tracked.step (sound : Sound s) (h : Tracked s)
    (removes : ∀ plugin, e = .pluginDestroyed plugin → RemovesOwn s plugin)
    (hstep : step s e = some t) : Tracked t := by
  cases step_cases hstep with
  | add => exact fun plugin => h.addItem _ _ _ _ _ _ _ plugin
  | opened => exact h
  | selected => exact h
  | ended menu => exact h
  | destroyed plugin => exact h.onPluginDestroyed sound (removes plugin rfl)

theorem sound_of_run (run : Run Step start trace s) : Sound s := by
  have preserved : ∀ (a : Menus) (e : Event) (b : Menus), Sound a → Step a e b → Sound b :=
    fun _ _ _ sound step => sound.step step
  exact run.stable .start preserved

theorem tracked_of_run (run : Run Step start trace s)
    (order : ∀ x ∈ trace, ∀ plugin, x.2 = .pluginDestroyed plugin → InOrder x.1 plugin) :
    Tracked s := by
  have preserved : ∀ (a : Menus) (e : Event) (b : Menus), (Sound a ∧ Tracked a) →
      (∀ plugin, e = .pluginDestroyed plugin → InOrder a plugin) → Step a e b →
      (Sound b ∧ Tracked b) := by
    intro a e b ⟨sound, tracked⟩ order step
    refine ⟨sound.step step, tracked.step sound (fun plugin he => ?_) step⟩
    exact (removesOwn_iff sound tracked plugin).mpr (order plugin he)
  have first : Tracked start := fun _ => rfl
  exact (run.invariant ⟨.start, first⟩ preserved order).2

/-- In every run in which the plugins destroyed so far were in order, a plugin's destruction
removes its own items and no others exactly when it is in order, too. -/
theorem removes_own_iff (run : Run Step start trace s)
    (order : ∀ x ∈ trace, ∀ owner, x.2 = .pluginDestroyed owner → InOrder x.1 owner)
    (plugin : ℕ) : RemovesOwn s plugin ↔ InOrder s plugin :=
  removesOwn_iff (sound_of_run run) (tracked_of_run run order) plugin

/-- Two plugins with an item of their own, and then a second one of the first plugin. -/
def twoPlugins : List Event :=
  [.addSettingsMenuItem 1 (bytes "Volume") 0,
    .addSettingsPrefabMenuItem 2 0 0 (bytes "Music") (-1) 0,
    .addSettingsMenuItem 1 (bytes "Volume") 1]

theorem removes_own_twoPlugins : ∃ s, s.clientMenu.length = 3 ∧ RemovesOwn s 1 ∧
    RemovesOwn s 2 := by
  have adds : (advance step start twoPlugins).any
      (fun s => s.clientMenu.length = 3 ∧ InOrder s 1 ∧ InOrder s 2) = true := by decide
  obtain ⟨s, hs, hall⟩ := (Option.any_eq_true ..).mp adds
  obtain ⟨hlen, first, second⟩ := of_decide_eq_true hall
  have own (plugin : ℕ) : RemovesOwn s plugin ↔ InOrder s plugin := by
    refine removes_own_iff (advance_run hs) (fun x hx plugin he => ?_) plugin
    simp only [twoPlugins, advanceTrace, step, List.mem_cons, List.not_mem_nil, or_false] at hx
    rcases hx with rfl | rfl | rfl
    · cases he
    · cases he
    · cases he
  exact ⟨s, hlen, (own 1).mpr first, (own 2).mpr second⟩

/-- Two plugins show the same text: the first one's item goes with the second plugin. -/
def sameText : List Event :=
  [.addSettingsMenuItem 1 (bytes "Volume") 0, .addSettingsMenuItem 2 (bytes "Volume") 0]

theorem removes_other : ¬ ∀ (trace : List (Menus × Event)) (s : Menus) (plugin : ℕ),
    Run Step start trace s → (∀ x ∈ trace, ∀ owner, x.2 ≠ .pluginDestroyed owner) →
    RemovesOwn s plugin := by
  intro h
  have adds : (advance step start sameText).any
      (fun s => (onPluginDestroyed s 2).clientMenu ≠ s.clientMenu.filter (·.owner ≠ 2)) = true := by
    decide
  obtain ⟨s, hs, hne⟩ := (Option.any_eq_true ..).mp adds
  have removes := h _ s 2 (advance_run hs) (by simp [sameText, advanceTrace, step])
  exact (by simpa using hne : _ ≠ _) removes.clientMenu

end ClientPrefs.SettingsMenu
