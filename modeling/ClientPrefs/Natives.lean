import ClientPrefs.CookieIds
import ClientPrefs.OpenMenus
import ClientPrefs.SlotAccesses

/-!
# The natives

What plugins call and what players choose in the menus. A plugin names a cookie by a handle that
it was given before, so that the tests of the natives keep it to what a session allows.
-/
namespace ClientPrefs.Natives
open AccessLog ByteStrings CookieIds CookieManager Cookies LateLoad Session SlotAccesses SlotTables
open Transition

/-- What a handle stands for: a `Cookie`, or the `size_t` of a cookie iterator. -/
inductive Object
  | cookie (c : CookieRef)
  | iterator (a : ℕ)
  deriving DecidableEq, Repr

/-- What does not change while the extension runs. `errorOf` is the host's `HandleError` for a
handle that is not one of the type asked for. `formatString` is `FormatString` of the phrases, by
format, phrase, client and texts; `none` where it fails and leaves the buffer as it was. -/
structure Setup where
  cfg : Config
  maxPlayers : ℕ
  room : cfg.maxClients ≤ maxPlayers
  errorOf : (Int32 → Option Object) → Int32 → ℕ
  formatString : Bytes → Bytes → ℤ → List Bytes → Option Bytes

structure Plugins where
  server : Server
  menus : SettingsMenu.Menus
  /-- The default title of `clientMenu`, and for whom `ShowSettingsMenu` has displayed it. -/
  title : Bytes
  displayed : List Int32
  handles : Int32 → Option Object
  /-- How many handles the host counts for the `size_t` of an iterator. -/
  refcount : ℕ → ℕ
  /-- The `size_t` objects of the iterators; a deleted or unborn one is `none`. -/
  iterators : ℕ → Option ℕ
  nextIterator : ℕ

/-- `noName` is "Cannot create preference cookie with no name", `iteratorHandle` is "Invalid
Cookie iterator handle %x (error %d)". -/
inductive Failure
  | noName
  | native (e : NativeError)
  | iteratorHandle (hndl : Int32) (err : ℕ)
  deriving DecidableEq

/-- A cell, alone or with the text of `GetClientCookie`, or 1 with what `ReadCookieIterator`
copies, the texts of a submenu that is displayed, or an error that is thrown. -/
inductive Answer
  | cell (n : ℤ)
  | text (value : Bytes)
  | entry (name description : Bytes) (access : CookieAccess)
  | submenu (title : Bytes) (items : List Bytes)
  | thrown (e : Failure)
  deriving DecidableEq

section Definitions
variable (S : Setup)

def readCookie (p : Plugins) (hndl : Int32) : Except ℕ CookieRef :=
  match p.handles hndl with
  | some (.cookie c) => .ok c
  | _ => .error (S.errorOf p.handles hndl)

def readIterator (p : Plugins) (hndl : Int32) : Except ℕ ℕ :=
  match p.handles hndl with
  | some (.iterator a) => .ok a
  | _ => .error (S.errorOf p.handles hndl)

/-- The handles of cookies are not counted: their `OnHandleDestroy` does nothing. -/
def Object.retain (refcount : ℕ → ℕ) : Object → ℕ → ℕ
  | .cookie _ => refcount
  | .iterator a => Function.update refcount a (refcount a + 1)

def Object.release (refcount : ℕ → ℕ) : Object → ℕ → ℕ
  | .cookie _ => refcount
  | .iterator a => Function.update refcount a (refcount a - 1)

def Object.held (refcount : ℕ → ℕ) : Object → Bool
  | .cookie _ => false
  | .iterator a => 0 < refcount a

/-- `CreateHandle`, which made this handle, or none if it is `BAD_HANDLE`. -/
def createHandle (p : Plugins) (hndl : Int32) (object : Object) : Plugins :=
  if hndl = 0 then p
  else { p with
    handles := Function.update p.handles hndl (some object)
    refcount := object.retain p.refcount }

/-- `Translate` into `message`, which is `none` before anything was written to it. -/
def translate (message : Option Bytes) (format phrase : Bytes) (client : ℤ) (texts : List Bytes) :
    Option Bytes := (S.formatString format phrase client texts).or message

def reconnect (p : Plugins) : Plugins :=
  { p with server := attemptReconnection S.cfg p.server }

def onServer {α : Type} (x : Program (Except NativeError α)) (answer : α → Answer) (p : Plugins) :
    Option (Plugins × Answer) :=
  (x p.server).2.map fun r =>
    ({ p with server := r.2 },
      match r.1 with
      | .ok a => answer a
      | .error e => .thrown (.native e))

/-- The cookie is never null behind `CreateCookie`. -/
def regClientPrefCookie (p : Plugins) (name description : Bytes) (access : CookieAccess)
    (hndl : Int32) : Plugins × Answer :=
  let p := reconnect S p
  if cstr name = [] then (p, .thrown .noName)
  else
    let r := createCookie S.cfg p.server name description access
    (createHandle { p with server := r.1 } hndl (.cookie r.2), .cell hndl.toInt)

def findClientPrefCookie (p : Plugins) (name : Bytes) (hndl : Int32) : Plugins × Answer :=
  let p := reconnect S p
  match findCookie S.cfg p.server name with
  | none => (p, .cell 0)
  | some c => (createHandle p hndl (.cookie c), .cell hndl.toInt)

/-- `CookieManager.setAuthIdCookie` begins with `AttemptReconnection` itself. -/
def setAuthIdCookie (p : Plugins) (authId : Bytes) (hndl : Int32) (value : Bytes) (now : ℕ) :
    Option (Plugins × Answer) :=
  match readCookie S p hndl with
  | .error err => some (reconnect S p, .thrown (.native (.cookieHandle hndl err)))
  | .ok c => (CookieManager.setAuthIdCookie S.cfg p.server authId c value now).map fun s =>
    ({ p with server := s }, .cell 1)

def setClientPrefCookie (p : Plugins) (client hndl : Int32) (value : Bytes) (now : ℕ) :
    Option (Plugins × Answer) :=
  onServer (SlotAccesses.setClientPrefCookie S.cfg S.maxPlayers (readCookie S p) client hndl value
    now) (fun _ => .cell 1) p

def getClientPrefCookie (p : Plugins) (client hndl : Int32) : Option (Plugins × Answer) :=
  onServer (SlotAccesses.getClientPrefCookie S.cfg S.maxPlayers (readCookie S p) client hndl)
    .text p

def areClientCookiesCached (p : Plugins) (client : Int32) : Option (Plugins × Answer) :=
  onServer (nativeAreClientCookiesCached S.cfg S.maxPlayers client)
    (fun cached => .cell (if cached then 1 else 0)) p

def getCookieAccess (p : Plugins) (hndl : Int32) : Plugins × Answer :=
  let p := reconnect S p
  match readCookie S p hndl with
  | .error err => (p, .thrown (.native (.cookieHandle hndl err)))
  | .ok c => (p, .cell (p.server.cookies c).access)

/-- The new `size_t` is deleted again if there is no handle for it. -/
def getCookieIterator (p : Plugins) (hndl : Int32) : Plugins × Answer :=
  let p := reconnect S p
  let a := p.nextIterator
  let p := { p with iterators := Function.update p.iterators a (some 0), nextIterator := a + 1 }
  if hndl = 0 then ({ p with iterators := Function.update p.iterators a none }, .cell 0)
  else (createHandle p hndl (.iterator a), .cell hndl.toInt)

/-- `none` when the `size_t` is not there any more. -/
def readCookieIterator (p : Plugins) (hndl : Int32) : Option (Plugins × Answer) :=
  let p := reconnect S p
  match readIterator S p hndl with
  | .error err => some (p, .thrown (.iteratorHandle hndl err))
  | .ok a => (p.iterators a).map fun iter =>
    if p.server.cookieCount ≤ iter then (p, .cell 0)
    else
      let pCookie := p.server.cookies iter
      ({ p with iterators := Function.update p.iterators a (some (iter + 1)) },
        .entry pCookie.name pCookie.description pCookie.access)

/-- The client index is not tested. `none` when the title is read from the uninitialised
`message`. -/
def showSettingsMenu (p : Plugins) (client : Int32) : Option (Plugins × Answer) :=
  let p := reconnect S p
  (translate S none (bytes "%T:") (bytes "Client Settings") client.toInt []).map fun message =>
    ({ p with title := message, displayed := p.displayed ++ [client] }, .cell 0)

def addSettingsMenuItem (p : Plugins) (plugin : ℕ) (display : Bytes) (datavalue : ℤ) :
    Plugins × Answer :=
  let p := reconnect S p
  ({ p with menus := SettingsMenu.addSettingsMenuItem p.menus plugin display datavalue }, .cell 0)

def addSettingsPrefabMenuItem (p : Plugins) (plugin : ℕ) (hndl : Int32) (type : ℤ)
    (display : Bytes) (callback datavalue : ℤ) : Plugins × Answer :=
  let p := reconnect S p
  match readCookie S p hndl with
  | .error err => (p, .thrown (.native (.cookieHandle hndl err)))
  | .ok c =>
    ({ p with
      menus := SettingsMenu.addSettingsPrefabMenuItem p.menus plugin c type display callback
        datavalue }, .cell 0)

def getClientCookieTime (p : Plugins) (client hndl : Int32) : Option (Plugins × Answer) :=
  onServer (SlotAccesses.getClientCookieTime S.cfg S.maxPlayers (readCookie S p) client hndl)
    (fun time => .cell time.toInt) p

/-- `OnHandleDestroy` of `CookieTypeHandler` and of `CookieIteratorHandler`; `none` when it
deletes what is not there. -/
def onHandleDestroy (p : Plugins) : Object → Option Plugins
  | .cookie _ => some p
  | .iterator a => (p.iterators a).map fun _ =>
    { p with iterators := Function.update p.iterators a none }

/-- `CloneHandle` makes another handle for the same object. -/
def cloneHandle (p : Plugins) (hndl copy : Int32) : Plugins :=
  match p.handles hndl with
  | none => p
  | some object => createHandle p copy object

/-- The host closes a handle; the object goes with its last one. -/
def closeHandle (p : Plugins) (hndl : Int32) : Option Plugins :=
  match p.handles hndl with
  | none => some p
  | some object =>
    let p := { p with
      handles := Function.update p.handles hndl none
      refcount := object.release p.refcount }
    if object.held p.refcount then some p else onHandleDestroy p object

def prefabType (m : SettingsMenu.Menus) (item : ℕ) : Option (Option SettingsMenu.CookieMenu) := do
  let chosen ← m.clientMenu[item]?
  let d ← m.data chosen.info
  let h ← m.handlers d.handler
  if h.isAutoMenu then some (d.type.bind SettingsMenu.CookieMenu.ofCell) else none

def phrases : SettingsMenu.CookieMenu → List Bytes
  | .yesNo | .yesNoInt => [bytes "Yes", bytes "No"]
  | .onOff | .onOffInt => [bytes "On", bytes "Off"]

/-- The texts of the items of a submenu. A phrase that fails leaves the text before in
`message`. -/
def itemTexts (client : ℕ) : Bytes → List Bytes → List Bytes
  | _, [] => []
  | message, phrase :: rest =>
    let text := (S.formatString (bytes "%T") phrase client []).getD message
    text :: itemTexts client text rest

/-- `ClientMenuHandler::OnMenuSelect`. `none` when there is no such item any more, or when the
title is read from the uninitialised `message`. -/
def clientMenuSelect (p : Plugins) (client item : ℕ) : Option (Plugins × Answer) :=
  (SettingsMenu.clientMenuSelect p.menus client item).bind fun menus =>
    let q := { p with menus := menus }
    match prefabType p.menus item with
    | none => some (q, .cell 0)
    | some type =>
      (translate S none (bytes "%T:") (bytes "Choose Option") client []).map fun title =>
        (q, .submenu title (itemTexts S client title ((type.map phrases).getD [])))

/-- `ClientMenuHandler::OnMenuDisplayItem`: the text that the plugin's callback has made of the
one it got, or 0 without a callback. -/
def clientMenuDisplay (p : Plugins) (item : ℕ) (text : Bytes) : Option (Plugins × Answer) := do
  let chosen ← p.menus.clientMenu[item]?
  let d ← p.menus.data chosen.info
  let h ← p.menus.handlers d.handler
  some (p, if h.forward.isSome then .text text else .cell 0)

/-- `AutoMenuHandler::OnMenuSelect`. The answer is the text for the player. -/
def autoMenuSelect (p : Plugins) (menu item now : ℕ) : Option (Plugins × Answer) :=
  (SettingsMenu.autoMenuSelect p.menus menu item).bind fun choice =>
    let s := CookieManager.setCookieValue p.server choice.1 choice.2.1 choice.2.2 now
    let r := CookieManager.getCookieValue s choice.1 choice.2.1
    (translate S none (bytes "[SM] %T") (bytes "Cookie Changed Value") choice.2.1
      [(s.cookies choice.1).name, r.2]).map fun message => ({ p with server := r.1 }, .text message)

end Definitions

/-- What a plugin calls. The handles are those that the host makes on the way; the time is that
of the call. -/
inductive Native
  | regClientCookie (name description : Bytes) (access : CookieAccess) (hndl : Int32)
  | findClientCookie (name : Bytes) (hndl : Int32)
  | setAuthIdCookie (authId : Bytes) (hndl : Int32) (value : Bytes) (now : ℕ)
  | setClientCookie (client hndl : Int32) (value : Bytes) (now : ℕ)
  | getClientCookie (client hndl : Int32)
  | areClientCookiesCached (client : Int32)
  | getCookieAccess (hndl : Int32)
  | getCookieIterator (hndl : Int32)
  | readCookieIterator (hndl : Int32)
  | showCookieMenu (client : Int32)
  | setCookieMenuItem (plugin : ℕ) (display : Bytes) (datavalue : ℤ)
  | setCookiePrefabMenu (plugin : ℕ) (hndl : Int32) (type : ℤ) (display : Bytes)
      (callback datavalue : ℤ)
  | getClientCookieTime (client hndl : Int32)
  deriving DecidableEq

/-- What happens: a native, something the host reports or runs, or a choice in a menu. -/
inductive Act
  | native (n : Native)
  | host (e : Event)
  | clone (hndl copy : Int32)
  | close (hndl : Int32)
  | clientMenuSelect (client item : ℕ)
  | clientMenuDisplay (item : ℕ) (text : Bytes)
  | autoMenuSelect (menu item now : ℕ)
  | autoMenuEnd (menu : ℕ)
  | pluginDestroyed (plugin : ℕ)

/-- Only the host connects and disconnects players, and runs the think parts. -/
def HostEvent : Event → Prop
  | .connect .. | .authorize _ | .disconnecting _ | .disconnected _ | .think .. => True
  | _ => False

section Steps
variable (S : Setup)

def call (p : Plugins) : Native → Option (Plugins × Answer)
  | .regClientCookie name description access hndl =>
    some (regClientPrefCookie S p name description access hndl)
  | .findClientCookie name hndl => some (findClientPrefCookie S p name hndl)
  | .setAuthIdCookie authId hndl value now => setAuthIdCookie S p authId hndl value now
  | .setClientCookie client hndl value now => setClientPrefCookie S p client hndl value now
  | .getClientCookie client hndl => getClientPrefCookie S p client hndl
  | .areClientCookiesCached client => areClientCookiesCached S p client
  | .getCookieAccess hndl => some (getCookieAccess S p hndl)
  | .getCookieIterator hndl => some (getCookieIterator S p hndl)
  | .readCookieIterator hndl => readCookieIterator S p hndl
  | .showCookieMenu client => showSettingsMenu S p client
  | .setCookieMenuItem plugin display datavalue =>
    some (addSettingsMenuItem S p plugin display datavalue)
  | .setCookiePrefabMenu plugin hndl type display callback datavalue =>
    some (addSettingsPrefabMenuItem S p plugin hndl type display callback datavalue)
  | .getClientCookieTime client hndl => getClientCookieTime S p client hndl

/-- One act with its answer; `none` where the behaviour is undefined. -/
def perform (p : Plugins) : Act → Option (Plugins × Answer)
  | .native n => call S p n
  | .host e => some ({ p with server := e.apply S.cfg p.server }, .cell 0)
  | .clone hndl copy => some (cloneHandle p hndl copy, .cell 0)
  | .close hndl => (closeHandle p hndl).map fun q => (q, .cell 0)
  | .clientMenuSelect client item => clientMenuSelect S p client item
  | .clientMenuDisplay item text => clientMenuDisplay p item text
  | .autoMenuSelect menu item now => autoMenuSelect S p menu item now
  | .autoMenuEnd menu =>
    some ({ p with menus := SettingsMenu.autoMenuEnd p.menus menu }, .cell 0)
  | .pluginDestroyed plugin =>
    some ({ p with menus := SettingsMenu.onPluginDestroyed p.menus plugin }, .cell 0)

/-- What the host guarantees: a handle that it makes is not in use, it is a client who chooses, and
a submenu keeps its items while it is open. The items of `clientMenu` may be gone. -/
def Act.Allowed (p : Plugins) : Act → Prop
  | .native (.regClientCookie _ _ _ hndl) => p.handles hndl = none
  | .native (.findClientCookie _ hndl) => p.handles hndl = none
  | .native (.getCookieIterator hndl) => p.handles hndl = none
  | .native _ => True
  | .clone _ copy => p.handles copy = none
  | .host e => HostEvent e ∧ e.Allowed S.cfg p.server
  | .clientMenuSelect client _ => Client S.cfg client
  | .autoMenuSelect menu item _ => ∃ sub, p.menus.submenus menu = some sub ∧
      item < sub.infos.length
  | _ => True

def Step (p : Plugins) (act : Act) (q : Plugins) : Prop :=
  act.Allowed S p ∧ ∃ answer, perform S p act = some (q, answer)

end Steps

def start (roster : ℕ → Option Player) (spent : List ℕ) : Plugins where
  server := Session.start roster spent
  menus := SettingsMenu.start
  title := bytes "Client Settings:"
  displayed := []
  handles := fun _ => none
  refcount := fun _ => 0
  iterators := fun _ => none
  nextIterator := 0

section Events
variable (S : Setup)

def valueEvents (p : Plugins) (client hndl : Int32) (event : CookieRef → ℕ → Event) : List Event :=
  if invalidClient S.cfg client then [.reconnect]
  else
    match readCookie S p hndl with
    | .error _ => [.reconnect]
    | .ok c => [.reconnect, event c client.toInt.toNat]

def nativeEvents (p : Plugins) : Native → List Event
  | .regClientCookie name description access _ =>
    if cstr name = [] then [.reconnect] else [.reconnect, .createCookie name description access]
  | .setAuthIdCookie authId hndl value now =>
    match readCookie S p hndl with
    | .error _ => [.reconnect]
    | .ok c => [.setAuthIdCookie authId c value now]
  | .setClientCookie client hndl value now =>
    valueEvents S p client hndl fun c i => .setCookieValue c i value now
  | .getClientCookie client hndl => valueEvents S p client hndl .getCookieValue
  | _ => [.reconnect]

def eventsOf (p : Plugins) : Act → List Event
  | .native n => nativeEvents S p n
  | .host e => [e]
  | .autoMenuSelect menu item now =>
    match SettingsMenu.autoMenuSelect p.menus menu item with
    | none => []
    | some (c, i, v) => [.setCookieValue c i v now, .getCookieValue c i]
  | _ => []

end Events

variable {cfg : Config} {maxPlayers : ℕ} {s : Server} {readHandle : Int32 → Except ℕ CookieRef}
  {client hndl : Int32} {α : Type} {P : Access → Prop}

lemma tested_answer (room : cfg.maxClients ≤ maxPlayers)
    (body : Program (Except NativeError α)) :
    ((do
      SlotAccesses.attemptReconnection cfg maxPlayers
      if invalidClient cfg client then return .error (.clientIndex client) else body :
      Program (Except NativeError α)) s).2 =
      if invalidClient cfg client then
        some (.error (.clientIndex client), attemptReconnection cfg s)
      else (body (attemptReconnection cfg s)).2 := by
  rw [(computes_attemptReconnection room s).bind_answer]
  split_ifs <;> rfl

lemma setClientPrefCookie_server (room : cfg.maxClients ≤ maxPlayers) (value : Bytes)
    (now : ℕ) :
    ((SlotAccesses.setClientPrefCookie cfg maxPlayers readHandle client hndl value now) s).2 =
      some (if invalidClient cfg client then
        (.error (.clientIndex client), attemptReconnection cfg s)
      else
        match readHandle hndl with
        | .error err => (.error (.cookieHandle hndl err), attemptReconnection cfg s)
        | .ok c => (.ok (), setCookieValue (attemptReconnection cfg s) c client.toInt.toNat value
            now)) := by
  refine (tested_answer room _).trans ?_
  cases valid : invalidClient cfg client with
  | true => rfl
  | false =>
    simp only [Bool.false_eq_true, if_false]
    cases readHandle hndl with
    | error err => rfl
    | ok c =>
      obtain ⟨i, hi, _, high⟩ := index_of_valid valid
      rw [hi]
      exact (computes_setCookieValue (high.trans room) value now).bind_answer

lemma getClientPrefCookie_server (room : cfg.maxClients ≤ maxPlayers) :
    ((SlotAccesses.getClientPrefCookie cfg maxPlayers readHandle client hndl) s).2 =
      some (if invalidClient cfg client then
        (.error (.clientIndex client), attemptReconnection cfg s)
      else
        match readHandle hndl with
        | .error err => (.error (.cookieHandle hndl err), attemptReconnection cfg s)
        | .ok c =>
          let r := getCookieValue (attemptReconnection cfg s) c client.toInt.toNat
          (.ok r.2, r.1)) := by
  refine (tested_answer room _).trans ?_
  cases valid : invalidClient cfg client with
  | true => rfl
  | false =>
    simp only [Bool.false_eq_true, if_false]
    cases readHandle hndl with
    | error err => rfl
    | ok c =>
      obtain ⟨i, hi, _, high⟩ := index_of_valid valid
      rw [hi]
      exact (computes_getCookieValue (high.trans room)).bind_answer

lemma areClientCookiesCached_server (room : cfg.maxClients ≤ maxPlayers) :
    ((nativeAreClientCookiesCached cfg maxPlayers client) s).2 =
      some (if invalidClient cfg client then .error (.clientIndex client)
        else .ok ((attemptReconnection cfg s).statsLoaded client.toInt.toNat),
        attemptReconnection cfg s) := by
  refine (tested_answer room _).trans ?_
  cases valid : invalidClient cfg client with
  | true => rfl
  | false =>
    obtain ⟨i, hi, _, high⟩ := index_of_valid valid
    simp only [Bool.false_eq_true, if_false, hi]
    exact (computes_areClientCookiesCached (high.trans room)).bind_answer

lemma slot_outside {array : SlotArray} {index : ℤ} (out : ¬ InBounds maxPlayers ⟨array, index⟩) :
    ((slot maxPlayers array index) s).2 = none := by
  unfold slot
  rw [decide_eq_false out]
  exact bind_undefined rfl

/-- `GetClientCookieTime` gets a cookie and an index outside of its array. -/
def OutOfArray (maxPlayers : ℕ) (readHandle : Int32 → Except ℕ CookieRef) (client hndl : Int32) :
    Prop :=
  (∃ c, readHandle hndl = .ok c) ∧ ¬ (0 ≤ client.toInt ∧ client.toInt ≤ maxPlayers)

lemma getClientCookieTime_server (room : cfg.maxClients ≤ maxPlayers) :
    (((SlotAccesses.getClientCookieTime cfg maxPlayers readHandle client hndl) s).2 = none ∧
      OutOfArray maxPlayers readHandle client hndl) ∨
    ((∃ answer, ((SlotAccesses.getClientCookieTime cfg maxPlayers readHandle client hndl) s).2 =
      some (answer, attemptReconnection cfg s)) ∧
      ¬ OutOfArray maxPlayers readHandle client hndl) := by
  unfold SlotAccesses.getClientCookieTime OutOfArray
  rw [(computes_attemptReconnection room s).bind_answer]
  cases hcookie : readHandle hndl with
  | error err =>
    refine .inr ⟨⟨_, rfl⟩, ?_⟩
    rintro ⟨⟨c, hc⟩, _⟩
    cases hc
  | ok c =>
    dsimp only
    by_cases inside : 0 ≤ client.toInt ∧ client.toInt ≤ maxPlayers
    · obtain ⟨i, hi⟩ := Int.eq_ofNat_of_zero_le inside.1
      have high : i ≤ maxPlayers := by omega
      have time := computes_getCookieTime (s := attemptReconnection cfg s) (c := c) high
      refine .inr ⟨?_, fun out => out.2 inside⟩
      rw [hi, time.bind_answer]
      cases (((attemptReconnection cfg s).cookies c).data i).bind fun a =>
        ((attemptReconnection cfg s).heap a).map CookieData.timestamp with
      | none => exact ⟨_, rfl⟩
      | some time => exact ⟨_, rfl⟩
    · refine .inl ⟨?_, ⟨c, rfl⟩, inside⟩
      exact bind_undefined (bind_undefined (slot_outside inside))

end ClientPrefs.Natives
