import ClientPrefs.ByteStrings

/-!
# The cookie manager on the main thread

The state of `CookieManager` and of the host around it, and the manager's operations
as the source computes them. `sent` holds every query given to `AddQueryToQueue`.
-/
namespace ClientPrefs.Cookies
open ByteStrings

def maxNameLength : ℕ := 30
def maxDescLength : ℕ := 255
def maxValueLength : ℕ := 100

/-- `Cookie *` and `CookieData *`. -/
abbrev CookieRef := ℕ
abbrev DataRef := ℕ

/-- An `enum` that the code also casts from any `int`. -/
abbrev CookieAccess := ℤ

def accessPublic : CookieAccess := 0

structure CookieData where
  value : Bytes
  changed : Bool
  timestamp : ℕ
  parent : CookieRef
  deriving DecidableEq, Repr

/-- What `CookieData(value)` keeps of a value. -/
def storedValue (value : Bytes) : Bytes := utilStrncpy (some value) maxValueLength

structure Cookie where
  name : Bytes
  description : Bytes
  dbid : ℤ
  data : ℕ → Option DataRef
  access : CookieAccess

def Cookie.new (name description : Bytes) (access : CookieAccess) : Cookie where
  name := utilStrncpy (some name) maxNameLength
  description := utilStrncpy (some description) maxDescLength
  dbid := -1
  data := fun _ => none
  access := access

/-- The name is one that `Cookie` keeps whole. -/
def Whole (name : Bytes) : Prop := utilStrncpy (some name) maxNameLength = name

lemma whole_new (name description : Bytes) (access : CookieAccess) :
    Whole (Cookie.new name description access).name :=
  utilStrncpy_idem (some name) (by decide)

lemma Whole.cut {name : Bytes} (h : Whole name) : cstr name = name := by
  have hcstr := cstr_utilStrncpy (some name) maxNameLength
  rwa [h] at hcstr

lemma new_name {name : Bytes} (whole : Whole name) (description : Bytes) (access : CookieAccess) :
    (Cookie.new name description access).name = name := whole

/-- The key part of a player: `ParamData::steamId` after `UTIL_strncpy`. -/
def steamIdParam (auth : Option Bytes) : Bytes := utilStrncpy auth maxNameLength

lemma storedValue_idem (v : Bytes) : storedValue (storedValue v) = storedValue v :=
  utilStrncpy_idem (some v) (by decide)

lemma storedValue_cstr (v : Bytes) : storedValue (cstr v) = storedValue v := by
  unfold storedValue
  rw [utilStrncpy_some _ (by decide), utilStrncpy_some _ (by decide), cstr_cstr]

end ClientPrefs.Cookies

namespace ClientPrefs.CookieManager
open ByteStrings Cookies

/-- An `IGamePlayer`. A player is authorized only once it has an auth string. -/
structure Player where
  serial : ℕ
  fake : Bool
  authorized : Bool
  authString : Option Bytes
  steam2Id : Option Bytes
  steam3Id : Option Bytes
  has_auth : authorized = true → authString.isSome = true
  deriving DecidableEq

/-- `GetPlayerCompatAuthId`. -/
def compatAuthId (p : Player) : Option Bytes :=
  match p.steam2Id with
  | some steamId => some steamId
  | none => p.authString

lemma compatAuthId_isSome {p : Player} (h : p.authorized = true) :
    (compatAuthId p).isSome = true := by
  unfold compatAuthId
  cases p.steam2Id with
  | some id => rfl
  | none => exact p.has_auth h

def steamIdOf (p : Player) : Bytes := steamIdParam (compatAuthId p)

/-- A `TQueryOp` as it is enqueued. -/
inductive Query
  | insertCookie (cookie : CookieRef)
  | selectData (serial : ℕ) (steamId : Bytes)
  | insertData (steamId : Bytes) (cookieId : ℤ) (data : DataRef)
  | selectId (cookie : CookieRef) (name : Bytes)
  deriving DecidableEq, Repr

/-- What does not change while the extension runs: the slots in use, `std::hash` and the
hash of `NameHashSet`. -/
structure Config where
  maxClients : ℕ
  hash : Bytes → ℕ
  nameHash : Bytes → UInt32

@[ext] structure Server where
  /-- The player in each slot, whether its disconnecting event has run, and all serials given. -/
  roster : ℕ → Option Player
  leaving : ℕ → Bool
  spent : List ℕ
  /-- The `Cookie` objects; `cookieList` holds `0, ..., cookieCount - 1`. -/
  cookies : CookieRef → Cookie
  cookieCount : ℕ
  cookieFinder : List (UInt32 × CookieRef)
  clientData : ℕ → List DataRef
  connected : ℕ → Bool
  statsLoaded : ℕ → Bool
  statsPending : ℕ → Bool
  /-- The `CookieData` objects; a deleted or unborn one is `none`. -/
  heap : DataRef → Option CookieData
  nextData : ℕ
  sent : List Query
  /-- The queries whose think part has run, by their index in `sent`. -/
  finished : List ℕ
  /-- The clients for which `OnClientCookiesCached` was fired, oldest first. -/
  cached : List ℕ

namespace Server

def addQueryToQueue (s : Server) (q : Query) : Server := { s with sent := s.sent ++ [q] }

def modifyCookie (s : Server) (c : CookieRef) (f : Cookie → Cookie) : Server :=
  { s with cookies := Function.update s.cookies c (f (s.cookies c)) }

/-- `pCookie->data[client] = data`. -/
def setData (s : Server) (c : CookieRef) (client : ℕ) (data : Option DataRef) : Server :=
  s.modifyCookie c fun k => { k with data := Function.update k.data client data }

def newData (s : Server) (e : CookieData) : Server :=
  { s with heap := Function.update s.heap s.nextData (some e), nextData := s.nextData + 1 }

def modifyData (s : Server) (a : DataRef) (f : CookieData → CookieData) : Server :=
  { s with heap := Function.update s.heap a ((s.heap a).map f) }

def deleteData (s : Server) (a : DataRef) : Server :=
  { s with heap := Function.update s.heap a none }

/-- `clientData[client].append(data)`. -/
def appendData (s : Server) (client : ℕ) (a : DataRef) : Server :=
  { s with clientData := Function.update s.clientData client (s.clientData client ++ [a]) }

end Server

section Operations
variable (cfg : Config)

/-- `NameHashSet::retrieve`: filed under the hash of the key and equal to it as a string. -/
def findCookie (s : Server) (name : Bytes) : Option CookieRef :=
  (s.cookieFinder.find? fun e =>
    e.1 = cfg.nameHash (cstr name) ∧ (s.cookies e.2).name = cstr name).map Prod.snd

def createCookie (s : Server) (name description : Bytes) (access : CookieAccess) :
    Server × CookieRef :=
  match findCookie cfg s name with
  | some c =>
    (s.modifyCookie c fun k =>
      { k with description := utilStrncpy (some description) maxDescLength, access := access }, c)
  | none =>
    let c := s.cookieCount
    let s := { s with
      cookies := Function.update s.cookies c (Cookie.new name description access)
      cookieCount := c + 1
      cookieFinder := s.cookieFinder ++ [(cfg.nameHash (cstr name), c)] }
    (s.addQueryToQueue (.insertCookie c), c)

/-- A new `CookieData` for a cookie and a slot, entered in both tables, as `GetCookieValue`,
`SetCookieValue` and `ClientConnectCallback` do. -/
def linkData (s : Server) (c : CookieRef) (client : ℕ) (e : CookieData) : Server :=
  ((s.newData e).appendData client s.nextData).setData c client (some s.nextData)

def getCookieValue (s : Server) (c : CookieRef) (client : ℕ) : Server × Bytes :=
  match (s.cookies c).data client with
  | none => (linkData s c client ⟨storedValue [], false, 0, c⟩, [])
  | some a => (s, ((s.heap a).map CookieData.value).getD [])

def setCookieValue (s : Server) (c : CookieRef) (client : ℕ) (value : Bytes) (now : ℕ) :
    Server :=
  match (s.cookies c).data client with
  | none => linkData s c client ⟨storedValue value, true, now, c⟩
  | some a => s.modifyData a fun e =>
    { e with value := storedValue value, changed := true, timestamp := now }

/-- The loop of `CatchLateLoadClients` from client `n` down; `authorize` stands for
`OnClientAuthorized`, `none` for a recursion that is cut off. -/
def catchLoop (authorize : ℕ → Server → Option Server) : ℕ → Server → Option Server
  | 0, s => some s
  | n + 1, s =>
    if s.statsPending (n + 1) || s.statsLoaded (n + 1) then catchLoop authorize n s
    else
      match s.roster (n + 1) with
      | none => catchLoop authorize n s
      | some p =>
        if p.authorized then (authorize (n + 1) s).bind (catchLoop authorize n)
        else catchLoop authorize n s

/-- `OnClientAuthorized` with at most `fuel` nested calls of itself. -/
def authorizeWithin : ℕ → ℕ → Server → Option Server
  | 0, _, _ => none
  | fuel + 1, client, s =>
    match s.roster client with
    | none => some s
    | some p =>
      if p.fake then some s
      else
        let s := { s with
          connected := Function.update s.connected client true
          statsPending := Function.update s.statsPending client true }
        (catchLoop (authorizeWithin fuel) cfg.maxClients s).map fun s =>
          s.addQueryToQueue (.selectData p.serial (steamIdOf p))

/-- `CatchLateLoadClients`, cut off at a nesting that `catchLoop_total` shows is never reached. -/
def catchLateLoadClients (s : Server) : Server :=
  (catchLoop (authorizeWithin cfg (cfg.maxClients + 1)) cfg.maxClients s).getD s

def attemptReconnection (s : Server) : Server := catchLateLoadClients cfg s

def onClientAuthorized (s : Server) (client : ℕ) : Server :=
  (authorizeWithin cfg (cfg.maxClients + 2) client s).getD s

/-- One turn of the save loop of `OnClientDisconnecting`. -/
def releaseData (client : ℕ) (pAuth : Option Bytes) (s : Server) (a : DataRef) : Server :=
  match s.heap a with
  | none => s
  | some current =>
    let dbId := (s.cookies current.parent).dbid
    match pAuth with
    | none => (s.setData current.parent client none).deleteData a
    | some auth =>
      if current.changed = false ∨ dbId = -1 then
        (s.setData current.parent client none).deleteData a
      else
        (s.addQueryToQueue (.insertData (steamIdParam (some auth)) dbId a)).setData
          current.parent client none

/-- `pAuth` of `OnClientDisconnecting`: null without a player or for a fake client. -/
def authOf (player : Option Player) : Option Bytes :=
  match player with
  | none => none
  | some p => if p.fake then none else compatAuthId p

/-- `ClearQueryCache` is left out: nothing ever fills `cachedQueries`. -/
def onClientDisconnecting (s : Server) (client : ℕ) : Server :=
  let s := { s with
    connected := Function.update s.connected client false
    statsLoaded := Function.update s.statsLoaded client false
    statsPending := Function.update s.statsPending client false }
  let s := attemptReconnection cfg s
  let pAuth := authOf (s.roster client)
  let s := (s.clientData client).foldl (releaseData client pAuth) s
  { s with clientData := Function.update s.clientData client [] }

def getClientFromSerial (s : Server) (serial : ℕ) : ℕ :=
  ((List.range' 1 cfg.maxClients).find? fun i =>
    (s.roster i).any fun p => p.serial = serial).getD 0

/-- `FindCookie`, and `CreateCookie` for a cookie this server has not seen. -/
def findOrCreate (s : Server) (k : Cookie) : Server × CookieRef :=
  match findCookie cfg s k.name with
  | some parent => (s, parent)
  | none => createCookie cfg s k.name k.description k.access

/-- One turn of the load loop of `ClientConnectCallback`. -/
def loadRow (client : ℕ) (s : Server) (row : Cookie × Bytes) : Server :=
  let (s, parent) := findOrCreate cfg s row.1
  linkData s parent client ⟨storedValue row.2, false, 0, parent⟩

def clientConnectCallback (s : Server) (serial : ℕ) (rows : List (Cookie × Bytes)) : Server :=
  let client := getClientFromSerial cfg s serial
  if client = 0 then s
  else
    let s := { s with statsPending := Function.update s.statsPending client false }
    let s := rows.foldl (loadRow cfg client) s
    { s with
      statsLoaded := Function.update s.statsLoaded client true
      cached := s.cached ++ [client] }

def insertCookieCallback (s : Server) (c : CookieRef) (dbId : ℤ) : Server :=
  if 0 < dbId then s.modifyCookie c fun k => { k with dbid := dbId }
  else s.addQueryToQueue
    (.selectId c (utilStrncpy (some (s.cookies c).name) maxNameLength))

def selectIdCallback (s : Server) (c : CookieRef) (dbId : ℤ) : Server :=
  s.modifyCookie c fun k => { k with dbid := dbId }

/-- The `strcmp` chain of `IsAuthIdConnected`; `none` when it reaches a null string. -/
def compareIds (authId : Bytes) : List (Option Bytes) → Option Bool
  | [] => some false
  | none :: _ => none
  | some id :: ids => if cstr id = cstr authId then some true else compareIds authId ids

/-- The loop of `IsAuthIdConnected` from client `n` down. -/
def authIdLoop (s : Server) (authId : Bytes) : ℕ → Option ℕ
  | 0 => some 0
  | n + 1 =>
    match s.roster (n + 1) with
    | none => authIdLoop s authId n
    | some p =>
      if p.authorized then
        match compareIds authId [p.authString, p.steam2Id, p.steam3Id] with
        | none => none
        | some true => some (n + 1)
        | some false => authIdLoop s authId n
      else authIdLoop s authId n

def isAuthIdConnected (s : Server) (authId : Bytes) : Option ℕ :=
  authIdLoop s authId cfg.maxClients

/-- `SetAuthIdCookie` after its handle check. The payload's `parent`, which the source
leaves unset, is never read. -/
def setAuthIdCookie (s : Server) (authId : Bytes) (c : CookieRef) (value : Bytes) (now : ℕ) :
    Option Server :=
  let s := attemptReconnection cfg s
  (isAuthIdConnected cfg s authId).map fun client =>
    if client ≠ 0 then setCookieValue s c client value now
    else
      (s.newData ⟨storedValue value, true, now, c⟩).addQueryToQueue
        (.insertData (steamIdParam (some authId)) (s.cookies c).dbid s.nextData)

end Operations

end ClientPrefs.CookieManager
