import ClientPrefs.AccessLog
import ClientPrefs.Session

/-!
# Indices into the slot arrays

The natives that take a client index, with every element of `Cookie::data`, `clientData`,
`connected`, `statsLoaded` and `statsPending` that a call reads or writes. Each of these arrays
has `SM_MAXPLAYERS + 1` elements; an index may be any `int`.
-/
namespace ClientPrefs.SlotAccesses
open AccessLog ByteStrings CookieManager Cookies Session

inductive SlotArray
  | data (c : CookieRef)
  | clientData
  | connected
  | statsLoaded
  | statsPending
  deriving DecidableEq, Repr

structure Access where
  array : SlotArray
  index : ℤ
  deriving DecidableEq, Repr

abbrev Program (α : Type) := Logged Server Access α

/-- The index is one of `0..SM_MAXPLAYERS`. -/
def InBounds (maxPlayers : ℕ) (a : Access) : Prop := 0 ≤ a.index ∧ a.index ≤ maxPlayers

instance (maxPlayers : ℕ) (a : Access) : Decidable (InBounds maxPlayers a) :=
  inferInstanceAs (Decidable (_ ∧ _))

section Manager
variable (cfg : Config) (maxPlayers : ℕ)

def slot (array : SlotArray) (index : ℤ) : Program ℕ := do
  Logged.access ⟨array, index⟩ (decide (InBounds maxPlayers ⟨array, index⟩))
  return index.toNat

/-- `clientData[client].append(data)` and `pCookie->data[client] = data` for a new `data`. -/
def linkData (c : CookieRef) (client : ℤ) (e : CookieData) : Program Unit := do
  let s ← Logged.read
  Logged.change fun s => s.newData e
  let i ← slot maxPlayers .clientData client
  Logged.change fun t => t.appendData i s.nextData
  let i ← slot maxPlayers (.data c) client
  Logged.change fun t => t.setData c i (some s.nextData)

def getCookieValue (c : CookieRef) (client : ℤ) : Program Bytes := do
  let i ← slot maxPlayers (.data c) client
  let s ← Logged.read
  match (s.cookies c).data i with
  | none =>
    linkData maxPlayers c client ⟨storedValue [], false, 0, c⟩
    return []
  | some a => return ((s.heap a).map CookieData.value).getD []

def setCookieValue (c : CookieRef) (client : ℤ) (value : Bytes) (now : ℕ) : Program Unit := do
  let i ← slot maxPlayers (.data c) client
  let s ← Logged.read
  match (s.cookies c).data i with
  | none => linkData maxPlayers c client ⟨storedValue value, true, now, c⟩
  | some a => Logged.change fun s => s.modifyData a fun e =>
    { e with value := storedValue value, changed := true, timestamp := now }

/-- `GetCookieTime`; `none` where it returns false. -/
def getCookieTime (c : CookieRef) (client : ℤ) : Program (Option ℕ) := do
  let i ← slot maxPlayers (.data c) client
  let s ← Logged.read
  match (s.cookies c).data i with
  | none => return none
  | some a => return (s.heap a).map CookieData.timestamp

def areClientCookiesCached (client : ℤ) : Program Bool := do
  let i ← slot maxPlayers .statsLoaded client
  let s ← Logged.read
  return s.statsLoaded i

def areClientCookiesPending (client : ℤ) : Program Bool := do
  let i ← slot maxPlayers .statsPending client
  let s ← Logged.read
  return s.statsPending i

/-- The loop of `CatchLateLoadClients`; `CookieManager.catchLoop` with its accesses. -/
def catchLoop (authorize : ℕ → Program Unit) : ℕ → Program Unit
  | 0 => return
  | n + 1 => do
    if ← areClientCookiesPending maxPlayers (n + 1 : ℕ) then catchLoop authorize n
    else if ← areClientCookiesCached maxPlayers (n + 1 : ℕ) then catchLoop authorize n
    else
      let s ← Logged.read
      match s.roster (n + 1) with
      | none => catchLoop authorize n
      | some p =>
        if p.authorized then
          authorize (n + 1)
          catchLoop authorize n
        else catchLoop authorize n

/-- `OnClientAuthorized` with at most `fuel` nested calls of itself. -/
def authorizeWithin : ℕ → ℕ → Program Unit
  | 0, _ => Logged.cutOff
  | fuel + 1, client => do
    let s ← Logged.read
    match s.roster client with
    | none => return
    | some p =>
      if p.fake then return
      else
        let i ← slot maxPlayers .connected client
        Logged.change fun s => { s with connected := Function.update s.connected i true }
        let i ← slot maxPlayers .statsPending client
        Logged.change fun s => { s with statsPending := Function.update s.statsPending i true }
        catchLoop maxPlayers (authorizeWithin fuel) cfg.maxClients
        Logged.change fun s => s.addQueryToQueue (.selectData p.serial (steamIdOf p))

/-- The nesting is never cut off: it computes what `CookieManager.attemptReconnection` does. -/
def attemptReconnection : Program Unit :=
  catchLoop maxPlayers (authorizeWithin cfg maxPlayers (cfg.maxClients + 1)) cfg.maxClients

end Manager

/-- What `ThrowNativeError` reports: "Client index %d is invalid" and "Invalid Cookie handle %x
(error %d)". -/
inductive NativeError
  | clientIndex (client : Int32)
  | cookieHandle (hndl : Int32) (err : ℕ)
  deriving DecidableEq

section Natives
variable (cfg : Config) (maxPlayers : ℕ) (readHandle : Int32 → Except ℕ CookieRef)

/-- `(client < 1) || (client > playerhelpers->GetMaxClients())` -/
def invalidClient (client : Int32) : Bool :=
  decide (client.toInt < 1) || decide ((cfg.maxClients : ℤ) < client.toInt)

def setClientPrefCookie (client hndl : Int32) (value : Bytes) (now : ℕ) :
    Program (Except NativeError Unit) := do
  attemptReconnection cfg maxPlayers
  if invalidClient cfg client then return .error (.clientIndex client)
  else
    match readHandle hndl with
    | .error err => return .error (.cookieHandle hndl err)
    | .ok c =>
      setCookieValue maxPlayers c client.toInt value now
      return .ok ()

/-- The answer is the text that `StringToLocal` copies. -/
def getClientPrefCookie (client hndl : Int32) : Program (Except NativeError Bytes) := do
  attemptReconnection cfg maxPlayers
  if invalidClient cfg client then return .error (.clientIndex client)
  else
    match readHandle hndl with
    | .error err => return .error (.cookieHandle hndl err)
    | .ok c =>
      let value ← getCookieValue maxPlayers c client.toInt
      return .ok value

def nativeAreClientCookiesCached (client : Int32) : Program (Except NativeError Bool) := do
  attemptReconnection cfg maxPlayers
  if invalidClient cfg client then return .error (.clientIndex client)
  else
    let cached ← areClientCookiesCached maxPlayers client.toInt
    return .ok cached

/-- The menu is displayed by the host; no slot array is involved. -/
def showSettingsMenu (_client : Int32) : Program Unit := attemptReconnection cfg maxPlayers

/-- There is no test of the client index here; a `time_t` is returned as a `cell_t`. -/
def getClientCookieTime (client hndl : Int32) : Program (Except NativeError Int32) := do
  attemptReconnection cfg maxPlayers
  match readHandle hndl with
  | .error err => return .error (.cookieHandle hndl err)
  | .ok c =>
    match ← getCookieTime maxPlayers c client.toInt with
    | none => return .ok 0
    | some value => return .ok (Int32.ofNat value)

/-- A call of a native that takes a client index, with the other arguments it reads. -/
inductive Call
  | setClientCookie (client hndl : Int32) (value : Bytes) (now : ℕ)
  | getClientCookie (client hndl : Int32)
  | areClientCookiesCached (client : Int32)
  | showCookieMenu (client : Int32)
  | getClientCookieTime (client hndl : Int32)
  deriving DecidableEq

def accesses (s : Server) : Call → List Access
  | .setClientCookie client hndl value now =>
    (setClientPrefCookie cfg maxPlayers readHandle client hndl value now s).1
  | .getClientCookie client hndl => (getClientPrefCookie cfg maxPlayers readHandle client hndl s).1
  | .areClientCookiesCached client => (nativeAreClientCookiesCached cfg maxPlayers client s).1
  | .showCookieMenu client => (showSettingsMenu cfg maxPlayers client s).1
  | .getClientCookieTime client hndl =>
    (getClientCookieTime cfg maxPlayers readHandle client hndl s).1

end Natives

section Bounds
variable {cfg : Config} {maxPlayers : ℕ} {s t : Server} {c : CookieRef} {i n : ℕ}

lemma computes_slot {array : SlotArray} {index : ℤ} (low : 0 ≤ index)
    (high : index ≤ maxPlayers) (s : Server) :
    Computes (InBounds maxPlayers) (slot maxPlayers array index) s index.toNat s := by
  have inBounds : InBounds maxPlayers ⟨array, index⟩ := ⟨low, high⟩
  unfold slot
  rw [decide_eq_true inBounds]
  exact (Computes.access inBounds s).bind (Computes.pure _ s)

lemma computes_slot_nat (array : SlotArray) (hi : i ≤ maxPlayers) (s : Server) :
    Computes (InBounds maxPlayers) (slot maxPlayers array i) s i s :=
  computes_slot (Int.natCast_nonneg i) (by exact_mod_cast hi) s

lemma computes_linkData (hi : i ≤ maxPlayers) (e : CookieData) :
    Computes (InBounds maxPlayers) (linkData maxPlayers c i e) s ()
      (CookieManager.linkData s c i e) := by
  refine (Computes.read s).bind ?_
  refine (Computes.change _ s).bind ?_
  refine (computes_slot_nat _ hi _).bind ?_
  refine (Computes.change _ _).bind ?_
  exact (computes_slot_nat _ hi _).bind (Computes.change _ _)

lemma computes_getCookieValue (hi : i ≤ maxPlayers) :
    Computes (InBounds maxPlayers) (getCookieValue maxPlayers c i) s
      (CookieManager.getCookieValue s c i).2 (CookieManager.getCookieValue s c i).1 := by
  refine (computes_slot_nat _ hi s).bind ((Computes.read s).bind ?_)
  simp only [CookieManager.getCookieValue]
  cases (s.cookies c).data i with
  | none => exact (computes_linkData hi _).bind (Computes.pure _ _)
  | some a => exact Computes.pure _ s

lemma computes_setCookieValue (hi : i ≤ maxPlayers) (value : Bytes) (now : ℕ) :
    Computes (InBounds maxPlayers) (setCookieValue maxPlayers c i value now) s ()
      (CookieManager.setCookieValue s c i value now) := by
  refine (computes_slot_nat _ hi s).bind ((Computes.read s).bind ?_)
  simp only [CookieManager.setCookieValue]
  cases (s.cookies c).data i with
  | none => exact computes_linkData hi _
  | some a => exact Computes.change _ s

lemma computes_getCookieTime (hi : i ≤ maxPlayers) :
    Computes (InBounds maxPlayers) (getCookieTime maxPlayers c i) s
      (((s.cookies c).data i).bind fun a => (s.heap a).map CookieData.timestamp) s := by
  refine (computes_slot_nat _ hi s).bind ((Computes.read s).bind ?_)
  cases (s.cookies c).data i with
  | none => exact Computes.pure none s
  | some a => exact Computes.pure _ s

lemma computes_areClientCookiesCached (hi : i ≤ maxPlayers) : Computes (InBounds maxPlayers)
    (areClientCookiesCached maxPlayers i) s (s.statsLoaded i) s :=
  (computes_slot_nat _ hi s).bind ((Computes.read s).bind (Computes.pure _ s))

lemma computes_areClientCookiesPending (hi : i ≤ maxPlayers) : Computes (InBounds maxPlayers)
    (areClientCookiesPending maxPlayers i) s (s.statsPending i) s :=
  (computes_slot_nat _ hi s).bind ((Computes.read s).bind (Computes.pure _ s))

/-- The loop computes what the loop without accesses does. -/
theorem computes_catchLoop {authorize : ℕ → Program Unit}
    {authorize' : ℕ → Server → Option Server} (hn : n ≤ maxPlayers)
    (same : ∀ i s t, i ≤ maxPlayers → authorize' i s = some t →
      Computes (InBounds maxPlayers) (authorize i) s () t)
    (h : CookieManager.catchLoop authorize' n s = some t) :
    Computes (InBounds maxPlayers) (catchLoop maxPlayers authorize n) s () t := by
  induction n generalizing s with
  | zero =>
    obtain rfl := Option.some.inj h
    exact Computes.pure () s
  | succ n ih =>
    have hrest := fun s => ih (s := s) (by omega)
    simp only [CookieManager.catchLoop] at h
    refine (computes_areClientCookiesPending hn).bind ?_
    by_cases pending : s.statsPending (n + 1) = true
    · simp only [pending, if_true, Bool.true_or] at h ⊢
      exact hrest s h
    · simp only [pending, Bool.false_eq_true, if_false, Bool.false_or] at h ⊢
      refine (computes_areClientCookiesCached hn).bind ?_
      by_cases cached : s.statsLoaded (n + 1) = true
      · simp only [cached, if_true] at h ⊢
        exact hrest s h
      · simp only [cached, Bool.false_eq_true, if_false] at h ⊢
        refine (Computes.read s).bind ?_
        cases hp : s.roster (n + 1) with
        | none =>
          simp only [hp] at h
          exact hrest s h
        | some p =>
          simp only [hp] at h
          by_cases authorized : p.authorized = true
          · simp only [authorized, if_true] at h ⊢
            obtain ⟨u, hu, hlast⟩ := Option.bind_eq_some_iff.mp h
            exact (same _ s u hn hu).bind (hrest u hlast)
          · simp only [authorized, Bool.false_eq_true, if_false] at h ⊢
            exact hrest s h

lemma computes_authorizeWithin (hmax : cfg.maxClients ≤ maxPlayers) {fuel : ℕ}
    (hi : i ≤ maxPlayers) (h : CookieManager.authorizeWithin cfg fuel i s = some t) :
    Computes (InBounds maxPlayers) (authorizeWithin cfg maxPlayers fuel i) s () t := by
  induction fuel generalizing i s t with
  | zero => cases h
  | succ fuel ih =>
    simp only [CookieManager.authorizeWithin] at h
    refine (Computes.read s).bind ?_
    cases hp : s.roster i with
    | none =>
      simp only [hp] at h
      obtain rfl := Option.some.inj h
      exact Computes.pure () s
    | some p =>
      simp only [hp] at h
      by_cases fake : p.fake = true
      · simp only [fake, if_true] at h ⊢
        obtain rfl := Option.some.inj h
        exact Computes.pure () s
      · simp only [fake, Bool.false_eq_true, if_false] at h ⊢
        obtain ⟨u, hu, rfl⟩ := Option.map_eq_some_iff.mp h
        refine (computes_slot_nat _ hi s).bind ((Computes.change _ s).bind ?_)
        refine (computes_slot_nat _ hi _).bind ((Computes.change _ _).bind ?_)
        exact (computes_catchLoop hmax (fun j a b hj hab => ih hj hab) hu).bind
          (Computes.change _ u)

lemma computes_attemptReconnection (hmax : cfg.maxClients ≤ maxPlayers) (s : Server) :
    Computes (InBounds maxPlayers) (attemptReconnection cfg maxPlayers) s ()
      (CookieManager.attemptReconnection cfg s) := by
  have enough : (LateLoad.missedSlots cfg s).length < cfg.maxClients + 1 :=
    Nat.lt_succ_of_le LateLoad.missedSlots_length
  rw [LateLoad.attemptReconnection_eq]
  exact computes_catchLoop hmax (fun _ _ _ hi h => computes_authorizeWithin hmax hi h)
    (LateLoad.catchLoop_total enough)

variable {readHandle : Int32 → Except ℕ CookieRef} {client hndl : Int32} {α : Type}

lemma index_of_valid (valid : invalidClient cfg client = false) :
    ∃ i : ℕ, client.toInt = i ∧ 1 ≤ i ∧ i ≤ cfg.maxClients := by
  simp only [invalidClient, Bool.or_eq_false_iff, decide_eq_false_iff_not, not_lt] at valid
  obtain ⟨low, high⟩ := valid
  exact ⟨client.toInt.toNat, by omega, by omega, by omega⟩

/-- The natives that test the index behind `AttemptReconnection`. -/
theorem computes_tested {body : Program (Except NativeError α)}
    (hmax : cfg.maxClients ≤ maxPlayers)
    (hbody : ∀ (i : ℕ) (t : Server), client.toInt = i → i ≤ maxPlayers →
      ∃ answer u, Computes (InBounds maxPlayers) body t answer u) (s : Server) :
    ∃ answer u, Computes (InBounds maxPlayers)
      (do
        attemptReconnection cfg maxPlayers
        if invalidClient cfg client then return .error (.clientIndex client) else body)
      s answer u := by
  have before := computes_attemptReconnection hmax s
  cases valid : invalidClient cfg client with
  | true => exact ⟨_, _, before.bind (Computes.pure _ _)⟩
  | false =>
    obtain ⟨i, hi, _, high⟩ := index_of_valid valid
    obtain ⟨answer, u, hu⟩ :=
      hbody i (CookieManager.attemptReconnection cfg s) hi (high.trans hmax)
    exact ⟨answer, u, before.bind hu⟩

lemma computes_setClientPrefCookie (hmax : cfg.maxClients ≤ maxPlayers) (value : Bytes)
    (now : ℕ) (s : Server) :
    ∃ answer u, Computes (InBounds maxPlayers)
      (setClientPrefCookie cfg maxPlayers readHandle client hndl value now) s answer u := by
  refine computes_tested hmax (fun i t hi high => ?_) s
  cases readHandle hndl with
  | error err => exact ⟨_, _, Computes.pure _ t⟩
  | ok c =>
    rw [hi]
    exact ⟨_, _, (computes_setCookieValue high value now).bind (Computes.pure (Except.ok ()) _)⟩

lemma computes_getClientPrefCookie (hmax : cfg.maxClients ≤ maxPlayers) (s : Server) :
    ∃ answer u, Computes (InBounds maxPlayers)
      (getClientPrefCookie cfg maxPlayers readHandle client hndl) s answer u := by
  refine computes_tested hmax (fun i t hi high => ?_) s
  cases readHandle hndl with
  | error err => exact ⟨_, _, Computes.pure _ t⟩
  | ok c =>
    rw [hi]
    exact ⟨_, _, (computes_getCookieValue high).bind (Computes.pure _ _)⟩

lemma computes_nativeAreClientCookiesCached (hmax : cfg.maxClients ≤ maxPlayers) (s : Server) :
    ∃ answer u, Computes (InBounds maxPlayers)
      (nativeAreClientCookiesCached cfg maxPlayers client) s answer u := by
  refine computes_tested hmax (fun i t hi high => ?_) s
  rw [hi]
  exact ⟨_, _, (computes_areClientCookiesCached high).bind (Computes.pure _ t)⟩

lemma computes_getClientCookieTime (hmax : cfg.maxClients ≤ maxPlayers)
    (hcookie : readHandle hndl = .ok c) (hi : client.toInt = i) (high : i ≤ maxPlayers)
    (s : Server) : ∃ answer u, Computes (InBounds maxPlayers)
      (getClientCookieTime cfg maxPlayers readHandle client hndl) s answer u := by
  have before := computes_attemptReconnection hmax s
  unfold getClientCookieTime
  rw [hcookie, hi]
  have time := computes_getCookieTime (s := CookieManager.attemptReconnection cfg s) (c := c) high
  cases htime : (((CookieManager.attemptReconnection cfg s).cookies c).data i).bind fun a =>
    ((CookieManager.attemptReconnection cfg s).heap a).map CookieData.timestamp with
  | none =>
    rw [htime] at time
    exact ⟨_, _, before.bind (time.bind (Computes.pure (Except.ok 0) _))⟩
  | some value =>
    rw [htime] at time
    exact ⟨_, _, before.bind (time.bind (Computes.pure (Except.ok (Int32.ofNat value)) _))⟩

lemma computes_getClientCookieTime_error (hmax : cfg.maxClients ≤ maxPlayers) {err : ℕ}
    (herror : readHandle hndl = .error err) (s : Server) :
    ∃ answer u, Computes (InBounds maxPlayers)
      (getClientCookieTime cfg maxPlayers readHandle client hndl) s answer u := by
  have before := computes_attemptReconnection hmax s
  unfold getClientCookieTime
  rw [herror]
  exact ⟨_, _, before.bind (Computes.pure _ _)⟩

lemma mem_accesses_getClientCookieTime (hmax : cfg.maxClients ≤ maxPlayers)
    (hcookie : readHandle hndl = .ok c) (s : Server) : ⟨.data c, client.toInt⟩ ∈
      accesses cfg maxPlayers readHandle s (.getClientCookieTime client hndl) := by
  change _ ∈ (getClientCookieTime cfg maxPlayers readHandle client hndl s).1
  unfold getClientCookieTime
  rw [hcookie]
  refine mem_log_of_second (computes_attemptReconnection hmax s) ?_
  refine mem_log_of_first (mem_log_of_first (mem_log_of_first ?_))
  exact List.mem_singleton_self _

/-- Every access of every call is inside the arrays, except where `GetClientCookieTime` gets a
valid handle with an index outside. -/
theorem accesses_in_bounds_iff (hmax : cfg.maxClients ≤ maxPlayers) (s : Server) (call : Call) :
    (∀ a ∈ accesses cfg maxPlayers readHandle s call, InBounds maxPlayers a) ↔
      ∀ client hndl c, call = .getClientCookieTime client hndl → readHandle hndl = .ok c →
        0 ≤ client.toInt ∧ client.toInt ≤ maxPlayers := by
  constructor
  · rintro inBounds client hndl c rfl hcookie
    exact inBounds _ (mem_accesses_getClientCookieTime hmax hcookie s)
  · intro indexed
    have computed : ∀ {α : Type} {x : Program α},
        (∃ answer u, Computes (InBounds maxPlayers) x s answer u) →
          ∀ a ∈ (x s).1, InBounds maxPlayers a := fun ⟨_, _, h⟩ => h.log
    cases call with
    | setClientCookie client hndl value now =>
      exact computed (computes_setClientPrefCookie hmax value now s)
    | getClientCookie client hndl => exact computed (computes_getClientPrefCookie hmax s)
    | areClientCookiesCached client =>
      exact computed (computes_nativeAreClientCookiesCached hmax s)
    | showCookieMenu client => exact computed ⟨_, _, computes_attemptReconnection hmax s⟩
    | getClientCookieTime client hndl =>
      cases hcookie : readHandle hndl with
      | error err => exact computed (computes_getClientCookieTime_error hmax hcookie s)
      | ok c =>
        obtain ⟨low, high⟩ := indexed client hndl c rfl hcookie
        obtain ⟨i, hi⟩ := Int.eq_ofNat_of_zero_le low
        exact computed (computes_getClientCookieTime hmax hcookie hi (by omega) s)

end Bounds

/-- One player in the only slot, and the cookie "music". -/
def registered : Server :=
  (createCookie oneSlot (start (alone newcomer7) [7]) (bytes "music") (bytes "") accessPublic).1

/-- Handle 1 is a handle of "music"; others are not valid (`HandleError_Index`). -/
def oneHandle (hndl : Int32) : Except ℕ CookieRef := if hndl = 1 then .ok 0 else .error 4

/-- The time of client 1 is read inside the array. -/
theorem time_of_player_in_bounds :
    ⟨.data 0, 1⟩ ∈ accesses oneSlot 65 oneHandle registered (.getClientCookieTime 1 1) ∧
      ∀ a ∈ accesses oneSlot 65 oneHandle registered (.getClientCookieTime 1 1),
        InBounds 65 a := by
  refine ⟨mem_accesses_getClientCookieTime (by decide) rfl registered,
    (accesses_in_bounds_iff (by decide) registered _).mpr ?_⟩
  rintro client hndl c hcall -
  obtain ⟨rfl, rfl⟩ := Call.getClientCookieTime.inj hcall
  decide

/-- The time of client -1 is read in front of the cookie's array. -/
theorem index_below_array : ¬ ∀ (cfg : Config) (maxPlayers : ℕ)
    (readHandle : Int32 → Except ℕ CookieRef) (s : Server) (call : Call),
    0 < cfg.maxClients → cfg.maxClients ≤ maxPlayers →
    ∀ a ∈ accesses cfg maxPlayers readHandle s call, InBounds maxPlayers a := by
  intro h
  have inBounds := h oneSlot 65 oneHandle registered (.getClientCookieTime (-1) 1) (by decide)
    (by decide) _ (mem_accesses_getClientCookieTime (by decide) rfl registered)
  revert inBounds
  decide

end ClientPrefs.SlotAccesses
