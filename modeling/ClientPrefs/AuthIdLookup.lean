import ClientPrefs.Session
import Mathlib.Order.Bounds.Basic

/-!
# The lookup of a player by an id

`IsAuthIdConnected` compares an id with the auth string, the Steam2 id and the Steam3 id of
every authorized player, from the highest slot down. `SetAuthIdCookie` sets the value in memory
if it finds a player and enqueues a query if not.
-/
namespace ClientPrefs.AuthIdLookup
open ByteStrings CookieManager Cookies Session

def idsOf (p : Player) : List (Option Bytes) := [p.authString, p.steam2Id, p.steam3Id]

def Named (authId : Bytes) (ids : List (Option Bytes)) : Prop :=
  ∃ id, some id ∈ ids ∧ cstr id = cstr authId

/-- A null id, and no id before it that is the same C string. -/
def NullFirst (authId : Bytes) (ids : List (Option Bytes)) : Prop :=
  ∃ before after, ids = before ++ none :: after ∧ ¬ Named authId before

def AuthorizedAt (s : Server) (i : ℕ) (p : Player) : Prop :=
  s.roster i = some p ∧ p.authorized = true

def holders (s : Server) (authId : Bytes) (n : ℕ) : Set ℕ :=
  {i | (1 ≤ i ∧ i ≤ n) ∧ ∃ p, AuthorizedAt s i p ∧ Named authId (idsOf p)}

def Highest (slots : Set ℕ) (k : ℕ) : Prop := IsGreatest slots k ∨ slots = ∅ ∧ k = 0

/-- Every authorized player in `1..n`, down to the highest one who has the id, has the id or no
null id in front of it. -/
def Clear (s : Server) (authId : Bytes) (n : ℕ) : Prop :=
  ∀ i p, 1 ≤ i → i ≤ n → AuthorizedAt s i p → (∀ j ∈ holders s authId n, j ≤ i) →
    ¬ NullFirst authId (idsOf p)

variable {cfg : Config} {s t : Server} {authId : Bytes} {ids : List (Option Bytes)} {n k : ℕ}
  {p : Player}

lemma named_cons {id : Option Bytes} : Named authId (id :: ids) ↔
    (∃ b, id = some b ∧ cstr b = cstr authId) ∨ Named authId ids := by
  constructor
  · rintro ⟨b, hmem, hb⟩
    rcases List.mem_cons.mp hmem with rfl | hmem
    · exact .inl ⟨b, rfl, hb⟩
    · exact .inr ⟨b, hmem, hb⟩
  · rintro (⟨b, rfl, hb⟩ | ⟨b, hmem, hb⟩)
    · exact ⟨b, List.mem_cons_self, hb⟩
    · exact ⟨b, List.mem_cons_of_mem _ hmem, hb⟩

lemma not_named_nil : ¬ Named authId [] := fun ⟨_, hmem, _⟩ => List.not_mem_nil hmem

lemma nullFirst_cons_some {b : Bytes} : NullFirst authId (some b :: ids) ↔
    cstr b ≠ cstr authId ∧ NullFirst authId ids := by
  constructor
  · rintro ⟨before, after, hids, hbefore⟩
    cases before with
    | nil => cases hids
    | cons id before =>
      obtain ⟨rfl, rfl⟩ := List.cons.inj hids
      rw [named_cons, not_or] at hbefore
      exact ⟨fun h => hbefore.1 ⟨b, rfl, h⟩, before, after, rfl, hbefore.2⟩
  · rintro ⟨hb, before, after, rfl, hbefore⟩
    refine ⟨some b :: before, after, rfl, ?_⟩
    rw [named_cons, not_or]
    exact ⟨fun ⟨c, hc, h⟩ => hb (Option.some.inj hc ▸ h), hbefore⟩

lemma compareIds_none : compareIds authId ids = none ↔ NullFirst authId ids := by
  induction ids with
  | nil => exact ⟨nofun, fun ⟨before, _, hids, _⟩ => by cases before <;> cases hids⟩
  | cons id ids ih =>
    cases id with
    | none => exact ⟨fun _ => ⟨[], ids, rfl, not_named_nil⟩, fun _ => rfl⟩
    | some b =>
      rw [nullFirst_cons_some, ← ih, compareIds]
      by_cases hb : cstr b = cstr authId
      · simp [hb]
      · simp [hb]

lemma compareIds_some {found : Bool} (h : compareIds authId ids = some found) :
    found = true ↔ Named authId ids := by
  induction ids with
  | nil =>
    obtain rfl := Option.some.inj h
    exact ⟨nofun, fun hnil => (not_named_nil hnil).elim⟩
  | cons id ids ih =>
    cases id with
    | none => cases h
    | some b =>
      rw [compareIds] at h
      by_cases hb : cstr b = cstr authId
      · rw [if_pos hb] at h
        obtain rfl := Option.some.inj h
        exact ⟨fun _ => named_cons.mpr (.inl ⟨b, rfl, hb⟩), fun _ => rfl⟩
      · rw [if_neg hb] at h
        rw [ih h, named_cons]
        constructor
        · exact .inr
        · rintro (⟨c, hc, hcb⟩ | hids)
          · exact (hb (Option.some.inj hc ▸ hcb)).elim
          · exact hids

inductive Turn (s : Server) (authId : Bytes) (n : ℕ) : Prop
  | skip (other : n + 1 ∉ holders s authId (n + 1))
      (clear : ∀ p, AuthorizedAt s (n + 1) p → ¬ NullFirst authId (idsOf p))
      (loop : authIdLoop s authId (n + 1) = authIdLoop s authId n)
  | found (holder : n + 1 ∈ holders s authId (n + 1))
      (clear : ∀ p, AuthorizedAt s (n + 1) p → ¬ NullFirst authId (idsOf p))
      (loop : authIdLoop s authId (n + 1) = some (n + 1))
  | null (p : Player) (player : AuthorizedAt s (n + 1) p) (first : NullFirst authId (idsOf p))
      (loop : authIdLoop s authId (n + 1) = none)

lemma AuthorizedAt.unique {q : Player} {i : ℕ} (hp : AuthorizedAt s i p)
    (hq : AuthorizedAt s i q) : p = q := Option.some.inj (hp.1.symm.trans hq.1)

lemma authIdLoop_succ (hp : AuthorizedAt s (n + 1) p) : authIdLoop s authId (n + 1) =
    (compareIds authId (idsOf p)).bind fun found =>
      if found then some (n + 1) else authIdLoop s authId n := by
  rw [authIdLoop, hp.1]
  simp only [hp.2, if_true]
  change _ = (compareIds authId [p.authString, p.steam2Id, p.steam3Id]).bind _
  cases compareIds authId [p.authString, p.steam2Id, p.steam3Id] with
  | none => rfl
  | some found => cases found <;> rfl

lemma turn (s : Server) (authId : Bytes) (n : ℕ) : Turn s authId n := by
  by_cases hplayer : ∃ p, AuthorizedAt s (n + 1) p
  · obtain ⟨p, hp⟩ := hplayer
    have hloop : authIdLoop s authId (n + 1) = _ := authIdLoop_succ hp
    have clear (compared : compareIds authId (idsOf p) ≠ none) :
        ∀ q, AuthorizedAt s (n + 1) q → ¬ NullFirst authId (idsOf q) := by
      intro q hq hfirst
      obtain rfl := hp.unique hq
      exact compared (compareIds_none.mpr hfirst)
    cases hids : compareIds authId (idsOf p) with
    | none => exact .null p hp (compareIds_none.mp hids) (by rw [hloop, hids]; rfl)
    | some found =>
      have hclear := clear (by rw [hids]; exact Option.some_ne_none found)
      rw [hids] at hloop
      cases found with
      | true =>
        refine .found ⟨⟨by omega, le_rfl⟩, p, hp, ?_⟩ hclear hloop
        exact (compareIds_some hids).mp rfl
      | false =>
        refine .skip ?_ hclear hloop
        rintro ⟨_, q, hq, hnamed⟩
        obtain rfl := hp.unique hq
        cases (compareIds_some hids).mpr hnamed
  · have hnone : ∀ p, ¬ AuthorizedAt s (n + 1) p := fun p hp => hplayer ⟨p, hp⟩
    refine .skip (fun ⟨_, p, hp, _⟩ => hnone p hp) (fun p hp => (hnone p hp).elim) ?_
    rw [authIdLoop]
    cases hroster : s.roster (n + 1) with
    | none => rfl
    | some p =>
      have hauth : p.authorized = false := Bool.eq_false_of_not_eq_true fun h =>
        hnone p ⟨hroster, h⟩
      simp only [hauth, Bool.false_eq_true, if_false]

lemma holders_zero : holders s authId 0 = ∅ :=
  Set.eq_empty_of_forall_notMem fun i ⟨⟨low, high⟩, _⟩ => by omega

lemma holders_succ_of_not (h : n + 1 ∉ holders s authId (n + 1)) :
    holders s authId (n + 1) = holders s authId n := by
  ext i
  constructor
  · rintro ⟨⟨low, high⟩, hi⟩
    have hne : i ≠ n + 1 := by
      rintro rfl
      exact h ⟨⟨low, high⟩, hi⟩
    exact ⟨⟨low, by omega⟩, hi⟩
  · rintro ⟨⟨low, high⟩, hi⟩
    exact ⟨⟨low, by omega⟩, hi⟩

lemma isGreatest_holders (h : n + 1 ∈ holders s authId (n + 1)) :
    IsGreatest (holders s authId (n + 1)) (n + 1) := ⟨h, fun _ hi => hi.1.2⟩

/-- Whatever the loop returns is the highest slot. -/
theorem authIdLoop_highest (h : authIdLoop s authId n = some k) :
    Highest (holders s authId n) k := by
  induction n with
  | zero => exact .inr ⟨holders_zero, (Option.some.inj h).symm⟩
  | succ n ih =>
    cases turn s authId n with
    | skip other _ loop =>
      rw [holders_succ_of_not other]
      exact ih (loop ▸ h)
    | found holder _ loop =>
      obtain rfl := Option.some.inj (loop.symm.trans h)
      exact .inl (isGreatest_holders holder)
    | null p _ _ loop => cases loop.symm.trans h

lemma clear_succ_of_skip (other : n + 1 ∉ holders s authId (n + 1))
    (clear : ∀ p, AuthorizedAt s (n + 1) p → ¬ NullFirst authId (idsOf p)) :
    Clear s authId (n + 1) ↔ Clear s authId n := by
  unfold Clear
  rw [holders_succ_of_not other]
  constructor
  · intro h i p low high
    exact h i p low (by omega)
  · intro h i p low high hp above
    rcases Nat.lt_or_ge n i with hi | hi
    · obtain rfl : i = n + 1 := by omega
      exact clear p hp
    · exact h i p low hi hp above

lemma authIdLoop_isSome : (authIdLoop s authId n).isSome = true ↔ Clear s authId n := by
  induction n with
  | zero => exact ⟨fun _ i _ low high => by omega, fun _ => rfl⟩
  | succ n ih =>
    cases turn s authId n with
    | skip other clear loop => rw [loop, ih, clear_succ_of_skip other clear]
    | found holder clear loop =>
      rw [loop]
      refine ⟨fun _ i p low high hp above => ?_, fun _ => rfl⟩
      have hi := above _ holder
      obtain rfl : i = n + 1 := by omega
      exact clear p hp
    | null p player first loop =>
      rw [loop]
      refine ⟨nofun, fun h => ?_⟩
      exact (h (n + 1) p (by omega) le_rfl player (fun j hj => hj.1.2) first).elim

lemma authIdLoop_congr (h : s.roster = t.roster) :
    authIdLoop s authId n = authIdLoop t authId n := by
  induction n with
  | zero => rfl
  | succ n ih => rw [authIdLoop, authIdLoop, h, ih]

lemma isAuthIdConnected_attemptReconnection (cfg : Config) (s : Server) (authId : Bytes) :
    isAuthIdConnected cfg (attemptReconnection cfg s) authId =
      isAuthIdConnected cfg s authId := by
  rw [LateLoad.attemptReconnection_eq]
  exact authIdLoop_congr rfl

def enqueueValue (s : Server) (authId : Bytes) (c : CookieRef) (value : Bytes) (now : ℕ) :
    Server :=
  (s.newData ⟨storedValue value, true, now, c⟩).addQueryToQueue
    (.insertData (steamIdParam (some authId)) (s.cookies c).dbid s.nextData)

/-- The lookup answers with the highest slot of a player who has the id, and `SetAuthIdCookie`
sets the value in memory if and only if there is one. -/
structure Answers (cfg : Config) (s : Server) (authId : Bytes) : Prop where
  lookup : ∃ k, isAuthIdConnected cfg s authId = some k ∧
    Highest (holders s authId cfg.maxClients) k
  native : ∀ c value now, ∃ u, setAuthIdCookie cfg s authId c value now = some u ∧
    ((holders s authId cfg.maxClients).Nonempty ↔
      ∃ k, IsGreatest (holders s authId cfg.maxClients) k ∧
        u = setCookieValue (attemptReconnection cfg s) c k value now) ∧
    (holders s authId cfg.maxClients = ∅ ↔
      u = enqueueValue (attemptReconnection cfg s) authId c value now)

lemma setCookieValue_sent (s : Server) (c : CookieRef) (client : ℕ) (value : Bytes)
    (now : ℕ) : (setCookieValue s c client value now).sent = s.sent := by
  unfold setCookieValue
  cases (s.cookies c).data client <;> rfl

lemma enqueueValue_ne (s : Server) (authId : Bytes) (c d : CookieRef) (client : ℕ)
    (value : Bytes) (now : ℕ) :
    enqueueValue s authId c value now ≠ setCookieValue s d client value now := by
  intro h
  have hsent := congrArg Server.sent h
  rw [setCookieValue_sent] at hsent
  have hlen := congrArg List.length hsent
  simp [enqueueValue, Server.addQueryToQueue, Server.newData] at hlen

lemma answers_of_highest (h : isAuthIdConnected cfg s authId = some k)
    (highest : Highest (holders s authId cfg.maxClients) k) : Answers cfg s authId := by
  refine ⟨⟨k, h, highest⟩, fun c value now => ?_⟩
  have hnative : setAuthIdCookie cfg s authId c value now = some (if k ≠ 0 then
      setCookieValue (attemptReconnection cfg s) c k value now
      else enqueueValue (attemptReconnection cfg s) authId c value now) := by
    rw [setAuthIdCookie, isAuthIdConnected_attemptReconnection, h]
    rfl
  rcases highest with greatest | ⟨empty, rfl⟩
  · have hk : k ≠ 0 := by
      have low := greatest.1.1.1
      omega
    rw [if_pos hk] at hnative
    refine ⟨_, hnative, ⟨fun _ => ⟨k, greatest, rfl⟩, fun _ => ⟨k, greatest.1⟩⟩, ?_⟩
    constructor
    · intro empty
      exact absurd greatest.1 (empty ▸ Set.notMem_empty k)
    · intro hqueue
      exact (enqueueValue_ne _ _ _ _ _ _ _ hqueue.symm).elim
  · rw [if_neg (not_not_intro rfl)] at hnative
    refine ⟨_, hnative, ⟨fun hne => ?_, fun ⟨j, hj, _⟩ => ⟨j, hj.1⟩⟩,
      ⟨fun _ => rfl, fun _ => empty⟩⟩
    exact absurd empty hne.ne_empty

/-- The lookup is right exactly if no null id stands in its way. -/
theorem lookup_answers_iff (cfg : Config) (s : Server) (authId : Bytes) :
    Answers cfg s authId ↔ Clear s authId cfg.maxClients := by
  rw [← authIdLoop_isSome]
  constructor
  · intro answers
    obtain ⟨k, hk, _⟩ := answers.lookup
    exact Option.isSome_of_eq_some hk
  · intro hsome
    obtain ⟨k, hk⟩ := Option.isSome_iff_exists.mp hsome
    exact answers_of_highest hk (authIdLoop_highest hk)

def bot : Player where
  serial := 7
  fake := true
  authorized := true
  authString := some (bytes "BOT")
  steam2Id := none
  steam3Id := none
  has_auth := fun _ => rfl

/-- With one bot on the server, the lookup of any other id compares a null string. -/
theorem bot_null_compared : ¬ ∀ (cfg : Config) (s : Server) (authId : Bytes),
    Answers cfg s authId := by
  intro h
  obtain ⟨k, hk, _⟩ := (h oneSlot (start (alone bot) [7]) (bytes "STEAM_1:0:7")).lookup
  have hnull : isAuthIdConnected oneSlot (start (alone bot) [7]) (bytes "STEAM_1:0:7") = none := by
    decide
  cases hnull.symm.trans hk

end ClientPrefs.AuthIdLookup
