import ClientPrefs.RegisteredIds
import ClientPrefs.SerialQueries

/-!
# The registration of one cookie

`CreateCookie`, the `InsertCookie` query and its callback and, when the callback asks for
it, the `SelectId` query and its callback, with nothing in between.
-/
namespace ClientPrefs.Registration
open ByteStrings Conversation Conv Cookies CookieManager Extension QueryThread RedisReply RedisStore
open RegisteredIds SaveOrder SerialQueries Session SoloRuns Transition

section Chain
variable (cfg : Config)

/-- The next query is executed and its result delivered at once; `none` when there is no query
or its thread is lost. -/
def runNext (s : Serial) : Option Serial :=
  match s.next cfg with
  | some (q, store, some outcome) => some
    { main := runFrame cfg s.main s.results.length outcome
      store := store
      results := s.results ++ [(s.results.length, q, outcome)] }
  | _ => none

/-- The second query is there only if `InsertCookieCallback` has sent it. -/
def register (s : Serial) (name description : Bytes) (access : CookieAccess) : Option Serial := do
  let created : Serial := { s with main := (createCookie cfg s.main name description access).1 }
  let inserted ← runNext cfg created
  if inserted.main.sent.length = created.main.sent.length then some inserted
  else runNext cfg inserted

/-- The registration returns, and the cookie has the id that Redis has for its name. -/
def EndsWithStoredId (s : Serial) (name description : Bytes) (access : CookieAccess) : Prop :=
  ∃ t z, register cfg s name description access = some t ∧
    t.store.value (idKey (utilStrncpy (some name) maxNameLength)) = some (toText z) ∧
    (t.main.cookies (createCookie cfg s.main name description access).2).dbid = z

end Chain

def Drained (s : Serial) : Prop := s.results.length = s.main.sent.length

variable {cfg : Config} {hash : Bytes → ℕ} {s t : Serial} {store : Store} {name : Bytes} {z : ℤ}

lemma solo_insertCookie_known {text : Bytes} (description : Bytes) (access : CookieAccess)
    (known : store.value (idKey name) = some text) (parses : stoi (cstr text) = .ok z) :
    solo serve store (insertCookie hash name description access) =
      ((exec store (.sadd cookiesList name)).1, some ⟨true, z, []⟩) := by
  have hreply : (serve store (.get (idKey name))).2 = .string (cstr text) := by
    simp [exec, Store.getReply, known, reply]
  unfold insertCookie
  rw [solo_command_bind, hreply]
  simp only [solo_append_bind, parses]
  rfl

def enrolled (store : Store) (name description : Bytes) (access : CookieAccess) (id : ℤ) : Store :=
  (((exec store (.sadd cookiesList name)).1.write (accessKey name) (toText access)).write
    (descKey name) description).write (idKey name) (toText id)

section Enrolled
variable {description : Bytes} {access : CookieAccess} {id : ℤ} (n : Bytes)

lemma value_sadd (store : Store) (set member key : Bytes) :
    (exec store (.sadd set member)).1.value key = store.value key :=
  (keyCell key).look_exec store (.sadd set member)

lemma enrolled_id : (enrolled store name description access id).value (idKey n) =
    if n = name then some (toText id) else store.value (idKey n) := by
  simp only [enrolled, value_write, value_sadd, if_neg (idKey_ne_descKey n name),
    if_neg (idKey_ne_accessKey n name), idKey_inj]

lemma enrolled_desc : (enrolled store name description access id).value (descKey n) =
    if n = name then some description else store.value (descKey n) := by
  simp only [enrolled, value_write, value_sadd, if_neg (idKey_ne_descKey name n).symm,
    if_neg (descKey_ne_accessKey n name), descKey_inj]

lemma enrolled_access : (enrolled store name description access id).value (accessKey n) =
    if n = name then some (toText access) else store.value (accessKey n) := by
  simp only [enrolled, value_write, value_sadd, if_neg (idKey_ne_accessKey name n).symm,
    if_neg (descKey_ne_accessKey name n).symm, accessKey_inj]

end Enrolled

lemma solo_insertCookie_new (description : Bytes) (access : CookieAccess)
    (new : store.value (idKey name) = none) :
    solo serve store (insertCookie hash name description access) =
      (enrolled store name description access (cookieHash hash name),
        some ⟨true, cookieHash hash name, []⟩) := by
  have hreply : (serve store (.get (idKey name))).2 = .nil := by
    simp [exec, Store.getReply, new, reply]
  unfold insertCookie
  rw [solo_command_bind, hreply]
  rfl

/-- A registration tells the settled id and leaves it in Redis. -/
theorem solo_insertCookie (description : Bytes) (access : CookieAccess)
    (settled : Settled hash name z store) (hlo : -2 ^ 31 ≤ z) (hhi : z < 2 ^ 31) :
    (solo serve store (insertCookie hash name description access)).2 = some ⟨true, z, []⟩ ∧
      (solo serve store (insertCookie hash name description access)).1.value (idKey name) =
        some (toText z) := by
  rcases settled with known | ⟨new, rfl⟩
  · have parses : stoi (cstr (toText z)) = .ok z := by
      rw [cstr_toText]
      exact stoi_toText hlo hhi
    rw [solo_insertCookie_known description access known parses]
    have hlook := (keyCell (idKey name)).look_exec store (.sadd cookiesList name)
    exact ⟨rfl, hlook.trans known⟩
  · rw [solo_insertCookie_new description access new]
    exact ⟨rfl, by simp [enrolled, value_write]⟩

lemma solo_selectId {text : Bytes} (known : store.value (idKey name) = some text) :
    solo serve store (selectId name) = (store, some ⟨false, -1, []⟩) := by
  have hreply : (serve store (.get (idKey name))).2 = .string (cstr text) := by
    simp [exec, Store.getReply, known, reply]
  unfold selectId
  rw [solo_command_bind, hreply]
  rfl

lemma solo_selectId_new (new : store.value (idKey name) = none) :
    solo serve store (selectId name) = (store, none) := by
  have hreply : (serve store (.get (idKey name))).2 = .nil := by
    simp [exec, Store.getReply, new, reply]
  unfold selectId
  rw [solo_command_bind, hreply]
  rfl

lemma runNext_eq {q : Query} {outcome : Outcome} (hq : s.main.sent[s.results.length]? = some q)
    (hout : (solo serve s.store (convOf cfg s.main q)).2 = some outcome) : runNext cfg s = some
      ⟨runThinkPart cfg { s.main with finished := s.main.finished ++ [s.results.length] } q outcome,
        (solo serve s.store (convOf cfg s.main q)).1,
        s.results ++ [(s.results.length, q, outcome)]⟩ := by
  have hnext : s.next cfg = some (q, (solo serve s.store (convOf cfg s.main q)).1, some outcome) := by
    simp only [Serial.next, hq, Option.map_some, ← hout]
  simp only [runNext, hnext, runFrame, hq]

lemma createCookie_new (new : findCookie cfg s.main name = none) (description : Bytes)
    (access : CookieAccess) :
    (createCookie cfg s.main name description access).1.sent =
        s.main.sent ++ [.insertCookie s.main.cookieCount] ∧
      (createCookie cfg s.main name description access).1.cookies s.main.cookieCount =
        Cookie.new name description access ∧
      (createCookie cfg s.main name description access).2 = s.main.cookieCount := by
  simp [createCookie, new, Server.addQueryToQueue]

/-- The registration returns, Redis has the id, and an id that is not positive is replaced. -/
theorem register_dbid (drained : Drained s) (new : findCookie cfg s.main name = none)
    (settled : Settled cfg.hash (utilStrncpy (some name) maxNameLength) z s.store)
    (hlo : -2 ^ 31 ≤ z) (hhi : z < 2 ^ 31) (description : Bytes) (access : CookieAccess) :
    ∃ t, register cfg s name description access = some t ∧
      t.store.value (idKey (utilStrncpy (some name) maxNameLength)) = some (toText z) ∧
      (t.main.cookies (createCookie cfg s.main name description access).2).dbid =
        if 0 < z then z else -1 := by
  obtain ⟨hsent, hcookie, hc⟩ := createCookie_new new description access
  rw [hc]
  unfold register
  generalize hcreated : (createCookie cfg s.main name description access).1 = created at hsent hcookie
  generalize s.main.cookieCount = c at hsent hcookie
  have hdrained : s.results.length = s.main.sent.length := drained
  have hq : created.sent[s.results.length]? = some (.insertCookie c) := by
    rw [hsent, hdrained]
    simp
  have hconv : convOf cfg created (.insertCookie c) = insertCookie cfg.hash
      (utilStrncpy (some name) maxNameLength) (utilStrncpy (some description) maxDescLength)
      access := by
    simp only [convOf, jobOf, hcookie]
    rfl
  obtain ⟨hout, hstored⟩ := solo_insertCookie (utilStrncpy (some description) maxDescLength) access
    settled hlo hhi
  rw [← hconv] at hout hstored
  have hfirst := runNext_eq (s := ⟨created, s.store, s.results⟩) hq hout
  simp only [hfirst, runThinkPart, insertCookieCallback, Option.bind_eq_bind, Option.bind_some]
  by_cases hz : 0 < z
  · simp only [if_pos hz]
    refine ⟨_, if_pos rfl, hstored, ?_⟩
    simp [Server.modifyCookie]
  · simp only [if_neg hz]
    have hname : utilStrncpy (some (created.cookies c).name) maxNameLength =
        utilStrncpy (some name) maxNameLength := by
      rw [hcookie]
      exact utilStrncpy_idem (some name) (by decide)
    rw [if_neg (by simp [Server.addQueryToQueue])]
    let inserted : Serial :=
      { main := ({ created with finished := created.finished ++ [s.results.length] } :
          Server).addQueryToQueue (.selectId c (utilStrncpy (some name) maxNameLength))
        store := (solo serve s.store (convOf cfg created (.insertCookie c))).1
        results := s.results ++ [(s.results.length, .insertCookie c, ⟨true, z, []⟩)] }
    have hasked : inserted.main.sent[inserted.results.length]? =
        some (.selectId c (utilStrncpy (some name) maxNameLength)) := by
      simp [inserted, Server.addQueryToQueue, hsent, hdrained]
    have hanswer : solo serve inserted.store (convOf cfg inserted.main
        (.selectId c (utilStrncpy (some name) maxNameLength))) =
        (inserted.store, some ⟨false, -1, []⟩) := solo_selectId hstored
    have hsecond := runNext_eq hasked (congrArg Prod.snd hanswer)
    rw [hname]
    refine ⟨_, hsecond, ?_, ?_⟩
    · rw [hanswer]
      exact hstored
    · simp [runThinkPart, selectIdCallback, Server.modifyCookie]

/-- The registration always returns, and the cookie ends up with the id that Redis has exactly
when this is positive or the id that stands for none. -/
theorem registration_stored_iff (drained : Drained s) (new : findCookie cfg s.main name = none)
    (settled : Settled cfg.hash (utilStrncpy (some name) maxNameLength) z s.store)
    (hlo : -2 ^ 31 ≤ z) (hhi : z < 2 ^ 31) (description : Bytes) (access : CookieAccess) :
    EndsWithStoredId cfg s name description access ↔ 0 < z ∨ z = -1 := by
  obtain ⟨t, hreturns, hstored, hdbid⟩ :=
    register_dbid drained new settled hlo hhi description access
  constructor
  · rintro ⟨t', z', hreturns', hstored', hdbid'⟩
    obtain rfl : t = t' := Option.some.inj (hreturns.symm.trans hreturns')
    obtain rfl : z = z' := toText_injective (Option.some.inj (hstored.symm.trans hstored'))
    rw [hdbid] at hdbid'
    split_ifs at hdbid' with hz
    · exact .inl hz
    · exact .inr hdbid'.symm
  · intro hz
    refine ⟨t, z, hreturns, hstored, ?_⟩
    rw [hdbid]
    split_ifs with hpos
    · rfl
    · exact (hz.resolve_left hpos).symm

theorem registration_stored_music :
    EndsWithStoredId oneSlot (begin (fun _ => none) [] blank) (bytes "music") [] 0 := by
  have settled : Settled oneSlot.hash (utilStrncpy (some (bytes "music")) maxNameLength) 5
      blank := .inr ⟨rfl, by decide⟩
  have drained : Drained (begin (fun _ => none) [] blank) := rfl
  exact (registration_stored_iff drained rfl settled (by decide) (by decide) [] 0).mpr
    (.inl (by decide))

/-- Redis has -7 as the id of the cookie; the cookie is left without an id. -/
theorem negative_id_lost : ¬ ∀ (cfg : Config) (s : Serial) (name description : Bytes)
    (access : CookieAccess) (z : ℤ), Drained s → findCookie cfg s.main name = none →
    Settled cfg.hash (utilStrncpy (some name) maxNameLength) z s.store →
    -2 ^ 31 ≤ z → z < 2 ^ 31 → EndsWithStoredId cfg s name description access := by
  intro h
  let s : Serial := begin (fun _ => none) [] (blank.write (idKey (bytes "music")) (bytes "-7"))
  have settled : Settled oneSlot.hash (utilStrncpy (some (bytes "music")) maxNameLength) (-7)
      s.store := .inl (by decide)
  obtain ⟨t, z, hreturns, hstored, hdbid⟩ :=
    h oneSlot s (bytes "music") [] 0 (-7) rfl rfl settled (by decide) (by decide)
  have drained : Drained s := rfl
  have hnew : findCookie oneSlot s.main (bytes "music") = none := rfl
  obtain ⟨t', hreturns', hstored', hdbid'⟩ :=
    register_dbid drained hnew settled (by decide) (by decide) [] 0
  obtain rfl : t = t' := Option.some.inj (hreturns.symm.trans hreturns')
  obtain rfl : z = -7 := toText_injective (Option.some.inj (hstored.symm.trans hstored'))
  rw [hdbid'] at hdbid
  revert hdbid
  decide

end ClientPrefs.Registration
