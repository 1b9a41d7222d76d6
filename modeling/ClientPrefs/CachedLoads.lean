import ClientPrefs.RegistryReplies
import ClientPrefs.TableLinks

/-!
# Cached means loaded

`ClientConnectCallback` marks a client as loaded whatever its query obtained; here is
what a query obtained, and what the mark then means.
-/
namespace ClientPrefs.CachedLoads
open ByteStrings Conversation Conv Cookies CookieManager Loads QueryThread RedisReply RedisStore
open RegistryReplies Session SlotTables SlotValues TableLinks Transition

/-- The cookie is registered under this id, and the player has this value for it. -/
structure Holds (redis : Store) (steamId name id value : Bytes) : Prop where
  registered : redis.value (idKey name) = some id
  stored : redis.value (valueKey steamId id) = some value

def valueReply (redis : Store) (steamId id : Bytes) : Reply :=
  reply (redis.getReply (valueKey steamId id))

/-- The script's rows have the row of the cookie, and no malformed row before it. -/
def InRows (redis : Store) (steamId : Bytes) (rows : List Reply) (name id : Bytes) : Prop :=
  ∃ before desc access after,
    rows = before ++ .arrays [.string name, desc, access, valueReply redis steamId id] :: after ∧
    ∀ r ∈ before, ∃ a b c d, r = .arrays [a, b, c, d]

/-- `KEYS` listed the cookie, and its id and its value were answered. -/
def InKeys (redis : Store) (steamId : Bytes) (talk : List (Command × Option Reply))
    (items : List Reply) (name id : Bytes) : Prop :=
  .string (idKey name) ∈ items ∧
  (∀ r, (.get (idKey name), r) ∈ talk → r = some (.string id)) ∧
  ∀ r, (.get (valueKey steamId id), r) ∈ talk → r = some (valueReply redis steamId id)

/-- The query obtained the complete list of the registered cookies with what the player has
for each of them, from the script or from `KEYS`. -/
inductive Obtained (redis : Store) (steamId : Bytes) (talk : List (Command × Option Reply)) : Prop
  | script (rows : List Reply)
      (replied : (.evalsha scriptSha steamId, some (.arrays rows)) ∈ talk)
      (complete : ∀ name id, redis.value (idKey name) = some id →
        InRows redis steamId rows name id)
  | keys (items : List Reply) (replied : (.keys (bytes "cookies.id."), some (.arrays items)) ∈ talk)
      (complete : ∀ name id, redis.value (idKey name) = some id →
        InKeys redis steamId talk items name id)

/-- Names that `Cookie` keeps whole, and ids without zero bytes, as `InsertCookie` stores them. -/
def Registered (redis : Store) : Prop :=
  ∀ name id, redis.value (idKey name) = some id → Whole name ∧ cstr id = id

/-- What may come back for a command: the reply of the server, no string and no array at all
(nothing, an error, any other type), or the rows of the script, some of them malformed. -/
def Believable (redis : Store) (c : Command) (r : Option Reply) : Prop :=
  r = some (serve redis c).2 ∨
  ((∀ s, r ≠ some (.string s)) ∧ ∀ rows, r ≠ some (.arrays rows)) ∨
  ∃ sha steamId honest rows, c = .evalsha sha steamId ∧ (serve redis c).2 = .arrays honest ∧
    r = some (.arrays rows) ∧
    List.Forall₂ (fun h r => r = h ∨ ∀ a b c d, r ≠ .arrays [a, b, c, d]) honest rows

/-- The contract of a load: no mark and no forward for a query that did not obtain the complete
list, and after a mark every value has just been filled in. -/
structure CachedMeansLoaded (cfg : Config) (redis : Store) (steamId : Bytes)
    (talk : List (Command × Option Reply)) (i : ℕ) (s t : Server) : Prop where
  unmarked : ¬ Obtained redis steamId talk → t.statsLoaded = s.statsLoaded ∧ t.cached = s.cached
  filled : t.cached ≠ s.cached → ∀ name id value, Holds redis steamId name id value →
    ∃ c, findCookie cfg t name = some c ∧ entryAt t c i = some ⟨storedValue value, false, 0, c⟩

variable {cfg : Config} {s : Server} {i : ℕ}

/-- After the loop, every name among the rows leads to a cookie with the value of a row for it. -/
theorem entry_of_loadRows (h : Wf s) {rows : List (Cookie × Bytes)}
    (whole : ∀ row ∈ rows, Whole row.1.name) {name : Bytes}
    (hname : ∃ row ∈ rows, row.1.name = name) :
    ∃ c, findCookie cfg (rows.foldl (loadRow cfg i) s) name = some c ∧
      ∃ row ∈ rows, row.1.name = name ∧ entryAt (rows.foldl (loadRow cfg i) s) c i =
        some ⟨storedValue row.2, false, 0, c⟩ := by
  induction rows using List.reverseRecOn with
  | nil => simp at hname
  | append_singleton rows row ih =>
    have hrow : Whole row.1.name := whole row (by simp)
    have hloop : Wf (rows.foldl (loadRow cfg i) s) := h.loadRows i rows
    have hm : Wf (findOrCreate cfg (rows.foldl (loadRow cfg i) s) row.1).1 :=
      hloop.findOrCreate row.1
    rw [List.foldl_concat]
    by_cases heq : row.1.name = name
    · subst heq
      refine ⟨_, findCookie_loadRow_self hloop hrow, row, by simp, rfl, ?_⟩
      exact (entryAt_linkData hm _ _ _).trans (if_pos ⟨rfl, rfl⟩)
    · have hold : ∃ r ∈ rows, r.1.name = name := by
        obtain ⟨r, hr, hrname⟩ := hname
        rcases List.mem_append.mp hr with hr | hr
        · exact ⟨r, hr, hrname⟩
        · obtain rfl := List.mem_singleton.mp hr
          exact absurd hrname heq
      obtain ⟨c, hc, r, hr, hrname, hentry⟩ :=
        ih (fun r hr => whole r (List.mem_append_left _ hr)) hold
      have hlt : c < (rows.foldl (loadRow cfg i) s).cookieCount := findCookie_lt hloop hc
      refine ⟨c, (findCookie_loadRow_iff hloop hlt name).mpr hc, r,
        List.mem_append_left _ hr, hrname, ?_⟩
      rw [entryAt_loadRow hloop hlt, if_neg, hentry]
      rintro ⟨hfound, _⟩
      have hcut := (findCookie_name hfound).symm.trans (findCookie_name hc)
      rw [hrow.cut, ← hrname, (whole r (List.mem_append_left _ hr)).cut] at hcut
      exact heq (hcut.trans hrname)

section Replies
variable {redis : Store} {steamId name id value : Bytes}

lemma namesWhole (registered : Registered redis) : NamesWhole redis := by
  intro name hid
  obtain ⟨id, hid⟩ := Option.isSome_iff_exists.mp hid
  exact (registered name id hid).1

lemma believable_row {sha n d : Bytes} {rows : List Reply} {access v : Reply}
    (registered : Registered redis)
    (believable : Believable redis (.evalsha sha steamId) (some (.arrays rows)))
    (hrow : .arrays [.string n, .string d, access, v] ∈ rows) :
    ∃ id, redis.value (idKey n) = some id ∧ v = reply (redis.getReply (valueKey steamId id)) := by
  have hserver : ∀ honest, (serve redis (.evalsha sha steamId)).2 = .arrays honest →
      .arrays [.string n, .string d, access, v] ∈ honest →
      ∃ id, redis.value (idKey n) = some id ∧ v = reply (redis.getReply (valueKey steamId id)) :=
    fun honest hserve hmem => script_row (namesWhole registered) hserve hmem
  rcases believable with hhonest | ⟨_, hno⟩ | ⟨_, _, honest, rows', _, hserve, hrows, hall⟩
  · exact hserver rows (Option.some.inj hhonest).symm hrow
  · exact absurd rfl (hno rows)
  · obtain rfl : rows = rows' := by simpa using hrows
    obtain ⟨k, hk, hget⟩ := List.getElem_of_mem hrow
    have hlen := hall.length_eq
    have hpair := List.forall₂_iff_get.mp hall |>.2 k (by omega) hk
    rcases hpair with heq | hmalformed
    · refine hserver honest hserve ?_
      have hget' : rows.get ⟨k, hk⟩ = .arrays [.string n, .string d, access, v] := hget
      rw [← hget', heq]
      exact List.get_mem _ _
    · exact absurd hget (hmalformed _ _ _ _)

lemma believable_key {items : List Reply} {key : Bytes} (registered : Registered redis)
    (believable : Believable redis (.keys (bytes "cookies.id.")) (some (.arrays items)))
    (hkey : .string key ∈ items) :
    ∃ id, redis.value (idKey (key.drop 11)) = some id ∧ key = idKey (key.drop 11) := by
  rcases believable with hhonest | ⟨_, hno⟩ | ⟨_, _, _, _, hc, _⟩
  · exact keys_row (namesWhole registered) (Option.some.inj hhonest).symm hkey
  · exact absurd rfl (hno items)
  · cases hc

lemma storedValue_reply (h : redis.value (valueKey steamId id) = some value) :
    storedValue (readValue (reply (redis.getReply (valueKey steamId id)))) =
      storedValue value := by
  rw [reply_getReply h, readValue, cstr_cstr, storedValue_cstr]

lemma keysLoop_gets (items : List Reply) {talk : List (Command × Option Reply)}
    {outcome : Outcome} (h : Talks (keysLoop steamId items []) talk outcome) :
    ∀ x ∈ talk, ∃ key, x.1 = .get key := by
  have hgets : (keysLoop steamId items []).Keeps (fun _ _ => True) (fun c => ∃ key, c = .get key)
      fun out => ∀ row ∈ out.results, True := by
    apply keysLoop_each
    · exact fun key => ⟨key, rfl⟩
    · simp
    · simp
  exact h.asked (hgets.imp fun _ _ => trivial)

/-- The value has a row among the results, and no row of the name has another value. -/
def Given (name value : Bytes) (results : List (Cookie × Bytes)) : Prop :=
  (∃ row ∈ results, row.1.name = name) ∧
    ∀ row ∈ results, row.1.name = name → storedValue row.2 = storedValue value

lemma given_of_script {rows : List Reply} {results : List (Cookie × Bytes)}
    (registered : Registered redis)
    (believable : Believable redis (.evalsha scriptSha steamId) (some (.arrays rows)))
    (told : InRows redis steamId rows name id) (hresults : readRows rows = some results)
    (holds : Holds redis steamId name id value) : Given name value results := by
  obtain ⟨whole, _⟩ := registered name id holds.registered
  obtain ⟨before, desc, access, after, rfl, formed⟩ := told
  constructor
  · obtain ⟨n, d, hn, _, hrow⟩ := readRows_some formed hresults
    obtain rfl : name = n := by simpa using hn
    exact ⟨_, hrow, new_name whole d _⟩
  · apply readRows_each (P := fun row =>
      row.1.name = name → storedValue row.2 = storedValue value) ?_ hresults
    intro n d access v hrow hname
    obtain ⟨id', hid', rfl⟩ := believable_row registered believable hrow
    obtain rfl : n = name := (new_name (registered n id' hid').1 d _).symm.trans hname
    obtain rfl : id = id' := by simpa [hid'] using holds.registered.symm
    exact storedValue_reply holds.stored

lemma given_of_keys {items : List Reply} {talk : List (Command × Option Reply)}
    {outcome : Outcome} (registered : Registered redis)
    (believable : Believable redis (.keys (bytes "cookies.id.")) (some (.arrays items)))
    (hloop : Talks (keysLoop steamId items []) talk outcome)
    (told : InKeys redis steamId talk items name id)
    (holds : Holds redis steamId name id value) : Given name value outcome.results := by
  obtain ⟨whole, _⟩ := registered name id holds.registered
  obtain ⟨listed, hid, hvalue⟩ := told
  constructor
  · have hsome : (keysLoop steamId items []).Keeps (fun c r => (c, r) ∈ talk)
        (fun _ => True) fun out => ∃ row ∈ out.results, row.1.name = name := by
      apply keysLoop_some (fun _ => trivial) (.inl listed) hid
      exact fun _ desc access _ => new_name whole desc access
    exact hloop.keeps hsome fun _ hx => hx
  · have heach : (keysLoop steamId items []).Keeps (fun c r => (c, r) ∈ talk)
        (fun _ => True) fun out => ∀ row ∈ out.results,
          row.1.name = name → storedValue row.2 = storedValue value := by
      apply keysLoop_each (fun _ => trivial) (by simp)
      intro key id' v desc access hkey hgetid hgetvalue hname
      obtain ⟨id'', hid'', hkeyname⟩ := believable_key registered believable hkey
      have hdrop : key.drop 11 = name :=
        (new_name (registered _ _ hid'').1 desc access).symm.trans hname
      rw [hdrop] at hkeyname
      subst hkeyname
      obtain rfl : id' = id := by simpa using hid _ hgetid
      obtain rfl : v = valueReply redis steamId id' := by simpa using hvalue _ hgetvalue
      exact storedValue_reply holds.stored
    exact hloop.keeps heach fun _ hx => hx

inductive Lists (steamId : Bytes) : List (Command × Option Reply) → Outcome → Prop
  | script (rows : List Reply) (results : List (Cookie × Bytes))
      (read : readRows rows = some results) :
      Lists steamId [(.evalsha scriptSha steamId, some (.arrays rows))] ⟨true, -1, results⟩
  | keys (r : Option Reply) (items : List Reply) (rest : List (Command × Option Reply))
      (outcome : Outcome) (no_rows : ∀ rows, r ≠ some (.arrays rows))
      (loop : Talks (keysLoop steamId items []) rest outcome) :
      Lists steamId ((.evalsha scriptSha steamId, r) ::
        (.keys (bytes "cookies.id."), some (.arrays items)) :: rest) outcome

/-- A query to which no list came back has no list in its conversation. -/
theorem lists_of_talks {talk : List (Command × Option Reply)} {outcome : Outcome}
    (talks : Talks (selectData scriptSha steamId) talk outcome) :
    Lists steamId talk outcome ∨
      (∀ sha rows, (.evalsha sha steamId, some (.arrays rows)) ∉ talk) ∧
        ∀ key items, (.keys key, some (.arrays items)) ∉ talk := by
  obtain ⟨r, rest, rfl, htail⟩ := talks.of_command_bind
  split at htail
  · next rows =>
    split at htail
    · next results read =>
      obtain ⟨rfl, rfl⟩ := htail.of_done
      exact .inl (.script rows results read)
    · cases htail
  · next no_rows =>
    split_ifs at htail with hok
    · obtain ⟨rfl, _⟩ := htail.of_done
      refine .inr ⟨fun sha rows mem => no_rows rows ?_, by simp⟩
      exact (congrArg Prod.snd (List.mem_singleton.mp mem)).symm
    · obtain ⟨keys, rest, rfl, hloop⟩ := htail.of_command_bind
      split at hloop
      · next items => exact .inl (.keys r items rest outcome no_rows hloop)
      · next no_keys =>
        obtain ⟨rfl, _⟩ := hloop.of_done
        refine .inr ⟨fun sha rows mem => no_rows rows ?_, fun key items mem => no_keys items ?_⟩
        · have first : sha = scriptSha ∧ some (.arrays rows) = r := by simpa using mem
          exact first.2.symm
        · have second : key = bytes "cookies.id." ∧ some (.arrays items) = keys := by simpa using mem
          exact second.2.symm

/-- With the complete list, every value of the player has a row, and no row has another value. -/
theorem given_of_obtained {talk : List (Command × Option Reply)} {outcome : Outcome}
    (registered : Registered redis) (talks : Talks (selectData scriptSha steamId) talk outcome)
    (believable : ∀ x ∈ talk, Believable redis x.1 x.2) (obtained : Obtained redis steamId talk)
    (holds : Holds redis steamId name id value) : Given name value outcome.results := by
  rcases lists_of_talks talks with lists | ⟨no_script, no_keys⟩
  · cases lists with
    | script rows results read =>
      cases obtained with
      | script rows' replied complete =>
        obtain rfl : rows' = rows := by simpa using replied
        have told := complete name id holds.registered
        exact given_of_script registered (believable _ replied) told read holds
      | keys items replied complete => simp at replied
    | keys r items rest outcome no_rows loop =>
      -- the loop only asks for values, so the lists are among the first two replies
      have gets := keysLoop_gets items loop
      cases obtained with
      | script rows replied complete =>
        rcases List.mem_cons.mp replied with first | later
        · exact absurd (congrArg Prod.snd first).symm (no_rows rows)
        · rcases List.mem_cons.mp later with second | mem
          · cases second
          · obtain ⟨key, hkey⟩ := gets _ mem
            cases hkey
      | keys items' replied complete =>
        obtain rfl : items' = items := by
          rcases List.mem_cons.mp replied with first | later
          · cases first
          · rcases List.mem_cons.mp later with second | mem
            · simpa using second
            · obtain ⟨key, hkey⟩ := gets _ mem
              cases hkey
        obtain ⟨listed, hid, hvalue⟩ := complete name id holds.registered
        refine given_of_keys registered (believable _ replied) loop ⟨listed, ?_, ?_⟩ holds
        · exact fun r hr => hid r (List.mem_cons_of_mem _ (List.mem_cons_of_mem _ hr))
        · exact fun r hr => hvalue r (List.mem_cons_of_mem _ (List.mem_cons_of_mem _ hr))
  · cases obtained with
    | script rows replied complete => exact absurd replied (no_script _ _)
    | keys items replied complete => exact absurd replied (no_keys _ _)

end Replies

section Contract
variable {redis : Store} {k q : ℕ} {sid : Bytes} {talk : List (Command × Option Reply)}
  {outcome : Outcome}

lemma cached_loadRow (row : Cookie × Bytes) : (loadRow cfg i s row).cached = s.cached := by
  have hcreate : (findOrCreate cfg s row.1).1.cached = s.cached := by
    unfold findOrCreate createCookie
    split
    · rfl
    · split <;> rfl
  exact hcreate

lemma cached_loadRows (rows : List (Cookie × Bytes)) :
    (rows.foldl (loadRow cfg i) s).cached = s.cached := by
  induction rows generalizing s with
  | nil => rfl
  | cons row rows ih => rw [List.foldl_cons, ih, cached_loadRow]

lemma findCookie_congr {t : Server} (hfinder : t.cookieFinder = s.cookieFinder)
    (hcookies : t.cookies = s.cookies) (name : Bytes) :
    findCookie cfg t name = findCookie cfg s name := by
  simp only [findCookie, hfinder, hcookies]

lemma runFrame_select (hq : s.sent[q]? = some (.selectData k sid))
    (hpos : getClientFromSerial cfg s k ≠ 0) : runFrame cfg s q outcome =
      let u := outcome.results.foldl (loadRow cfg (getClientFromSerial cfg s k))
        (loadStart s q (getClientFromSerial cfg s k))
      { u with
        statsLoaded := Function.update u.statsLoaded (getClientFromSerial cfg s k) true
        cached := u.cached ++ [getClientFromSerial cfg s k] } := by
  have hclient : getClientFromSerial cfg { s with finished := s.finished ++ [q] } k =
      getClientFromSerial cfg s k := rfl
  simp only [runFrame, hq, runThinkPart, clientConnectCallback, hclient, hpos, if_false]
  rfl

lemma runFrame_gone (hq : s.sent[q]? = some (.selectData k sid))
    (hzero : getClientFromSerial cfg s k = 0) :
    runFrame cfg s q outcome = { s with finished := s.finished ++ [q] } := by
  have hclient : getClientFromSerial cfg { s with finished := s.finished ++ [q] } k = 0 := hzero
  simp only [runFrame, hq, runThinkPart, clientConnectCallback, hclient, if_true]

/-- The contract of a load is met exactly when the player has left or the query obtained the
complete list. -/
theorem cached_means_loaded_iff {roster : ℕ → Option Player} {spent : List ℕ}
    {trace : List (Server × Event)} (run : Run (Step cfg) (start roster spent) trace s)
    (hq : s.sent[q]? = some (.selectData k sid))
    (allowed : (Event.think q talk outcome).Allowed cfg s) (registered : Registered redis)
    (believable : ∀ x ∈ talk, Believable redis x.1 x.2) :
    CachedMeansLoaded cfg redis sid talk (getClientFromSerial cfg s k) s
        (runFrame cfg s q outcome) ↔
      getClientFromSerial cfg s k = 0 ∨ Obtained redis sid talk := by
  constructor
  · intro contract
    by_contra hnot
    rw [not_or] at hnot
    have hcached := (contract.unmarked hnot.2).2
    rw [runFrame_select hq hnot.1] at hcached
    simp [cached_loadRows, loadStart, clearPending] at hcached
  · intro hcases
    rcases hcases with hzero | obtained
    · rw [runFrame_gone hq hzero]
      exact ⟨fun _ => ⟨rfl, rfl⟩, fun hne => absurd rfl hne⟩
    · refine ⟨fun hnot => absurd obtained hnot, fun hne name id value holds => ?_⟩
      have hpos : getClientFromSerial cfg s k ≠ 0 := by
        intro hzero
        rw [runFrame_gone hq hzero] at hne
        exact hne rfl
      have talks : Talks (selectData scriptSha sid) talk outcome := by
        obtain ⟨_, query, hquery, talks⟩ := allowed
        obtain rfl : Query.selectData k sid = query := by simpa [hq] using hquery
        exact talks
      obtain ⟨hrow, hright⟩ := given_of_obtained registered talks believable obtained holds
      have delivers : Delivers cfg s (getClientFromSerial cfg s k) outcome.results
          (.think q talk outcome) := ⟨rfl, hpos, k, sid, hq, rfl⟩
      have whole := whole_of_delivers allowed delivers
      generalize hi : getClientFromSerial cfg s k = i at *
      have hstart : Wf (loadStart s q i) :=
        (wf_of_run run).congr rfl rfl rfl rfl rfl rfl fun _ _ _ ha => ha
      obtain ⟨c, hfound, row, hmem, hname, hentry⟩ := entry_of_loadRows hstart whole hrow
      rw [hright row hmem hname] at hentry
      refine ⟨c, ?_, ?_⟩
      · rw [runFrame_select hq (hi ▸ hpos), ← hfound, hi]
        exact findCookie_congr rfl rfl name
      · rw [runFrame_select hq (hi ▸ hpos), ← hentry, hi]
        rfl

end Contract

lemma musicStore_registered : Registered musicStore := by
  intro name id h
  obtain ⟨rfl, rfl⟩ := musicStore_id h
  exact ⟨rfl, rfl⟩

lemma musicStore_holds : Holds musicStore (bytes "STEAM_1:0:7") (bytes "music") (bytes "5")
    (bytes "on") := ⟨by decide, by decide⟩

def lateLoad : Server := start (alone (authorized newcomer7)) [7]

theorem lateLoad_run : Run (Step oneSlot) lateLoad [(lateLoad, .reconnect)]
    (attemptReconnection oneSlot lateLoad) := .one ⟨trivial, rfl⟩

lemma lateLoad_query : (attemptReconnection oneSlot lateLoad).sent[0]? =
    some (.selectData 7 (bytes "STEAM_1:0:7")) := by decide

lemma musicTalk_obtained : Obtained musicStore (bytes "STEAM_1:0:7") (musicTalk "on") := by
  refine .script _ (List.mem_singleton_self _) fun name id registered => ?_
  obtain ⟨rfl, rfl⟩ := musicStore_id registered
  have value : valueReply musicStore (bytes "STEAM_1:0:7") (bytes "5") = .string (bytes "on") :=
    reply_getReply musicStore_holds.stored
  exact ⟨[], .string [], .string (bytes "0"), [], by rw [value]; rfl, by simp⟩

lemma serve_music : (serve musicStore (.evalsha scriptSha (bytes "STEAM_1:0:7"))).2 =
    .arrays [.arrays [.string (bytes "music"), .string [], .string (bytes "0"),
      .string (bytes "on")]] := by
  have hid : musicStore.value (idKey (bytes "music")) = some (bytes "5") := by decide
  have hdesc : musicStore.value (descKey (bytes "music")) = some [] := by decide
  have haccess : musicStore.value (accessKey (bytes "music")) = some (bytes "0") := by decide
  have hlist : musicStore.members cookiesList = [bytes "music"] := rfl
  have hsha : scriptSha ∈ musicStore.scripts := List.mem_singleton_self _
  simp only [serve_snd, exec, if_pos hsha, reply, replies_eq_map, scriptLoop_rows, hlist,
    List.filterMap_cons, scriptRow, hid, Option.map_some, List.filterMap_nil, List.map_cons,
    List.map_nil, Store.getReply, hdesc, haccess, musicStore_holds.stored]
  rfl

/-- The script's reply brings the value, and the player's slot is filled with it. -/
theorem cached_means_loaded_music : CachedMeansLoaded oneSlot musicStore (bytes "STEAM_1:0:7")
    (musicTalk "on") (getClientFromSerial oneSlot (attemptReconnection oneSlot lateLoad) 7)
    (attemptReconnection oneSlot lateLoad)
    (runFrame oneSlot (attemptReconnection oneSlot lateLoad) 0 (musicOutcome "on")) := by
  have allowed : (Event.think 0 (musicTalk "on") (musicOutcome "on")).Allowed oneSlot
      (attemptReconnection oneSlot lateLoad) := ⟨by decide, _, lateLoad_query, musicTalk_talks "on"⟩
  have believable : ∀ x ∈ musicTalk "on", Believable musicStore x.1 x.2 := by
    intro x hx
    obtain rfl := List.mem_singleton.mp hx
    exact .inl (congrArg some serve_music.symm)
  exact (cached_means_loaded_iff lateLoad_run lateLoad_query allowed musicStore_registered
    believable).mpr (.inr musicTalk_obtained)

/-- Redis answers with errors, as it does while it loads its data set. -/
def errorTalk : List (Command × Option Reply) :=
  [(.evalsha scriptSha (bytes "STEAM_1:0:7"), some (.error (bytes "LOADING"))),
    (.keys (bytes "cookies.id."), some (.error (bytes "LOADING")))]

lemma errorTalk_talks : Talks (bindParamsAndRun oneSlot.hash (.selectData (bytes "STEAM_1:0:7")))
    errorTalk ⟨true, -1, []⟩ := Talks.command_bind (Talks.command_bind (.done _))

theorem marked_without_values : ¬ ∀ (cfg : Config) (roster : ℕ → Option Player) (spent : List ℕ)
    (trace : List (Server × Event)) (s : Server) (q k : ℕ) (sid : Bytes)
    (talk : List (Command × Option Reply)) (outcome : Outcome) (redis : Store),
    Host cfg (start roster spent) → Run (Step cfg) (start roster spent) trace s →
    s.sent[q]? = some (.selectData k sid) → (Event.think q talk outcome).Allowed cfg s →
    Registered redis → (∀ x ∈ talk, Believable redis x.1 x.2) →
    CachedMeansLoaded cfg redis sid talk (getClientFromSerial cfg s k) s
      (runFrame cfg s q outcome) := by
  intro h
  have believable : ∀ x ∈ errorTalk, Believable musicStore x.1 x.2 := by
    intro x hx
    simp only [errorTalk, List.mem_cons, List.not_mem_nil, or_false] at hx
    rcases hx with rfl | rfl <;> exact .inr (.inl ⟨nofun, nofun⟩)
  have contract := h oneSlot _ _ _ _ 0 7 _ errorTalk _ musicStore (host_start_alone _) lateLoad_run
    lateLoad_query ⟨by decide, _, lateLoad_query, errorTalk_talks⟩ musicStore_registered believable
  obtain ⟨c, hfound, _⟩ := contract.filled (by decide) _ _ _ musicStore_holds
  have hnone : findCookie oneSlot (runFrame oneSlot (attemptReconnection oneSlot lateLoad) 0
      ⟨true, -1, []⟩) (bytes "music") = none := by decide
  rw [hnone] at hfound
  cases hfound

end ClientPrefs.CachedLoads
