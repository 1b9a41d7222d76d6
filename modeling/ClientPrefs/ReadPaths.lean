import ClientPrefs.Registration
import ClientPrefs.RegistryReplies

/-!
# The two ways to read a registry

Queries that run one at a time keep the registry in order. On such a registry the script,
which reads the listed names, and the slow way over the keys of the ids give the same rows.
-/
namespace ClientPrefs.ReadPaths
open ByteStrings Conversation Conv Cookies QueryThread RedisReply RedisStore Registration
open RegistryReplies SaveOrder SoloRuns Transition

/-- Every cookie is listed once, has an id that is the text of an `int`, and a description. -/
structure Kept (s : Store) : Prop where
  names : NamesWhole s
  listed : ∀ name, name ∈ s.sets cookiesList ↔ (s.value (idKey name)).isSome = true
  once : (s.sets cookiesList).Nodup
  ids : ∀ name id, s.value (idKey name) = some id →
    ∃ z : ℤ, 0 ≤ z ∧ z < 2 ^ 31 ∧ id = toText z
  described : ∀ name, (s.value (idKey name)).isSome = true →
    (s.value (descKey name)).isSome = true

/-- What a load reads of one cookie, if it is registered. -/
def cookieRow (s : Store) (steamId name : Bytes) : Option (Cookie × Bytes) :=
  (s.value (idKey name)).bind fun id => (s.value (descKey name)).map fun desc =>
    (Cookie.new name (cstr desc) (readAccess (reply (s.getReply (accessKey name)))),
      readValue (reply (s.getReply (valueKey steamId id))))

def registered (s : Store) : List Bytes :=
  (s.matching (bytes "cookies.id.")).map fun k => k.drop 11

/-- What the players and cookies of a server give to their queries. -/
def Proper : Job → Prop
  | .insertCookie name _ _ => Whole name
  | .insertData steamId _ _ => ¬ bytes "cookies." <+: steamId
  | _ => True

/-- A query is executed alone and returns, with these scripts loaded. -/
def ServeStep (hash : Bytes → ℕ) (s : Store) (x : List Bytes × Job) (t : Store) : Prop :=
  ∃ outcome, solo serve { s with scripts := x.1 } (bindParamsAndRun hash x.2) = (t, some outcome)

variable {hash : Bytes → ℕ} {s t : Store} {sha steamId name key : Bytes}

lemma Kept.cut (h : Kept s) {id : Bytes} (hid : s.value (idKey name) = some id) :
    cstr id = id := by
  obtain ⟨z, _, _, rfl⟩ := h.ids name id hid
  exact cstr_toText z

lemma scriptLoop_kept {cs : List Bytes}
    (ids : ∀ c ∈ cs, (s.value (idKey c)).isSome = true) : (scriptLoop steamId cs s).1 = s := by
  induction cs with
  | nil => rfl
  | cons c cs ih =>
    obtain ⟨id, hid⟩ := Option.isSome_iff_exists.mp (ids c (List.mem_cons_self ..))
    have hrest := ih fun d hd => ids d (List.mem_cons_of_mem _ hd)
    simp only [scriptLoop, hid]
    exact hrest

lemma readRows_script (h : Kept s) {cs : List Bytes}
    (ids : ∀ c ∈ cs, (s.value (idKey c)).isSome = true) :
    readRows ((cs.filterMap (scriptRow s steamId)).map reply) =
      some (cs.filterMap (cookieRow s steamId)) := by
  induction cs with
  | nil => rfl
  | cons c cs ih =>
    obtain ⟨id, hid⟩ := Option.isSome_iff_exists.mp (ids c (List.mem_cons_self ..))
    obtain ⟨desc, hdesc⟩ := Option.isSome_iff_exists.mp
      (h.described c (Option.isSome_iff_exists.mpr ⟨id, hid⟩))
    have hrest := ih fun d hd => ids d (List.mem_cons_of_mem _ hd)
    have hscript : scriptRow s steamId c = some (.arrays [.string c, .string desc,
        s.getReply (accessKey c), s.getReply (valueKey steamId id)]) := by
      simp [scriptRow, hid, Store.getReply, hdesc]
    have hrow : cookieRow s steamId c = some
        (Cookie.new c (cstr desc) (readAccess (reply (s.getReply (accessKey c)))),
          readValue (reply (s.getReply (valueKey steamId id)))) := by
      simp [cookieRow, hid, hdesc]
    rw [List.filterMap_cons_some hscript, List.filterMap_cons_some hrow, List.map_cons]
    simp only [reply, replies, readRows, hrest, Option.map_some, h.names.cut hid]

lemma solo_script (h : Kept s) (loaded : sha ∈ s.scripts) :
    solo serve s (selectData sha steamId) =
      (s, some ⟨true, -1, (s.members cookiesList).filterMap (cookieRow s steamId)⟩) := by
  have ids : ∀ c ∈ s.members cookiesList, (s.value (idKey c)).isSome = true :=
    fun c hc => (h.listed c).mp (Store.mem_members.mp hc)
  have hstore : (serve s (.evalsha sha steamId)).1 = s := by
    simp only [serve_fst, exec, if_pos loaded]
    exact scriptLoop_kept ids
  unfold selectData
  rw [solo_command_bind, hstore, serve_evalsha loaded]
  simp only [readRows_script h ids]
  rfl

lemma mem_registered : name ∈ registered s ↔ (s.value (idKey name)).isSome = true := by
  rw [registered, List.mem_map]
  constructor
  · rintro ⟨k, hk, hname⟩
    obtain ⟨⟨rest, rfl⟩, there⟩ := Store.mem_matching.mp hk
    obtain rfl : rest = name := hname
    exact there
  · exact fun there => ⟨idKey name, Store.mem_matching.mpr ⟨List.prefix_append _ _, there⟩, rfl⟩

lemma registered_keys : s.matching (bytes "cookies.id.") = (registered s).map idKey := by
  have hback : ∀ k ∈ s.matching (bytes "cookies.id."), idKey (k.drop 11) = k := by
    intro k hk
    obtain ⟨⟨name, rfl⟩, _⟩ := Store.mem_matching.mp hk
    rfl
  rw [registered, List.map_map]
  exact ((List.map_congr_left hback).trans (List.map_id _)).symm

lemma registered_nodup : (registered s).Nodup := by
  have hkeys : ((registered s).map idKey).Nodup := by
    rw [← registered_keys]
    exact (s.listing.perm _).nodup_iff.mpr (s.strings.nodupKeys.filter _)
  exact hkeys.of_map _

lemma solo_keysLoop (h : Kept s) (steamId : Bytes) {names : List Bytes}
    (ids : ∀ n ∈ names, (s.value (idKey n)).isSome = true) (results : List (Cookie × Bytes)) :
    solo serve s (keysLoop steamId (names.map fun n => .string (idKey n)) results) =
      (s, some ⟨true, -1, results ++ names.filterMap (cookieRow s steamId)⟩) := by
  induction names generalizing results with
  | nil => simp [keysLoop, returned, solo]
  | cons n names ih =>
    obtain ⟨id, hid⟩ := Option.isSome_iff_exists.mp (ids n (List.mem_cons_self ..))
    obtain ⟨desc, hdesc⟩ := Option.isSome_iff_exists.mp
      (h.described n (Option.isSome_iff_exists.mpr ⟨id, hid⟩))
    have hrest := ih fun d hd => ids d (List.mem_cons_of_mem _ hd)
    have hlong : ¬ (idKey n).length < 11 := by simp [idKey, bytes]
    have hname : (idKey n).drop 11 = n := rfl
    have hget : (serve s (.get (idKey n))).2 = .string id := by
      simp [exec, Store.getReply, hid, reply, h.cut hid]
    have hrow : cookieRow s steamId n = some
        (Cookie.new n (cstr desc) (readAccess (reply (s.getReply (accessKey n)))),
          readValue (reply (s.getReply (valueKey steamId id)))) := by
      simp [cookieRow, hid, hdesc]
    rw [List.map_cons, List.filterMap_cons_some hrow]
    unfold keysLoop
    simp only [if_neg hlong]
    rw [solo_command_bind, hget]
    simp only [solo, serveAll, serve_fst, serve_snd, exec, hname]
    have hdescribed : reply (s.getReply (descKey n)) = .string (cstr desc) := reply_getReply hdesc
    simp only [hdescribed]
    rw [hrest, List.append_assoc]
    rfl

lemma serve_keys_registered (names : NamesWhole s) :
    (serve s (.keys (bytes "cookies.id."))).2 =
      .arrays ((registered s).map fun n => .string (idKey n)) := by
  obtain ⟨items, hitems⟩ := serve_keys s (bytes "cookies.id.")
  rw [hitems, items_of_serve hitems, registered_keys, List.map_map]
  congr 1
  apply List.map_congr_left
  intro n hn
  obtain ⟨id, hid⟩ := Option.isSome_iff_exists.mp (mem_registered.mp hn)
  exact congrArg Reply.string (cstr_idKey (names.cut hid))

lemma solo_selectData_keys (names : NamesWhole s) (missing : sha ∉ s.scripts) :
    solo serve s (selectData sha steamId) =
      solo serve s (keysLoop steamId ((registered s).map fun n => .string (idKey n)) []) := by
  have herror : (serve s (.evalsha sha steamId)) =
      (s, .error (bytes "NOSCRIPT No matching script. Please use EVAL.")) := by
    simp only [serve, exec, if_neg missing, reply]
    rfl
  unfold selectData
  rw [solo_command_bind, herror]
  simp only [Option.map_some, Reply.ok, Option.getD_some, Bool.false_eq_true, if_false]
  rw [solo_command_bind, serve_keys_registered names]
  rfl

lemma solo_keys (h : Kept s) (missing : sha ∉ s.scripts) :
    solo serve s (selectData sha steamId) =
      (s, some ⟨true, -1, (registered s).filterMap (cookieRow s steamId)⟩) := by
  have hloop := solo_keysLoop h steamId (fun n => mem_registered.mp) []
  rw [solo_selectData_keys h.names missing, hloop, List.nil_append]

lemma valueKey_ne {rest : Bytes} (h : ¬ bytes "cookies." <+: steamId) (z : ℤ)
    (hdot : (46 : UInt8) ∈ rest) : valueKey steamId (toText z) ≠ bytes "cookies." ++ rest :=
  valueKey_ne_of_mem h hdot (toText_no_dot z)

lemma notRegistry_valueKey (h : ¬ bytes "cookies." <+: steamId) (z : ℤ) :
    NotRegistry (valueKey steamId (toText z)) := by
  intro name
  have hid : idKey name = bytes "cookies." ++ (bytes "id." ++ name) := rfl
  have hdesc : descKey name = bytes "cookies." ++ (bytes "desc." ++ name) := rfl
  have haccess : accessKey name = bytes "cookies." ++ (bytes "access." ++ name) := rfl
  rw [hid, hdesc, haccess]
  exact ⟨valueKey_ne h z (List.mem_append_left _ (by decide)),
    valueKey_ne h z (List.mem_append_left _ (by decide)),
    valueKey_ne h z (List.mem_append_left _ (by decide))⟩

lemma Kept.empty (scripts : List Bytes) (listing : Listing) :
    Kept (.empty scripts listing) := by
  constructor
  · intro name hsome
    cases hsome
  · intro name
    simp [Store.empty, Store.value]
  · exact List.nodup_nil
  · intro name id hid
    cases hid
  · intro name hsome
    cases hsome

lemma Kept.scripts (h : Kept s) (scripts : List Bytes) : Kept { s with scripts := scripts } :=
  ⟨h.names, h.listed, h.once, h.ids, h.described⟩

lemma Kept.write (h : Kept s) (outside : NotRegistry key) (value : Bytes) :
    Kept (s.write key value) := by
  have hid : ∀ n, (s.write key value).value (idKey n) = s.value (idKey n) := fun n => by
    rw [value_write, if_neg (outside n).1.symm]
  have hdesc : ∀ n, (s.write key value).value (descKey n) = s.value (descKey n) := fun n => by
    rw [value_write, if_neg (outside n).2.1.symm]
  constructor
  · simpa only [NamesWhole, hid] using h.names
  · intro n
    rw [hid]
    exact h.listed n
  · exact h.once
  · simpa only [hid] using h.ids
  · simpa only [hid, hdesc] using h.described

lemma Kept.sadd_known (h : Kept s) (known : (s.value (idKey name)).isSome = true) :
    (exec s (.sadd cookiesList name)).1 = s := by
  simp only [exec, if_pos ((h.listed name).mpr known)]

lemma Kept.enrolled (h : Kept s) (whole : Whole name) (new : s.value (idKey name) = none)
    (description : Bytes) (access : CookieAccess) (hash : Bytes → ℕ) :
    Kept (enrolled s name description access (cookieHash hash name)) := by
  have hnot : name ∉ s.sets cookiesList := fun hmem => by
    have hsome := (h.listed name).mp hmem
    rw [new] at hsome
    cases hsome
  have hlist : (Registration.enrolled s name description access (cookieHash hash name)).sets
      cookiesList = s.sets cookiesList ++ [name] := by
    simp [Registration.enrolled, Store.write, exec, hnot]
  constructor
  · intro n hsome
    rw [enrolled_id] at hsome
    split_ifs at hsome with hn
    · exact hn ▸ whole
    · exact h.names n hsome
  · intro n
    rw [hlist, enrolled_id, List.mem_append, List.mem_singleton, h.listed]
    split_ifs with hn <;> simp [hn]
  · rw [hlist]
    exact h.once.append (List.nodup_singleton name) (by simpa using hnot)
  · intro n id hid
    rw [enrolled_id] at hid
    split_ifs at hid
    · obtain ⟨hlo, hhi⟩ := cookieHash_range hash name
      exact ⟨_, hlo, hhi, (Option.some.inj hid).symm⟩
    · exact h.ids n id hid
  · intro n hsome
    rw [enrolled_id] at hsome
    rw [enrolled_desc]
    split_ifs at hsome ⊢
    · rfl
    · exact h.described n hsome

/-- What a query alone makes of a registry in order. -/
def storeAfter (hash : Bytes → ℕ) (s : Store) : Job → Store
  | .insertCookie name description access =>
    if (s.value (idKey name)).isSome then s
    else enrolled s name description access (cookieHash hash name)
  | .insertData steamId id value => s.write (valueKey steamId (toText id)) value
  | _ => s

lemma solo_store (h : Kept s) (j : Job) :
    (solo serve s (bindParamsAndRun hash j)).1 = storeAfter hash s j := by
  cases j with
  | insertCookie n d a =>
    simp only [bindParamsAndRun, storeAfter]
    cases hid : s.value (idKey n) with
    | some id =>
      obtain ⟨z, hlo, hhi, rfl⟩ := h.ids n id hid
      have parses : stoi (cstr (toText z)) = .ok z := by
        rw [cstr_toText]
        exact stoi_toText (by omega) hhi
      rw [solo_insertCookie_known d a hid parses, h.sadd_known (by simp [hid]), if_pos (by simp)]
    | none => rw [solo_insertCookie_new d a hid, if_neg (by simp)]
  | selectData sid =>
    by_cases hsha : scriptSha ∈ s.scripts
    · simp only [bindParamsAndRun, solo_script h hsha, storeAfter]
    · simp only [bindParamsAndRun, solo_keys h hsha, storeAfter]
  | insertData sid id value => rfl
  | selectId n =>
    cases hid : s.value (idKey n) with
    | some id => simp only [bindParamsAndRun, solo_selectId hid, storeAfter]
    | none => simp only [bindParamsAndRun, solo_selectId_new hid, storeAfter]

lemma Kept.after (h : Kept s) {j : Job} (whole : ∀ n d a, j = .insertCookie n d a → Whole n)
    (outside : ∀ sid id value, j = .insertData sid id value →
      NotRegistry (valueKey sid (toText id))) : Kept (storeAfter hash s j) := by
  cases j with
  | insertCookie n d a =>
    simp only [storeAfter]
    split_ifs with hid
    · exact h
    · exact h.enrolled (whole n d a rfl) (Option.not_isSome_iff_eq_none.mp hid) d a hash
  | insertData sid id value => exact h.write (outside sid id value rfl) value
  | _ => exact h

lemma Kept.solo (h : Kept s) {j : Job} (proper : Proper j) {outcome : Outcome}
    (hsolo : solo serve s (bindParamsAndRun hash j) = (t, some outcome)) : Kept t := by
  have hstore : t = storeAfter hash s j :=
    (congrArg Prod.fst hsolo).symm.trans (solo_store h j)
  rw [hstore]
  apply h.after
  · rintro n d a rfl
    exact proper
  · rintro sid id value rfl
    exact notRegistry_valueKey proper id

/-- Every Redis that the queries can build from the empty one has its registry in order. -/
theorem kept_of_run {scripts : List Bytes} {listing : Listing}
    {trace : List (Store × List Bytes × Job)}
    (run : Run (ServeStep hash) (.empty scripts listing) trace s)
    (proper : ∀ x ∈ trace, Proper x.2.2) : Kept s := by
  have preserved : ∀ (a : Store) (x : List Bytes × Job) (b : Store), Kept a → Proper x.2 →
      ServeStep hash a x b → Kept b := by
    intro a x b h hproper step
    obtain ⟨outcome, hsolo⟩ := step
    exact (h.scripts x.1).solo hproper hsolo
  exact run.invariant (Kept.empty scripts listing) preserved proper

/-- In every such Redis, the script and the keys give the same rows up to order, whoever asks,
and neither changes anything. -/
theorem read_paths_agree {scripts : List Bytes} {listing : Listing}
    {trace : List (Store × List Bytes × Job)}
    (run : Run (ServeStep hash) (.empty scripts listing) trace s)
    (proper : ∀ x ∈ trace, Proper x.2.2) (steamId : Bytes) :
    ∃ byScript byKeys : List (Cookie × Bytes),
      solo serve { s with scripts := [scriptSha] } (bindParamsAndRun hash (.selectData steamId)) =
        ({ s with scripts := [scriptSha] }, some ⟨true, -1, byScript⟩) ∧
      solo serve { s with scripts := [] } (bindParamsAndRun hash (.selectData steamId)) =
        ({ s with scripts := [] }, some ⟨true, -1, byKeys⟩) ∧
      byScript.Perm byKeys := by
  have h := kept_of_run run proper
  refine ⟨_, _, solo_script (h.scripts [scriptSha]) (List.mem_singleton_self _),
    solo_keys (h.scripts []) List.not_mem_nil, ?_⟩
  apply List.Perm.filterMap
  refine (s.listing.perm _).trans ?_
  apply (List.perm_ext_iff_of_nodup h.once registered_nodup).mpr
  intro name
  rw [mem_registered]
  exact h.listed name

/-- Two cookies are registered, and a player has a value for one of them. -/
def twoCookies : List Job :=
  [.insertCookie (bytes "music") [] 0, .insertCookie (bytes "colour") (bytes "a colour") 1,
    .insertData (bytes "STEAM_1:0:7") 6 (bytes "red")]

def served (s : Store) (j : Job) : Store :=
  (solo serve { s with scripts := [] } (bindParamsAndRun List.length j)).1

lemma served_step {j : Job} (returns : (solo serve { s with scripts := [] }
    (bindParamsAndRun List.length j)).2.isSome = true) :
    ServeStep List.length s ([], j) (served s j) := by
  obtain ⟨outcome, some⟩ := Option.isSome_iff_exists.mp returns
  exact ⟨outcome, Prod.ext rfl some⟩

/-- A Redis that names what it has in the reverse order. -/
def backwards : Listing := ⟨List.reverse, List.reverse_perm⟩

def withValue : Store := twoCookies.foldl served (.empty [] backwards)

lemma withValue_run : ∃ trace, Run (ServeStep List.length) (.empty [] backwards) trace withValue ∧
    trace.map (fun x => x.2.2) = twoCookies := by
  let s₁ := served (.empty [] backwards) (.insertCookie (bytes "music") [] 0)
  let s₂ := served s₁ (.insertCookie (bytes "colour") (bytes "a colour") 1)
  have first : ServeStep List.length (.empty [] backwards)
      ([], .insertCookie (bytes "music") [] 0) s₁ := served_step (by decide +kernel)
  have second : ServeStep List.length s₁
      ([], .insertCookie (bytes "colour") (bytes "a colour") 1) s₂ :=
    served_step (by decide +kernel)
  have third : ServeStep List.length s₂
      ([], .insertData (bytes "STEAM_1:0:7") 6 (bytes "red")) withValue :=
    served_step (by decide +kernel)
  exact ⟨_, ((Run.one first).snoc second).snoc third, rfl⟩

theorem read_paths_agree_twoCookies :
    withValue.value (valueKey (bytes "STEAM_1:0:7") (toText 6)) = some (bytes "red") ∧
    ∃ byScript byKeys : List (Cookie × Bytes),
    solo serve { withValue with scripts := [scriptSha] }
        (bindParamsAndRun List.length (.selectData (bytes "STEAM_1:0:7"))) =
      ({ withValue with scripts := [scriptSha] }, some ⟨true, -1, byScript⟩) ∧
    solo serve { withValue with scripts := [] }
        (bindParamsAndRun List.length (.selectData (bytes "STEAM_1:0:7"))) =
      ({ withValue with scripts := [] }, some ⟨true, -1, byKeys⟩) ∧
    byScript.Perm byKeys := by
  obtain ⟨trace, run, jobs⟩ := withValue_run
  refine ⟨by decide +kernel, read_paths_agree run (fun x hx => ?_) (bytes "STEAM_1:0:7")⟩
  have job : x.2.2 ∈ twoCookies := jobs ▸ List.mem_map_of_mem hx
  simp only [twoCookies, List.mem_cons, List.not_mem_nil, or_false] at job
  rcases job with h | h | h
  · rw [h]
    exact (rfl : Whole (bytes "music"))
  · rw [h]
    exact (rfl : Whole (bytes "colour"))
  · rw [h]
    exact (by decide : ¬ bytes "cookies." <+: bytes "STEAM_1:0:7")

end ClientPrefs.ReadPaths
