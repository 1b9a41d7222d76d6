import ClientPrefs.QueryThread

/-!
# Replies about the registry

What the script and `KEYS cookies.id.*` answer about the registered cookies.
-/
namespace ClientPrefs.RegistryReplies
open ByteStrings Cookies QueryThread RedisReply RedisStore

def NamesWhole (s : Store) : Prop := ∀ name, (s.value (idKey name)).isSome = true → Whole name

variable {s : Store} {sha steamId name id value : Bytes} {rows items : List Reply}

lemma cstr_idKey (h : cstr name = name) : cstr (idKey name) = idKey name := by
  have hbegins : (bytes "cookies.id.").all (· ≠ 0) = true := rfl
  apply cstr_append_zero_free
  intro x hx
  rcases List.mem_append.mp hx with hx | hx
  · simpa using List.all_eq_true.mp hbegins x hx
  · exact zero_free_cstr name x (h.symm ▸ hx)

lemma NamesWhole.cut (names : NamesWhole s) (h : s.value (idKey name) = some id) :
    cstr name = name := (names name (Option.isSome_iff_exists.mpr ⟨id, h⟩)).cut

lemma reply_getReply (h : s.value name = some value) :
    reply (s.getReply name) = .string (cstr value) := by
  simp [Store.getReply, h, reply]

lemma serve_evalsha (h : sha ∈ s.scripts) : (serve s (.evalsha sha steamId)).2 =
    .arrays (((s.members cookiesList).filterMap (scriptRow s steamId)).map reply) := by
  simp only [serve_snd, exec, if_pos h, reply, replies_eq_map, scriptLoop_rows]

theorem serve_evalsha_cases (s : Store) (sha steamId : Bytes) :
    (∃ rows, (serve s (.evalsha sha steamId)).2 = .arrays rows) ∨
      ∃ text, (serve s (.evalsha sha steamId)).2 = .error text := by
  by_cases h : sha ∈ s.scripts
  · exact .inl ⟨_, serve_evalsha h⟩
  · exact .inr ⟨_, by simp only [serve_snd, exec, if_neg h, reply]; rfl⟩

lemma rows_of_serve (h : (serve s (.evalsha sha steamId)).2 = .arrays rows) :
    rows = ((s.members cookiesList).filterMap (scriptRow s steamId)).map reply := by
  by_cases hsha : sha ∈ s.scripts
  · rw [serve_evalsha hsha, Reply.arrays.injEq] at h
    exact h.symm
  · simp [exec, hsha, reply] at h

lemma script_formed (h : (serve s (.evalsha sha steamId)).2 = .arrays rows) :
    ∀ r ∈ rows, ∃ a b c d, r = .arrays [a, b, c, d] := by
  intro r hr
  rw [rows_of_serve h] at hr
  obtain ⟨raw, hraw, rfl⟩ := List.mem_map.mp hr
  obtain ⟨m, _, hm⟩ := List.mem_filterMap.mp hraw
  obtain ⟨d, _, rfl⟩ := Option.map_eq_some_iff.mp hm
  exact ⟨_, _, _, _, rfl⟩

lemma script_row {n d : Bytes} {access v : Reply} (names : NamesWhole s)
    (h : (serve s (.evalsha sha steamId)).2 = .arrays rows)
    (hrow : .arrays [.string n, .string d, access, v] ∈ rows) :
    ∃ id, s.value (idKey n) = some id ∧ v = reply (s.getReply (valueKey steamId id)) := by
  rw [rows_of_serve h] at hrow
  obtain ⟨raw, hraw, heq⟩ := List.mem_map.mp hrow
  obtain ⟨m, _, hm⟩ := List.mem_filterMap.mp hraw
  obtain ⟨id, hid, rfl⟩ := Option.map_eq_some_iff.mp hm
  simp only [reply, replies_eq_map, List.map_cons, List.map_nil, Reply.arrays.injEq,
    List.cons.injEq, Reply.string.injEq, and_true] at heq
  obtain ⟨hn, _, _, hv⟩ := heq
  rw [names.cut hid] at hn
  exact ⟨id, hn ▸ hid, hv.symm⟩

lemma script_has (h : (serve s (.evalsha sha steamId)).2 = .arrays rows)
    (listed : name ∈ s.sets cookiesList) (hid : s.value (idKey name) = some id) :
    ∃ desc access, .arrays [.string (cstr name), desc, access,
      reply (s.getReply (valueKey steamId id))] ∈ rows := by
  have hrow : scriptRow s steamId name = some (.arrays [.string name, s.getReply (descKey name),
      s.getReply (accessKey name), s.getReply (valueKey steamId id)]) := by simp [scriptRow, hid]
  have hmem := List.mem_map_of_mem (f := reply) 
    (List.mem_filterMap.mpr ⟨name, Store.mem_members.mpr listed, hrow⟩)
  rw [← rows_of_serve h] at hmem
  exact ⟨_, _, by simpa only [reply, replies] using hmem⟩

lemma serve_keys (s : Store) (stem : Bytes) :
    ∃ items, (serve s (.keys stem)).2 = .arrays items := by
  simp [exec, reply]

lemma items_of_serve (h : (serve s (.keys (bytes "cookies.id."))).2 = .arrays items) :
    items = (s.matching (bytes "cookies.id.")).map fun k => .string (cstr k) := by
  simp only [serve_snd, exec, reply, replies_eq_map, List.map_map, Reply.arrays.injEq] at h
  exact h.symm

lemma keys_row {key : Bytes} (names : NamesWhole s)
    (h : (serve s (.keys (bytes "cookies.id."))).2 = .arrays items)
    (hkey : .string key ∈ items) :
    ∃ id, s.value (idKey (key.drop 11)) = some id ∧ key = idKey (key.drop 11) := by
  rw [items_of_serve h] at hkey
  obtain ⟨k, hk, heq⟩ := List.mem_map.mp hkey
  obtain ⟨⟨name, rfl⟩, there⟩ := Store.mem_matching.mp hk
  obtain ⟨id, hid⟩ := Option.isSome_iff_exists.mp there
  have hcut : cstr (idKey name) = idKey name := cstr_idKey (names.cut hid)
  obtain rfl : idKey name = key := by
    have hstring : Reply.string (cstr (idKey name)) = .string key := heq
    rwa [hcut, Reply.string.injEq] at hstring
  exact ⟨id, hid, rfl⟩

lemma keys_has (names : NamesWhole s)
    (h : (serve s (.keys (bytes "cookies.id."))).2 = .arrays items)
    (hid : s.value (idKey name) = some id) : .string (idKey name) ∈ items := by
  have hmem : idKey name ∈ s.matching (bytes "cookies.id.") :=
    Store.mem_matching.mpr ⟨List.prefix_append _ _, Option.isSome_iff_exists.mpr ⟨id, hid⟩⟩
  rw [items_of_serve h]
  refine List.mem_map.mpr ⟨idKey name, hmem, ?_⟩
  rw [cstr_idKey (names.cut hid)]

def musicStore : Store :=
  ((((⟨∅, fun _ => [bytes "music"], [scriptSha], .asStored⟩ : Store).write
    (valueKey (bytes "STEAM_1:0:7") (bytes "5")) (bytes "on")).write
    (descKey (bytes "music")) []).write (accessKey (bytes "music")) (bytes "0")).write
    (idKey (bytes "music")) (bytes "5")

lemma musicStore_id {name id : Bytes} (h : musicStore.value (idKey name) = some id) :
    name = bytes "music" ∧ id = bytes "5" := by
  have hkey : idKey name ≠ valueKey (bytes "STEAM_1:0:7") (bytes "5") := by
    intro heq
    have hhead : (some 99 : Option UInt8) = some 83 := congrArg List.head? heq
    revert hhead
    decide
  simp only [musicStore, value_write, if_neg hkey, if_neg (idKey_ne_accessKey name _),
    if_neg (idKey_ne_descKey name _)] at h
  split_ifs at h with hname
  · exact ⟨idKey_injective hname, (Option.some.inj h).symm⟩
  · cases h

lemma musicStore_names : NamesWhole musicStore := by
  intro name hsome
  obtain ⟨id, hid⟩ := Option.isSome_iff_exists.mp hsome
  rw [(musicStore_id hid).1]
  rfl

end ClientPrefs.RegistryReplies
