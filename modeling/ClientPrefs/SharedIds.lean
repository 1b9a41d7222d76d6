import ClientPrefs.CookieTable
import ClientPrefs.FreshLoads
import ClientPrefs.ReadPaths
import ClientPrefs.RegisteredIds

/-!
# Ids that cookies share

A player's value is stored under the id of the cookie, so two cookies are kept apart
exactly as far as their ids are.
-/
namespace ClientPrefs.SharedIds
open ByteStrings Conversation Conv Cookies CookieTable FreshLoads QueryThread ReadPaths RedisReply
open RedisStore RegisteredIds RegistryReplies SaveOrder SoloRuns Transition WorkerPool

def valuesOf (name : Bytes) (rows : List (Cookie × Bytes)) : List Bytes :=
  (rows.filter fun row => row.1.name = name).map Prod.snd

/-- The values for the name that a load returns now. -/
def loadedValues (s : Store) (steamId name : Bytes) : Option (List Bytes) :=
  (solo serve s (selectData scriptSha steamId)).2.map fun outcome => valuesOf name outcome.results

def saved (s : Store) (steamId : Bytes) (id : ℤ) (value : Bytes) : Store :=
  (solo serve s (insertData steamId id value)).1

variable {s : Store} {steamId name key value id : Bytes}

@[simp] lemma valuesOf_nil (name : Bytes) : valuesOf name [] = [] := rfl

lemma valuesOf_append (name : Bytes) (rows more : List (Cookie × Bytes)) :
    valuesOf name (rows ++ more) = valuesOf name rows ++ valuesOf name more := by
  simp [valuesOf]

lemma map_valuesOf_cons (name : Bytes) (row : Cookie × Bytes)
    (rows : Option (List (Cookie × Bytes))) : (rows.map (row :: ·)).map (valuesOf name) =
      (rows.map (valuesOf name)).map (valuesOf name [row] ++ ·) := by
  cases rows with
  | none => rfl
  | some rows => exact congrArg some (valuesOf_append name [row] rows)

/-- The write changes no key of the registry, and not the value of the cookie in question. -/
structure Beside (s : Store) (steamId name key : Bytes) : Prop where
  names : NamesWhole s
  outside : NotRegistry key
  cut : ∀ id, s.value (idKey name) = some id → cstr id = id
  apart : ∀ id, s.value (idKey name) = some id → key ≠ valueKey steamId id

section Beside
variable (h : Beside s steamId name key) (value : Bytes) (n : Bytes)
include h

lemma Beside.same_id : (s.write key value).value (idKey n) = s.value (idKey n) := by
  rw [value_write, if_neg (h.outside n).1.symm]

lemma Beside.same_desc : (s.write key value).getReply (descKey n) = s.getReply (descKey n) := by
  simp only [Store.getReply, value_write, if_neg (h.outside n).2.1.symm]

lemma Beside.same_access : (s.write key value).getReply (accessKey n) = s.getReply (accessKey n) := by
  simp only [Store.getReply, value_write, if_neg (h.outside n).2.2.symm]

lemma Beside.same_value (hid : s.value (idKey name) = some id) :
    (s.write key value).getReply (valueKey steamId id) = s.getReply (valueKey steamId id) := by
  simp only [Store.getReply, value_write, if_neg (h.apart id hid).symm]

lemma Beside.row (whole : Whole n) (hid : n = name → s.value (idKey n) = some id) (desc : Bytes)
    (access : CookieAccess) :
    valuesOf name [(Cookie.new n desc access,
        readValue (reply ((s.write key value).getReply (valueKey steamId id))))] =
      valuesOf name [(Cookie.new n desc access,
        readValue (reply (s.getReply (valueKey steamId id))))] := by
  by_cases hn : n = name
  · subst hn
    rw [h.same_value value (hid rfl)]
  · simp [valuesOf, new_name whole, hn]

end Beside

lemma script_beside (h : Beside s steamId name key) (value : Bytes) (cs : List Bytes) :
    (readRows ((cs.filterMap (scriptRow (s.write key value) steamId)).map reply)).map
        (valuesOf name) =
      (readRows ((cs.filterMap (scriptRow s steamId)).map reply)).map (valuesOf name) := by
  induction cs with
  | nil => rfl
  | cons c cs ih =>
    cases hid : s.value (idKey c) with
    | none =>
      have hafter : scriptRow (s.write key value) steamId c = none := by
        simp [scriptRow, h.same_id value c, hid]
      have hbefore : scriptRow s steamId c = none := by simp [scriptRow, hid]
      rw [List.filterMap_cons_none hafter, List.filterMap_cons_none hbefore]
      exact ih
    | some id =>
      have whole : Whole c := h.names c (Option.isSome_iff_exists.mpr ⟨id, hid⟩)
      have hcut : cstr c = c := whole.cut
      have hafter : scriptRow (s.write key value) steamId c = some (.arrays [.string c,
          s.getReply (descKey c), s.getReply (accessKey c),
          (s.write key value).getReply (valueKey steamId id)]) := by
        simp [scriptRow, h.same_id value c, hid, h.same_desc value c, h.same_access value c]
      have hbefore : scriptRow s steamId c = some (.arrays [.string c, s.getReply (descKey c),
          s.getReply (accessKey c), s.getReply (valueKey steamId id)]) := by
        simp [scriptRow, hid]
      rw [List.filterMap_cons_some hafter, List.filterMap_cons_some hbefore, List.map_cons,
        List.map_cons]
      simp only [reply, replies, readRows, hcut]
      split
      · next n d hname hdesc =>
        obtain rfl := Reply.string.inj hname
        rw [map_valuesOf_cons, map_valuesOf_cons, ih, h.row value c whole fun _ => hid]
      · rfl

lemma keysLoop_beside (h : Beside s steamId name key) (value : Bytes) {names : List Bytes}
    (ids : ∀ n ∈ names, (s.value (idKey n)).isSome = true) {before after : List (Cookie × Bytes)}
    (same : valuesOf name after = valuesOf name before) :
    (solo serve (s.write key value)
        (keysLoop steamId (names.map fun n => .string (idKey n)) after)).2.map
        (fun outcome => valuesOf name outcome.results) =
      (solo serve s (keysLoop steamId (names.map fun n => .string (idKey n)) before)).2.map
        fun outcome => valuesOf name outcome.results := by
  induction names generalizing before after with
  | nil => simp [keysLoop, returned, solo, same]
  | cons n names ih =>
    obtain ⟨id, hid⟩ := Option.isSome_iff_exists.mp (ids n (List.mem_cons_self ..))
    have hlong : ¬ (idKey n).length < 11 := by simp [idKey, bytes]
    have hname : (idKey n).drop 11 = n := rfl
    have hbefore : (serve s (.get (idKey n))).2 = .string (cstr id) := by
      simp [exec, Store.getReply, hid, reply]
    have hafter : (serve (s.write key value) (.get (idKey n))).2 = .string (cstr id) := by
      simp [exec, Store.getReply, h.same_id value n, hid, reply]
    rw [List.map_cons]
    unfold keysLoop
    simp only [if_neg hlong]
    rw [solo_command_bind, solo_command_bind, hbefore, hafter]
    simp only [solo, serveAll, serve_fst, serve_snd, exec, hname, h.same_desc value n,
      h.same_access value n]
    cases hdesc : s.value (descKey n) with
    | none => simp [Store.getReply, hdesc, reply, solo]
    | some desc =>
      have hreply : reply (s.getReply (descKey n)) = .string (cstr desc) := reply_getReply hdesc
      simp only [hreply]
      refine ih (fun m hm => ids m (List.mem_cons_of_mem _ hm)) ?_
      have whole : Whole n := h.names n (Option.isSome_iff_exists.mpr ⟨id, hid⟩)
      have hcut : n = name → s.value (idKey n) = some (cstr id) := by
        rintro rfl
        rw [h.cut id hid, hid]
      rw [valuesOf_append, valuesOf_append, same, h.row value n whole hcut]

lemma registered_beside (h : Beside s steamId name key) (value : Bytes) :
    registered (s.write key value) = registered s := by
  have hnot : ¬ bytes "cookies.id." <+: key := by
    rintro ⟨n, hn⟩
    exact (h.outside n).1 hn.symm
  have hkeys := AList.keys_insert s.strings (a := key) (b := value)
  -- The keys of a store are erased with the equality of `DecidableEq`.
  rw [@List.Nodup.erase_eq_filter Bytes instBEqOfDecidableEq inferInstance _
    s.strings.keys_nodup key] at hkeys
  have same : (s.write key value).matching (bytes "cookies.id.") =
      s.matching (bytes "cookies.id.") := by
    simp only [Store.matching, Store.write, hkeys]
    rw [List.filter_cons_of_neg (by simpa using hnot), List.filter_filter]
    congr 1
    apply List.filter_congr
    intro k _
    by_cases hk : k = key
    · simp [hk, hnot]
    · simp [hk]
  rw [registered, registered, same]

lemma loadedValues_script (loaded : scriptSha ∈ s.scripts) (steamId name : Bytes) :
    loadedValues s steamId name =
      (readRows (((s.members cookiesList).filterMap (scriptRow s steamId)).map reply)).map
        (valuesOf name) := by
  unfold loadedValues selectData
  rw [solo_command_bind, serve_evalsha loaded]
  dsimp only
  cases readRows (((s.members cookiesList).filterMap (scriptRow s steamId)).map reply) <;> rfl

/-- What a load returns for the cookie is the same before and after the write. -/
theorem loadedValues_beside (h : Beside s steamId name key) (value : Bytes) :
    loadedValues (s.write key value) steamId name = loadedValues s steamId name := by
  by_cases hscript : scriptSha ∈ s.scripts
  · have hsame : scriptSha ∈ (s.write key value).scripts := hscript
    rw [loadedValues_script hsame, loadedValues_script hscript]
    exact script_beside h value (s.members cookiesList)
  · have names : NamesWhole (s.write key value) := by
      intro n hsome
      rw [h.same_id value n] at hsome
      exact h.names n hsome
    unfold loadedValues
    rw [solo_selectData_keys names hscript, solo_selectData_keys h.names hscript,
      registered_beside h value]
    exact keysLoop_beside h value (fun n => mem_registered.mp) rfl

section Runs
variable {ι : Type} [DecidableEq ι] {hash : Bytes → ℕ} {n m : Bytes} {z w : ℤ} {store : Store}
  {p q : Workers ι} {l : Label ι Job} {trace : List (Workers ι × Label ι Job)}

/-- Names stay whole, and the name keeps its id. -/
structure KeepsRegistry (hash : Bytes → ℕ) (name : Bytes) (z : ℤ) (p : Workers ι) : Prop where
  jobs : ∀ j ∈ p.issued, FromMain j
  names : NamesWhole p.store
  whole : p.Inv (fun _ _ _ => True) StoresWhole fun _ _ _ => True
  one : OneText (fun text => text = toText z) hash name z p

theorem KeepsRegistry.step (h : KeepsRegistry hash n z p) (hlo : -2 ^ 31 ≤ z) (hhi : z < 2 ^ 31)
    (fromMain : EnqueuesFromMain l) (hl : WorkerStep hash p l q) : KeepsRegistry hash n z q where
  jobs := by
    refine issued_step hl ?_ h.jobs
    rintro j rfl
    exact fromMain
  names := h.whole.store hl h.names fun _ _ hs hc => NamesWhole.exec hs hc
  whole := by
    apply h.whole.step hl
    · exact fun _ j _ hj => bindParamsAndRun_whole (h.jobs j (List.mem_of_getElem? hj))
    · exact fun _ _ _ _ _ _ _ _ _ _ => trivial
  one := by
    refine h.one.step (texts_toText hlo hhi) (fun j hj => ?_) hl
    have hmain := h.jobs j hj
    cases j with
    | insertData sid id value => exact (hmain n).1
    | _ => trivial

theorem registry_of_run (names : NamesWhole store) (settled : Settled hash n z store)
    (hlo : -2 ^ 31 ≤ z) (hhi : z < 2 ^ 31)
    (run : Run (WorkerStep hash) (Pool.initial store) trace q)
    (fromMain : ∀ x ∈ trace, EnqueuesFromMain x.2) : KeepsRegistry hash n z q := by
  have first : KeepsRegistry hash n z (Pool.initial store : Workers ι) :=
    ⟨by simp [Pool.initial], names, Pool.Inv.initial store,
      OneText.initial (settledText_iff.mpr settled)⟩
  have preserved : ∀ (a : Workers ι) (l : Label ι Job) (b : Workers ι), KeepsRegistry hash n z a →
      EnqueuesFromMain l → WorkerStep hash a l b → KeepsRegistry hash n z b :=
    fun _ _ _ h hmain hl => h.step hlo hhi hmain hl
  exact run.invariant first preserved fromMain

omit [DecidableEq ι] in
lemma KeepsRegistry.stored_id (h : KeepsRegistry hash n z q)
    (registered : (q.store.value (idKey n)).isSome = true) :
    q.store.value (idKey n) = some (toText z) := by
  rcases settledText_iff.mp h.one.settled with hid | ⟨hnone, _⟩
  · exact hid
  · rw [hnone] at registered
    cases registered

/-- In every run two registered names have the ids that Redis had for them, or else their hashes;
and if these differ, a save for one cookie changes nothing that a load returns for the other. -/
theorem values_apart (names : NamesWhole store) (settledN : Settled hash n z store)
    (settledM : Settled hash m w store) (hz : -2 ^ 31 ≤ z ∧ z < 2 ^ 31)
    (hw : -2 ^ 31 ≤ w ∧ w < 2 ^ 31) (run : Run (WorkerStep hash) (Pool.initial store) trace q)
    (fromMain : ∀ x ∈ trace, EnqueuesFromMain x.2)
    (registeredN : (q.store.value (idKey n)).isSome = true)
    (registeredM : (q.store.value (idKey m)).isSome = true) (different : z ≠ w)
    {steamId : Bytes} (player : ¬ bytes "cookies." <+: steamId) :
    q.store.value (idKey n) = some (toText z) ∧ q.store.value (idKey m) = some (toText w) ∧
      ∀ steamId' value, loadedValues (saved q.store steamId z value) steamId' m =
        loadedValues q.store steamId' m := by
  have hn := registry_of_run names settledN hz.1 hz.2 run fromMain
  have hm := registry_of_run names settledM hw.1 hw.2 run fromMain
  have hidM := hm.stored_id registeredM
  refine ⟨hn.stored_id registeredN, hidM, fun steamId' value => ?_⟩
  have beside : Beside q.store steamId' m (valueKey steamId (toText z)) := by
    refine ⟨hn.names, notRegistry_valueKey player z, fun id hid => ?_, fun id hid heq => ?_⟩
    · obtain rfl := Option.some.inj (hidM.symm.trans hid)
      exact cstr_toText w
    · obtain rfl := Option.some.inj (hidM.symm.trans hid)
      exact different (valueKey_injective heq).2
  exact loadedValues_beside beside value

end Runs

/-- One worker registers the two names, one after the other. -/
def registerBoth (m n : Bytes) : List (Label Unit Job) :=
  [.enqueue (.insertCookie m [] 0), .enqueue (.insertCookie n [] 0)] ++
    (List.replicate 2 [.take (), .send (), .exec (), .resume (), .send (), .exec (), .exec (),
      .exec (), .exec (), .finish ()]).flatten

lemma registerBoth_fromMain {m n : Bytes} (wholeM : Whole m) (wholeN : Whole n) :
    ∀ l ∈ registerBoth m n, EnqueuesFromMain l := by
  intro l hl
  cases l with
  | enqueue j =>
    have hj : j = .insertCookie m [] 0 ∨ j = .insertCookie n [] 0 := by
      simpa [registerBoth] using hl
    rcases hj with rfl | rfl
    · exact wholeM
    · exact wholeN
  | _ => trivial

lemma apart_isSome : (follow (bindParamsAndRun List.length) serve
    (Pool.initial blank : Workers Unit)
    (registerBoth (bytes "music") (bytes "jump"))).isSome = true := by decide +kernel

def afterApart : Workers Unit := Option.get _ apart_isSome

theorem values_apart_music :
    afterApart.store.value (idKey (bytes "music")) = some (toText 5) ∧
      afterApart.store.value (idKey (bytes "jump")) = some (toText 4) ∧
      ∀ steamId value,
        loadedValues (saved afterApart.store (bytes "STEAM_1:0:7") 5 value) steamId
          (bytes "jump") = loadedValues afterApart.store steamId (bytes "jump") := by
  have run := follow_run (Option.some_get apart_isSome).symm
  have fromMain := registerBoth_fromMain (m := bytes "music") (n := bytes "jump") rfl rfl
  have settledMusic : Settled List.length (bytes "music") 5 blank := .inr ⟨rfl, by decide⟩
  have settledJump : Settled List.length (bytes "jump") 4 blank := .inr ⟨rfl, by decide⟩
  have names : NamesWhole blank := fun _ hsome => nomatch hsome
  have music : (afterApart.store.value (idKey (bytes "music"))).isSome = true := by
    decide +kernel
  have jump : (afterApart.store.value (idKey (bytes "jump"))).isSome = true := by decide +kernel
  exact values_apart names settledMusic settledJump (by decide) (by decide) run
    (fun x hx => fromMain x.2 (trail_labels x hx)) music jump (by decide) (by decide)

lemma together_isSome : (follow (bindParamsAndRun List.length) serve
    (Pool.initial blank : Workers Unit)
    (registerBoth (bytes "music") (bytes "sound"))).isSome = true := by decide +kernel

def afterTogether : Workers Unit := Option.get _ together_isSome

/-- Both names have five letters; what the player saves for one is loaded for the other. -/
theorem value_shared : ¬ ∀ (hash : Bytes → ℕ) (q : Workers Unit)
    (trace : List (Workers Unit × Label Unit Job)) (m n steamId value : Bytes) (z : ℤ),
    Run (WorkerStep hash) (Pool.initial blank) trace q →
    (∀ x ∈ trace, EnqueuesFromMain x.2) → m ≠ n →
    q.store.value (idKey m) = some (toText z) → (q.store.value (idKey n)).isSome = true →
    loadedValues (saved q.store steamId z value) steamId n = loadedValues q.store steamId n := by
  intro h
  have run := follow_run (Option.some_get together_isSome).symm
  have fromMain := registerBoth_fromMain (m := bytes "music") (n := bytes "sound") rfl rfl
  have hid : afterTogether.store.value (idKey (bytes "music")) = some (toText 5) := by
    decide +kernel
  have hother : (afterTogether.store.value (idKey (bytes "sound"))).isSome = true := by
    decide +kernel
  have hsame := h List.length afterTogether _ _ _ (bytes "STEAM_1:0:7") (bytes "on") 5 run
    (fun x hx => fromMain x.2 (trail_labels x hx)) (by decide) hid hother
  have hshared : loadedValues (saved afterTogether.store (bytes "STEAM_1:0:7") 5 (bytes "on"))
      (bytes "STEAM_1:0:7") (bytes "sound") ≠
      loadedValues afterTogether.store (bytes "STEAM_1:0:7") (bytes "sound") := by decide +kernel
  exact hshared hsame

lemma length_natText {n d : ℕ} (h : n < 10 ^ d) (pos : 0 < d) : (natText n).length ≤ d := by
  unfold natText
  split_ifs
  · exact pos
  · simpa using (Nat.digits_length_le_iff (by norm_num) n).mpr h

lemma whole_toText {n : ℕ} (h : n < 10 ^ 10) : Whole (toText n) := by
  have hlen : (toText n).length ≤ 10 := by
    rw [toText, if_neg (by omega), Int.natAbs_natCast]
    exact length_natText h (by norm_num)
  have hfits : Fits (toText n) := by
    rw [Fits, cstr_toText]
    exact Nat.lt_of_le_of_lt hlen (by decide)
  rw [← cstr_toText]
  exact whole_of_fits hfits

/-- No hash keeps all names apart: there are more names than ids of 31 bits. -/
theorem hash_collides (hash : Bytes → ℕ) : ∃ m n, Whole m ∧ Whole n ∧ m ≠ n ∧
    cookieHash hash m = cookieHash hash n := by
  have hcard : (Finset.range (2 ^ 31)).card < (Finset.range (2 ^ 31 + 1)).card := by
    simp only [Finset.card_range]
    exact Nat.lt_succ_self _
  have hmaps : ∀ k ∈ Finset.range (2 ^ 31 + 1),
      hash (toText k) % 2 ^ 31 ∈ Finset.range (2 ^ 31) := fun k _ =>
    Finset.mem_range.mpr (Nat.mod_lt _ (by norm_num))
  obtain ⟨i, hi, j, hj, hne, heq⟩ := Finset.exists_ne_map_eq_of_card_lt_of_maps_to hcard hmaps
  rw [Finset.mem_range] at hi hj
  refine ⟨toText i, toText j, whole_toText (by omega), whole_toText (by omega), ?_, ?_⟩
  · intro h
    exact hne (Int.ofNat_inj.mp (toText_injective h))
  · exact congrArg Nat.cast heq

end ClientPrefs.SharedIds
