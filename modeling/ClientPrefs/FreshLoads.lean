import ClientPrefs.PoolReads
import ClientPrefs.RegistryReplies
import ClientPrefs.SaveOrder

/-!
# Loads after saves

A `SelectData` query returns the values that the last `InsertData` queries before it
saved, when the workers take the queries of a player in turn.
-/
namespace ClientPrefs.FreshLoads
open ByteStrings Conversation Conv Cookies PoolOrder PoolReads QueryThread RedisReply RedisStore
open RegistryReplies SaveOrder Transition WorkerPool

/-- The value that a query saves for the player and the cookie id. -/
def savedFor (steamId : Bytes) (id : ℤ) : Job → Option Bytes
  | .insertData s i value => if s = steamId ∧ i = id then some value else none
  | _ => none

/-- The value saved last for them by the queries before the ticket. -/
def lastSaved (steamId : Bytes) (id : ℤ) (jobs : List Job) (t : ℕ) : Option Bytes :=
  ((jobs.take t).filterMap (savedFor steamId id)).getLast?

def Loads (steamId : Bytes) (x : Worker Job Command Reply Outcome) : Prop :=
  ∃ t, Phase.job? x.phase = some (t, .selectData steamId)

/-- A save is taken only while no other worker owes a `SET` of its key or loads the player's
values, and a load of the player only while no other worker owes such a `SET`. -/
def TurnsKept {ι : Type} (steamId : Bytes) (id : ℤ) (p : Workers ι) : Label ι Job → Prop
  | .take w => ∀ j, p.issued[p.taken]? = some j →
    ((savedFor steamId id j).isSome = true → ∀ v, v ≠ w →
      ¬ Owes (valueKey steamId (toText id)) (p.workers v) ∧ ¬ Loads steamId (p.workers v)) ∧
    (j = .selectData steamId → ∀ v, v ≠ w →
      ¬ Owes (valueKey steamId (toText id)) (p.workers v))
  | _ => True

/-- When a command of a load of the player is executed and a value was saved before, the cookie
is registered: it has the id, and it is listed. -/
def RegisteredWhenRead {ι : Type} (steamId : Bytes) (id : ℤ) (name : Bytes) (p : Workers ι) :
    Label ι Job → Prop
  | .exec w => ∀ t cmds got next c rest,
    p.workers w = ⟨.waiting t (.selectData steamId) cmds got next, (c, true) :: rest⟩ →
    (lastSaved steamId id p.issued t).isSome = true →
    p.store.value (idKey name) = some (toText id) ∧ name ∈ p.store.sets cookiesList
  | _ => True

/-- Queries as the main thread makes them: a cookie's name is one that it keeps whole, and no
steam id makes the key of a value one of the registry's. -/
def FromMain : Job → Prop
  | .insertCookie name _ _ => Whole name
  | .insertData steamId id _ => NotRegistry (valueKey steamId (toText id))
  | _ => True

def EnqueuesFromMain {ι : Type} : Label ι Job → Prop
  | .enqueue j => FromMain j
  | _ => True

section Load
variable {steamId sha name v : Bytes} {z : ℤ} {s : Store}

/-- The store has the cookie with this id, and the player's value for it. -/
structure Shows (steamId name : Bytes) (z : ℤ) (v : Bytes) (s : Store) : Prop where
  names : NamesWhole s
  id : s.value (idKey name) = some (toText z)
  listed : name ∈ s.sets cookiesList
  value : s.value (valueKey steamId (toText z)) = some v

def ShowingReply (steamId name : Bytes) (z : ℤ) (v : Bytes) (c : Command) (r : Option Reply) :
    Prop := ∃ s, Shows steamId name z v s ∧ r = some (serve s c).2

def Loaded (name v : Bytes) (outcome : Outcome) : Prop :=
  (∃ row ∈ outcome.results, row.1.name = name) ∧
    ∀ row ∈ outcome.results, row.1.name = name → row.2 = cstr v

lemma Shows.whole (h : Shows steamId name z v s) : Whole name :=
  h.names name (Option.isSome_iff_exists.mpr ⟨_, h.id⟩)

lemma Shows.readValue (h : Shows steamId name z v s) :
    readValue (reply (s.getReply (valueKey steamId (toText z)))) = cstr v := by
  rw [reply_getReply h.value, QueryThread.readValue, cstr_cstr]

lemma ShowingReply.id {r : Option Reply}
    (h : ShowingReply steamId name z v (.get (idKey name)) r) : r = some (.string (toText z)) := by
  obtain ⟨s, shows, rfl⟩ := h
  simp [exec, reply_getReply shows.id, cstr_toText]

lemma selectData_values {C : Command → Prop} (hsha : C (.evalsha sha steamId))
    (hkeys : C (.keys (bytes "cookies.id."))) (gets : ∀ key, C (.get key)) :
    (selectData sha steamId).Keeps (ShowingReply steamId name z v) C
      fun out => ∀ row ∈ out.results, row.1.name = name → row.2 = cstr v := by
  apply selectData_each hsha hkeys gets
  · intro rows n desc access value hreply hrow hname
    obtain ⟨s, shows, heq⟩ := hreply
    obtain ⟨id, hid, rfl⟩ := script_row shows.names (Option.some.inj heq).symm hrow
    have whole : Whole n := shows.names n (Option.isSome_iff_exists.mpr ⟨id, hid⟩)
    obtain rfl : n = name := (new_name whole desc _).symm.trans hname
    obtain rfl : toText z = id := by simpa [hid] using shows.id.symm
    exact shows.readValue
  · intro items key id value desc access hkeysReply hkey hidReply hvalueReply hname
    obtain ⟨s, shows, heq⟩ := hkeysReply
    obtain ⟨id', hid', hkeyname⟩ := keys_row shows.names (Option.some.inj heq).symm hkey
    have whole : Whole (key.drop 11) :=
      shows.names _ (Option.isSome_iff_exists.mpr ⟨id', hid'⟩)
    rw [(new_name whole desc access).symm.trans hname] at hkeyname
    subst hkeyname
    obtain rfl : id = toText z := by simpa using hidReply.id
    obtain ⟨s', shows', heq'⟩ := hvalueReply
    obtain rfl : value = reply (s'.getReply (valueKey steamId (toText z))) := Option.some.inj heq'
    exact shows'.readValue

lemma selectData_row {C : Command → Prop} (hsha : C (.evalsha sha steamId))
    (hkeys : C (.keys (bytes "cookies.id."))) (gets : ∀ key, C (.get key)) :
    (selectData sha steamId).Keeps (ShowingReply steamId name z v) C
      fun out => ∃ row ∈ out.results, row.1.name = name := by
  apply Keeps.command_bind hsha
  intro r hr
  obtain ⟨s, shows, rfl⟩ := hr
  rcases serve_evalsha_cases s sha steamId with ⟨rows, hrows⟩ | ⟨text, herror⟩
  · simp only [hrows]
    split
    · next results hresults =>
      obtain ⟨desc, access, hmem⟩ := script_has hrows shows.listed shows.id
      obtain ⟨before, after, rfl⟩ := List.append_of_mem hmem
      have formed : ∀ r ∈ before, ∃ a b c d, r = .arrays [a, b, c, d] := fun r hr =>
        script_formed hrows r (List.mem_append_left _ hr)
      obtain ⟨n, d, hn, _, hrow⟩ := readRows_some formed hresults
      rw [shows.whole.cut] at hn
      obtain rfl : name = n := by simpa using hn
      exact ⟨_, hrow, new_name shows.whole d _⟩
    · trivial
  · -- Without the script, `KEYS` lists the cookie.
    simp only [herror, Option.map_some, Reply.ok, Option.getD_some, Bool.false_eq_true, if_false]
    apply Keeps.command_bind hkeys
    intro keys hk
    obtain ⟨s', shows', rfl⟩ := hk
    obtain ⟨items, hitems⟩ := serve_keys s' (bytes "cookies.id.")
    simp only [hitems]
    exact keysLoop_some gets (.inl (keys_has shows'.names hitems shows'.id))
      (fun r hr => hr.id) fun _ desc access _ => new_name shows'.whole desc access

lemma selectData_loaded {C : Command → Prop} (hsha : C (.evalsha sha steamId))
    (hkeys : C (.keys (bytes "cookies.id."))) (gets : ∀ key, C (.get key)) :
    (selectData sha steamId).Keeps (ShowingReply steamId name z v) C (Loaded name v) :=
  (selectData_row hsha hkeys gets).and (selectData_values hsha hkeys gets)

end Load

section Runs
variable {steamId name v : Bytes} {z : ℤ} {hash : Bytes → ℕ} {store : Store} {J : List Job}

/-- The id of a cookie is stored only for a name that is kept whole. -/
def StoresWhole (c : Command) : Prop :=
  ∀ name, (storesAt (idKey name) c).isSome = true → Whole name

def Answers (steamId name : Bytes) (z : ℤ) (J : List Job) (t : ℕ) (c : Command)
    (r : Option Reply) : Prop :=
  ∀ v, J[t]? = some (.selectData steamId) → lastSaved steamId z J t = some v →
    ShowingReply steamId name z v c r

/-- A load that a save precedes has the value saved last. -/
def Fresh (steamId name : Bytes) (z : ℤ) (J : List Job) (t : ℕ) (j : Job) (outcome : Outcome) :
    Prop :=
  j = .selectData steamId → ∀ v, lastSaved steamId z J t = some v → Loaded name v outcome

lemma savedAt_eq (steamId : Bytes) (z : ℤ) :
    savedAt (valueKey steamId (toText z)) = savedFor steamId z := by
  funext j
  cases j with
  | insertData s i value =>
    simp only [savedAt, savedFor]
    by_cases hkey : s = steamId ∧ i = z
    · rw [if_pos hkey, hkey.1, hkey.2, if_pos rfl]
    · rw [if_neg hkey, if_neg fun h => hkey (valueKey_injective h)]
  | _ => rfl

lemma lastSaved_extended {jobs : List Job} (h : jobs <+: J) {t : ℕ} (ht : t ≤ jobs.length) :
    lastSaved steamId z jobs t = lastSaved steamId z J t := by
  obtain ⟨more, rfl⟩ := h
  rw [lastSaved, lastSaved, List.take_append_of_le_length ht]

lemma storesWhole_of_none {c : Command} (h : ∀ name, storesAt (idKey name) c = none) :
    StoresWhole c := by
  intro name hsome
  rw [h] at hsome
  cases hsome

lemma NamesWhole.exec {s : Store} (h : NamesWhole s) {c : Command} (hc : StoresWhole c) :
    NamesWhole (RedisStore.exec s c).1 := by
  intro name hsome
  have hlook : (RedisStore.exec s c).1.value (idKey name) =
      (storesAt (idKey name) c).or (s.value (idKey name)) := (keyCell (idKey name)).look_exec s c
  cases hv : storesAt (idKey name) c with
  | none =>
    rw [hlook, hv, Option.none_or] at hsome
    exact h name hsome
  | some value => exact hc name (by rw [hv]; rfl)

lemma bindParamsAndRun_whole {j : Job} (h : FromMain j) :
    (bindParamsAndRun hash j).Keeps (fun _ _ => True) StoresWhole fun _ => True := by
  have hget : ∀ key, StoresWhole (.get key) := fun _ => storesWhole_of_none fun _ => rfl
  cases j with
  | insertCookie n description access =>
    have hsadd : StoresWhole (.sadd cookiesList n) := storesWhole_of_none fun _ => rfl
    have haccess : StoresWhole (.set (accessKey n) (toText access)) :=
      storesWhole_of_none fun m => by simp [storesAt, (idKey_ne_accessKey m n).symm]
    have hdesc : StoresWhole (.set (descKey n) description) :=
      storesWhole_of_none fun m => by simp [storesAt, (idKey_ne_descKey m n).symm]
    have hset : StoresWhole (.set (idKey n) (toText (cookieHash hash n))) := by
      intro m hsome
      simp only [storesAt] at hsome
      split_ifs at hsome with heq
      · exact idKey_injective heq ▸ h
      · cases hsome
    apply Keeps.command_bind (hget _)
    intro r _
    split
    · trivial
    · refine ⟨by simpa using hsadd, ?_⟩
      split <;> trivial
    · refine ⟨?_, trivial⟩
      simp only [List.mem_cons, List.not_mem_nil, or_false, forall_eq_or_imp, forall_eq]
      exact ⟨hsadd, haccess, hdesc, hset⟩
  | selectData sid =>
    exact selectData_asks (storesWhole_of_none fun _ => rfl) (storesWhole_of_none fun _ => rfl) hget
  | insertData sid id value =>
    refine ⟨fun c hc => ?_, trivial⟩
    obtain rfl := List.mem_singleton.mp hc
    apply storesWhole_of_none
    intro m
    simp only [storesAt]
    exact if_neg (h m).1
  | selectId n =>
    apply Keeps.command_bind (hget _)
    intro r _
    split <;> trivial

lemma bindParamsAndRun_fresh {t : ℕ} {j : Job} (h : FromMain j) (hj : J[t]? = some j) :
    (bindParamsAndRun hash j).Keeps (Answers steamId name z J t) StoresWhole
      (Fresh steamId name z J t j) := by
  by_cases hload : j = .selectData steamId ∧ ∃ v, lastSaved steamId z J t = some v
  · obtain ⟨rfl, v, hlast⟩ := hload
    have hloaded : (selectData scriptSha steamId).Keeps (ShowingReply steamId name z v)
        StoresWhole (Loaded name v) := by
      apply selectData_loaded
      · exact storesWhole_of_none fun _ => rfl
      · exact storesWhole_of_none fun _ => rfl
      · exact fun _ => storesWhole_of_none fun _ => rfl
    refine hloaded.mono (fun c r hr => hr v hj hlast) (fun _ hc => hc) fun out hout => ?_
    intro _ v' hlast'
    rw [hlast] at hlast'
    exact Option.some.inj hlast' ▸ hout
  · refine (bindParamsAndRun_whole h).mono (fun _ _ _ => trivial) (fun _ hc => hc) fun out _ => ?_
    exact fun hselect v hlast => absurd ⟨hselect, v, hlast⟩ hload

variable {ι : Type} [DecidableEq ι] {p q : Workers ι} {l : Label ι Job}
  {trace : List (Workers ι × Label ι Job)}

omit [DecidableEq ι] in
lemma turnsKept_savesInTurn (h : TurnsKept steamId z p l) :
    SavesInTurn (valueKey steamId (toText z)) p l := by
  cases l with
  | take w =>
    intro j hj hsaved v hv
    rw [savedAt_eq] at hsaved
    exact ((h j hj).1 hsaved v hv).1
  | _ => trivial

omit [DecidableEq ι] in
lemma turnsKept_inTurn (h : TurnsKept steamId z p l) :
    TakenInTurn (keyCell (valueKey steamId (toText z))) (bindParamsAndRun hash)
      (fun j => j = .selectData steamId) p l := by
  cases l with
  | take w =>
    intro j hj
    refine ⟨fun hpromises v hv => ?_, fun hload v hv => not_not.mp ((h j hj).2 hload v hv)⟩
    rw [promises_eq, savedAt_eq] at hpromises
    have hsaved : (savedFor steamId z j).isSome = true := by
      cases hs : savedFor steamId z j with
      | none => simp [hs] at hpromises
      | some value => rfl
    obtain ⟨howes, hloads⟩ := (h j hj).1 hsaved v hv
    refine ⟨not_not.mp howes, ?_⟩
    rintro ⟨t, _, hjob, rfl⟩
    exact hloads ⟨t, hjob⟩
  | _ => trivial

structure InOrder (hash : Bytes → ℕ) (steamId name : Bytes) (z : ℤ) (store : Store)
    (J : List Job) (p : Workers ι) : Prop where
  ordered : Ordered (keyCell (valueKey steamId (toText z))) (bindParamsAndRun hash)
    (store.value (valueKey steamId (toText z))) p
  calm : Calm (keyCell (valueKey steamId (toText z))) (bindParamsAndRun hash)
    (fun j => j = .selectData steamId) p
  names : NamesWhole p.store
  inv : p.Inv (Answers steamId name z J) StoresWhole (Fresh steamId name z J)

omit [DecidableEq ι] in
/-- A command of a load finds the value that was saved last before it. -/
theorem InOrder.answers (h : InOrder hash steamId name z store J p) (hbegins : p.issued <+: J)
    {w : ι} {t : ℕ} {j : Job} {cmds : List Command} {got : List (Option Reply)}
    {next : List (Option Reply) → Talk} {c : Command} {rest : List (Command × Bool)}
    (head : p.workers w = ⟨.waiting t j cmds got next, (c, true) :: rest⟩)
    (registered : RegisteredWhenRead steamId z name p (.exec w)) :
    Answers steamId name z J t c (some (serve p.store c).2) := by
  intro v hselect hlast
  have hjob : Phase.job? (p.workers w).phase = some (t, j) := by rw [head]; rfl
  obtain ⟨hlt, hget⟩ := h.calm.tickets w t j hjob
  obtain rfl : j = .selectData steamId := by
    simpa [hselect] using (getElem?_extended hbegins hget).symm
  have hle : t ≤ p.issued.length := hlt.le.trans h.ordered.taken_le
  rw [← lastSaved_extended hbegins hle] at hlast
  obtain ⟨hid, hlisted⟩ := registered t cmds got next c rest head (by rw [hlast]; rfl)
  have hread := read_value h.ordered h.calm h.inv head rfl rfl
  rw [flatMap_promises, savedAt_eq] at hread
  have hvalue : p.store.value (valueKey steamId (toText z)) = some v := by
    rw [lastSaved] at hlast
    rw [hlast] at hread
    exact hread
  exact ⟨p.store, ⟨h.names, hid, hlisted, hvalue⟩, rfl⟩

theorem InOrder.step (h : InOrder hash steamId name z store J p)
    (hkey : NotRegistry (valueKey steamId (toText z))) (hl : WorkerStep hash p l q)
    (jobs : ∀ j ∈ J, FromMain j) (hbegins : p.issued <+: J) (turns : TurnsKept steamId z p l)
    (registered : RegisteredWhenRead steamId z name p l) :
    InOrder hash steamId name z store J q where
  ordered := h.ordered.step hl (bindParamsAndRun_early hkey)
    (savesInTurn_orderly (turnsKept_savesInTurn turns))
  calm := h.calm.step h.ordered.early h.ordered.taken_le hl (turnsKept_inTurn turns)
  names := h.inv.store hl h.names fun _ _ hs hc => NamesWhole.exec hs hc
  inv := by
    apply h.inv.step hl
    · intro w j _ hj
      have hJ := getElem?_extended hbegins hj
      exact bindParamsAndRun_fresh (jobs j (List.mem_of_getElem? hJ)) hJ
    · rintro w t j cmds got next c rest rfl head
      exact h.answers hbegins head registered

lemma issued_begins (run : Run (WorkerStep hash) (Pool.initial store) trace q) :
    ∀ x ∈ trace, x.1.issued <+: q.issued := by
  intro x hx
  obtain ⟨_, after, _, _, later⟩ := run.of_visited (visited_of_mem hx)
  have preserved : ∀ (a : Workers ι) (l : Label ι Job) (b : Workers ι),
      x.1.issued <+: a.issued → WorkerStep hash a l b → x.1.issued <+: b.issued :=
    fun a l b h step => h.trans (queue_of_step step).1
  exact later.stable List.prefix_rfl preserved

theorem fromMain_of_run (run : Run (WorkerStep hash) (Pool.initial store) trace q)
    (fromMain : ∀ x ∈ trace, EnqueuesFromMain x.2) : ∀ j ∈ q.issued, FromMain j := by
  have preserved : ∀ (a : Workers ι) (l : Label ι Job) (b : Workers ι),
      (∀ j ∈ a.issued, FromMain j) → EnqueuesFromMain l → WorkerStep hash a l b →
      ∀ j ∈ b.issued, FromMain j := by
    intro a l b h enqueues step
    refine issued_step step ?_ h
    rintro j rfl
    exact enqueues
  exact run.invariant (I := fun p => ∀ j ∈ p.issued, FromMain j) (by simp [Pool.initial])
    preserved fromMain

/-- In every run that keeps the turns, a load returns, for a cookie that is registered when it is
read, the value that the last save enqueued before the load has for it. -/
theorem loads_fresh (names : NamesWhole store)
    (run : Run (WorkerStep hash) (Pool.initial store) trace q)
    (fromMain : ∀ x ∈ trace, EnqueuesFromMain x.2)
    (turns : ∀ x ∈ trace, TurnsKept steamId z x.1 x.2)
    (registered : ∀ x ∈ trace, RegisteredWhenRead steamId z name x.1 x.2) {t : ℕ}
    {outcome : Outcome} (result : (t, .selectData steamId, outcome) ∈ q.results)
    (last : lastSaved steamId z q.issued t = some v) : Loaded name v outcome := by
  have jobs := fromMain_of_run run fromMain
  have hkey : NotRegistry (valueKey steamId (toText z)) := by
    obtain ⟨j, hj, hsaved⟩ := List.mem_filterMap.mp (List.mem_of_getLast? last)
    have hmain := jobs j (List.mem_of_mem_take hj)
    cases j with
    | insertData s i value =>
      simp only [savedFor] at hsaved
      split_ifs at hsaved with hsame
      obtain ⟨rfl, rfl⟩ := hsame
      exact hmain
    | _ => cases hsaved
  have first : InOrder hash steamId name z store q.issued (Pool.initial store : Workers ι) :=
    ⟨Ordered.initial store, Calm.initial store, names, Pool.Inv.initial store⟩
  have preserved : ∀ (a : Workers ι) (l : Label ι Job) (b : Workers ι),
      InOrder hash steamId name z store q.issued a →
      a.issued <+: q.issued ∧ TurnsKept steamId z a l ∧ RegisteredWhenRead steamId z name a l →
      WorkerStep hash a l b → InOrder hash steamId name z store q.issued b :=
    fun a l b h ok step => h.step hkey step jobs ok.1 ok.2.1 ok.2.2
  have inOrder := run.invariant first preserved fun x hx =>
    ⟨issued_begins run x hx, turns x hx, registered x hx⟩
  exact inOrder.inv.results _ result rfl v last

omit [DecidableEq ι] in
/-- With one worker the turns are kept. -/
theorem turnsKept_of_subsingleton [Subsingleton ι] (p : Workers ι) (l : Label ι Job) :
    TurnsKept steamId z p l := by
  cases l with
  | take w =>
    have alone : ∀ v, ¬ v ≠ w := fun v => not_not.mpr (Subsingleton.elim v w)
    exact fun _ _ => ⟨fun _ v hv => absurd hv (alone v), fun _ v hv => absurd hv (alone v)⟩
  | _ => trivial

end Runs

def loadMusic : Job := .selectData (bytes "STEAM_1:0:7")

def saveThenLoad : List (Label Bool Job) :=
  [.enqueue (saveMusic "new"), .enqueue loadMusic, .take false, .send false, .exec false,
    .take true, .finish false, .send true, .exec true, .resume true, .finish true]

-- The kernel evaluates the nested replies of the script; the elaborator's reduction does not.
lemma saveThenLoad_isSome : (follow (bindParamsAndRun List.length) serve
    (Pool.initial musicStore : Workers Bool) saveThenLoad).isSome = true := by decide +kernel

def afterSaveThenLoad : Workers Bool := Option.get _ saveThenLoad_isSome

/-- When a worker takes a query, the other one owes no `SET` of the key and loads nothing. -/
def otherAway (key : Bytes) (p : Workers Bool) : Label Bool Job → Bool
  | .take w => otherSettled key p (.take w) && (Phase.job? (p.workers !w).phase).all fun x =>
      match x.2 with
      | .selectData _ => false
      | _ => true
  | _ => true

lemma turnsKept_of_otherAway {p : Workers Bool} {l : Label Bool Job}
    (h : otherAway (valueKey steamId (toText z)) p l = true) : TurnsKept steamId z p l := by
  cases l with
  | take w =>
    obtain ⟨settled, loads⟩ := Bool.and_eq_true_iff.mp h
    have owes := of_decide_eq_true settled
    refine fun _ _ => ⟨fun _ v hv => ?_, fun _ v hv => ?_⟩
    · obtain rfl := Bool.eq_not_of_ne hv
      refine ⟨not_not.mpr owes, ?_⟩
      rintro ⟨t, job⟩
      rw [job] at loads
      cases loads
    · obtain rfl := Bool.eq_not_of_ne hv
      exact not_not.mpr owes
  | _ => trivial

/-- Two workers: the load overtakes the save that was enqueued before it. -/
def overtaken : List (Label Bool Job) :=
  [.enqueue (saveMusic "new"), .enqueue loadMusic, .take false, .take true, .send true,
    .exec true, .resume true, .finish true]

lemma overtaken_isSome : (follow (bindParamsAndRun List.length) serve
    (Pool.initial musicStore : Workers Bool) overtaken).isSome = true := by decide +kernel

def afterOvertaken : Workers Bool := Option.get _ overtaken_isSome

def musicJobs : List Job := [saveMusic "new", loadMusic]

lemma musicJobs_fromMain {ι : Type} (ls : List (Label ι Job))
    (h : ls.all (fun l => match l with | .enqueue j => j ∈ musicJobs | _ => true) = true) :
    ∀ l ∈ ls, EnqueuesFromMain l := by
  intro l hl
  have hjob := List.all_eq_true.mp h l hl
  cases l with
  | enqueue j =>
    have hj : j = saveMusic "new" ∨ j = loadMusic := by simpa [musicJobs] using hjob
    rcases hj with rfl | rfl
    · exact notRegistry_of_head (by decide)
    · trivial
  | _ => trivial

def musicRegistered {ι : Type} (p : Workers ι) : Bool :=
  p.store.value (idKey (bytes "music")) == some (toText 5) &&
    (p.store.sets cookiesList).contains (bytes "music")

lemma registered_of_all {ι : Type} {trace : List (Workers ι × Label ι Job)}
    (h : trace.all (fun x => musicRegistered x.1) = true) :
    ∀ x ∈ trace, RegisteredWhenRead (bytes "STEAM_1:0:7") 5 (bytes "music") x.1 x.2 := by
  intro x hx
  have hboth := List.all_eq_true.mp h x hx
  simp only [musicRegistered, Bool.and_eq_true, beq_iff_eq, List.contains_iff_mem] at hboth
  unfold RegisteredWhenRead
  split
  · exact fun _ _ _ _ _ _ _ _ => hboth
  · trivial

def lastRows {ι : Type} (p : Workers ι) : Option (ℕ × Job × List (Bytes × Bytes)) :=
  p.results.getLast?.map fun r => (r.1, r.2.1, r.2.2.results.map fun row => (row.1.name, row.2))

lemma last_result {ι : Type} {p : Workers ι} {t : ℕ} {j : Job} {rows : List (Bytes × Bytes)}
    (h : lastRows p = some (t, j, rows)) : ∃ outcome, (t, j, outcome) ∈ p.results ∧
      outcome.results.map (fun row => (row.1.name, row.2)) = rows := by
  obtain ⟨⟨t', j', outcome⟩, hlast, heq⟩ := Option.map_eq_some_iff.mp h
  simp only [Prod.mk.injEq] at heq
  obtain ⟨rfl, rfl, hrows⟩ := heq
  exact ⟨outcome, List.mem_of_getLast? hlast, hrows⟩

theorem loads_fresh_saveThenLoad : ∃ outcome,
    (1, loadMusic, outcome) ∈ afterSaveThenLoad.results ∧
      Loaded (bytes "music") (bytes "new") outcome := by
  have run := follow_run (Option.some_get saveThenLoad_isSome).symm
  have hrows : lastRows afterSaveThenLoad =
      some (1, loadMusic, [(bytes "music", bytes "new")]) := by decide +kernel
  obtain ⟨outcome, result, _⟩ := last_result hrows
  have fromMain := musicJobs_fromMain saveThenLoad (by decide)
  have registered : (trail (bindParamsAndRun List.length) serve
      (Pool.initial musicStore : Workers Bool) saveThenLoad).all
        (fun x => musicRegistered x.1) = true := by decide +kernel
  have last : lastSaved (bytes "STEAM_1:0:7") 5 afterSaveThenLoad.issued 1 =
      some (bytes "new") := by decide +kernel
  have away : (trail (bindParamsAndRun List.length) serve
      (Pool.initial musicStore : Workers Bool) saveThenLoad).all
        (fun x => otherAway musicKey x.1 x.2) = true := by decide +kernel
  exact ⟨outcome, result, loads_fresh musicStore_names run
    (fun x hx => fromMain x.2 (trail_labels x hx))
    (fun x hx => turnsKept_of_otherAway (List.all_eq_true.mp away x hx))
    (registered_of_all registered) result last⟩

theorem old_value_loaded : ¬ ∀ (ι : Type) [DecidableEq ι] (hash : Bytes → ℕ) (store : Store)
    (q : Workers ι) (trace : List (Workers ι × Label ι Job)) (steamId name v : Bytes) (z : ℤ)
    (t : ℕ) (outcome : Outcome), NamesWhole store →
    Run (WorkerStep hash) (Pool.initial store) trace q →
    (∀ x ∈ trace, EnqueuesFromMain x.2) →
    (∀ x ∈ trace, RegisteredWhenRead steamId z name x.1 x.2) →
    (t, .selectData steamId, outcome) ∈ q.results →
    lastSaved steamId z q.issued t = some v → Loaded name v outcome := by
  intro h
  have run := follow_run (Option.some_get overtaken_isSome).symm
  have hrows : lastRows afterOvertaken =
      some (1, loadMusic, [(bytes "music", bytes "on")]) := by decide +kernel
  obtain ⟨outcome, result, hresults⟩ := last_result hrows
  have fromMain := musicJobs_fromMain overtaken (by decide)
  have registered : (trail (bindParamsAndRun List.length) serve
      (Pool.initial musicStore : Workers Bool) overtaken).all
        (fun x => musicRegistered x.1) = true := by decide +kernel
  have last : lastSaved (bytes "STEAM_1:0:7") 5 afterOvertaken.issued 1 =
      some (bytes "new") := by decide +kernel
  have loaded := h Bool List.length musicStore _ _ _ _ _ 5 1 outcome musicStore_names run
    (fun x hx => fromMain x.2 (trail_labels x hx)) (registered_of_all registered) result last
  obtain ⟨row, hrow, hname⟩ := loaded.1
  have hold : (row.1.name, row.2) ∈ [(bytes "music", bytes "on")] :=
    hresults ▸ List.mem_map_of_mem hrow
  have hvalue : row.2 = bytes "on" := (Prod.mk.inj (List.mem_singleton.mp hold)).2
  have hfresh : bytes "on" = bytes "new" := hvalue.symm.trans (loaded.2 row hrow hname)
  revert hfresh
  decide

end ClientPrefs.FreshLoads
