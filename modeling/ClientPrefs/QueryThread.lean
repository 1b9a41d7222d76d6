import ClientPrefs.Conversation
import ClientPrefs.CookieManager
import ClientPrefs.RedisStore

/-!
# The thread part of a query

`bindParamsAndRun` is the conversation that `TQueryOp::BindParamsAndRun` has with
Redis. A `Job` holds the parameters it reads: the strings behind `m_params`.
-/
namespace ClientPrefs.QueryThread
open ByteStrings Cookies Conversation Conv RedisReply RedisStore

inductive Job
  | insertCookie (name description : Bytes) (access : CookieAccess)
  | selectData (steamId : Bytes)
  | insertData (steamId : Bytes) (cookieId : ℤ) (value : Bytes)
  | selectId (name : Bytes)
  deriving DecidableEq, Repr

/-- What a query holds when its thread part has returned. -/
structure Outcome where
  ok : Bool
  insertId : ℤ
  results : List (Cookie × Bytes)

abbrev Talk := Conv Command Reply Outcome

def returned (ok : Bool) (insertId : ℤ) (results : List (Cookie × Bytes)) : Talk :=
  .done ⟨ok, insertId, results⟩

/-- `h(safe_name) & 0x7FFFFFFF`. -/
def cookieHash (hash : Bytes → ℕ) (name : Bytes) : ℤ := (hash name % 2 ^ 31 : ℕ)

lemma cookieHash_range (hash : Bytes → ℕ) (name : Bytes) :
    0 ≤ cookieHash hash name ∧ cookieHash hash name < 2 ^ 31 := by
  have hlt : hash name % 2 ^ 31 < 2 ^ 31 := Nat.mod_lt _ (by norm_num)
  unfold cookieHash
  omega

def insertCookie (hash : Bytes → ℕ) (name description : Bytes) (access : CookieAccess) :
    Talk := do
  match ← command (.get (idKey name)) with
  | none => .died
  | some (.string id) =>
    append [.sadd cookiesList name]
    match stoi id with
    | .error _ => .died
    | .ok id => returned true id []
  | some _ =>
    let id := cookieHash hash name
    append [.sadd cookiesList name, .set (accessKey name) (toText access),
      .set (descKey name) description, .set (idKey name) (toText id)]
    returned true id []

/-- The access of a reply; an exception of `GetString` or `std::stoi` is caught. -/
def readAccess : Reply → CookieAccess
  | .string text =>
    match stoi text with
    | .ok access => access
    | .error _ => accessPublic
  | _ => accessPublic

/-- The value of a reply; anything but a string leaves it empty. -/
def readValue : Reply → Bytes
  | .string value => cstr value
  | _ => []

/-- The rows of the script up to the first malformed one; `none` when `GetString` throws. -/
def readRows : List Reply → Option (List (Cookie × Bytes))
  | .arrays [name, desc, access, value] :: rows =>
    match name, desc with
    | .string name, .string desc =>
      (readRows rows).map ((Cookie.new name desc (readAccess access), readValue value) :: ·)
    | _, _ => none
  | _ => some []

/-- The loop over the keys that `KEYS cookies.id.*` returned. -/
def keysLoop (steamId : Bytes) : List Reply → List (Cookie × Bytes) → Talk
  | [], results => returned true (-1) results
  | item :: items, results =>
    match item with
    | .string key =>
      if key.length < 11 then .died
      else do
        let name := key.drop 11
        match ← command (.get key) with
        | none => .died
        | some (.string id) =>
          .ask [.get (valueKey steamId id), .get (descKey name), .get (accessKey name)]
            fun replies =>
              match replies with
              | [some value, some (.string desc), some access] =>
                keysLoop steamId items
                  (results ++ [(Cookie.new name desc (readAccess access), readValue value)])
              | _ => .died
        | some _ => keysLoop steamId items results
    | _ => .died

/-- `EVALSHA` of the cached script first, `KEYS` and `GET` when it gives no usable reply. -/
def selectData (sha steamId : Bytes) : Talk := do
  match ← command (.evalsha sha steamId) with
  | some (.arrays rows) =>
    match readRows rows with
    | some results => returned true (-1) results
    | none => .died
  | reply =>
    if (reply.map Reply.ok).getD false then returned true (-1) []
    else
      match ← command (.keys (bytes "cookies.id.")) with
      | some (.arrays items) => keysLoop steamId items []
      | _ => returned true (-1) []

def insertData (steamId : Bytes) (cookieId : ℤ) (value : Bytes) : Talk := do
  append [.setEx (valueKey steamId (toText cookieId)) value 1209600]
  returned true (-1) []

def selectId (name : Bytes) : Talk := do
  match ← command (.get (idKey name)) with
  | none => .died
  | some (.string _) => returned false (-1) []
  | some _ => .died

def scriptSha : Bytes := bytes "2e80a3ad95e151c8466c622a382586fab9d9f9b1"

def bindParamsAndRun (hash : Bytes → ℕ) : Job → Talk
  | .insertCookie name description access => insertCookie hash name description access
  | .selectData steamId => selectData scriptSha steamId
  | .insertData steamId cookieId value => insertData steamId cookieId value
  | .selectId name => selectId name

section Rules
variable {sto : Command → Option Reply → Prop} {C : Command → Prop} {P : Cookie × Bytes → Prop}
  {sha steamId : Bytes}

lemma readRows_each {rows : List Reply} {results : List (Cookie × Bytes)}
    (each : ∀ name desc access value,
      .arrays [.string name, .string desc, access, value] ∈ rows →
      P (Cookie.new name desc (readAccess access), readValue value))
    (h : readRows rows = some results) : ∀ row ∈ results, P row := by
  induction rows generalizing results with
  | nil =>
    obtain rfl : [] = results := by simpa [readRows] using h
    simp
  | cons item rows ih =>
    unfold readRows at h
    split at h
    · next name desc access value rest heq =>
      obtain ⟨rfl, rfl⟩ : item = .arrays [name, desc, access, value] ∧ rows = rest := by
        simpa using heq
      split at h
      · obtain ⟨tail, htail, rfl⟩ := Option.map_eq_some_iff.mp h
        have hrest := ih (fun _ _ _ _ hmem => each _ _ _ _ (List.mem_cons_of_mem _ hmem)) htail
        intro row hrow
        rcases List.mem_cons.mp hrow with rfl | hrow
        · exact each _ _ _ _ (List.mem_cons_self ..)
        · exact hrest row hrow
      · cases h
    · obtain rfl : [] = results := by simpa using h
      simp

lemma keysLoop_each {items : List Reply} {results : List (Cookie × Bytes)}
    (gets : ∀ key, C (.get key)) (done : ∀ row ∈ results, P row)
    (each : ∀ key id value desc access, .string key ∈ items →
      sto (.get key) (some (.string id)) → sto (.get (valueKey steamId id)) (some value) →
      P (Cookie.new (key.drop 11) desc access, readValue value)) :
    (keysLoop steamId items results).Keeps sto C fun out => ∀ row ∈ out.results, P row := by
  induction items generalizing results with
  | nil => exact done
  | cons item items ih =>
    have tail : ∀ key id value desc access, .string key ∈ items →
        sto (.get key) (some (.string id)) → sto (.get (valueKey steamId id)) (some value) →
        P (Cookie.new (key.drop 11) desc access, readValue value) :=
      fun key id value desc access hmem => each key id value desc access
        (List.mem_cons_of_mem _ hmem)
    unfold keysLoop
    split
    · next key =>
      split_ifs
      · trivial
      · dsimp only
        apply Keeps.command_bind (gets key)
        intro r hr
        split
        · trivial
        · next _ id =>
          refine ⟨by simp [gets], fun replies hreplies => ?_⟩
          dsimp only
          split
          · next value desc access =>
            have hvalue := (List.forall₂_cons.mp hreplies).1
            refine ih (fun row hrow => ?_) tail
            rcases List.mem_append.mp hrow with hrow | hrow
            · exact done row hrow
            · obtain rfl := List.mem_singleton.mp hrow
              exact each key id value _ _ (List.mem_cons_self ..) hr hvalue
          · trivial
        · exact ih done tail
    · trivial

/-- What holds of every row read from the replies holds of every result. -/
theorem selectData_each (hsha : C (.evalsha sha steamId))
    (hkeys : C (.keys (bytes "cookies.id."))) (gets : ∀ key, C (.get key))
    (script : ∀ rows name desc access value, sto (.evalsha sha steamId) (some (.arrays rows)) →
      .arrays [.string name, .string desc, access, value] ∈ rows →
      P (Cookie.new name desc (readAccess access), readValue value))
    (each : ∀ items key id value desc access,
      sto (.keys (bytes "cookies.id.")) (some (.arrays items)) → .string key ∈ items →
      sto (.get key) (some (.string id)) → sto (.get (valueKey steamId id)) (some value) →
      P (Cookie.new (key.drop 11) desc access, readValue value)) :
    (selectData sha steamId).Keeps sto C fun out => ∀ row ∈ out.results, P row := by
  apply Keeps.command_bind hsha
  intro r hr
  split
  · next rows =>
    split
    · next results hrows =>
      exact readRows_each (fun name desc access value => script rows name desc access value hr) hrows
    · trivial
  · split_ifs
    · exact fun row hrow => absurd hrow (List.not_mem_nil)
    · apply Keeps.command_bind hkeys
      intro keys hk
      split
      · next items =>
        exact keysLoop_each gets (by simp) fun key id value desc access =>
          each items key id value desc access hk
      · exact fun row hrow => absurd hrow (List.not_mem_nil)

lemma selectData_asks (hsha : C (.evalsha sha steamId))
    (hkeys : C (.keys (bytes "cookies.id."))) (gets : ∀ key, C (.get key)) :
    (selectData sha steamId).Keeps sto C fun _ => True := by
  have hrows : (selectData sha steamId).Keeps sto C fun out => ∀ row ∈ out.results, True :=
    selectData_each hsha hkeys gets (by simp) (by simp)
  exact hrows.imp fun _ _ => trivial

lemma readRows_some {before after : List Reply} {name desc access value : Reply}
    {results : List (Cookie × Bytes)} (formed : ∀ r ∈ before, ∃ a b c d, r = .arrays [a, b, c, d])
    (h : readRows (before ++ .arrays [name, desc, access, value] :: after) = some results) :
    ∃ n d, name = .string n ∧ desc = .string d ∧
      (Cookie.new n d (readAccess access), readValue value) ∈ results := by
  induction before generalizing results with
  | nil =>
    simp only [List.nil_append, readRows] at h
    split at h
    · next n d =>
      obtain ⟨tail, _, rfl⟩ := Option.map_eq_some_iff.mp h
      exact ⟨n, d, rfl, rfl, List.mem_cons_self ..⟩
    · cases h
  | cons item before ih =>
    obtain ⟨a, b, c, d, rfl⟩ := formed item (List.mem_cons_self ..)
    simp only [List.cons_append, readRows] at h
    split at h
    · obtain ⟨tail, htail, rfl⟩ := Option.map_eq_some_iff.mp h
      obtain ⟨n, e, hn, he, hmem⟩ := ih (fun r hr => formed r (List.mem_cons_of_mem _ hr)) htail
      exact ⟨n, e, hn, he, List.mem_cons_of_mem _ hmem⟩
    · cases h

lemma keysLoop_some {items : List Reply} {results : List (Cookie × Bytes)} {key id : Bytes}
    (gets : ∀ key, C (.get key))
    (found : .string key ∈ items ∨ ∃ row ∈ results, P row)
    (answered : ∀ r, sto (.get key) r → r = some (.string id))
    (each : ∀ value desc access, sto (.get (valueKey steamId id)) (some value) →
      P (Cookie.new (key.drop 11) desc access, readValue value)) :
    (keysLoop steamId items results).Keeps sto C fun out => ∃ row ∈ out.results, P row := by
  induction items generalizing results with
  | nil => exact found.resolve_left List.not_mem_nil
  | cons item items ih =>
    unfold keysLoop
    split
    · next k =>
      split_ifs
      · trivial
      · dsimp only
        apply Keeps.command_bind (gets k)
        intro r hr
        split
        · trivial
        · next _ id' =>
          refine ⟨by simp [gets], fun replies hreplies => ?_⟩
          dsimp only
          split
          · next value desc access =>
            have hvalue := (List.forall₂_cons.mp hreplies).1
            apply ih
            rcases found with hmem | ⟨row, hrow, hP⟩
            · rcases List.mem_cons.mp hmem with heq | hmem
              · obtain rfl : key = k := by simpa using heq
                obtain rfl : id' = id := by simpa using answered _ hr
                exact .inr ⟨_, List.mem_append_right _ (List.mem_singleton_self _),
                  each value _ _ hvalue⟩
              · exact .inl hmem
            · exact .inr ⟨row, List.mem_append_left _ hrow, hP⟩
          · trivial
        · next _ hnone hstring =>
          apply ih
          rcases found with hmem | hrow
          · rcases List.mem_cons.mp hmem with heq | hmem
            · obtain rfl : key = k := by simpa using heq
              exact absurd (answered _ hr) (by simpa using hstring id)
            · exact .inl hmem
          · exact .inr hrow
    · trivial

end Rules

end ClientPrefs.QueryThread
