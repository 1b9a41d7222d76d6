import ClientPrefs.SaveOrder

/-!
# The id of a cookie's name

Once Redis has an id for a name, no query of the extension changes it, and a name
without one gets the hash of the name.
-/
namespace ClientPrefs.RegisteredIds
open ByteStrings Conversation Conv Cookies QueryThread RedisReply RedisStore SaveOrder WorkerPool

variable {hash : Bytes → ℕ} {name : Bytes} {z : ℤ} {s : Store}

/-- Redis has this id for the name; or it has none, and this is the hash of the name. -/
def Settled (hash : Bytes → ℕ) (name : Bytes) (z : ℤ) (s : Store) : Prop :=
  s.value (idKey name) = some (toText z) ∨ s.value (idKey name) = none ∧ z = cookieHash hash name

def IdReply (hash : Bytes → ℕ) (name : Bytes) (z : ℤ) (c : Command) (r : Option Reply) : Prop :=
  c = .get (idKey name) →
    r = some (.string (toText z)) ∨ r = some .nil ∧ z = cookieHash hash name

def StoresId (name : Bytes) (z : ℤ) (c : Command) : Prop :=
  ∀ v, storesAt (idKey name) c = some v → v = toText z

/-- What the two id queries may tell the main thread; `SelectId` never finds anything. -/
def ToldId (name : Bytes) (z : ℤ) (j : Job) (outcome : Outcome) : Prop :=
  match j with
  | .insertCookie n _ _ => n = name → outcome.insertId = z
  | .selectId _ => outcome.insertId = -1
  | _ => True

/-- An `InsertData` query saves its value under another key. -/
def Spares (name : Bytes) : Job → Prop
  | .insertData steamId id _ => valueKey steamId (toText id) ≠ idKey name
  | _ => True

section Texts
variable {T : Bytes → Prop}

/-- Redis has one of these texts as the id of the name; or it has none, and `z` is the hash. -/
def SettledText (T : Bytes → Prop) (hash : Bytes → ℕ) (name : Bytes) (z : ℤ) (s : Store) : Prop :=
  (∃ text, s.value (idKey name) = some text ∧ T text) ∨
    s.value (idKey name) = none ∧ z = cookieHash hash name

def TextReply (T : Bytes → Prop) (hash : Bytes → ℕ) (name : Bytes) (z : ℤ) (c : Command)
    (r : Option Reply) : Prop :=
  c = .get (idKey name) → (∃ text, r = some (.string (cstr text)) ∧ T text) ∨
    r = some .nil ∧ z = cookieHash hash name

def StoresText (T : Bytes → Prop) (name : Bytes) (c : Command) : Prop :=
  ∀ v, storesAt (idKey name) c = some v → T v

/-- Every text is read as `z`, and `z` is printed as one of them. -/
structure Texts (T : Bytes → Prop) (z : ℤ) : Prop where
  reads : ∀ text, T text → stoi (cstr text) = .ok z
  prints : T (toText z)

lemma storesText_of_none {c : Command} (h : storesAt (idKey name) c = none) :
    StoresText T name c := by
  intro v hv
  rw [h] at hv
  cases hv

lemma SettledText.exec (h : SettledText T hash name z s) {c : Command}
    (hc : StoresText T name c) : SettledText T hash name z (exec s c).1 := by
  have hlook : (RedisStore.exec s c).1.value (idKey name) =
      (storesAt (idKey name) c).or (s.value (idKey name)) := (keyCell (idKey name)).look_exec s c
  cases hv : storesAt (idKey name) c with
  | none =>
    rw [hv, Option.none_or] at hlook
    simpa only [SettledText, hlook] using h
  | some v =>
    rw [hv] at hlook
    exact .inl ⟨v, hlook, hc v hv⟩

lemma SettledText.serve (h : SettledText T hash name z s) (c : Command) :
    TextReply T hash name z c (some (serve s c).2) := by
  rintro rfl
  rcases h with ⟨text, hid, hT⟩ | ⟨hnone, hz⟩
  · exact .inl ⟨text, by simp [RedisStore.exec, Store.getReply, hid, reply], hT⟩
  · exact .inr ⟨by simp [RedisStore.exec, Store.getReply, hnone, reply], hz⟩

lemma insertCookie_texts (texts : Texts T z) (n description : Bytes) (access : CookieAccess) :
    (insertCookie hash n description access).Keeps (TextReply T hash name z)
      (StoresText T name) fun out => n = name → out.insertId = z := by
  have hsadd : ∀ m, StoresText T name (.sadd cookiesList m) := fun _ => storesText_of_none rfl
  have haccess : ∀ m v, StoresText T name (.set (accessKey m) v) := fun m v =>
    storesText_of_none (by simp [storesAt, (idKey_ne_accessKey name m).symm])
  have hdesc : ∀ m v, StoresText T name (.set (descKey m) v) := fun m v =>
    storesText_of_none (by simp [storesAt, (idKey_ne_descKey name m).symm])
  have hget : StoresText T name (.get (idKey n)) := storesText_of_none rfl
  apply Keeps.command_bind hget
  intro r hr
  by_cases hname : n = name
  · subst hname
    rcases hr rfl with ⟨text, rfl, hT⟩ | ⟨rfl, hz⟩
    · -- The id was found and is told as it is.
      refine ⟨by simpa using hsadd n, ?_⟩
      simp only [texts.reads text hT]
      exact fun _ => rfl
    · have hset : StoresText T n (.set (idKey n) (toText (cookieHash hash n))) := by
        intro v hv
        simp only [storesAt, if_true, Option.some.injEq] at hv
        rw [← hv, ← hz]
        exact texts.prints
      refine ⟨?_, fun _ => hz.symm⟩
      simp only [List.mem_cons, List.not_mem_nil, or_false, forall_eq_or_imp, forall_eq]
      exact ⟨hsadd n, haccess n _, hdesc n _, hset⟩
  · have hset : StoresText T name (.set (idKey n) (toText (cookieHash hash n))) := by
      apply storesText_of_none
      simp only [storesAt]
      exact if_neg fun h => hname (idKey_injective h)
    split
    · trivial
    · refine ⟨by simpa using hsadd n, ?_⟩
      split
      · trivial
      · exact fun h => absurd h hname
    · refine ⟨?_, fun h => absurd h hname⟩
      simp only [List.mem_cons, List.not_mem_nil, or_false, forall_eq_or_imp, forall_eq]
      exact ⟨hsadd n, haccess n _, hdesc n _, hset⟩

lemma bindParamsAndRun_texts (texts : Texts T z) {j : Job} (spares : Spares name j) :
    (bindParamsAndRun hash j).Keeps (TextReply T hash name z) (StoresText T name)
      (ToldId name z j) := by
  have hget : ∀ key, StoresText T name (.get key) := fun _ => storesText_of_none rfl
  cases j with
  | insertCookie n description access => exact insertCookie_texts texts n description access
  | selectData sid =>
    exact selectData_asks (storesText_of_none rfl) (storesText_of_none rfl) hget
  | insertData sid id value =>
    refine ⟨fun c hc => ?_, trivial⟩
    obtain rfl := List.mem_singleton.mp hc
    apply storesText_of_none
    simp only [storesAt]
    exact if_neg spares
  | selectId n =>
    apply Keeps.command_bind (hget _)
    intro r _
    split
    · trivial
    · exact rfl
    · trivial

/-- In a run of the workers the id of the name keeps to its texts. -/
structure OneText {ι : Type} (T : Bytes → Prop) (hash : Bytes → ℕ) (name : Bytes) (z : ℤ)
    (p : Workers ι) : Prop where
  settled : SettledText T hash name z p.store
  ids : p.Inv (fun _ => TextReply T hash name z) (StoresText T name) fun _ => ToldId name z

lemma OneText.initial {ι : Type} (settled : SettledText T hash name z s) :
    OneText T hash name z (Pool.initial s : Workers ι) := ⟨settled, Pool.Inv.initial s⟩

theorem OneText.step {ι : Type} [DecidableEq ι] {p q : Workers ι} {l : Label ι Job}
    (h : OneText T hash name z p) (texts : Texts T z) (spares : ∀ j ∈ p.issued, Spares name j)
    (hl : WorkerStep hash p l q) : OneText T hash name z q where
  settled := h.ids.store hl h.settled fun _ _ hs hc => hs.exec hc
  ids := by
    apply h.ids.step hl
    · exact fun w j _ hj => bindParamsAndRun_texts texts (spares j (List.mem_of_getElem? hj))
    · exact fun w t j cmds got next c rest _ _ => h.settled.serve c

end Texts

theorem settledText_iff : SettledText (fun v => v = toText z) hash name z s ↔
    Settled hash name z s := by
  simp [SettledText, Settled]

lemma texts_toText (hlo : -2 ^ 31 ≤ z) (hhi : z < 2 ^ 31) : Texts (fun v => v = toText z) z := by
  refine ⟨?_, rfl⟩
  rintro text rfl
  rw [cstr_toText]
  exact stoi_toText hlo hhi

lemma Settled.exec (h : Settled hash name z s) {c : Command} (hc : StoresId name z c) :
    Settled hash name z (exec s c).1 :=
  settledText_iff.mp ((settledText_iff.mpr h).exec hc)

lemma Settled.serve (h : Settled hash name z s) (c : Command) :
    IdReply hash name z c (some (serve s c).2) := by
  intro hc
  rcases (settledText_iff.mpr h).serve c hc with ⟨text, hr, rfl⟩ | hnil
  · rw [cstr_toText] at hr
    exact .inl hr
  · exact .inr hnil

lemma bindParamsAndRun_ids (hlo : -2 ^ 31 ≤ z) (hhi : z < 2 ^ 31) {j : Job}
    (spares : Spares name j) : (bindParamsAndRun hash j).Keeps (IdReply hash name z)
      (StoresId name z) (ToldId name z j) := by
  refine (bindParamsAndRun_texts (texts_toText hlo hhi) spares).mono (fun c r hr hc => ?_)
    (fun _ hC => hC) fun _ h => h
  rcases hr hc with rfl | hnil
  · exact .inl ⟨toText z, by rw [cstr_toText], rfl⟩
  · exact .inr hnil

end ClientPrefs.RegisteredIds
