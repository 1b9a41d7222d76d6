import ClientPrefs.PoolBursts
import ClientPrefs.SaveOrder

/-!
# The list of registered cookies

A registration first adds the name to `cookies.list` and stores its id last. The script
drops a listed name whose id is missing, also one whose registration is half way through.
-/
namespace ClientPrefs.Registry
open ByteStrings Conversation Conv Cookies PoolBursts QueryThread RedisReply RedisStore SaveOrder
open Transition WorkerPool

/-- An id of the cookie is still to be stored, and the name will not be listed before. -/
def Exposed (name : Bytes) (todo : List Command) : Prop :=
  ∃ before c after, todo = before ++ c :: after ∧ (storesAt (idKey name) c).isSome = true ∧
    Command.sadd cookiesList name ∉ before

/-- Every id is preceded by the listing of its name. -/
def ListsFirst (b : List Command) : Prop := ∀ name, ¬ Exposed name b

/-- An `InsertData` query does not write among the keys of the registry. -/
def OutsideRegistry : Job → Prop
  | .insertData steamId id _ => NotRegistry (valueKey steamId (toText id))
  | _ => True

/-- Every cookie with an id is listed. -/
def Consistent (s : Store) : Prop :=
  ∀ name, (s.value (idKey name)).isSome = true → name ∈ s.sets cookiesList

variable {name : Bytes} {hash : Bytes → ℕ}

lemma exposed_append {l b : List Command} (h : Exposed name (l ++ b)) :
    Exposed name l ∨ Exposed name b := by
  obtain ⟨before, c, after, heq, hc, hnot⟩ := h
  rcases List.append_eq_append_iff.mp heq with ⟨m, hm, hb⟩ | ⟨m, hm, hb⟩
  · refine .inr ⟨m, c, after, hb, hc, fun hmem => hnot ?_⟩
    exact hm ▸ List.mem_append_right _ hmem
  · cases m with
    | nil =>
      refine .inr ⟨[], c, after, by simpa using hb.symm, hc, List.not_mem_nil⟩
    | cons d m =>
      rw [List.cons_append, List.cons.injEq] at hb
      obtain ⟨rfl, _⟩ := hb
      exact .inl ⟨before, c, m, hm, hc, hnot⟩

lemma exposed_cons {c : Command} {l : List Command} (h : Exposed name l)
    (hc : c ≠ .sadd cookiesList name) : Exposed name (c :: l) := by
  obtain ⟨before, d, after, rfl, hd, hnot⟩ := h
  refine ⟨c :: before, d, after, rfl, hd, fun hmem => ?_⟩
  rcases List.mem_cons.mp hmem with heq | hmem
  · exact hc heq.symm
  · exact hnot hmem

def NoId (c : Command) : Prop := ∀ name, storesAt (idKey name) c = none

lemma listsFirst_of_noId {b : List Command} (h : ∀ c ∈ b, NoId c) : ListsFirst b := by
  intro name hexposed
  obtain ⟨before, c, after, rfl, hc, _⟩ := hexposed
  rw [h c (by simp) name] at hc
  cases hc

lemma listsFirst_registration (name description : Bytes) (access : CookieAccess) (id : Bytes) :
    ListsFirst [.sadd cookiesList name, .set (accessKey name) (toText access),
      .set (descKey name) description, .set (idKey name) id] := by
  intro other hexposed
  obtain ⟨before, c, after, heq, hc, hnot⟩ := hexposed
  cases before with
  | nil =>
    simp only [List.nil_append, List.cons.injEq] at heq
    simp [← heq.1, storesAt] at hc
  | cons d before =>
    simp only [List.cons_append, List.cons.injEq] at heq
    obtain ⟨rfl, hrest⟩ := heq
    have hother : other ≠ name := by
      rintro rfl
      exact hnot (List.mem_cons_self ..)
    have hmem : c ∈ [Command.set (accessKey name) (toText access),
        .set (descKey name) description, .set (idKey name) id] := by
      rw [hrest]
      simp
    simp only [List.mem_cons, List.not_mem_nil, or_false] at hmem
    rcases hmem with rfl | rfl | rfl
    · simp [storesAt, (idKey_ne_accessKey other name).symm] at hc
    · simp [storesAt, (idKey_ne_descKey other name).symm] at hc
    · have hne : idKey name ≠ idKey other := fun h => hother (idKey_injective h).symm
      simp [storesAt, hne] at hc

lemma noId_get (key : Bytes) : NoId (.get key) := fun _ => rfl

lemma bindParamsAndRun_bursts {j : Job} (h : OutsideRegistry j) :
    Bursts ListsFirst (bindParamsAndRun hash j) := by
  have hgets : ∀ cmds : List Command, (∀ c ∈ cmds, NoId c) → ListsFirst cmds :=
    fun _ => listsFirst_of_noId
  cases j with
  | insertCookie name description access =>
    apply Bursts.command_bind (hgets [] (by simp)) (hgets _ (by simp [noId_get]))
    intro r
    split
    · exact ⟨hgets [] (by simp), trivial⟩
    · have hsadd : ListsFirst [.sadd cookiesList name] := hgets _ fun c hc n => by
        obtain rfl := List.mem_singleton.mp hc
        rfl
      split <;> exact ⟨hsadd, trivial⟩
    · exact ⟨listsFirst_registration name description access _, trivial⟩
  | selectData sid =>
    have hasks : (selectData scriptSha sid).Keeps (fun _ _ => True) NoId fun _ => True :=
      selectData_asks (fun _ => rfl) (fun _ => rfl) noId_get
    exact bursts_of_keeps hgets hasks
  | insertData sid id value =>
    refine ⟨hgets _ ?_, trivial⟩
    intro c hc name
    obtain rfl : c = .setEx (valueKey sid (toText id)) value 1209600 := by
      simpa [bindParamsAndRun, insertData, append, returned, burst] using hc
    have hkey := (h name).1
    simp [storesAt, hkey]
  | selectId name =>
    have hkeeps : (selectId name).Keeps (fun _ _ => True) NoId fun _ => True := by
      apply Keeps.command_bind (noId_get _)
      intro r _
      split <;> trivial
    exact bursts_of_keeps hgets hkeeps

/-- A script that runs now drops no name whose id is still on its way. -/
def ScriptWaits {ι : Type} (p : Workers ι) : Label ι Job → Prop
  | .exec w => ∀ sha steamId awaited rest,
    (p.workers w).pipe = (.evalsha sha steamId, awaited) :: rest → sha ∈ p.store.scripts →
    ∀ name ∈ p.store.sets cookiesList, p.store.value (idKey name) = none →
    ∀ v, ¬ Exposed name (p.workers v).todo
  | _ => True

/-- The queries that are enqueued save nothing under a key of the registry. -/
def EnqueuesOutside {ι : Type} : Label ι Job → Prop
  | .enqueue j => OutsideRegistry j
  | _ => True

structure Listed {ι : Type} (p : Workers ι) : Prop where
  jobs : ∀ j ∈ p.issued, OutsideRegistry j
  bursts : ∀ v, PhaseBursts ListsFirst (p.workers v).phase
  consistent : Consistent p.store
  exposed : ∀ v name, Exposed name (p.workers v).todo → name ∈ p.store.sets cookiesList

lemma exec_value (s : Store) (c : Command) (name : Bytes)
    (h : ((exec s c).1.value (idKey name)).isSome = true) :
    (s.value (idKey name)).isSome = true ∨ (storesAt (idKey name) c).isSome = true := by
  have hlook := (keyCell (idKey name)).look_exec s c
  have hlook' : (exec s c).1.value (idKey name) =
      (storesAt (idKey name) c).or (s.value (idKey name)) := hlook
  rw [hlook'] at h
  cases hc : storesAt (idKey name) c with
  | none =>
    rw [hc, Option.none_or] at h
    exact .inl h
  | some v => exact .inr rfl

lemma exec_list (s : Store) (c : Command) (name : Bytes) (h : name ∈ s.sets cookiesList) :
    name ∈ (exec s c).1.sets cookiesList ∨ s.value (idKey name) = none ∧
      ∃ sha steamId, c = .evalsha sha steamId ∧ sha ∈ s.scripts := by
  cases c with
  | sadd key member =>
    left
    simp only [exec]
    split_ifs
    · exact h
    · by_cases hk : cookiesList = key
      · subst hk
        simp [h]
      · simpa [Function.update_of_ne hk] using h
  | evalsha sha steamId =>
    simp only [exec]
    split_ifs with hsha
    · by_cases hid : s.value (idKey name) = none
      · exact .inr ⟨hid, sha, steamId, rfl, hsha⟩
      · left
        exact (mem_scriptLoop_sets _ _ _ _ _).mpr ⟨h, fun hall => hid hall.2.2⟩
    · exact .inl h
  | _ => exact .inl h

lemma exec_sadd (s : Store) (key member : Bytes) :
    member ∈ (exec s (.sadd key member)).1.sets key := by
  simp only [exec]
  split_ifs with h
  · exact h
  · simp

variable {ι : Type} [DecidableEq ι] {p q : Workers ι} {l : Label ι Job} {store : Store}
  {trace : List (Workers ι × Label ι Job)}

theorem issued_of_step (step : WorkerStep hash p l q) (enqueues : EnqueuesOutside l)
    (jobs : ∀ j ∈ p.issued, OutsideRegistry j) : ∀ j ∈ q.issued, OutsideRegistry j := by
  refine issued_step step ?_ jobs
  rintro j rfl
  exact enqueues

omit [DecidableEq ι] in
lemma Listed.grows (h : Listed p) (jobs : ∀ j ∈ q.issued, OutsideRegistry j)
    (bursts : ∀ v, PhaseBursts ListsFirst (q.workers v).phase) (grows : Grows ListsFirst p q) :
    Listed q := by
  refine ⟨jobs, bursts, ?_, fun v name hexposed => ?_⟩
  · rw [grows.store]
    exact h.consistent
  · rw [grows.store]
    rcases grows.todo v with hsame | ⟨b, hb, happend⟩
    · exact h.exposed v name (hsame ▸ hexposed)
    · rw [happend] at hexposed
      exact h.exposed v name ((exposed_append hexposed).resolve_right (hb name))

lemma Listed.executes (h : Listed p) (jobs : ∀ j ∈ q.issued, OutsideRegistry j)
    (bursts : ∀ v, PhaseBursts ListsFirst (q.workers v).phase) {w : ι} {c : Command}
    (executes : Executes serve w c p q) (waits : ScriptWaits p (.exec w)) : Listed q := by
  have hstore : q.store = (exec p.store c).1 := executes.store
  obtain ⟨awaited, rest, hpipe⟩ := executes.head
  -- A name that is listed stays listed if its id is there or on its way.
  have hkept : ∀ name, name ∈ p.store.sets cookiesList →
      (p.store.value (idKey name)).isSome = true ∨ (∃ v, Exposed name (p.workers v).todo) →
      name ∈ q.store.sets cookiesList := by
    intro name hmem hneeded
    rw [hstore]
    rcases exec_list p.store c name hmem with hmem | ⟨hnone, sha, sid, rfl, hsha⟩
    · exact hmem
    · rcases hneeded with hsome | ⟨v, hexposed⟩
      · rw [hnone] at hsome
        cases hsome
      · exact absurd hexposed (waits sha sid awaited rest hpipe hsha name hmem hnone v)
  refine ⟨jobs, bursts, fun name hid => ?_, fun v name hexposed => ?_⟩
  · rw [hstore] at hid
    rcases exec_value p.store c name hid with hid | hwrites
    · exact hkept name (h.consistent name hid) (.inl hid)
    · have hexposed : Exposed name (p.workers w).todo :=
        ⟨[], c, _, executes.todo, hwrites, List.not_mem_nil⟩
      exact hkept name (h.exposed w name hexposed) (.inr ⟨w, hexposed⟩)
  · by_cases hsadd : c = .sadd cookiesList name
    · rw [hstore, hsadd]
      exact exec_sadd ..
    · have hbefore : Exposed name (p.workers v).todo := by
        by_cases hv : v = w
        · subst hv
          rw [executes.todo]
          exact exposed_cons hexposed hsadd
        · exact executes.others v hv ▸ hexposed
      exact hkept name (h.exposed v name hbefore) (.inr ⟨v, hbefore⟩)

theorem Listed.step (h : Listed p) (step : WorkerStep hash p l q) (enqueues : EnqueuesOutside l)
    (waits : ScriptWaits p l) : Listed q := by
  have jobs := issued_of_step step enqueues h.jobs
  obtain ⟨bursts, grows | ⟨w, c, rfl, executes⟩⟩ :=
    grows_or_executes h.bursts step fun j hj => bindParamsAndRun_bursts (h.jobs j hj)
  · exact h.grows jobs bursts grows
  · exact h.executes jobs bursts executes waits

/-- In every run in which no script runs between the listing of a name and the storing of its
first id, every cookie with an id is listed, and the script returns a row for it. -/
theorem registry_consistent (start : Consistent store)
    (run : Run (WorkerStep hash) (Pool.initial store) trace q)
    (enqueues : ∀ x ∈ trace, EnqueuesOutside x.2) (waits : ∀ x ∈ trace, ScriptWaits x.1 x.2)
    (hid : (q.store.value (idKey name)).isSome = true) :
    name ∈ q.store.sets cookiesList ∧
      ∀ sha steamId, sha ∈ q.store.scripts → ∃ rows row,
        (exec q.store (.evalsha sha steamId)).2 = .arrays rows ∧ row ∈ rows ∧
        scriptRow q.store steamId name = some row := by
  have first : Listed (Pool.initial store : Workers ι) :=
    ⟨by simp [Pool.initial], fun _ => trivial, start, fun v name hexposed => by
      obtain ⟨before, c, after, heq, _⟩ := hexposed
      simp [Pool.initial, Worker.todo, Phase.unsent] at heq⟩
  have preserved : ∀ (a : Workers ι) (l : Label ι Job) (b : Workers ι), Listed a →
      EnqueuesOutside l ∧ ScriptWaits a l → WorkerStep hash a l b → Listed b :=
    fun a l b h ok step => h.step step ok.1 ok.2
  have listed := run.invariant first preserved fun x hx => ⟨enqueues x hx, waits x hx⟩
  have hmem := listed.consistent name hid
  refine ⟨hmem, fun sha sid hsha => ?_⟩
  obtain ⟨d, hd⟩ := Option.isSome_iff_exists.mp hid
  have hrow : scriptRow q.store sid name = some (.arrays [.string name,
      q.store.getReply (descKey name), q.store.getReply (accessKey name),
      q.store.getReply (valueKey sid d)]) := by simp [scriptRow, hd]
  have hreply : (exec q.store (.evalsha sha sid)).2 =
      .arrays ((q.store.members cookiesList).filterMap (scriptRow q.store sid)) := by
    simp only [exec, if_pos hsha, scriptLoop_rows]
  refine ⟨_, _, hreply, ?_, hrow⟩
  exact List.mem_filterMap.mpr ⟨name, Store.mem_members.mpr hmem, hrow⟩

def fresh : Store := .empty [scriptSha] .asStored

def registerMusic : Job := .insertCookie (bytes "music") [] 0

lemma consistent_fresh : Consistent fresh := by
  intro name hid
  simp [Store.empty, fresh, Store.value] at hid

/-- The script is sent when the registration is on its way, and executed behind it. -/
def scriptAfter : List (Label Bool Job) :=
  [.enqueue registerMusic, .enqueue (.selectData (bytes "STEAM_1:0:7")), .take false,
    .send false, .exec false, .resume false, .send false, .take true, .send true, .exec false,
    .exec false, .exec false, .exec false, .exec true, .finish false]

def musicJobs : List Job := [registerMusic, .selectData (bytes "STEAM_1:0:7")]

lemma musicJobs_outside {ι : Type} (ls : List (Label ι Job))
    (h : ls.all (fun l => match l with | .enqueue j => j ∈ musicJobs | _ => true) = true) :
    ∀ l ∈ ls, EnqueuesOutside l := by
  intro l hl
  have hjob := List.all_eq_true.mp h l hl
  cases l with
  | enqueue j =>
    have hj : j = registerMusic ∨ j = .selectData (bytes "STEAM_1:0:7") := by
      simpa [musicJobs] using hjob
    rcases hj with rfl | rfl <;> trivial
  | _ => trivial

lemma scriptAfter_isSome : (follow (bindParamsAndRun List.length) serve
    (Pool.initial fresh : Workers Bool) scriptAfter).isSome = true := by decide

def afterScriptAfter : Workers Bool := Option.get _ scriptAfter_isSome

def scriptAlone (p : Workers Bool) : Label Bool Job → Bool
  | .exec w =>
    match (p.workers w).pipe with
    | (.evalsha _ _, _) :: rest =>
      rest.isEmpty && (p.workers w).phase.unsent.isEmpty && (p.workers !w).todo.isEmpty
    | _ => true
  | _ => true

lemma scriptWaits_of_alone {p : Workers Bool} {l : Label Bool Job}
    (h : scriptAlone p l = true) : ScriptWaits p l := by
  cases l with
  | exec w =>
    intro sha sid awaited rest hpipe _ n _ _ v hexposed
    simp only [scriptAlone, hpipe, Bool.and_eq_true, List.isEmpty_iff] at h
    obtain ⟨⟨hrest, hunsent⟩, hother⟩ := h
    obtain ⟨before, c, after, heq, hc, _⟩ := hexposed
    have hmem : c ∈ (p.workers v).todo := by
      rw [heq]
      simp
    by_cases hv : v = w
    · have htodo : (p.workers w).todo = [.evalsha sha sid] := by
        rw [Worker.todo, hpipe, hrest, hunsent]
        rfl
      rw [hv, htodo, List.mem_singleton] at hmem
      simp [hmem, storesAt] at hc
    · rw [Bool.eq_not_of_ne hv, hother] at hmem
      cases hmem
  | _ => trivial

theorem registry_consistent_scriptAfter : bytes "music" ∈ afterScriptAfter.store.sets cookiesList ∧
    ∀ sha steamId, sha ∈ afterScriptAfter.store.scripts → ∃ rows row,
      (exec afterScriptAfter.store (.evalsha sha steamId)).2 = .arrays rows ∧ row ∈ rows ∧
      scriptRow afterScriptAfter.store steamId (bytes "music") = some row := by
  have run := follow_run (Option.some_get scriptAfter_isSome).symm
  have halone : ∀ x ∈ trail (bindParamsAndRun List.length) serve (Pool.initial fresh) scriptAfter,
      scriptAlone x.1 x.2 = true := by decide
  exact registry_consistent consistent_fresh run
    (fun x hx => musicJobs_outside scriptAfter (by decide) x.2 (trail_labels x hx))
    (fun x hx => scriptWaits_of_alone (halone x hx)) (by decide)

/-- The script runs after the listing and before the id is stored. -/
def scriptBetween : List (Label Bool Job) :=
  [.enqueue registerMusic, .enqueue (.selectData (bytes "STEAM_1:0:7")), .take false,
    .send false, .exec false, .resume false, .send false, .exec false, .take true, .send true,
    .exec true, .exec false, .exec false, .exec false, .finish false, .resume true, .finish true]

lemma scriptBetween_isSome : (follow (bindParamsAndRun List.length) serve
    (Pool.initial fresh : Workers Bool) scriptBetween).isSome = true := by decide

def afterScriptBetween : Workers Bool := Option.get _ scriptBetween_isSome

/-- Both queries are through, the id is stored, and the name is not listed. -/
theorem registered_unlisted : ¬ ∀ (ι : Type) [DecidableEq ι] (hash : Bytes → ℕ) (store : Store)
    (q : Workers ι) (trace : List (Workers ι × Label ι Job)), Consistent store →
    Run (WorkerStep hash) (Pool.initial store) trace q → (∀ x ∈ trace, EnqueuesOutside x.2) →
    q.taken = q.issued.length → (∀ w, (q.workers w).todo = []) →
    Consistent q.store := by
  intro h
  have run := follow_run (Option.some_get scriptBetween_isSome).symm
  have hdone : ∀ w, (afterScriptBetween.workers w).todo = [] := by
    intro w
    cases w <;> rfl
  have hconsistent : Consistent afterScriptBetween.store :=
    h Bool List.length fresh _ _ consistent_fresh run
      (fun x hx => musicJobs_outside scriptBetween (by decide) x.2 (trail_labels x hx))
      (by decide) hdone
  have hlisted := hconsistent (bytes "music") (by decide)
  revert hlisted
  decide

end ClientPrefs.Registry
