import ClientPrefs.PoolReturns
import ClientPrefs.Registry
import ClientPrefs.RegisteredIds

/-!
# Registrations of one name agree

Any number of workers register a name at the same time: each looks for its id and, when
there is none, stores the hash of the name, with no transaction.
-/
namespace ClientPrefs.RegistrationAgreement
open ByteStrings Conversation Conv Cookies PoolReturns QueryThread RedisReply RedisStore
open RegisteredIds Registry SaveOrder Transition WorkerPool

/-- A text that `std::stoi` reads as `z`. -/
def Reads (z : ℤ) (text : Bytes) : Prop := stoi (cstr text) = .ok z

def Registers (name : Bytes) (j : Job) : Prop := ∃ description access,
  j = .insertCookie name description access

/-- Every id on its way is the text of a number below 2^31 and is read back as this number. -/
def WritesId (c : Command) : Prop := ∀ name text, storesAt (idKey name) c = some text →
  ∃ m : ℤ, 0 ≤ m ∧ m < 2 ^ 31 ∧ text = toText m ∧ stoi text = .ok m

/-- What the registrations of the name and Redis agree on. -/
structure Agreed {ι : Type} [DecidableEq ι] (hash : Bytes → ℕ) (name : Bytes) (z : ℤ)
    (q : Workers ι) : Prop where
  told : ∀ t j outcome, (t, j, outcome) ∈ q.results → Registers name j → outcome.insertId = z
  /-- At rest a registration has returned, if it was taken or a worker is there to take it. -/
  finished : AtRest (bindParamsAndRun hash) serve q → ∀ t j, q.issued[t]? = some j →
    Registers name j → (t < q.taken ∨ ∃ w, (q.workers w).phase = .idle) →
    ∃ outcome, (t, j, outcome) ∈ q.results
  stored : AtRest (bindParamsAndRun hash) serve q →
    (∃ t j outcome, (t, j, outcome) ∈ q.results ∧ Registers name j) →
    ∃ text, q.store.value (idKey name) = some text ∧ Reads z text
  written : ∀ w, ∀ x ∈ (q.workers w).pipe, WritesId x.1

variable {hash : Bytes → ℕ} {name : Bytes} {z : ℤ} {s : Store}

def Stores (name : Bytes) (c : Command) : Prop := (storesAt (idKey name) c).isSome = true

/-- The reply to the `GET` of an id that is missing. -/
def MissingReply (name : Bytes) (c : Command) (r : Option Reply) : Prop :=
  c = .get (idKey name) → r = some .nil

lemma texts_reads (settled : SettledText (Reads z) hash name z s) : Texts (Reads z) z := by
  obtain ⟨hlo, hhi⟩ : -2 ^ 31 ≤ z ∧ z < 2 ^ 31 := by
    rcases settled with ⟨text, _, hreads⟩ | ⟨_, rfl⟩
    · exact stoi_range hreads
    · obtain ⟨hlo, hhi⟩ := cookieHash_range hash name
      exact ⟨by omega, hhi⟩
  refine ⟨fun _ h => h, ?_⟩
  rw [Reads, cstr_toText]
  exact stoi_toText hlo hhi

lemma registers_returns (texts : Texts (Reads z) z) (j : Job) (registers : Registers name j) :
    Until (TextReply (Reads z) hash name z) (fun _ => False) (fun _ => True)
      (bindParamsAndRun hash j) := by
  obtain ⟨description, access, rfl⟩ := registers
  apply Until.command_bind
  intro r hr
  rcases hr rfl with ⟨text, rfl, hreads⟩ | ⟨rfl, _⟩
  · right
    simp only [texts.reads text hreads]
    trivial
  · exact .inr trivial

/-- A registration that finds no id tells one before it returns. -/
theorem registers_stores (j : Job) (registers : Registers name j) :
    Until (MissingReply name) (Stores name) (fun _ => False) (bindParamsAndRun hash j) := by
  obtain ⟨description, access, rfl⟩ := registers
  apply Until.command_bind
  intro r hr
  obtain rfl := hr rfl
  left
  refine ⟨.set (idKey name) (toText (cookieHash hash name)), by simp, ?_⟩
  simp [Stores, storesAt]

lemma writesId_of_noId {c : Command} (h : NoId c) : WritesId c := by
  intro name text hstores
  rw [h name] at hstores
  cases hstores

lemma writesId_set (hash : Bytes → ℕ) (name : Bytes) :
    WritesId (.set (idKey name) (toText (cookieHash hash name))) := by
  intro n text hstores
  simp only [storesAt] at hstores
  split_ifs at hstores
  obtain rfl := Option.some.inj hstores
  obtain ⟨hlo, hhi⟩ := cookieHash_range hash name
  exact ⟨_, hlo, hhi, rfl, stoi_toText (by omega) hhi⟩

lemma bindParamsAndRun_writes {j : Job} (outside : OutsideRegistry j) :
    (bindParamsAndRun hash j).Keeps (fun _ _ => True) WritesId fun _ => True := by
  have hget : ∀ key, WritesId (.get key) := fun key => writesId_of_noId (noId_get key)
  cases j with
  | insertCookie n description access =>
    have hsadd : WritesId (.sadd cookiesList n) := writesId_of_noId fun _ => rfl
    have haccess : WritesId (.set (accessKey n) (toText access)) :=
      writesId_of_noId fun m => by simp [storesAt, (idKey_ne_accessKey m n).symm]
    have hdesc : WritesId (.set (descKey n) description) :=
      writesId_of_noId fun m => by simp [storesAt, (idKey_ne_descKey m n).symm]
    apply Keeps.command_bind (hget _)
    intro r _
    split
    · trivial
    · refine ⟨by simpa using hsadd, ?_⟩
      split <;> trivial
    · refine ⟨?_, trivial⟩
      simp only [List.mem_cons, List.not_mem_nil, or_false, forall_eq_or_imp, forall_eq]
      exact ⟨hsadd, haccess, hdesc, writesId_set hash n⟩
  | selectData sid =>
    exact selectData_asks (writesId_of_noId fun _ => rfl) (writesId_of_noId fun _ => rfl) hget
  | insertData sid id value =>
    refine ⟨fun c hc => ?_, trivial⟩
    obtain rfl := List.mem_singleton.mp hc
    apply writesId_of_noId
    intro n
    simp only [storesAt]
    exact if_neg (outside n).1
  | selectId n =>
    apply Keeps.command_bind (hget _)
    intro r _
    split <;> trivial

section Runs
variable {ι : Type} [DecidableEq ι] {p q : Workers ι} {l : Label ι Job} {store : Store}
  {trace : List (Workers ι × Label ι Job)}

structure Agreeing (hash : Bytes → ℕ) (name : Bytes) (z : ℤ) (p : Workers ι) : Prop where
  jobs : ∀ j ∈ p.issued, OutsideRegistry j
  one : OneText (Reads z) hash name z p
  writes : p.Inv (fun _ _ _ => True) WritesId fun _ _ _ => True
  alive : AllPending (Registers name) (TextReply (Reads z) hash name z) (fun _ => False)
    (fun _ => True) p
  accounted : Accounted p
  stored : (p.store.value (idKey name)).isSome = true ∨ Told (Stores name) p ∨
    AllPending (Registers name) (MissingReply name) (Stores name) (fun _ => False) p

omit [DecidableEq ι] in
lemma Agreeing.initial (settled : SettledText (Reads z) hash name z store) :
    Agreeing hash name z (Pool.initial store : Workers ι) :=
  ⟨by simp [Pool.initial], OneText.initial settled, Pool.Inv.initial store,
    AllPending.initial store, Accounted.initial store, .inr (.inr (AllPending.initial store))⟩

lemma value_kept (hl : WorkerStep hash p l q)
    (h : (p.store.value (idKey name)).isSome = true) :
    (q.store.value (idKey name)).isSome = true := by
  cases step_cases hl with
  | exec w phase c awaited rest head =>
    have hlook : (exec p.store c).1.value (idKey name) =
        (storesAt (idKey name) c).or (p.store.value (idKey name)) :=
      (keyCell (idKey name)).look_exec p.store c
    rw [set_store, serve_fst, hlook]
    cases storesAt (idKey name) c with
    | none => exact h
    | some v => rfl
  | _ => exact h

theorem stored_step (h : Agreeing hash name z p) (hl : WorkerStep hash p l q) :
    (q.store.value (idKey name)).isSome = true ∨ Told (Stores name) q ∨
      AllPending (Registers name) (MissingReply name) (Stores name) (fun _ => False) q := by
  by_cases hsome : (p.store.value (idKey name)).isSome = true
  · exact .inl (value_kept hl hsome)
  · rcases h.stored.resolve_left hsome with told | pending
    · rcases told_step told hl with told | ⟨c, hstores, hstore⟩
      · exact .inr (.inl told)
      · left
        have hlook : (exec p.store c).1.value (idKey name) =
            (storesAt (idKey name) c).or (p.store.value (idKey name)) :=
          (keyCell (idKey name)).look_exec p.store c
        obtain ⟨v, hv⟩ := Option.isSome_iff_exists.mp hstores
        rw [hstore, serve_fst, hlook, hv]
        rfl
    · have hmissing : ∀ c, MissingReply name c (some (serve p.store c).2) := by
        rintro c rfl
        have hnone : p.store.value (idKey name) = none := by simpa using hsome
        simp [exec, Store.getReply, hnone, reply]
      rcases pending.steps hl registers_stores hmissing with pending | told
      · exact .inr (.inr pending)
      · exact .inr (.inl told)

theorem Agreeing.step (h : Agreeing hash name z p) (enqueues : EnqueuesOutside l)
    (hl : WorkerStep hash p l q) : Agreeing hash name z q := by
  have texts : Texts (Reads z) z := texts_reads h.one.settled
  have spares : ∀ j ∈ p.issued, Spares name j := by
    intro j hj
    have houtside := h.jobs j hj
    cases j with
    | insertData sid id value => exact (houtside name).1
    | _ => trivial
  refine ⟨issued_of_step hl enqueues h.jobs, h.one.step texts spares hl, ?_, ?_,
    h.accounted.step hl, stored_step h hl⟩
  · apply h.writes.step hl
    · exact fun w j _ hj => bindParamsAndRun_writes (h.jobs j (List.mem_of_getElem? hj))
    · exact fun _ _ _ _ _ _ _ _ _ _ => trivial
  · have halive := h.alive.steps hl (registers_returns texts) h.one.settled.serve
    refine halive.resolve_right ?_
    rintro ⟨w, x, _, hfalse⟩
    exact hfalse

theorem agreeing_of_run (settled : SettledText (Reads z) hash name z store)
    (run : Run (WorkerStep hash) (Pool.initial store) trace q)
    (outside : ∀ x ∈ trace, EnqueuesOutside x.2) : Agreeing hash name z q := by
  have preserved : ∀ (a : Workers ι) (l : Label ι Job) (b : Workers ι), Agreeing hash name z a →
      EnqueuesOutside l → WorkerStep hash a l b → Agreeing hash name z b :=
    fun _ _ _ h enqueues hl => h.step enqueues hl
  exact run.invariant (Agreeing.initial settled) preserved outside

/-- In every run, however the commands of the registrations interleave, all registrations of a
name are told one id, and Redis has it in the end. -/
theorem registrations_agree (settled : SettledText (Reads z) hash name z store)
    (run : Run (WorkerStep hash) (Pool.initial store) trace q)
    (outside : ∀ x ∈ trace, EnqueuesOutside x.2) : Agreed hash name z q := by
  have h := agreeing_of_run settled run outside
  constructor
  · rintro t j outcome hresult ⟨description, access, rfl⟩
    exact h.one.ids.results _ hresult rfl
  · intro rest t j hj hregisters hreached
    refine h.alive.returned h.accounted rest ?_ hj hregisters
    rcases hreached with ht | ⟨w, idle⟩
    · exact ht
    · rw [taken_of_rest h.accounted rest idle]
      exact (List.getElem?_eq_some_iff.mp hj).1
  · rintro rest ⟨t, j, outcome, hresult, hregisters⟩
    have hsome : (q.store.value (idKey name)).isSome = true := by
      rcases h.stored with hsome | ⟨w, x, hx, _⟩ | pending
      · exact hsome
      · rw [(h.alive.at_rest rest w).1] at hx
        cases hx
      · exact (pending.results _ hresult hregisters).elim
    rcases h.one.settled with hid | ⟨hnone, _⟩
    · exact hid
    · rw [hnone] at hsome
      cases hsome
  · exact h.writes.pipes

end Runs

/-- Two workers look for the id before either has stored one. -/
def bothAtOnce : List (Label Bool Job) :=
  [.enqueue registerMusic, .enqueue registerMusic, .take false, .take true, .send false,
    .send true, .exec false, .exec true, .resume true, .send true, .exec true, .resume false,
    .send false, .exec false, .exec false, .exec true, .exec true, .exec true, .exec false,
    .exec false, .finish true, .finish false]

lemma bothAtOnce_isSome : (follow (bindParamsAndRun List.length) serve
    (Pool.initial fresh : Workers Bool) bothAtOnce).isSome = true := by decide

theorem registrations_agree_bothAtOnce : Agreed List.length (bytes "music") 5
    (Option.get _ bothAtOnce_isSome) := by
  have settled : SettledText (Reads 5) List.length (bytes "music") 5 fresh :=
    .inr ⟨rfl, by decide⟩
  exact registrations_agree settled (follow_run (Option.some_get bothAtOnce_isSome).symm)
    fun x hx => musicJobs_outside bothAtOnce (by decide) x.2 (trail_labels x hx)

end ClientPrefs.RegistrationAgreement
