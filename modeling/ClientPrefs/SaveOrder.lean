import ClientPrefs.PoolOrder
import ClientPrefs.QueryThread

/-!
# The order of the saves of one key

`InsertData` queries are taken in the order in which they were enqueued, but each worker
sends its `SET` over a connection of its own.
-/
namespace ClientPrefs.SaveOrder
open ByteStrings Conversation Conv Cookies PoolOrder QueryThread RedisReply RedisStore Transition
open WorkerPool

abbrev Workers (ι : Type) := Pool ι Job Command Reply Outcome Store

def WorkerStep {ι : Type} [DecidableEq ι] (hash : Bytes → ℕ) (p : Workers ι) (l : Label ι Job)
    (q : Workers ι) : Prop := step (bindParamsAndRun hash) serve p l = some q

def storesAt (key : Bytes) : Command → Option Bytes
  | .set k v => if k = key then some v else none
  | .setEx k v _ => if k = key then some v else none
  | _ => none

def keyCell (key : Bytes) : Cell serve Bytes where
  look s := s.value key
  writes := storesAt key
  look_exec s c := by
    cases c with
    | get k => rfl
    | set k v =>
      simp only [serve_fst, exec, value_write, storesAt, eq_comm (a := key)]
      split_ifs <;> rfl
    | setEx k v seconds =>
      simp only [serve_fst, exec, value_write, storesAt, eq_comm (a := key)]
      split_ifs <;> rfl
    | sadd k m =>
      simp only [serve_fst, exec, storesAt]
      split_ifs <;> rfl
    | keys stem => rfl
    | evalsha sha k =>
      simp only [serve_fst, exec, storesAt]
      split_ifs
      · exact value_scriptLoop ..
      · rfl

/-- The value that a query saves under the key. -/
def savedAt (key : Bytes) : Job → Option Bytes
  | .insertData steamId id value =>
    if valueKey steamId (toText id) = key then some value else none
  | _ => none

def NotRegistry (key : Bytes) : Prop :=
  ∀ name, key ≠ idKey name ∧ key ≠ descKey name ∧ key ≠ accessKey name

variable {hash : Bytes → ℕ} {key : Bytes}

lemma promises_eq (j : Job) :
    (keyCell key).promises (bindParamsAndRun hash) j = (savedAt key j).toList := by
  cases j with
  | insertData sid id value =>
    by_cases hkey : valueKey sid (toText id) = key
    · simp [Cell.promises, bindParamsAndRun, insertData, append, returned, burst, keyCell,
        storesAt, savedAt, hkey]
    · simp [Cell.promises, bindParamsAndRun, insertData, append, returned, burst, keyCell,
        storesAt, savedAt, hkey]
  | _ => rfl

lemma flatMap_promises (hash : Bytes → ℕ) (js : List Job) :
    js.flatMap ((keyCell key).promises (bindParamsAndRun hash)) = js.filterMap (savedAt key) := by
  have heq : (keyCell key).promises (bindParamsAndRun hash) = fun j => (savedAt key j).toList :=
    funext promises_eq
  rw [heq]
  induction js with
  | nil => rfl
  | cons j js ih =>
    rw [List.flatMap_cons, ih]
    cases h : savedAt key j <;> simp [h]

lemma not_touches_get (k : Bytes) : ¬ (keyCell key).Touches (.get k) := by
  simp [keyCell, storesAt]

lemma bindParamsAndRun_quiet (h : NotRegistry key) {j : Job}
    (hj : ∀ sid id value, j ≠ .insertData sid id value) :
    (bindParamsAndRun hash j).Quiet (keyCell key).Touches := by
  cases j with
  | insertCookie name description access =>
    obtain ⟨hid, hdesc, haccess⟩ := h name
    have hsadd : ¬ (keyCell key).Touches (.sadd cookiesList name) := by simp [keyCell, storesAt]
    have hregister : ∀ x ∈ [Command.sadd cookiesList name, .set (accessKey name) (toText access),
        .set (descKey name) description, .set (idKey name) (toText (cookieHash hash name))],
        ¬ (keyCell key).Touches x := by
      simp [keyCell, storesAt, hid.symm, hdesc.symm, haccess.symm]
    apply Keeps.command_bind
    · exact not_touches_get _
    · intro r _
      split
      · trivial
      · refine ⟨by simpa using hsadd, ?_⟩
        split <;> trivial
      · exact ⟨hregister, trivial⟩
  | selectData sid =>
    apply selectData_asks
    · simp [keyCell, storesAt]
    · simp [keyCell, storesAt]
    · exact not_touches_get
  | insertData sid id value => exact absurd rfl (hj sid id value)
  | selectId name =>
    apply Keeps.command_bind
    · exact not_touches_get _
    · intro r _
      split <;> trivial

lemma bindParamsAndRun_early (h : NotRegistry key) (j : Job) :
    (bindParamsAndRun hash j).EarlyOnly (keyCell key).Touches := by
  cases j with
  | insertData sid id value => exact trivial
  | _ => exact (bindParamsAndRun_quiet h (by simp)).earlyOnly

/-- A worker owes a `SET` of the key: told or about to be told, not yet executed. -/
def Owes (key : Bytes) (x : Worker Job Command Reply Outcome) : Prop :=
  (keyCell key).owes x ≠ []

/-- A query that saves the key is taken only while no other worker owes a `SET` of it. -/
def SavesInTurn {ι : Type} (key : Bytes) (p : Workers ι) : Label ι Job → Prop
  | .take w => ∀ j, p.issued[p.taken]? = some j → (savedAt key j).isSome = true →
    ∀ v, v ≠ w → ¬ Owes key (p.workers v)
  | _ => True

variable {ι : Type} [DecidableEq ι] {store : Store} {q : Workers ι}
  {trace : List (Workers ι × Label ι Job)}

omit [DecidableEq ι] in
lemma savesInTurn_orderly {p : Workers ι} {l : Label ι Job} (h : SavesInTurn key p l) :
    OrderlyTake (keyCell key) (bindParamsAndRun hash) p l := by
  cases l with
  | take w =>
    intro j hj hpromises v hv
    rw [promises_eq] at hpromises
    have hsome : (savedAt key j).isSome = true := by
      cases hs : savedAt key j with
      | none => simp [hs] at hpromises
      | some value => rfl
    exact not_not.mp (h j hj hsome v hv)
  | _ => trivial

theorem ordered_of_run (hkey : NotRegistry key)
    (run : Run (WorkerStep hash) (Pool.initial store) trace q)
    (inTurn : ∀ x ∈ trace, SavesInTurn key x.1 x.2) :
    Ordered (keyCell key) (bindParamsAndRun hash) (store.value key) q := by
  have preserved : ∀ (a : Workers ι) (l : Label ι Job) (b : Workers ι),
      Ordered (keyCell key) (bindParamsAndRun hash) (store.value key) a →
      SavesInTurn key a l → WorkerStep hash a l b →
      Ordered (keyCell key) (bindParamsAndRun hash) (store.value key) b :=
    fun a l b h ok step => h.step step (bindParamsAndRun_early hkey) (savesInTurn_orderly ok)
  have first : Ordered (keyCell key) (bindParamsAndRun hash) (store.value key)
      (Pool.initial store : Workers ι) := Ordered.initial store
  exact run.invariant first preserved inTurn

omit [DecidableEq ι] in
/-- With one worker every query is taken in turn. -/
theorem savesInTurn_of_subsingleton [Subsingleton ι] (p : Workers ι) (l : Label ι Job) :
    SavesInTurn key p l := by
  cases l with
  | take w => exact fun _ _ _ v hv => absurd (Subsingleton.elim v w) hv
  | _ => trivial

/-- In every run in which the saves of a key are taken in turn, a stored value is never
overwritten by an older one, and once all saves of the key are executed it is the newest. -/
theorem last_save_wins (hkey : NotRegistry key)
    (run : Run (WorkerStep hash) (Pool.initial store) trace q)
    (inTurn : ∀ x ∈ trace, SavesInTurn key x.1 x.2) :
    (∃ past, past <+: q.issued.filterMap (savedAt key) ∧
      q.store.value key = past.getLast?.or (store.value key)) ∧
    ((∀ j ∈ q.issued.drop q.taken, savedAt key j = none) →
      (∀ w, ¬ Owes key (q.workers w)) →
      q.store.value key = (q.issued.filterMap (savedAt key)).getLast?.or (store.value key)) := by
  have ordered := ordered_of_run hkey run inTurn
  rw [← flatMap_promises hash]
  refine ⟨ordered.prefix_value, fun drained settled => ?_⟩
  apply ordered.last_value
  · rw [flatMap_promises, List.filterMap_eq_nil_iff]
    exact drained
  · exact fun w => not_not.mp (settled w)

lemma notRegistry_of_head (h : key.head? ≠ some 99) : NotRegistry key := by
  intro name
  refine ⟨?_, ?_, ?_⟩
  all_goals
    rintro rfl
    exact h rfl

def blank : Store := .empty [] .asStored

def musicKey : Bytes := valueKey (bytes "STEAM_1:0:7") (toText 5)

def saveMusic (value : String) : Job := .insertData (bytes "STEAM_1:0:7") 5 (bytes value)

/-- Two workers take one save each, the second one when the first is executed. -/
def inTurn : List (Label Bool Job) :=
  [.enqueue (saveMusic "old"), .enqueue (saveMusic "new"), .take false, .send false, .exec false,
    .take true, .finish false, .send true, .exec true, .finish true]

lemma inTurn_isSome : (follow (bindParamsAndRun List.length) serve
    (Pool.initial blank : Workers Bool) inTurn).isSome = true := by decide

def afterInTurn : Workers Bool := Option.get _ inTurn_isSome

/-- When a worker takes a query, the other one owes no `SET` of the key. -/
def otherSettled (key : Bytes) (p : Workers Bool) : Label Bool Job → Bool
  | .take w => (keyCell key).owes (p.workers !w) = []
  | _ => true

lemma savesInTurn_of_otherSettled {p : Workers Bool} {l : Label Bool Job}
    (h : otherSettled key p l = true) : SavesInTurn key p l := by
  cases l with
  | take w =>
    intro _ _ _ v hv
    obtain rfl := Bool.eq_not_of_ne hv
    exact not_not.mpr (of_decide_eq_true h)
  | _ => trivial

theorem last_save_wins_inTurn : afterInTurn.store.value musicKey =
    (afterInTurn.issued.filterMap (savedAt musicKey)).getLast?.or (blank.value musicKey) := by
  have run := follow_run (Option.some_get inTurn_isSome).symm
  have hkey : NotRegistry musicKey := notRegistry_of_head (by decide)
  have settled : ∀ x ∈ trail (bindParamsAndRun List.length) serve (Pool.initial blank) inTurn,
      otherSettled musicKey x.1 x.2 = true := by decide
  apply (last_save_wins hkey run fun x hx => savesInTurn_of_otherSettled (settled x hx)).2
  · decide
  · intro w
    cases w <;> exact not_not.mpr rfl

/-- Two workers take one save each; the newer one is executed first. -/
def crossed : List (Label Bool Job) :=
  [.enqueue (saveMusic "old"), .enqueue (saveMusic "new"), .take false, .take true, .send true,
    .exec true, .finish true, .send false, .exec false, .finish false]

lemma crossed_isSome : (follow (bindParamsAndRun List.length) serve
    (Pool.initial blank : Workers Bool) crossed).isSome = true := by decide

def afterCrossed : Workers Bool := Option.get _ crossed_isSome

theorem old_save_wins : ¬ ∀ (ι : Type) [DecidableEq ι] (hash : Bytes → ℕ) (key : Bytes)
    (store : Store) (q : Workers ι) (trace : List (Workers ι × Label ι Job)),
    NotRegistry key → Run (WorkerStep hash) (Pool.initial store) trace q →
    (∀ j ∈ q.issued.drop q.taken, savedAt key j = none) →
    (∀ w, ¬ Owes key (q.workers w)) →
    q.store.value key = (q.issued.filterMap (savedAt key)).getLast?.or (store.value key) := by
  intro h
  have run := follow_run (Option.some_get crossed_isSome).symm
  have hkey : NotRegistry musicKey := notRegistry_of_head (by decide)
  have hdrained : ∀ j ∈ afterCrossed.issued.drop afterCrossed.taken,
      savedAt musicKey j = none := by decide
  have hsettled : ∀ w, ¬ Owes musicKey (afterCrossed.workers w) := by
    intro w
    cases w <;> exact not_not.mpr rfl
  have hlast : afterCrossed.store.value musicKey =
      (afterCrossed.issued.filterMap (savedAt musicKey)).getLast?.or (blank.value musicKey) :=
    h Bool List.length musicKey blank _ _ hkey run hdrained hsettled
  revert hlast
  decide

end ClientPrefs.SaveOrder
