import ClientPrefs.FreshLoads
import ClientPrefs.LoadedRows

/-!
# The registry while the extension runs

The extension, its queries executed one at a time, over a Redis whose registry is in order. A
cookie is registered there from the execution of its query on. The loaded scripts may change
between two moves, so that a load takes the one way or the other.
-/
namespace ClientPrefs.SerialRegistry
open ByteStrings Cookies CookieIds CookieManager CookieTable Extension FreshLoads LoadedRows
open LoadIsolation
open PendingSaves QueryThread ReadPaths RedisReply RedisStore RegisteredIds Registration SaveOrder
open SerialQueries Session SlotTables SlotValues SoloRuns Transition

/-- A move while Redis has these scripts. -/
def ScriptStep (cfg : Config) (s : Serial) (x : List Bytes × Move) (t : Serial) : Prop :=
  SerialStep cfg (withScripts s x.1) x.2 t

/-- No value was handed over under a key of the registry. -/
def Sparing (m : Server) : Prop :=
  ∀ sid id a, .insertData sid id a ∈ m.sent → NotRegistry (valueKey sid (toText id))

/-- What the executed queries have left behind. -/
structure Recorded (cfg : Config) (s : Serial) : Prop where
  queued : Queued cfg s
  whole : AllWhole s.main
  enrols : Enrols s.main
  kept : Sparing s.main → Kept s.store
  listed : Sparing s.main → ∀ k c outcome, (k, .insertCookie c, outcome) ∈ s.results →
    (s.store.value (idKey (s.main.cookies c).name)).isSome = true

variable {cfg : Config} {s t : Serial} {x : List Bytes × Move} {roster : ℕ → Option Player}
  {spent : List ℕ} {store : Store} {trace : List (Serial × List Bytes × Move)} {c : CookieRef}

lemma Recorded.wf (h : Recorded cfg s) : Wf s.main := h.queued.orderly.coupled.wf

lemma Recorded.withScripts (h : Recorded cfg s) (scripts : List Bytes) :
    Recorded cfg (withScripts s scripts) where
  queued := h.queued.withScripts scripts
  whole := h.whole
  enrols := h.enrols
  kept sparing := (h.kept sparing).scripts scripts
  listed := h.listed

lemma Recorded.begin (roster : ℕ → Option Player) (spent : List ℕ) (kept : Kept store) :
    Recorded cfg (begin roster spent store) where
  queued := Queued.begin roster spent store
  whole := allWhole_start roster spent
  enrols c hc := absurd hc (Nat.not_lt_zero c)
  kept _ := kept
  listed _ _ _ _ hmem := absurd hmem List.not_mem_nil

theorem extends_of_step (queued : Queued cfg s) {m : Move} (step : SerialStep cfg s m t) :
    s.main.sent <+: t.main.sent ∧ s.main.cookieCount ≤ t.main.cookieCount ∧
      ∀ c, c < s.main.cookieCount → (t.main.cookies c).name = (s.main.cookies c).name := by
  rcases queued.orderly.cases step with ⟨e, _, ⟨allowed, hmain⟩, _⟩ | ⟨q, outcome, _, _, _, rfl⟩
  · have ext := Extends.apply queued.orderly.coupled.wf allowed
    rw [hmain]
    exact ⟨ext.sent, ext.count, ext.names⟩
  · exact ⟨List.prefix_rfl, le_rfl, fun _ _ => rfl⟩

lemma Sparing.of_prefix {m m' : Server} (h : Sparing m') (sent : m.sent <+: m'.sent) :
    Sparing m := fun sid id a hmem => h sid id a (sent.subset hmem)

lemma fromMain_of_sparing {m : Server} (whole : AllWhole m) (sparing : Sparing m) {q : Query}
    (hq : q ∈ m.sent) : FromMain (jobOf m q) := by
  cases q with
  | insertCookie c => exact whole c
  | insertData sid id a => exact sparing sid id a hq
  | _ => trivial

lemma Kept.fromMain {hash : Bytes → ℕ} {u : Store} (h : Kept u) {j : Job} (main : FromMain j) :
    Kept (storeAfter hash u j) := by
  apply h.after
  · rintro n d a rfl
    exact main
  · rintro sid id value rfl
    exact main

/-- What one query makes of the id of a name. -/
theorem id_storeAfter {hash : Bytes → ℕ} {u : Store} {j : Job} (main : FromMain j)
    (name : Bytes) : (storeAfter hash u j).value (idKey name) = (u.value (idKey name)).or
      (match j with
        | .insertCookie n _ _ => if name = n then some (toText (cookieHash hash n)) else none
        | _ => none) := by
  cases j with
  | insertCookie n d a =>
    simp only [storeAfter]
    split_ifs with hknown hname hname
    · obtain ⟨id, hid⟩ := Option.isSome_iff_exists.mp hknown
      rw [hname, hid, Option.some_or]
    · rw [Option.or_none]
    · rw [enrolled_id, if_pos hname, hname, Option.not_isSome_iff_eq_none.mp hknown, Option.none_or]
    · rw [enrolled_id, if_neg hname, Option.or_none]
  | insertData sid id value =>
    rw [storeAfter, value_write, if_neg fun heq => (main name).1 heq.symm, Option.or_none]
  | selectData sid => exact Option.or_none.symm
  | selectId n => exact Option.or_none.symm

lemma Recorded.execute (h : Recorded cfg s) {q : Query} (outcome : Outcome)
    (hq : s.main.sent[s.results.length]? = some q) (sparing : Sparing s.main) :
    Kept (solo serve s.store (convOf cfg s.main q)).1 ∧ ∀ k c outcome',
      (k, .insertCookie c, outcome') ∈ s.results ++ [(s.results.length, q, outcome)] →
      ((solo serve s.store (convOf cfg s.main q)).1.value
        (idKey (s.main.cookies c).name)).isSome = true := by
  have kept : Kept s.store := h.kept sparing
  have main : FromMain (jobOf s.main q) :=
    fromMain_of_sparing h.whole sparing (List.mem_of_getElem? hq)
  have hstore : (solo serve s.store (convOf cfg s.main q)).1 =
      storeAfter cfg.hash s.store (jobOf s.main q) := solo_store kept _
  rw [hstore]
  constructor
  · exact Kept.fromMain kept main
  · intro k c outcome' hmem
    rw [id_storeAfter main]
    rcases List.mem_append.mp hmem with hmem | hmem
    · obtain ⟨id, hid⟩ := Option.isSome_iff_exists.mp (h.listed sparing k c outcome' hmem)
      rw [hid]
      rfl
    · obtain ⟨_, rfl, _⟩ : _ ∧ Query.insertCookie c = q ∧ _ := by simpa using hmem
      simp only [jobOf, if_pos]
      cases s.store.value (idKey (s.main.cookies c).name) <;> rfl

lemma Recorded.serial (h : Recorded cfg s) {m : Move} (step : SerialStep cfg s m t) :
    Recorded cfg t := by
  obtain ⟨hsent, _, hnames⟩ := extends_of_step h.queued step
  have queued : Queued cfg t := h.queued.step step
  rcases h.queued.orderly.cases step with ⟨e, _, ⟨allowed, hmain⟩, ht⟩ | ⟨q, outcome, _, hq, _, rfl⟩
  · have hstore : t.store = s.store := by rw [ht]
    have hresults : t.results = s.results := by rw [ht]
    refine ⟨queued, hmain ▸ h.whole.apply h.wf allowed, hmain ▸ h.enrols.apply h.wf allowed,
      fun sparing => hstore ▸ h.kept (sparing.of_prefix hsent), fun sparing k c outcome hmem => ?_⟩
    rw [hresults] at hmem
    have hquery := (h.queued.orderly.coupled.answered.results _ hmem).1
    have hc : c < s.main.cookieCount :=
      h.queued.orderly.coupled.registers c (List.mem_of_getElem? hquery)
    rw [hstore, hnames c hc]
    exact h.listed (sparing.of_prefix hsent) k c outcome hmem
  · exact ⟨queued, h.whole, h.enrols, fun sparing => (h.execute outcome hq sparing).1,
      fun sparing => (h.execute outcome hq sparing).2⟩

theorem Recorded.step (h : Recorded cfg s) (step : ScriptStep cfg s x t) : Recorded cfg t :=
  (h.withScripts x.1).serial step

theorem Recorded.run (h : Recorded cfg s) (run : Run (ScriptStep cfg) s trace t) :
    Recorded cfg t := by
  have preserved : ∀ (a : Serial) (x : List Bytes × Move) (b : Serial), Recorded cfg a →
      ScriptStep cfg a x b → Recorded cfg b := fun _ _ _ h step => h.step step
  exact run.stable h preserved

lemma Recorded.registered (h : Recorded cfg s) (sparing : Sparing s.main) {k : ℕ}
    (hk : k < s.results.length) (hquery : s.main.sent[k]? = some (.insertCookie c)) :
    (s.store.value (idKey (s.main.cookies c).name)).isSome = true := by
  have hticket : k ∈ s.results.map Prod.fst := by
    rw [h.queued.orderly.tickets]
    exact List.mem_range.mpr hk
  obtain ⟨⟨k', q, outcome⟩, hmem, rfl⟩ := List.mem_map.mp hticket
  have hq := (h.queued.orderly.coupled.answered.results _ hmem).1
  obtain rfl : q = .insertCookie c := Option.some.inj (hq.symm.trans hquery)
  exact h.listed sparing k' c outcome hmem

theorem session_of_run (run : Run (ScriptStep cfg) (begin roster spent store) trace s) :
    ∃ events, Run (Session.Step cfg) (start roster spent) events s.main := by
  have preserved : ∀ (a : Serial) (x : List Bytes × Move) (b : Serial),
      (Queued cfg a ∧ ∃ events, Run (Session.Step cfg) (start roster spent) events a.main) →
      ScriptStep cfg a x b →
      Queued cfg b ∧ ∃ events, Run (Session.Step cfg) (start roster spent) events b.main := by
    intro a x b hboth step
    obtain ⟨queued, events, prior⟩ := hboth
    have queued' : Queued cfg (withScripts a x.1) := queued.withScripts x.1
    refine ⟨queued'.step step, ?_⟩
    rcases queued'.orderly.cases step with ⟨e, _, hstep, _⟩ | ⟨q, outcome, _, _, _, rfl⟩
    · exact ⟨_, prior.snoc hstep⟩
    · exact ⟨events, prior⟩
  exact (run.stable ⟨Queued.begin roster spent store, [], .refl⟩ preserved).2

theorem found_of_run (queued : Queued cfg s) (hc : c < s.main.cookieCount)
    (run : Run (ScriptStep cfg) s trace t) (name : Bytes) :
    findCookie cfg t.main name = some c ↔ findCookie cfg s.main name = some c := by
  have preserved : ∀ (a : Serial) (x : List Bytes × Move) (b : Serial),
      Queued cfg a ∧ c < a.main.cookieCount ∧
        (findCookie cfg a.main name = some c ↔ findCookie cfg s.main name = some c) →
      ScriptStep cfg a x b → Queued cfg b ∧ c < b.main.cookieCount ∧
        (findCookie cfg b.main name = some c ↔ findCookie cfg s.main name = some c) := by
    intro a x b hall step
    obtain ⟨hqueued, hca, hfound⟩ := hall
    have queued' : Queued cfg (withScripts a x.1) := hqueued.withScripts x.1
    refine ⟨queued'.step step, hca.trans_le (extends_of_step queued' step).2.1, ?_⟩
    rcases queued'.orderly.cases step with ⟨e, _, ⟨allowed, hmain⟩, _⟩ | ⟨q, outcome, _, _, _, rfl⟩
    · rw [hmain, ← hfound]
      exact found_apply hqueued.orderly.coupled.wf hca allowed name
    · exact hfound
  exact (run.stable ⟨queued, hc, Iff.rfl⟩ preserved).2.2

def after (s : Serial) (x : List Bytes × Move) : Serial := x.2.apply oneSlot (withScripts s x.1)

def possible (s : Serial) (x : List Bytes × Move) : Prop :=
  x.2.Allowed oneSlot (withScripts s x.1)

lemma executes {s : Serial} (h : ((s.next oneSlot).any fun x => x.2.2.isSome) = true) :
    Move.execute.Allowed oneSlot s := by
  cases hn : s.next oneSlot with
  | none => simp [hn] at h
  | some x =>
    have hsome : x.2.2.isSome = true := by simpa [hn] using h
    obtain ⟨outcome, hout⟩ := Option.isSome_iff_exists.mp hsome
    exact ⟨x.1, x.2.1, outcome, by rw [hn, ← hout]⟩

def registering : List (List Bytes × Move) :=
  [([], .main (.createCookie (bytes "music") [] 0)), ([], .execute),
    ([], .deliver 0 (.insertCookie 0) ⟨true, 5, []⟩)]

lemma registering_possible : Enactable after possible (begin (fun _ => none) [] blank)
    registering := by
  refine ⟨⟨trivial, trivial⟩, executes (by decide +kernel), ⟨by decide +kernel, ?_⟩, trivial⟩
  exact List.mem_singleton_self _

def known : Serial := enact after (begin (fun _ => none) [] blank) registering

theorem registering_run : Run (ScriptStep oneSlot) (begin (fun _ => none) [] blank)
    (enactTrace after (begin (fun _ => none) [] blank) registering) known :=
  enact_run registering_possible

lemma delivers_result {s : Serial} {r : ℕ × Query × Outcome} {k : ℕ} {q : Query}
    (first : k ∉ s.main.finished) (h : r ∈ s.results) (hr : (r.1, r.2.1) = (k, q)) :
    possible s ([], .deliver k q r.2.2) := by
  obtain ⟨rfl, rfl⟩ := Prod.mk.inj hr
  exact ⟨first, h⟩

end ClientPrefs.SerialRegistry
