import ClientPrefs.SerialRegistry
import ClientPrefs.TableLinks

/-!
# Writes for players who are not there

`SetAuthIdCookie` hands the value over at once, under the identifier it was given and the id
that the cookie has at that moment. A later load of the player looks under the player's own
steam id and the id that Redis has for the cookie.
-/
namespace ClientPrefs.OfflineWrites
open ByteStrings Cookies CookieManager CookieTable LateLoad LoadIsolation Loads LoadedRows
open PendingSaves QueryThread ReadPaths RedisReply RedisStore RegisteredIds SaveOrder
open SerialQueries SerialRegistry Session SlotTables SlotValues SoloRuns Transition

def SavesTo (key : Bytes) : Query → Prop
  | .insertData sid id _ => valueKey sid (toText id) = key
  | _ => False

/-- No value for the key is handed over. -/
def NoWrite (cfg : Config) (key : Bytes) (s : Serial) (x : List Bytes × Move) : Prop :=
  ∀ q ∈ newSaves cfg s x.2, ¬ SavesTo key q

/-- For a cookie that the name leads to, the rows end with this value. -/
def Brings (cfg : Config) (name : Bytes) (value : Option Bytes) (rows : List (Cookie × Bytes)) :
    Prop :=
  ∃ w, storedValue w = storedValue (value.getD []) ∧
    ∀ m c, findCookie cfg m name = some c → lastRow cfg m c rows = some w

/-- Nothing was written under the key since `base`, and the loads made since then bring what was
due there. -/
structure Waits (cfg : Config) (base : Serial) (name sid : Bytes) (z : ℤ) (u : Serial) :
    Prop where
  recorded : Recorded cfg u
  grown : base.main.sent <+: u.main.sent
  steady : due u (valueKey sid (toText z)) = due base (valueKey sid (toText z))
  quiet : ∀ q ∈ u.main.sent.drop base.main.sent.length, ¬ SavesTo (valueKey sid (toText z)) q
  settled : Sparing u.main → Settled cfg.hash name z u.store
  loads : Sparing u.main → ∀ k serial outcome, (k, .selectData serial sid, outcome) ∈ u.results →
    base.main.sent.length ≤ k →
    Brings cfg name (due base (valueKey sid (toText z))) outcome.results

variable {cfg : Config} {s t u base : Serial} {x : List Bytes × Move} {name sid : Bytes} {z : ℤ}
  {c : CookieRef} {key : Bytes}

theorem savedBy_eq_none_iff {q : Query} {m : Server} :
    savedBy key m q = none ↔ ¬ SavesTo key q := by
  cases q with
  | insertData sid id a => simp [savedBy, jobOf, savedAt, SavesTo]
  | _ => simp [savedBy, jobOf, savedAt, SavesTo]

lemma settled_storeAfter {hash : Bytes → ℕ} {store : Store} {j : Job} (main : FreshLoads.FromMain j)
    (settled : Settled hash name z store) : Settled hash name z (storeAfter hash store j) := by
  unfold Settled
  rw [id_storeAfter main]
  rcases settled with hid | ⟨hnone, rfl⟩
  · exact .inl (by rw [hid, Option.some_or])
  · rw [hnone, Option.none_or]
    cases j with
    | insertCookie n d a =>
      by_cases hname : name = n
      · exact .inl (by simp [hname])
      · exact .inr (by simp [hname])
    | _ => exact .inr ⟨rfl, rfl⟩

lemma value_of_quiet (h : Waits cfg base name sid z u)
    (hlate : base.main.sent.length ≤ u.results.length) :
    u.store.value (valueKey sid (toText z)) = due u (valueKey sid (toText z)) := by
  have hnone : (pending u).filterMap (savedBy (valueKey sid (toText z)) u.main) = [] := by
    refine List.filterMap_eq_nil_iff.mpr fun q hq => savedBy_eq_none_iff.mpr (h.quiet q ?_)
    have hdrop : pending u = (u.main.sent.drop base.main.sent.length).drop
        (u.results.length - base.main.sent.length) := by
      rw [pending, List.drop_drop, Nat.add_sub_cancel' hlate]
    rw [hdrop] at hq
    exact List.mem_of_mem_drop hq
  rw [due, hnone]
  rfl

/-- A load that is executed now brings what was due. -/
theorem brings_of_execute (h : Waits cfg base name sid z u) (sparing : Sparing u.main)
    (hlate : base.main.sent.length ≤ u.results.length)
    (registered : (u.store.value (idKey name)).isSome = true) {outcome : Outcome}
    (hout : (solo serve u.store (selectData scriptSha sid)).2 = some outcome) :
    Brings cfg name (due base (valueKey sid (toText z))) outcome.results := by
  have hid : u.store.value (idKey name) = some (toText z) := by
    rcases h.settled sparing with hid | ⟨hnone, _⟩
    · exact hid
    · rw [hnone] at registered
      cases registered
  refine ⟨_, ?_, fun m c leads => lastRow_of_select (h.recorded.kept sparing) leads hid hout⟩
  rw [storedValue_read, value_of_quiet h hlate, h.steady]

lemma Waits.here (recorded : Recorded cfg base) (settled : Settled cfg.hash name z base.store) :
    Waits cfg base name sid z base where
  recorded := recorded
  grown := List.prefix_rfl
  steady := rfl
  quiet := by simp
  settled _ := settled
  loads _ k serial outcome hmem hlate := by
    have hlt := recorded.queued.orderly.lt hmem
    have hle := recorded.queued.orderly.executed
    omega

lemma Waits.withScripts (h : Waits cfg base name sid z u) (scripts : List Bytes) :
    Waits cfg base name sid z (withScripts u scripts) :=
  ⟨h.recorded.withScripts scripts, h.grown, h.steady, h.quiet, h.settled, h.loads⟩

lemma Waits.serial (h : Waits cfg base name sid z u)
    (outside : NotRegistry (valueKey sid (toText z))) (enrolled : .insertCookie c ∈ base.main.sent)
    (hname : (u.main.cookies c).name = name) {m : Move}
    (quiet : ∀ q ∈ newSaves cfg u m, ¬ SavesTo (valueKey sid (toText z)) q)
    (step : SerialStep cfg u m t) : Waits cfg base name sid z t := by
  have queued : Queued cfg u := h.recorded.queued
  have hsent := (extends_of_step queued step).1
  have hdue : due t (valueKey sid (toText z)) = due u (valueKey sid (toText z)) := by
    have hnone : (newSaves cfg u m).filterMap (savedBy (valueKey sid (toText z)) t.main) = [] :=
      List.filterMap_eq_nil_iff.mpr fun q hq => savedBy_eq_none_iff.mpr (quiet q hq)
    rw [due_step queued step outside, hnone]
    rfl
  have hquiet : ∀ q ∈ t.main.sent.drop base.main.sent.length,
      ¬ SavesTo (valueKey sid (toText z)) q := by
    obtain ⟨new, hnew, hsaves⟩ := saves_step queued step
    rw [hnew, List.drop_append_of_le_length h.grown.length_le]
    intro q hq hto
    rcases List.mem_append.mp hq with hq | hq
    · exact h.quiet q hq hto
    · have hsave : isSave q = true := by
        cases q with
        | insertData sid' id a => rfl
        | _ => exact hto.elim
      exact quiet q (hsaves ▸ List.mem_filter.mpr ⟨hq, hsave⟩) hto
  rcases queued.orderly.cases step with ⟨e, _, _, ht⟩ | ⟨q, outcome, _, hq, hout, rfl⟩
  · have hstore : t.store = u.store := by rw [ht]
    have hresults : t.results = u.results := by rw [ht]
    refine ⟨h.recorded.serial step, h.grown.trans hsent, hdue.trans h.steady, hquiet, ?_, ?_⟩
    · rw [hstore]
      exact fun sparing => h.settled (sparing.of_prefix hsent)
    · rw [hresults]
      exact fun sparing => h.loads (sparing.of_prefix hsent)
  · refine ⟨h.recorded.serial step, h.grown, hdue.trans h.steady, hquiet, fun sparing => ?_,
      fun sparing k serial outcome' hmem hlate => ?_⟩
    · have hstore : (solo serve u.store (Extension.convOf cfg u.main q)).1 =
          storeAfter cfg.hash u.store (jobOf u.main q) := solo_store (h.recorded.kept sparing) _
      rw [hstore]
      exact settled_storeAfter
        (fromMain_of_sparing h.recorded.whole sparing (List.mem_of_getElem? hq)) (h.settled sparing)
    · rcases List.mem_append.mp hmem with hmem | hmem
      · exact h.loads sparing k serial outcome' hmem hlate
      · obtain ⟨rfl, rfl, rfl⟩ : k = u.results.length ∧ Query.selectData serial sid = q ∧
            outcome' = outcome := by simpa using hmem
        obtain ⟨j, hj⟩ := List.mem_iff_getElem?.mp enrolled
        have hlt : j < base.main.sent.length := (List.getElem?_eq_some_iff.mp hj).1
        have hquery : u.main.sent[j]? = some (.insertCookie c) := by
          obtain ⟨more, hmore⟩ := h.grown
          rw [← hmore, List.getElem?_append_left hlt, hj]
        have registered := h.recorded.registered sparing (hlt.trans_le hlate) hquery
        rw [hname] at registered
        exact brings_of_execute h sparing hlate registered hout

theorem Waits.run {trace : List (Serial × List Bytes × Move)} (h : Waits cfg base name sid z base)
    (outside : NotRegistry (valueKey sid (toText z))) (hc : c < base.main.cookieCount)
    (hname : (base.main.cookies c).name = name)
    (quiet : ∀ x ∈ trace, NoWrite cfg (valueKey sid (toText z)) x.1 x.2)
    (run : Run (ScriptStep cfg) base trace u) :
    Waits cfg base name sid z u ∧ c < u.main.cookieCount ∧ (u.main.cookies c).name = name := by
  have preserved : ∀ (a : Serial) (x : List Bytes × Move) (b : Serial),
      Waits cfg base name sid z a ∧ c < a.main.cookieCount ∧ (a.main.cookies c).name = name →
      NoWrite cfg (valueKey sid (toText z)) a x → ScriptStep cfg a x b →
      Waits cfg base name sid z b ∧ c < b.main.cookieCount ∧ (b.main.cookies c).name = name := by
    intro a x b hall quiet step
    obtain ⟨waits, hca, hnamea⟩ := hall
    have waits' := waits.withScripts x.1
    obtain ⟨_, hcount, hnames⟩ := extends_of_step waits'.recorded.queued step
    have hsame : newSaves cfg (PendingSaves.withScripts a x.1) x.2 = newSaves cfg a x.2 := by
      cases x.2 <;> rfl
    refine ⟨waits'.serial outside (h.recorded.enrols c hc) hnamea ?_ step, hca.trans_le hcount,
      (hnames c hca).trans hnamea⟩
    rw [hsame]
    exact quiet
  exact run.invariant ⟨h, hc, hname⟩ preserved quiet

section Call
variable {roster : ℕ → Option Player} {spent : List ℕ} {store : Store} {authId v : Bytes} {now : ℕ}
  {past rest : List (Serial × List Bytes × Move)} {scripts scripts' : List Bytes} {i k : ℕ}
  {p : Player} {outcome : QueryThread.Outcome}

lemma due_call (queued : Queued cfg s) (outside : NotRegistry key)
    (offline : isAuthIdConnected cfg (attemptReconnection cfg s.main) authId = some 0)
    (call : SerialStep cfg s (.main (.setAuthIdCookie authId c v now)) base) :
    due base key = (if valueKey (steamIdParam (some authId)) (toText (s.main.cookies c).dbid) = key
      then some (storedValue v) else none).or (due s key) := by
  have hsaves : newSaves cfg s (.main (.setAuthIdCookie authId c v now)) =
      [.insertData (steamIdParam (some authId)) (s.main.cookies c).dbid s.main.nextData] := by
    simp only [newSaves, savesOf, offline, if_true]
  have hheap : base.main.heap s.main.nextData = some ⟨storedValue v, true, now, c⟩ := by
    obtain ⟨_, hnext, _⟩ := heap_attemptReconnection cfg s.main
    rw [call.2]
    simp only [Move.apply, Event.apply, setAuthIdCookie, offline, Option.map_some,
      Option.getD_some, ne_eq, not_true, if_false]
    simp [Server.addQueryToQueue, Server.newData, hnext]
  rw [due_step queued call outside, hsaves]
  have hsaved : savedBy key base.main
      (.insertData (steamIdParam (some authId)) (s.main.cookies c).dbid s.main.nextData) =
      if valueKey (steamIdParam (some authId)) (toText (s.main.cookies c).dbid) = key
        then some (storedValue v) else none := by
    simp [savedBy, jobOf, savedAt, hheap]
  split_ifs at hsaved ⊢ with hkey
  · rw [List.filterMap_cons_some hsaved]
    rfl
  · rw [List.filterMap_cons_none hsaved]
    rfl

lemma select_late (addressed : Addressed base.main) (hspent : p.serial ∉ base.main.spent)
    (grown : base.main.sent <+: u.main.sent)
    (hquery : u.main.sent[k]? = some (.selectData p.serial sid)) :
    base.main.sent.length ≤ k := by
  by_contra hlt
  obtain ⟨more, hmore⟩ := grown
  rw [← hmore, List.getElem?_append_left (Nat.lt_of_not_le hlt)] at hquery
  exact hspent (addressed p.serial sid (List.mem_of_getElem? hquery)).1

lemma entryAt_load (recorded : Recorded cfg u) (host : Host cfg u.main)
    (hp : u.main.roster i = some p) (hc : c < u.main.cookieCount)
    (load : ScriptStep cfg u (scripts, .deliver k (.selectData p.serial sid) outcome) t) :
    (∀ row ∈ outcome.results, Whole row.1.name) ∧
      entryAt t.main c i =
        ((lastRow cfg u.main c outcome.results).map fun w => ⟨storedValue w, false, 0, c⟩).or
          (entryAt u.main c i) := by
  obtain ⟨⟨hfirst, hresult⟩, rfl⟩ := load
  obtain ⟨hquery, talk, talks⟩ := recorded.queued.orderly.coupled.answered.results _ hresult
  have allowed : (Event.think k talk outcome).Allowed cfg u.main := ⟨hfirst, _, hquery, talks⟩
  have hclient : getClientFromSerial cfg u.main p.serial = i ∧ i ≠ 0 := by
    rcases getClientFromSerial_spec host p.serial with ⟨_, hnobody⟩ | ⟨hpos, q, hq, hserial⟩
    · exact absurd rfl (hnobody i p hp)
    · obtain rfl := host.distinct _ _ q p hq hp hserial
      exact ⟨rfl, hpos⟩
  have delivers : Delivers cfg u.main i outcome.results (.think k talk outcome) :=
    ⟨rfl, hclient.2, p.serial, sid, hquery, hclient.1⟩
  refine ⟨TableLinks.whole_of_delivers allowed delivers, ?_⟩
  have hentry := entryAt_delivers recorded.wf hc delivers i
  rwa [if_pos rfl] at hentry

/-- When the player has come and the load is there, the value is the one that was set exactly
when it went to the key that the load reads, or when the same value was due there anyway. A
cookie that its name does not lead to is not touched by the load. -/
theorem offline_write_read_iff (host : Host cfg (start roster spent)) (kept : Kept store)
    (before : Run (ScriptStep cfg) (begin roster spent store) past s)
    (settled : Settled cfg.hash (s.main.cookies c).name z s.store)
    (offline : isAuthIdConnected cfg (attemptReconnection cfg s.main) authId = some 0)
    (call : ScriptStep cfg s (scripts, .main (.setAuthIdCookie authId c v now)) base)
    (after : Run (ScriptStep cfg) base rest u)
    (quiet : ∀ x ∈ rest, NoWrite cfg (valueKey (steamIdOf p) (toText z)) x.1 x.2)
    (hp : u.main.roster i = some p) (absent : p.serial ∉ s.main.spent)
    (load : ScriptStep cfg u (scripts', .deliver k (.selectData p.serial sid) outcome) t)
    (sparing : Sparing u.main) (outside : NotRegistry (valueKey (steamIdOf p) (toText z))) :
    (getCookieValue t.main c i).2 = storedValue v ↔
      if findCookie cfg s.main (s.main.cookies c).name = some c then
        steamIdParam (some authId) = steamIdOf p ∧ (s.main.cookies c).dbid = z ∨
          storedValue ((due s (valueKey (steamIdOf p) (toText z))).getD []) = storedValue v
      else (getCookieValue u.main c i).2 = storedValue v := by
  have recorded : Recorded cfg s := (Recorded.begin roster spent kept).run before
  have recordedBase : Recorded cfg base := recorded.step call
  have queued : Queued cfg (withScripts s scripts) := recorded.queued.withScripts scripts
  have hallowed : (Event.setAuthIdCookie authId c v now).Allowed cfg s.main := call.1.2
  have hc : c < s.main.cookieCount := hallowed.1
  obtain ⟨hsent, hcount, hnames⟩ := extends_of_step queued call
  have hcBase : c < base.main.cookieCount := hc.trans_le hcount
  have hnameBase : (base.main.cookies c).name = (s.main.cookies c).name := hnames c hc
  have hbase : base.main = (Event.setAuthIdCookie authId c v now).apply cfg s.main := by
    rw [call.2]
    rfl
  have hstore : base.store = { s.store with scripts := scripts } := by
    rw [call.2]
    rfl
  have first : Waits cfg base (s.main.cookies c).name (steamIdOf p) z base :=
    Waits.here recordedBase (hstore ▸ settled)
  obtain ⟨waits, hcu, hnameu⟩ := first.run outside hcBase hnameBase quiet after
  have runBase := before.snoc call
  obtain ⟨_, sessionBase⟩ := session_of_run runBase
  obtain ⟨_, sessionU⟩ := session_of_run (runBase.trans after)
  obtain ⟨_, _, addressedBase⟩ := Addressed.reachable host sessionBase
  obtain ⟨_, hostU, addressedU⟩ := Addressed.reachable host sessionU
  have hquery : u.main.sent[k]? = some (.selectData p.serial sid) :=
    (waits.recorded.queued.orderly.coupled.answered.results _ load.1.2).1
  obtain rfl : steamIdOf p = sid :=
    (addressedU p.serial sid (List.mem_of_getElem? hquery)).2 i p hp rfl
  have hspent : base.main.spent = s.main.spent := by
    have hhost : hostOf base.main = hostOf s.main := by
      rw [hbase]
      exact hostOf_apply recorded.wf hallowed
    exact congrArg (fun x => x.2.2) hhost
  have hlate : base.main.sent.length ≤ k :=
    select_late addressedBase (hspent ▸ absent) waits.grown hquery
  obtain ⟨w, hw, brings⟩ := waits.loads sparing k p.serial outcome load.1.2 hlate
  obtain ⟨whole, hentry⟩ := entryAt_load waits.recorded hostU hp hcu load
  have hfound := found_of_run recorded.queued hc ((Run.one call).trans after) (s.main.cookies c).name
  rw [getCookieValue_snd, hentry]
  split_ifs with leads
  · have hdue := due_call queued outside offline call
    rw [brings u.main c (hfound.mpr leads), Option.map_some, Option.some_or, Option.map_some,
      Option.getD_some]
    dsimp only
    rw [hw, hdue]
    have hsaved : (withScripts s scripts).main = s.main := rfl
    by_cases hsame : valueKey (steamIdParam (some authId)) (toText (s.main.cookies c).dbid) =
        valueKey (steamIdOf p) (toText z)
    · rw [hsaved, if_pos hsame, Option.some_or, Option.getD_some]
      exact iff_of_true (storedValue_idem v) (.inl (valueKey_inj.mp hsame))
    · rw [hsaved, if_neg hsame, Option.none_or, due_withScripts]
      exact ⟨.inr, fun h => h.resolve_left fun hboth => hsame (valueKey_inj.mpr hboth)⟩
  · have hnot : findCookie cfg u.main (u.main.cookies c).name ≠ some c := by
      rw [hnameu]
      exact fun h => leads (hfound.mp h)
    rw [lastRow_of_not_found whole hnot, Option.map_none, Option.none_or, getCookieValue_snd]

end Call

def identifier : Bool → Bytes
  | true => bytes "STEAM_1:0:7"
  | false => bytes "[U:1:14]"

def calling (own : Bool) : List Bytes × Move :=
  ([], .main (.setAuthIdCookie (identifier own) 0 (bytes "on") 0))

def arriving : List (List Bytes × Move) :=
  [([], .execute), ([], .main (.connect 1 newcomer7)), ([], .main (.authorize 1)), ([], .execute)]

lemma calling_possible (own : Bool) : possible known (calling own) := by
  cases own <;> exact ⟨trivial, by decide +kernel, by decide +kernel⟩

def called (own : Bool) : Serial := after known (calling own)

lemma arriving_possible (own : Bool) : Enactable after possible (called own) arriving := by
  cases own
  all_goals
    refine ⟨executes (by decide +kernel), ⟨trivial, ?_⟩, ⟨trivial, ?_⟩,
      executes (by decide +kernel), trivial⟩
    · exact ⟨client_one, by decide +kernel, rfl, by decide +kernel⟩
    · exact ⟨newcomer7, by decide +kernel, by decide +kernel, rfl, rfl⟩

def arrived (own : Bool) : Serial := enact after (called own) arriving

lemma arrived_spec (own : Bool) :
    (arrived own).results[2]?.map (fun r => (r.1, r.2.1)) =
      some (2, .selectData 7 (bytes "STEAM_1:0:7")) ∧
    2 ∉ (arrived own).main.finished ∧
    (arrived own).main.roster 1 = some (authorized newcomer7) ∧
    ((arrived own).main.sent.all fun q => match q with
      | .insertData sid id _ => (valueKey sid (toText id)).head? ≠ some 99
      | _ => true) = true := by
  cases own <;> decide +kernel

lemma arrived_isSome (own : Bool) : (arrived own).results[2]?.isSome = true := by
  rw [← Option.isSome_map, (arrived_spec own).1]
  rfl

def found (own : Bool) : ℕ × Query × Outcome := Option.get _ (arrived_isSome own)

lemma found_query (own : Bool) : ((found own).1, (found own).2.1) =
    (2, .selectData 7 (bytes "STEAM_1:0:7")) := by
  obtain ⟨r, there, query⟩ := Option.map_eq_some_iff.mp (arrived_spec own).1
  rw [found, Option.get_of_eq_some _ there]
  exact query

def loading (own : Bool) : List Bytes × Move :=
  ([], .deliver 2 (.selectData 7 (bytes "STEAM_1:0:7")) (found own).2.2)

lemma loading_possible (own : Bool) : possible (arrived own) (loading own) := by
  have hmem : found own ∈ (arrived own).results :=
    List.mem_of_getElem? (Option.some_get (arrived_isSome own)).symm
  exact delivers_result (arrived_spec own).2.1 hmem (found_query own)

def loaded (own : Bool) : Serial := after (arrived own) (loading own)

lemma arriving_quiet (own : Bool) :
    ∀ x ∈ enactTrace after (called own) arriving, newSaves oneSlot x.1 x.2.2 = [] := by
  intro x hx
  simp only [arriving, enactTrace, List.mem_cons, List.not_mem_nil, or_false] at hx
  rcases hx with rfl | rfl | rfl | rfl <;> rfl

lemma there (own : Bool) : (arrived own).main.roster 1 = some (authorized newcomer7) :=
  (arrived_spec own).2.2.1

lemma sparing_arrived (own : Bool) : Sparing (arrived own).main := by
  have hsent : ∀ q ∈ (arrived own).main.sent, ∀ sid id a, q = .insertData sid id a →
      (valueKey sid (toText id)).head? ≠ some 99 := by
    rintro q hq sid id a rfl
    simpa using List.all_eq_true.mp (arrived_spec own).2.2.2 _ hq
  exact fun sid id a hmem => notRegistry_of_head (hsent _ hmem sid id a rfl)

theorem call_step (own : Bool) : ScriptStep oneSlot known
    ([], .main (.setAuthIdCookie (identifier own) 0 (bytes "on") 0)) (called own) :=
  ⟨calling_possible own, rfl⟩

theorem after_run (own : Bool) : Run (ScriptStep oneSlot) (called own)
    (enactTrace after (called own) arriving) (arrived own) := enact_run (arriving_possible own)

theorem load_step (own : Bool) : ScriptStep oneSlot (arrived own)
    ([], .deliver 2 (.selectData (authorized newcomer7).serial (bytes "STEAM_1:0:7"))
      (found own).2.2) (loaded own) := ⟨loading_possible own, rfl⟩

/-- Under the Steam2 id the value is found. -/
theorem offline_write_read_own :
    (getCookieValue (loaded true).main 0 1).2 = storedValue (bytes "on") := by
  have settled : Settled oneSlot.hash (known.main.cookies 0).name 5 known.store :=
    .inl (by decide +kernel)
  have quiet : ∀ x ∈ enactTrace after (called true) arriving,
      NoWrite oneSlot (valueKey (steamIdOf (authorized newcomer7)) (toText 5)) x.1 x.2 := by
    intro x hx q hq
    rw [arriving_quiet true x hx] at hq
    cases hq
  have outside : NotRegistry (valueKey (steamIdOf (authorized newcomer7)) (toText 5)) :=
    notRegistry_of_head (by decide)
  have offline : isAuthIdConnected oneSlot (attemptReconnection oneSlot known.main)
      (identifier true) = some 0 := by decide +kernel
  have absent : (authorized newcomer7).serial ∉ known.main.spent := by decide +kernel
  have leads : findCookie oneSlot known.main (known.main.cookies 0).name = some 0 := by
    decide +kernel
  refine (offline_write_read_iff host_start_vacant (Kept.empty [] .asStored) registering_run settled
    offline (call_step true) (after_run true) quiet (there true) absent (load_step true)
    (sparing_arrived true) outside).mpr ?_
  rw [if_pos leads]
  exact .inl ⟨by decide +kernel, by decide +kernel⟩

/-- Under the Steam3 id it is not, although `IsAuthIdConnected` accepts it for the player. -/
theorem offline_write_lost : ¬ ∀ (cfg : Config) (roster : ℕ → Option Player) (spent : List ℕ)
    (store : Store) (past rest : List (Serial × List Bytes × Move)) (s base u t : Serial)
    (scripts scripts' : List Bytes) (authId v sid : Bytes) (c : CookieRef) (now i k : ℕ)
    (p : Player) (outcome : Outcome), Host cfg (start roster spent) → Kept store →
    Run (ScriptStep cfg) (begin roster spent store) past s →
    isAuthIdConnected cfg (attemptReconnection cfg s.main) authId = some 0 →
    compareIds authId [p.authString, p.steam2Id, p.steam3Id] = some true →
    ScriptStep cfg s (scripts, .main (.setAuthIdCookie authId c v now)) base →
    Run (ScriptStep cfg) base rest u → (∀ x ∈ rest, newSaves cfg x.1 x.2.2 = []) →
    u.main.roster i = some p → p.serial ∉ s.main.spent →
    ScriptStep cfg u (scripts', .deliver k (.selectData p.serial sid) outcome) t →
    (getCookieValue t.main c i).2 = storedValue v := by
  intro h
  have offline : isAuthIdConnected oneSlot (attemptReconnection oneSlot known.main)
      (identifier false) = some 0 := by decide +kernel
  have accepted : compareIds (identifier false) [(authorized newcomer7).authString,
      (authorized newcomer7).steam2Id, (authorized newcomer7).steam3Id] = some true := by
    decide +kernel
  have absent : (authorized newcomer7).serial ∉ known.main.spent := by decide +kernel
  have hread := h oneSlot _ _ _ _ _ known (called false) (arrived false) (loaded false) _ _ _ _ _ 0
    0 1 2 _ _ host_start_vacant (Kept.empty [] .asStored) registering_run offline accepted
    (call_step false) (after_run false) (arriving_quiet false) (there false) absent (load_step false)
  revert hread
  decide +kernel

end ClientPrefs.OfflineWrites
