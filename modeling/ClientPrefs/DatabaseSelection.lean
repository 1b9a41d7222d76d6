import ClientPrefs.ConnectionSetup
import ClientPrefs.SoloRuns

/-!
# The database behind a connection

One query worker with its connections, one after the other, and the server. A connection
that is given up may still have commands that the server has received and not executed.
-/
namespace ClientPrefs.DatabaseSelection
open ByteStrings Conversation Conv ConnectionSetup QueryThread RedisReply RedisStore SoloRuns
open Transition

/-- The configuration of the server; an empty `requirepass` is none. -/
structure ServerConf where
  requirepass : Bytes
  databases : ℕ
  digest : Bytes → Bytes

/-- What the server keeps about one connection. -/
structure Link where
  authed : Bool
  /-- The database of the last `SELECT` that was accepted. -/
  selected : Option ℤ
  loaded : Bool
  deriving DecidableEq, Repr

def Link.new : Link := ⟨false, none, false⟩

section Server
variable (conf : ServerConf)

def Link.permitted (link : Link) : Bool := conf.requirepass = [] ∨ link.authed

def Link.next (link : Link) : Request → Link
  | .auth pass =>
    if conf.requirepass = [] then link
    else { link with authed := decide (pass = conf.requirepass) }
  | .select index =>
    if link.permitted conf ∧ 0 ≤ index ∧ index < conf.databases then
      { link with selected := some index }
    else link
  | .scriptLoad _ => if link.permitted conf then { link with loaded := true } else link
  | .query _ => link

def answer (link : Link) (stores : ℤ → Store) : Request → (ℤ → Store) × RawReply
  | .auth pass =>
    if conf.requirepass = [] then
      (stores, .error (bytes "ERR Client sent AUTH, but no password is set"))
    else if pass = conf.requirepass then (stores, .status (bytes "OK"))
    else (stores, .error (bytes "ERR invalid password"))
  | .select index =>
    if ¬ link.permitted conf then (stores, .error (bytes "NOAUTH Authentication required."))
    else if 0 ≤ index ∧ index < conf.databases then (stores, .status (bytes "OK"))
    else (stores, .error (bytes "ERR DB index is out of range"))
  | .scriptLoad script =>
    if ¬ link.permitted conf then (stores, .error (bytes "NOAUTH Authentication required."))
    else (fun db => { stores db with scripts := conf.digest script :: (stores db).scripts },
      .string (conf.digest script))
  | .query c =>
    if ¬ link.permitted conf then (stores, .error (bytes "NOAUTH Authentication required."))
    else
      let db := link.selected.getD 0
      let (store, reply) := exec (stores db) c
      (Function.update stores db store, reply)

end Server

/-- A connection: what the server knows of it and what it has not executed yet, oldest first;
`true` marks an awaited reply. -/
structure Connection where
  link : Link
  pipe : List (Request × Bool)

inductive Thread
  | idle
  | running (conv : WorkerTalk)
  | waiting (cmds : List Request) (got : List (Option Reply))
      (next : List (Option Reply) → WorkerTalk)

structure State where
  stores : ℤ → Store
  db : Connection
  /-- `db->IsConnected()`. -/
  connected : Bool
  /-- The connections before this one. -/
  former : List Connection
  thread : Thread
  results : List Outcome

inductive Move
  /-- The other clients of the server change its databases. -/
  | others
  | take (j : Job)
  | reconnect (j : Job)
  | send
  | exec
  | execFormer (i : ℕ)
  | lose
  | null
  | resume
  | finish
  deriving DecidableEq, Repr

def Connection.push (c : Connection) (cmds : List Request) (awaited : Bool) : Connection :=
  { c with pipe := c.pipe ++ cmds.map (·, awaited) }

/-- On a lost connection the command is not sent any more. -/
def State.push (s : State) (cmds : List Request) (awaited : Bool) : Connection :=
  if s.connected then s.db.push cmds awaited else s.db

def Thread.receive (reply : Option Reply) : Thread → Thread
  | .waiting cmds got next => .waiting cmds (got ++ [reply]) next
  | thread => thread

/-- The moves of the worker's loop, of the server and of the connection. -/
inductive Moves (conf : ServerConf) (settings : Settings) (hash : Bytes → ℕ) (s : State) :
    Move → State → Prop
  | others (stores : ℤ → Store) : Moves conf settings hash s .others { s with stores := stores }
  | take (j : Job) (idle : s.thread = .idle) (connected : s.connected = true) :
      Moves conf settings hash s (.take j) { s with thread := .running (runThreadPart hash j) }
  | reconnect (j : Job) (idle : s.thread = .idle) (lost : s.connected = false) :
      Moves conf settings hash s (.reconnect j)
        { s with
          db := ⟨.new, []⟩
          connected := true
          former := s.former ++ [s.db]
          thread := .running (setupThen settings (runThreadPart hash j)) }
  | tell (cmds : List Request) (next : WorkerTalk) (at_tell : s.thread = .running (.tell cmds next)) :
      Moves conf settings hash s .send
        { s with db := s.push cmds false, thread := .running next }
  | ask (cmds : List Request) (next : List (Option Reply) → WorkerTalk)
      (at_ask : s.thread = .running (.ask cmds next)) :
      Moves conf settings hash s .send
        { s with db := s.push cmds true, thread := .waiting cmds [] next }
  | exec (link : Link) (c : Request) (awaited : Bool) (rest : List (Request × Bool))
      (head : s.db = ⟨link, (c, awaited) :: rest⟩) :
      Moves conf settings hash s .exec
        { s with
          stores := (answer conf link s.stores c).1
          db := ⟨link.next conf c, rest⟩
          thread :=
            if awaited ∧ s.connected then s.thread.receive (some (reply (answer conf link s.stores c).2))
            else s.thread }
  | execFormer (before after : List Connection) (link : Link) (c : Request) (awaited : Bool)
      (rest : List (Request × Bool))
      (head : s.former = before ++ ⟨link, (c, awaited) :: rest⟩ :: after) :
      Moves conf settings hash s (.execFormer before.length)
        { s with
          stores := (answer conf link s.stores c).1
          former := before ++ ⟨link.next conf c, rest⟩ :: after }
  | lose : Moves conf settings hash s .lose { s with connected := false }
  | null (cmds : List Request) (got : List (Option Reply))
      (next : List (Option Reply) → WorkerTalk) (lost : s.connected = false)
      (waits : s.thread = .waiting cmds got next) (short : got.length < cmds.length) :
      Moves conf settings hash s .null { s with thread := .waiting cmds (got ++ [none]) next }
  | resume (cmds : List Request) (got : List (Option Reply))
      (next : List (Option Reply) → WorkerTalk) (waits : s.thread = .waiting cmds got next)
      (all : got.length = cmds.length) :
      Moves conf settings hash s .resume { s with thread := .running (next got) }
  | finish (outcome : Option Outcome) (at_done : s.thread = .running (.done outcome)) :
      Moves conf settings hash s .finish
        { s with thread := .idle, results := s.results ++ outcome.toList }

def start (settings : Settings) (stores : ℤ → Store) : State where
  stores := stores
  db := ⟨.new, []⟩
  connected := true
  former := []
  thread := .running (setupThen settings (.done none))
  results := []

def executes (s : State) : Move → Option Connection
  | .exec => some s.db
  | .execFormer i => s.former[i]?
  | _ => none

/-- The connection has been switched to the database, and the script was loaded on it. -/
def Ready (dbid : ℤ) (link : Link) : Prop := link.selected = some dbid ∧ link.loaded = true

/-- A command of a query is executed on a connection that is ready. -/
def OnDatabase (dbid : ℤ) (s : State) (m : Move) : Prop := ∀ link c awaited rest,
  executes s m = some ⟨link, (.query c, awaited) :: rest⟩ → Ready dbid link

variable {conf : ServerConf} {settings : Settings} {hash : Bytes → ℕ} {s t : State} {m : Move}
  {link : Link} {c : Connection}

def Fitting (dbid : ℤ) (link : Link) (request : Request) : Prop :=
  ∀ c, request = .query c → Ready dbid link

def Accepts (settings : Settings) (request : Request) (r : Option Reply) : Prop :=
  request = .auth settings.pass → ∃ text, r = some (.status text)

/-- The conversation sends commands of queries only when the connection is ready, and leaves
it ready. -/
abbrev Heeds (conf : ServerConf) (settings : Settings) (conv : WorkerTalk) (link : Link) : Prop :=
  conv.KeepsFrom (Link.next conf) (Accepts settings) (Fitting settings.dbid)
    (fun link _ => Ready settings.dbid link) link

/-- The server and the extension have the same password, and the database exists. -/
structure Usable (conf : ServerConf) (settings : Settings) : Prop where
  pass : settings.pass ≠ []
  same : conf.requirepass = settings.pass
  index : 0 ≤ settings.dbid ∧ settings.dbid < conf.databases

lemma Usable.answer (h : Usable conf settings) (link : Link) (stores : ℤ → Store)
    (request : Request) :
    Accepts settings request (some (reply (answer conf link stores request).2)) := by
  rintro rfl
  have hpass : conf.requirepass ≠ [] := h.same ▸ h.pass
  refine ⟨bytes "OK", ?_⟩
  simp only [DatabaseSelection.answer, if_neg hpass, if_pos h.same.symm, reply]
  rfl

lemma Usable.ready (h : Usable conf settings) (link : Link) : Ready settings.dbid
    (((link.next conf (.auth settings.pass)).next conf (.select settings.dbid)).next conf
      (.scriptLoad script)) := by
  have hauth : link.next conf (.auth settings.pass) = { link with authed := true } := by
    simp [Link.next, h.same, h.pass]
  have hselect : ({ link with authed := true } : Link).next conf (.select settings.dbid) =
      { link with authed := true, selected := some settings.dbid } := by
    simp [Link.next, Link.permitted, h.index]
  rw [hauth, hselect]
  simp [Link.next, Link.permitted, Ready]

lemma connectDb_keeps (h : Usable conf settings) (link : Link) :
    (connectDb settings).KeepsFrom (Link.next conf) (Accepts settings) (Fitting settings.dbid)
      (fun link _ => Ready settings.dbid link) link := by
  have setup : ∀ {link request}, (∀ c, request ≠ .query c) → Fitting settings.dbid link request :=
    fun hnot c hc => absurd hc (hnot c)
  apply KeepsFrom.command_bind (setup (by simp))
  intro r hr
  obtain ⟨text, rfl⟩ := hr rfl
  apply KeepsFrom.append_bind
  · exact ⟨setup (by simp), trivial⟩
  apply KeepsFrom.command_bind (setup (by simp))
  intro loaded _
  split
  · exact h.ready link
  · exact h.ready link
  · exact h.ready link

lemma runThreadPart_heeds (ready : Ready settings.dbid link) (j : Job) :
    Heeds conf settings (runThreadPart hash j) link := by
  have hquery : ((bindParamsAndRun hash j).rename Request.query).KeepsFrom (Link.next conf)
      (Accepts settings) (Fitting settings.dbid) (fun l _ => Ready settings.dbid l) link := by
    apply keepsFrom_rename
    · exact fun _ _ _ => ready
    · exact fun _ => rfl
    · exact fun _ => ready
  exact hquery.bind fun _ _ hready => hready

lemma setupThen_heeds (h : Usable conf settings) (link : Link) {rest : WorkerTalk}
    (hrest : ∀ l, Ready settings.dbid l → Heeds conf settings rest l) :
    Heeds conf settings (setupThen settings rest) link :=
  (connectDb_keeps h link).bind fun l _ ready => hrest l ready

def Connection.settled (conf : ServerConf) (c : Connection) : Link :=
  (c.pipe.map Prod.fst).foldl (Link.next conf) c.link

def Connection.awaited (c : Connection) : List Request := (c.pipe.filter Prod.snd).map Prod.fst

/-- Each command that was sent is executed on a connection that fits it. -/
def Connection.Fits (conf : ServerConf) (dbid : ℤ) (c : Connection) : Prop :=
  Allowed (Link.next conf) (Fitting dbid) c.link (c.pipe.map Prod.fst)

/-- What the thread will still send fits the connection. -/
def ThreadFits (conf : ServerConf) (settings : Settings) (c : Connection) : Thread → Prop
  | .idle => Ready settings.dbid (c.settled conf) ∧ c.awaited = []
  | .running conv => Heeds conf settings conv (c.settled conf) ∧ c.awaited = []
  | .waiting cmds got next => (∃ gone, cmds = gone ++ c.awaited ∧
      List.Forall₂ (Accepts settings) gone got) ∧
      ∀ replies, List.Forall₂ (Accepts settings) cmds replies →
        Heeds conf settings (next replies) (c.settled conf)

structure Fits (conf : ServerConf) (settings : Settings) (s : State) : Prop where
  sent : s.db.Fits conf settings.dbid
  former : ∀ c ∈ s.former, c.Fits conf settings.dbid
  thread : s.connected = true → ThreadFits conf settings s.db s.thread

section Push
variable (cmds : List Request) (awaited : Bool)

lemma settled_push : (c.push cmds awaited).settled conf =
    cmds.foldl (Link.next conf) (c.settled conf) := by
  simp [Connection.settled, Connection.push, List.map_map, Function.comp_def]

lemma awaited_push : (c.push cmds awaited).awaited =
    c.awaited ++ if awaited then cmds else [] := by
  cases awaited <;> simp [Connection.awaited, Connection.push, List.filter_map, Function.comp_def]

lemma fits_push {dbid : ℤ} : (c.push cmds awaited).Fits conf dbid ↔ c.Fits conf dbid ∧
    Allowed (Link.next conf) (Fitting dbid) (c.settled conf) cmds := by
  simp [Connection.Fits, Connection.push, Connection.settled, allowed_append, List.map_map,
    Function.comp_def]

end Push

lemma fits_start (h : Usable conf settings) (stores : ℤ → Store) :
    Fits conf settings (start settings stores) where
  sent := trivial
  former := by simp [start]
  thread := fun _ => ⟨setupThen_heeds h .new fun _ ready => ready, rfl⟩

lemma awaited_cons {link : Link} {request : Request} {awaited : Bool}
    {rest : List (Request × Bool)} :
    (⟨link, (request, awaited) :: rest⟩ : Connection).awaited =
      (if awaited then [request] else []) ++ (⟨link, rest⟩ : Connection).awaited := by
  cases awaited <;> simp [Connection.awaited]

lemma fits_cons {dbid : ℤ} {link : Link} {request : Request} {awaited : Bool}
    {rest : List (Request × Bool)} :
    (⟨link, (request, awaited) :: rest⟩ : Connection).Fits conf dbid ↔
      Fitting dbid link request ∧ (⟨link.next conf request, rest⟩ : Connection).Fits conf dbid :=
  Iff.rfl

lemma threadFits_exec (h : Usable conf settings) (stores : ℤ → Store) {link : Link}
    {request : Request} {awaited : Bool} {rest : List (Request × Bool)} {thread : Thread}
    (fits : ThreadFits conf settings ⟨link, (request, awaited) :: rest⟩ thread) :
    ThreadFits conf settings ⟨link.next conf request, rest⟩ (if awaited then
      thread.receive (some (reply (answer conf link stores request).2)) else thread) := by
  have hsettled : (⟨link, (request, awaited) :: rest⟩ : Connection).settled conf =
      (⟨link.next conf request, rest⟩ : Connection).settled conf := rfl
  have hawaited : (⟨link.next conf request, rest⟩ : Connection).awaited =
      (⟨link, rest⟩ : Connection).awaited := rfl
  cases thread with
  | waiting cmds got next =>
    obtain ⟨⟨gone, hcmds, hgot⟩, hnext⟩ := fits
    rw [awaited_cons] at hcmds
    rw [hsettled] at hnext
    cases awaited with
    | false => exact ⟨⟨gone, hcmds, hgot⟩, hnext⟩
    | true =>
      refine ⟨⟨gone ++ [request], ?_, ?_⟩, hnext⟩
      · rw [hcmds, hawaited]
        simp
      · exact List.rel_append hgot (.cons (h.answer link stores request) .nil)
  | idle =>
    obtain ⟨hready, hnone⟩ := fits
    rw [awaited_cons] at hnone
    cases awaited with
    | false => exact ⟨hready, hnone⟩
    | true => cases hnone
  | running conv =>
    obtain ⟨hconv, hnone⟩ := fits
    rw [awaited_cons] at hnone
    cases awaited with
    | false => exact ⟨hconv, hnone⟩
    | true => cases hnone

theorem Fits.step (fits : Fits conf settings s) (h : Usable conf settings)
    (move : Moves conf settings hash s m t) : Fits conf settings t := by
  cases move with
  | others stores => exact ⟨fits.sent, fits.former, fits.thread⟩
  | take j idle connected =>
    refine ⟨fits.sent, fits.former, fun _ => ?_⟩
    obtain ⟨hready, hnone⟩ := idle ▸ fits.thread connected
    exact ⟨runThreadPart_heeds hready j, hnone⟩
  | reconnect j idle lost =>
    refine ⟨trivial, ?_, fun _ => ⟨setupThen_heeds h .new fun l ready => ?_, rfl⟩⟩
    · intro c hc
      rcases List.mem_append.mp hc with hc | hc
      · exact fits.former c hc
      · rw [List.mem_singleton.mp hc]
        exact fits.sent
    · exact runThreadPart_heeds ready j
  | tell cmds next at_tell =>
    by_cases connected : s.connected = true
    · obtain ⟨⟨hall, hnext⟩, hnone⟩ := at_tell ▸ fits.thread connected
      refine ⟨?_, fits.former, fun _ => ?_⟩
      · rw [State.push, if_pos connected]
        exact (fits_push cmds false).mpr ⟨fits.sent, hall⟩
      · rw [State.push, if_pos connected]
        refine ⟨?_, ?_⟩
        · rw [settled_push]
          exact hnext
        · simp [awaited_push, hnone]
    · refine ⟨?_, fits.former, fun hconnected => absurd hconnected connected⟩
      rw [State.push, if_neg connected]
      exact fits.sent
  | ask cmds next at_ask =>
    by_cases connected : s.connected = true
    · obtain ⟨⟨hall, hnext⟩, hnone⟩ := at_ask ▸ fits.thread connected
      refine ⟨?_, fits.former, fun _ => ?_⟩
      · rw [State.push, if_pos connected]
        exact (fits_push cmds true).mpr ⟨fits.sent, hall⟩
      · rw [State.push, if_pos connected]
        refine ⟨⟨[], by simp [awaited_push, hnone], .nil⟩, ?_⟩
        rw [settled_push]
        exact hnext
    · refine ⟨?_, fits.former, fun hconnected => absurd hconnected connected⟩
      rw [State.push, if_neg connected]
      exact fits.sent
  | exec link c awaited rest head =>
    have hsent := fits.sent
    rw [head, fits_cons] at hsent
    refine ⟨hsent.2, fits.former, fun connected => ?_⟩
    have hconnected : s.connected = true := connected
    have hthread := threadFits_exec h s.stores (head ▸ fits.thread hconnected)
    simpa only [hconnected, and_true] using hthread
  | execFormer before after link c awaited rest head =>
    refine ⟨fits.sent, ?_, fits.thread⟩
    have hformer := fits.former
    rw [head] at hformer
    have hhead := fits_cons.mp (hformer ⟨link, (c, awaited) :: rest⟩ (by simp))
    intro d hd
    rcases List.mem_append.mp hd with hd | hd
    · exact hformer d (List.mem_append_left _ hd)
    · rcases List.mem_cons.mp hd with rfl | hd
      · exact hhead.2
      · exact hformer d (List.mem_append_right _ (List.mem_cons_of_mem _ hd))
  | lose => exact ⟨fits.sent, fits.former, fun hconnected => absurd hconnected (by simp)⟩
  | null cmds got next lost waits short =>
    exact ⟨fits.sent, fits.former, fun hconnected => absurd hconnected (by simp [lost])⟩
  | resume cmds got next waits all =>
    refine ⟨fits.sent, fits.former, fun connected => ?_⟩
    obtain ⟨⟨gone, hcmds, hgot⟩, hnext⟩ := waits ▸ fits.thread connected
    have hlength : s.db.awaited.length = 0 := by
      have hlen := congrArg List.length hcmds
      rw [List.length_append, hgot.length_eq] at hlen
      omega
    have hnone : s.db.awaited = [] := List.length_eq_zero_iff.mp hlength
    refine ⟨hnext got ?_, hnone⟩
    rw [hcmds, hnone, List.append_nil]
    exact hgot
  | finish outcome at_done =>
    refine ⟨fits.sent, fits.former, fun connected => ?_⟩
    have hthread := fits.thread connected
    rw [at_done] at hthread
    exact hthread

lemma Fits.onDatabase (fits : Fits conf settings s) : OnDatabase settings.dbid s m := by
  intro link c awaited rest hexec
  have hfits : (⟨link, (.query c, awaited) :: rest⟩ : Connection).Fits conf settings.dbid := by
    cases m with
    | exec => exact (Option.some.inj hexec) ▸ fits.sent
    | execFormer i => exact fits.former _ (List.mem_of_getElem? hexec)
    | _ => cases hexec
  exact (fits_cons.mp hfits).1 c rfl

def serveLink (conf : ServerConf) (x : Link × (ℤ → Store)) (request : Request) :
    (Link × (ℤ → Store)) × Reply :=
  ((x.1.next conf request, (answer conf x.1 x.2 request).1), reply (answer conf x.1 x.2 request).2)

def working (x : Link × (ℤ → Store)) (pipe : List (Request × Bool)) (thread : Thread)
    (results : List Outcome) : State :=
  ⟨x.2, ⟨x.1, pipe⟩, true, [], thread, results⟩

abbrev WorkerMoves (conf : ServerConf) (settings : Settings) (hash : Bytes → ℕ) :
    State → Move → State → Prop := Moves conf settings hash

section Working
variable (conf settings hash)

lemma told_moves (x : Link × (ℤ → Store)) (conv : WorkerTalk) (cmds : List Request)
    (results : List Outcome) : ∃ trace, Run (WorkerMoves conf settings hash)
      (working x (cmds.map (·, false)) (.running conv) results) trace
      (working (serveAll (serveLink conf) x cmds).1 [] (.running conv) results) := by
  induction cmds generalizing x with
  | nil => exact ⟨[], .refl⟩
  | cons c cs ih =>
    obtain ⟨trace, hrest⟩ := ih (serveLink conf x c).1
    have hexec : WorkerMoves conf settings hash
        (working x ((c :: cs).map (·, false)) (.running conv) results) .exec
        (working (serveLink conf x c).1 (cs.map (·, false)) (.running conv) results) :=
      .exec x.1 c false (cs.map (·, false)) rfl
    exact ⟨_, (Run.one hexec).trans hrest⟩

lemma asked_moves (x : Link × (ℤ → Store)) (all cmds : List Request) (got : List (Option Reply))
    (next : List (Option Reply) → WorkerTalk) (results : List Outcome) :
    ∃ trace, Run (WorkerMoves conf settings hash)
      (working x (cmds.map (·, true)) (.waiting all got next) results) trace
      (working (serveAll (serveLink conf) x cmds).1 []
        (.waiting all (got ++ (serveAll (serveLink conf) x cmds).2) next) results) := by
  induction cmds generalizing x got with
  | nil => exact ⟨[], by simpa [serveAll] using Run.refl⟩
  | cons c cs ih =>
    obtain ⟨trace, hrest⟩ := ih (serveLink conf x c).1 (got ++ [some (serveLink conf x c).2])
    rw [List.append_assoc] at hrest
    have hexec : WorkerMoves conf settings hash
        (working x ((c :: cs).map (·, true)) (.waiting all got next) results) .exec
        (working (serveLink conf x c).1 (cs.map (·, true))
          (.waiting all (got ++ [some (serveLink conf x c).2]) next) results) :=
      .exec x.1 c true (cs.map (·, true)) rfl
    exact ⟨_, (Run.one hexec).trans hrest⟩

/-- On a connection that works a conversation comes to its end. -/
theorem conversation_moves {x : Link × (ℤ → Store)} {conv : WorkerTalk}
    {outcome : Option Outcome} (results : List Outcome)
    (h : (solo (serveLink conf) x conv).2 = some outcome) :
    ∃ trace, Run (WorkerMoves conf settings hash) (working x [] (.running conv) results) trace
      (working (solo (serveLink conf) x conv).1 [] .idle (results ++ outcome.toList)) := by
  induction conv generalizing x with
  | done b =>
    obtain rfl : b = outcome := Option.some.inj h
    exact ⟨_, .one (.finish b rfl)⟩
  | died => cases h
  | tell cmds next ih =>
    obtain ⟨later, hlater⟩ := ih h
    obtain ⟨told, htold⟩ := told_moves conf settings hash x next cmds results
    have hsend : WorkerMoves conf settings hash (working x [] (.running (.tell cmds next)) results)
        .send (working x (cmds.map (·, false)) (.running next) results) := .tell cmds next rfl
    exact ⟨_, (Run.one hsend).trans (htold.trans hlater)⟩
  | ask cmds next ih =>
    obtain ⟨later, hlater⟩ := ih _ h
    obtain ⟨asked, hasked⟩ := asked_moves conf settings hash x cmds cmds [] next results
    have hsend : WorkerMoves conf settings hash (working x [] (.running (.ask cmds next)) results)
        .send (working x (cmds.map (·, true)) (.waiting cmds [] next) results) := .ask cmds next rfl
    have hresume : WorkerMoves conf settings hash
        (working (serveAll (serveLink conf) x cmds).1 []
          (.waiting cmds (serveAll (serveLink conf) x cmds).2 next) results) .resume
        (working (serveAll (serveLink conf) x cmds).1 []
          (.running (next (serveAll (serveLink conf) x cmds).2)) results) :=
      .resume cmds _ next rfl (serveAll_length cmds)
    exact ⟨_, (Run.one hsend).trans (hasked.trans ((Run.one hresume).trans hlater))⟩

end Working

/-- Without a password, or without such a database, the setup comes to its end on a connection
that is not ready. -/
theorem setup_unready (same : conf.requirepass = settings.pass)
    (h : settings.pass = [] ∨ ¬ (0 ≤ settings.dbid ∧ settings.dbid < conf.databases))
    (stores : ℤ → Store) : ∃ x, solo (serveLink conf) (.new, stores)
      (setupThen settings (.done none)) = (x, some none) ∧ ¬ Ready settings.dbid x.1 := by
  by_cases hpass : settings.pass = []
  · refine ⟨(.new, stores), ?_, by simp [Ready, Link.new]⟩
    simp [setupThen, connectDb, command, solo, serveAll, serveLink, answer, Link.next, same, hpass,
      reply]
  · have hindex := h.resolve_left hpass
    let loaded : ℤ → Store := fun db =>
      { stores db with scripts := conf.digest script :: (stores db).scripts }
    refine ⟨(⟨true, none, true⟩, loaded), ?_, by simp [Ready]⟩
    simp [setupThen, connectDb, command, append, solo, serveAll, serveLink, answer, Link.next,
      Link.permitted, Link.new, same, hpass, hindex, reply, loaded]

lemma unready_query {x : Link × (ℤ → Store)} (unready : ¬ Ready settings.dbid x.1) :
    ∃ trace t, Run (WorkerMoves conf settings hash) (working x [] .idle []) trace t ∧
      ∃ y ∈ trace, ¬ OnDatabase settings.dbid y.1 y.2 := by
  let job : Job := .insertData [] 0 []
  let save : Command := .setEx (valueKey [] (toText 0)) [] 1209600
  let after : WorkerTalk := .done (some ⟨true, -1, []⟩)
  let sent : State := working x [(.query save, false)] (.running after) []
  have htake : WorkerMoves conf settings hash (working x [] .idle []) (.take job)
      (working x [] (.running (runThreadPart hash job)) []) := .take job rfl rfl
  have hsend : WorkerMoves conf settings hash (working x [] (.running (runThreadPart hash job)) [])
      .send sent := .tell [.query save] after rfl
  have hexec : WorkerMoves conf settings hash sent .exec _ := .exec x.1 (.query save) false [] rfl
  refine ⟨_, _, (Run.one htake).trans ((Run.one hsend).trans (.one hexec)), (sent, .exec), by simp,
    fun hready => ?_⟩
  exact unready (hready x.1 save false [] rfl)

/-- Then a worker that has set up its connection executes a query in a wrong place. -/
theorem off_database (same : conf.requirepass = settings.pass)
    (h : settings.pass = [] ∨ ¬ (0 ≤ settings.dbid ∧ settings.dbid < conf.databases))
    (hash : Bytes → ℕ) (stores : ℤ → Store) : ∃ trace t,
      Run (WorkerMoves conf settings hash) (start settings stores) trace t ∧
        ∃ y ∈ trace, ¬ OnDatabase settings.dbid y.1 y.2 := by
  obtain ⟨x, hsetup, unready⟩ := setup_unready same h stores
  have hfirst := conversation_moves conf settings hash [] (congrArg Prod.snd hsetup)
  rw [hsetup] at hfirst
  obtain ⟨first, hfirst⟩ := hfirst
  obtain ⟨second, t, hsecond, y, hy, hviolated⟩ := unready_query unready
  exact ⟨_, t, hfirst.trans hsecond, y, List.mem_append_right _ hy, hviolated⟩

/-- For a server with the password of the configuration: in all runs every command of a query is
executed on a connection switched to the database and with the script exactly when there is a
password and the server has such a database. -/
theorem database_used_iff (info : DatabaseInfo) (databases : ℕ) (digest : Bytes → Bytes)
    (hash : Bytes → ℕ) :
    (∀ stores trace t,
      Run (WorkerMoves ⟨(sdkOnLoad info).pass, databases, digest⟩ (sdkOnLoad info) hash)
        (start (sdkOnLoad info) stores) trace t →
      ∀ x ∈ trace, OnDatabase (sdkOnLoad info).dbid x.1 x.2) ↔
    (sdkOnLoad info).pass ≠ [] ∧ 0 ≤ (sdkOnLoad info).dbid ∧ (sdkOnLoad info).dbid < databases := by
  generalize sdkOnLoad info = settings
  let conf : ServerConf := ⟨settings.pass, databases, digest⟩
  constructor
  · intro h
    by_contra hnot
    have hunusable : settings.pass = [] ∨ ¬ (0 ≤ settings.dbid ∧ settings.dbid < databases) := by
      by_contra hboth
      rw [not_or, not_not] at hboth
      exact hnot hboth
    obtain ⟨trace, t, run, y, hy, hviolated⟩ :=
      off_database (rfl : conf.requirepass = settings.pass) hunusable hash
        fun _ => (.empty [] .asStored)
    exact hviolated (h _ trace t run y hy)
  · rintro ⟨hpass, hindex⟩ stores trace t run
    have usable : Usable conf settings := ⟨hpass, rfl, hindex⟩
    have preserved : ∀ (a : State) (m : Move) (b : State), Fits conf settings a →
        WorkerMoves conf settings hash a m b → Fits conf settings b :=
      fun _ _ _ fits move => fits.step usable move
    intro x hx
    obtain ⟨before, after, v, _, hbefore, _, _⟩ := run.split hx
    exact (hbefore.stable (fits_start usable stores) preserved).onDatabase

/-- A server without a password refuses the empty one that the worker sends it. -/
theorem no_password_no_database : ¬ ∀ (info : DatabaseInfo) (digest : Bytes → Bytes)
    (hash : Bytes → ℕ) (stores : ℤ → Store) (trace : List (State × Move)) (t : State),
    Run (WorkerMoves ⟨(sdkOnLoad info).pass, 16, digest⟩ (sdkOnLoad info) hash)
      (start (sdkOnLoad info) stores) trace t →
    ∀ x ∈ trace, OnDatabase (sdkOnLoad info).dbid x.1 x.2 := by
  intro h
  let info : DatabaseInfo := ⟨none, some (bytes "3")⟩
  let conf : ServerConf := ⟨(sdkOnLoad info).pass, 16, id⟩
  obtain ⟨trace, t, run, y, hy, hviolated⟩ :=
    off_database (rfl : conf.requirepass = (sdkOnLoad info).pass) (.inl rfl) List.length
      fun _ => (.empty [] .asStored)
  exact hviolated (h info id List.length _ trace t run y hy)

end ClientPrefs.DatabaseSelection
