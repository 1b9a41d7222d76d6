import ClientPrefs.ClientLoop
import ClientPrefs.RedisStore

/-!
# The two loops of `send`

The first loop appends all commands of a batch to the context, the second one reads their replies
and invokes the callbacks.
-/
namespace ClientPrefs.SendLoops
open ByteStrings ClientLoop RedisReply Transition

/-- What the client relies on of hiredis. The commands of a context are numbered in the order in
which they were appended. -/
structure Hiredis (κ : Type) where
  redisAppendFormattedCommand : κ → Bytes → κ × Bool
  redisGetReply : κ → κ × Option RawReply
  /-- The number of commands that were appended, and of replies that were read. -/
  written : κ → ℕ
  read : κ → ℕ
  /-- The reply that the server sends to the command of each number. -/
  replyTo : κ → ℕ → RawReply
  failed : κ → Bool
  append_written : ∀ c cmd, written (redisAppendFormattedCommand c cmd).1 =
    written c + (redisAppendFormattedCommand c cmd).2.toNat
  append_read : ∀ c cmd, read (redisAppendFormattedCommand c cmd).1 = read c
  append_replyTo : ∀ c cmd, replyTo (redisAppendFormattedCommand c cmd).1 = replyTo c
  append_failed : ∀ c cmd, failed c = true → failed (redisAppendFormattedCommand c cmd).1 = true
  getReply_written : ∀ c, written (redisGetReply c).1 = written c
  getReply_replyTo : ∀ c, replyTo (redisGetReply c).1 = replyTo c
  /-- Replies come in the order of the commands. -/
  getReply_some : ∀ c r, (redisGetReply c).2 = some r → r = replyTo c (read c) ∧
    read (redisGetReply c).1 = read c + 1
  getReply_none : ∀ c, (redisGetReply c).2 = none → failed (redisGetReply c).1 = true ∧
    read (redisGetReply c).1 = read c
  /-- Once a call has failed, all later ones fail. -/
  getReply_failed : ∀ c, failed c = true → (redisGetReply c).2 = none

section Loops
variable {κ : Type} (H : Hiredis κ)

/-- The first loop; it leaves the vector `appended`. -/
def appendLoop : κ → List CommandRequest → κ × List Bool
  | c, [] => (c, [])
  | c, req :: reqs =>
    let first := H.redisAppendFormattedCommand c req.command
    let rest := appendLoop first.1 reqs
    (rest.1, first.2 :: rest.2)

/-- One turn of the second loop before the callback. -/
def getReply (c : κ) (success : Bool) : κ × Option RawReply :=
  if success then H.redisGetReply c else (c, none)

/-- What the callback of a request is given: `new reply(rawReply)`, or null. -/
def invocation (req : CommandRequest) (rawReply : Option RawReply) : List (ℕ × Option Reply) :=
  req.callback.toList.map fun callback => (callback, rawReply.map reply)

/-- The second loop, with the callbacks that it invokes. -/
def replyLoop : κ → List (CommandRequest × Bool) → κ × List (ℕ × Option Reply)
  | c, [] => (c, [])
  | c, (req, appended) :: reqs =>
    let first := getReply H c appended
    let rest := replyLoop first.1 reqs
    (rest.1, invocation req first.2 ++ rest.2)

/-- `send`, once the batch is assembled. -/
def send (c : κ) (reqs : List CommandRequest) : κ × List (ℕ × Option Reply) :=
  let first := appendLoop H c reqs
  replyLoop H first.1 (reqs.zip first.2)

def sends (c : κ) (batches : List (List CommandRequest)) : κ :=
  batches.foldl (fun c reqs => (send H c reqs).1) c

end Loops

/-- The commands that were appended are numbered from `n`; a request is due the reply to its own
command, if this is among the first `obtained` ones. -/
def due (replyTo : ℕ → RawReply) (obtained : ℕ) : ℕ → List Bool → List (Option RawReply)
  | _, [] => []
  | n, false :: appended => none :: due replyTo obtained n appended
  | n, true :: appended =>
    (if n < obtained then some (replyTo n) else none) :: due replyTo obtained (n + 1) appended

/-- Each callback of the batch is invoked once, in order, with what its request is due, and no
reply is left over. -/
structure OwnReplies {κ : Type} (H : Hiredis κ) (c : κ) (reqs : List CommandRequest) : Prop where
  invoked : (send H c reqs).2 = (reqs.zip (due (H.replyTo c) (H.read (send H c reqs).1)
    (H.written c) (appendLoop H c reqs).2)).flatMap fun x => invocation x.1 x.2
  once : (send H c reqs).2.map Prod.fst = reqs.filterMap (·.callback)
  consumed : H.failed (send H c reqs).1 = true ∨
    H.read (send H c reqs).1 = H.written (send H c reqs).1

/-- No reply is outstanding, unless the connection has failed. -/
def Aligned {κ : Type} (H : Hiredis κ) (c : κ) (n : ℕ) : Prop :=
  H.read c ≤ n ∧ (H.failed c = true ∨ H.read c = n)

variable {κ : Type} {H : Hiredis κ} {c : κ}

theorem appendLoop_spec (c : κ) (reqs : List CommandRequest) :
    H.read (appendLoop H c reqs).1 = H.read c ∧
    H.replyTo (appendLoop H c reqs).1 = H.replyTo c ∧
    H.written (appendLoop H c reqs).1 = H.written c + (appendLoop H c reqs).2.countP id ∧
    (H.failed c = true → H.failed (appendLoop H c reqs).1 = true) := by
  induction reqs generalizing c with
  | nil => exact ⟨rfl, rfl, rfl, id⟩
  | cons req reqs ih =>
    obtain ⟨read, replyTo, written, failed⟩ := ih (H.redisAppendFormattedCommand c req.command).1
    refine ⟨read.trans (H.append_read c _), replyTo.trans (H.append_replyTo c _), ?_, fun h => ?_⟩
    · simp only [appendLoop, written, H.append_written, List.countP_cons, id]
      cases (H.redisAppendFormattedCommand c req.command).2 <;> simp only [Bool.toNat_true,
        Bool.toNat_false, if_pos, if_neg, Bool.false_eq_true, not_false_eq_true] <;> omega
    · exact failed (H.append_failed c _ h)

lemma length_appendLoop (c : κ) (reqs : List CommandRequest) :
    (appendLoop H c reqs).2.length = reqs.length := by
  induction reqs generalizing c with
  | nil => rfl
  | cons req reqs ih => simp only [appendLoop, List.length_cons, ih]

@[simp] lemma getReply_false (c : κ) : getReply H c false = (c, none) := rfl

@[simp] lemma getReply_true (c : κ) : getReply H c true = H.redisGetReply c := rfl

theorem getReply_cases (c : κ) :
    (∃ r, (H.redisGetReply c).2 = some r ∧ H.failed c = false ∧ r = H.replyTo c (H.read c) ∧
      H.read (H.redisGetReply c).1 = H.read c + 1) ∨
    ((H.redisGetReply c).2 = none ∧ H.failed (H.redisGetReply c).1 = true ∧
      H.read (H.redisGetReply c).1 = H.read c) := by
  cases hr : (H.redisGetReply c).2 with
  | none => exact .inr ⟨rfl, H.getReply_none c hr⟩
  | some r =>
    refine .inl ⟨r, rfl, ?_, H.getReply_some c r hr⟩
    by_contra failed
    rw [H.getReply_failed c (Bool.eq_true_of_not_eq_false failed)] at hr
    cases hr

lemma written_replyLoop (c : κ) (reqs : List (CommandRequest × Bool)) :
    H.written (replyLoop H c reqs).1 = H.written c := by
  induction reqs generalizing c with
  | nil => rfl
  | cons x reqs ih =>
    refine (ih _).trans ?_
    cases x.2 with
    | false => rfl
    | true => exact H.getReply_written c

lemma read_replyLoop (c : κ) (reqs : List (CommandRequest × Bool)) :
    H.read c ≤ H.read (replyLoop H c reqs).1 := by
  induction reqs generalizing c with
  | nil => exact le_rfl
  | cons x reqs ih =>
    refine le_trans ?_ (ih (getReply H c x.2).1)
    cases x.2 with
    | false => exact le_rfl
    | true =>
      rw [getReply_true]
      rcases getReply_cases (H := H) c with ⟨_, _, _, _, read⟩ | ⟨_, _, read⟩
      · omega
      · exact read.ge

lemma read_replyLoop_failed (c : κ) (failed : H.failed c = true)
    (reqs : List (CommandRequest × Bool)) : H.read (replyLoop H c reqs).1 = H.read c := by
  induction reqs generalizing c with
  | nil => rfl
  | cons x reqs ih =>
    simp only [replyLoop]
    cases x.2 with
    | false => exact ih c failed
    | true =>
      obtain ⟨still, read⟩ := H.getReply_none c (H.getReply_failed c failed)
      exact (ih _ still).trans read

lemma replyLoop_due (c : κ) {n : ℕ} (h : Aligned H c n) (reqs : List CommandRequest)
    (appended : List Bool) (same : reqs.length = appended.length) :
    (replyLoop H c (reqs.zip appended)).2 =
      (reqs.zip (due (H.replyTo c) (H.read (replyLoop H c (reqs.zip appended)).1) n
        appended)).flatMap (fun x => invocation x.1 x.2) ∧
    Aligned H (replyLoop H c (reqs.zip appended)).1 (n + appended.countP id) := by
  induction reqs generalizing c n appended with
  | nil =>
    obtain rfl : appended = [] := List.length_eq_zero_iff.mp same.symm
    exact ⟨rfl, h⟩
  | cons req reqs ih =>
    obtain ⟨ok, appended, rfl⟩ : ∃ ok rest, appended = ok :: rest :=
      List.exists_cons_of_length_eq_add_one same.symm
    have same' := Nat.succ.inj same
    simp only [List.zip_cons_cons, replyLoop]
    cases ok with
    | false =>
      obtain ⟨log, aligned⟩ := ih c h appended same'
      rw [getReply_false]
      exact ⟨by rw [due, List.zip_cons_cons, List.flatMap_cons, log], aligned⟩
    | true =>
      rw [getReply_true]
      have rest := @ih (H.redisGetReply c).1
      rw [H.getReply_replyTo] at rest
      have number : n + (true :: appended).countP id = n + 1 + appended.countP id := by
        rw [List.countP_cons_of_pos rfl]
        omega
      rcases getReply_cases (H := H) c with ⟨r, got, good, own, read⟩ | ⟨none, failed, read⟩
      · -- The connection is good, so that this is the reply number `n`.
        have here : H.read c = n := h.2.resolve_left (by simp [good])
        have next : Aligned H (H.redisGetReply c).1 (n + 1) := by
          rw [← here, ← read]
          exact ⟨le_rfl, .inr rfl⟩
        obtain ⟨log, aligned⟩ := rest next appended same'
        have later := read_replyLoop (H := H) (H.redisGetReply c).1 (reqs.zip appended)
        have first : n < H.read (replyLoop H (H.redisGetReply c).1 (reqs.zip appended)).1 := by
          omega
        rw [number]
        refine ⟨?_, aligned⟩
        rw [due, if_pos first, List.zip_cons_cons, List.flatMap_cons, log, got, own, here]
      · have next : Aligned H (H.redisGetReply c).1 (n + 1) :=
          ⟨read.le.trans (h.1.trans (Nat.le_succ n)), .inl failed⟩
        obtain ⟨log, aligned⟩ := rest next appended same'
        have stuck := read_replyLoop_failed (H := H) _ failed (reqs.zip appended)
        have beyond : ¬ n < H.read (replyLoop H (H.redisGetReply c).1 (reqs.zip appended)).1 := by
          rw [stuck, read]
          exact not_lt.mpr h.1
        rw [number]
        refine ⟨?_, aligned⟩
        rw [due, if_neg beyond, List.zip_cons_cons, List.flatMap_cons, log, none]

@[simp] lemma map_fst_invocation (req : CommandRequest) (rawReply : Option RawReply) :
    (invocation req rawReply).map Prod.fst = req.callback.toList := by
  cases h : req.callback <;> simp [invocation, h]

lemma callbacks_replyLoop (c : κ) (reqs : List CommandRequest) (appended : List Bool)
    (same : reqs.length = appended.length) :
    (replyLoop H c (reqs.zip appended)).2.map Prod.fst = reqs.filterMap (·.callback) := by
  induction reqs generalizing c appended with
  | nil => rfl
  | cons req reqs ih =>
    obtain ⟨ok, appended, rfl⟩ : ∃ ok rest, appended = ok :: rest :=
      List.exists_cons_of_length_eq_add_one same.symm
    simp only [List.zip_cons_cons, replyLoop, List.map_append, map_fst_invocation,
      ih _ appended (Nat.succ.inj same), List.filterMap_cons]
    cases req.callback <;> rfl

/-- One `send` gives every request what it is due, and leaves the context aligned. -/
theorem send_due (c : κ) (h : Aligned H c (H.written c)) (reqs : List CommandRequest) :
    OwnReplies H c reqs ∧ Aligned H (send H c reqs).1 (H.written (send H c reqs).1) := by
  obtain ⟨read, replyTo, written, failed⟩ := appendLoop_spec (H := H) c reqs
  have same := (length_appendLoop (H := H) c reqs).symm
  have first : Aligned H (appendLoop H c reqs).1 (H.written c) := by
    rw [Aligned, read]
    exact ⟨h.1, h.2.imp_left failed⟩
  obtain ⟨log, aligned⟩ := replyLoop_due (appendLoop H c reqs).1 first reqs
    (appendLoop H c reqs).2 same
  rw [replyTo] at log
  have last : Aligned H (send H c reqs).1 (H.written (send H c reqs).1) := by
    rw [send, written_replyLoop, written]
    exact aligned
  exact ⟨⟨log, callbacks_replyLoop _ reqs _ same, last.2⟩, last⟩

lemma sends_aligned (c : κ) (h : Aligned H c (H.written c))
    (batches : List (List CommandRequest)) :
    Aligned H (sends H c batches) (H.written (sends H c batches)) := by
  induction batches generalizing c with
  | nil => exact h
  | cons reqs batches ih => exact ih _ (send_due c h reqs).2

/-- In every batch that is sent on a new connection, replies go to their own commands. -/
theorem replies_own (c : κ) (fresh : H.read c = H.written c) (batches : List (List CommandRequest))
    (reqs : List CommandRequest) : OwnReplies H (sends H c batches) reqs :=
  (send_due _ (sends_aligned c ⟨fresh.le, .inr fresh⟩ batches) reqs).1

section Worker
variable {cfg : Config} {s : State} {b : Batch}

theorem appendLoop_run (c : κ) (done : List Bool) (at_loop : s.worker = .appending b done) :
    ∃ trace t, Run (Step cfg) s trace t ∧ t.invoked = s.invoked ∧
      t.worker = .appending b (done ++ (appendLoop H c (b.toSend.drop done.length)).2) := by
  generalize hreqs : b.toSend.drop done.length = reqs
  induction reqs generalizing s c done with
  | nil => exact ⟨[], s, .refl, rfl, by rw [at_loop]; simp [appendLoop]⟩
  | cons req reqs ih =>
    have more : done.length < b.dequeued := by
      rw [← length_toSend b]
      by_contra all
      rw [List.drop_of_length_le (not_lt.mp all)] at hreqs
      cases hreqs
    obtain ⟨rfl, hrest⟩ := List.cons.inj ((toSend_drop more).symm.trans hreqs)
    let first := H.redisAppendFormattedCommand c (b.req done.length).command
    have turn : Step cfg s (.appendFormattedCommand first.2) (s.appendCommand b done first.2) := by
      simp only [Step, step, at_loop, if_pos more]
    obtain ⟨trace, t, run, invoked, worker⟩ :=
      ih (s := s.appendCommand b done first.2) first.1 (done ++ [first.2]) rfl
        (by simpa using hrest)
    refine ⟨_, t, (Run.one turn).trans run, invoked, ?_⟩
    rw [worker, List.append_assoc]
    rfl

theorem replyLoop_run (c : κ) (i : ℕ) {appended rest : List Bool} (hrest : appended.drop i = rest)
    (same : (b.toSend.drop i).length = rest.length) (at_loop : s.worker = .reading b appended i)
    (bound : i ≤ b.dequeued) :
    ∃ trace t, Run (Step cfg) s trace t ∧ t.worker = .reading b appended b.dequeued ∧
      t.invoked = s.invoked ++ (replyLoop H c ((b.toSend.drop i).zip rest)).2.map Prod.fst := by
  generalize hreqs : b.toSend.drop i = reqs at same
  induction reqs generalizing s c i rest with
  | nil =>
    have all : i = b.dequeued := by
      have := List.drop_eq_nil_iff.mp hreqs
      rw [length_toSend] at this
      omega
    exact ⟨[], s, .refl, by rw [at_loop, all], by simp [replyLoop]⟩
  | cons req reqs ih =>
    obtain ⟨ok, rest, rfl⟩ : ∃ ok more, rest = ok :: more :=
      List.exists_cons_of_length_eq_add_one same.symm
    have more : i < b.dequeued := by
      rw [← length_toSend b]
      by_contra all
      rw [List.drop_of_length_le (not_lt.mp all)] at hreqs
      cases hreqs
    obtain ⟨rfl, hreqs'⟩ := List.cons.inj ((toSend_drop more).symm.trans hreqs)
    have hrest' : appended.drop (i + 1) = rest := by
      rw [← List.tail_drop, hrest, List.tail_cons]
    let first := getReply H c ok
    have turn : Step cfg s (.getReply first.2.isSome)
        (s.readReply b appended i first.2.isSome) := by
      simp only [Step, step, at_loop, if_pos more]
    obtain ⟨trace, t, run, worker, invoked⟩ :=
      ih (s := s.readReply b appended i first.2.isSome) first.1 (i + 1) hrest' rfl more
        hreqs' (Nat.succ.inj same)
    refine ⟨_, t, (Run.one turn).trans run, worker, ?_⟩
    simp only [invoked, State.readReply, State.invoke, List.zip_cons_cons, replyLoop,
      List.map_append, map_fst_invocation, List.append_assoc]
    rfl

/-- On any connection the worker can take its batch through `send`, and it invokes the callbacks
that `send` invokes. -/
theorem send_run (c : κ) (at_loop : s.worker = .appending b []) :
    ∃ trace t, Run (Step cfg) s trace t ∧ t.worker = .loop ∧
      t.invoked = s.invoked ++ (send H c b.toSend).2.map Prod.fst := by
  obtain ⟨first, u, run, hinvoked, hworker⟩ := @appendLoop_run κ H cfg s b c [] at_loop
  simp only [List.length_nil, List.drop_zero, List.nil_append] at hworker
  have same := length_appendLoop (H := H) c b.toSend
  have through : Step cfg u .allAppended
      { u with worker := .reading b (appendLoop H c b.toSend).2 0 } := by
    simp only [Step, step, hworker, same, length_toSend, if_pos]
  obtain ⟨second, v, run', hworker', hinvoked'⟩ := @replyLoop_run κ H cfg
    { u with worker := .reading b (appendLoop H c b.toSend).2 0 } b
    (appendLoop H c b.toSend).1 0 _ _ rfl (by simpa using same.symm) rfl (Nat.zero_le _)
  have back : Step cfg v .allRead { v with worker := .loop } := by
    simp only [Step, step, hworker', if_pos]
  refine ⟨_, _, ((run.trans (.one through)).trans run').trans (.one back), rfl, ?_⟩
  rw [← hinvoked]
  simpa [send] using hinvoked'

end Worker

/-- A context that answers from a list, until it fails. -/
structure Script where
  appendOk : List Bool
  replies : List RawReply
  failsAt : ℕ
  written : ℕ
  read : ℕ
  failed : Bool

def scripted : Hiredis Script where
  redisAppendFormattedCommand c _ :=
    ({ c with appendOk := c.appendOk.tail, written := c.written + (c.appendOk.headD true).toNat },
      c.appendOk.headD true)
  redisGetReply c :=
    if c.failed || c.failsAt ≤ c.read then ({ c with failed := true }, none)
    else ({ c with read := c.read + 1 }, some (c.replies.getD c.read .nil))
  written := Script.written
  read := Script.read
  replyTo c n := c.replies.getD n .nil
  failed := Script.failed
  append_written _ _ := rfl
  append_read _ _ := rfl
  append_replyTo _ _ := rfl
  append_failed _ _ h := h
  getReply_written c := by split_ifs <;> rfl
  getReply_replyTo c := by split_ifs <;> rfl
  getReply_some c r h := by
    split_ifs at h ⊢ with failed
    exact ⟨(Option.some.inj h).symm, rfl⟩
  getReply_none c h := by
    split_ifs at h ⊢ with failed
    exact ⟨rfl, rfl⟩
  getReply_failed c h := by simp [h]

/-- A command before the batch; then one is not appended, one has no callback, and the
connection fails at the last one. -/
def script : Script where
  appendOk := [true, true, true, false, true]
  replies := [.status (bytes "OK"), .integer 1, .integer 2, .integer 3]
  failsAt := 3
  written := 0
  read := 0
  failed := false

def ping (callback : Option ℕ) : CommandRequest := request [bytes "PING"] callback

theorem replies_own_script :
    OwnReplies scripted (sends scripted script [[ping none]])
      [ping (some 0), ping none, ping (some 1), ping (some 2)] ∧
    (send scripted (sends scripted script [[ping none]])
      [ping (some 0), ping none, ping (some 1), ping (some 2)]).2 =
        [(0, some (.integer 1)), (1, none), (2, none)] :=
  ⟨replies_own script rfl [[ping none]] _, rfl⟩

end ClientPrefs.SendLoops
