import ClientPrefs.ConnectionSetup

/-!
# Replies that a worker survives

Which replies let the thread part of a query, and the setup of a connection, return.
The `n`-th `Command` is answered by `r n`, a null reply by `none`.
-/
namespace ClientPrefs.ReplySafety
open ByteStrings Conversation Conv Cookies ConnectionSetup QueryThread RedisReply RedisStore

variable {Cmd α : Type} {r : ℕ → Option Reply} {n : ℕ}

def Returns (r : ℕ → Option Reply) (c : Conv Cmd Reply α) : Prop := ∃ a, c.feed r 0 = some a

def isString : Option Reply → Bool
  | some (.string _) => true
  | _ => false

/-- An entry of the script's reply that the loop does not stop at. -/
def Formed (row : Reply) : Prop := ∃ name desc access value, row = .arrays [name, desc, access, value]

def Named (row : Reply) : Prop := ∀ name desc access value,
  row = .arrays [name, desc, access, value] → isString name = true ∧ isString desc = true

/-- Each entry that the loop reaches has a name and a description. -/
def RowsNamed (rows : List Reply) : Prop := ∀ before row after,
  rows = before ++ row :: after → (∀ x ∈ before, Formed x) → Named row

/-- The reply to the first `GET` for the `i`-th key when the loop starts at reply `n`. -/
def turn (r : ℕ → Option Reply) (n : ℕ) : ℕ → ℕ
  | 0 => n
  | i + 1 => if isString (r (turn r n i)) then turn r n i + 4 else turn r n i + 1

/-- The key is a string of at least 11 bytes, no reply about it is null, and its description
is a string if its id is one. -/
structure KeyAnswered (r : ℕ → Option Reply) (n : ℕ) (item : Reply) : Prop where
  key : ∃ key, item = .string key ∧ 11 ≤ key.length
  id : (r n).isSome = true
  value : isString (r n) = true → (r (n + 1)).isSome = true
  desc : isString (r n) = true → isString (r (n + 2)) = true
  access : isString (r n) = true → (r (n + 3)).isSome = true

/-- The replies that a query survives. -/
def Answered (r : ℕ → Option Reply) : Job → Prop
  | .insertCookie _ _ _ => (r 0).isSome = true ∧
      ∀ id, r 0 = some (.string id) → ∃ z, stoi id = .ok z
  | .selectData _ => (∀ rows, r 0 = some (.arrays rows) → RowsNamed rows) ∧
      ∀ items, ((r 0).map Reply.ok).getD false = false → r 1 = some (.arrays items) →
        ∀ i item, items[i]? = some item → KeyAnswered r (turn r 2 i) item
  | .insertData _ _ _ => True
  | .selectId _ => isString (r 0) = true

theorem isString_iff {reply : Option Reply} :
    isString reply = true ↔ ∃ text, reply = some (.string text) := by
  unfold isString
  split <;> simp_all

lemma named_row {a b c d : Reply} : Named (.arrays [a, b, c, d]) ↔
    isString a = true ∧ isString b = true := by
  constructor
  · intro h
    exact h a b c d rfl
  · rintro ⟨ha, hb⟩ name desc access value heq
    simp only [Reply.arrays.injEq, List.cons.injEq, and_true] at heq
    obtain ⟨rfl, rfl, rfl, rfl⟩ := heq
    exact ⟨ha, hb⟩

lemma rowsNamed_cons {row : Reply} {rows : List Reply} :
    RowsNamed (row :: rows) ↔ Named row ∧ (Formed row → RowsNamed rows) := by
  constructor
  · intro h
    refine ⟨h [] row rows rfl (by simp), fun formed before x after heq hbefore => ?_⟩
    refine h (row :: before) x after (by rw [heq]; rfl) ?_
    intro y hy
    rcases List.mem_cons.mp hy with rfl | hy
    · exact formed
    · exact hbefore y hy
  · rintro ⟨named, rest⟩ before x after heq hbefore
    cases before with
    | nil =>
      obtain ⟨rfl, rfl⟩ : row = x ∧ rows = after := by simpa using heq
      exact named
    | cons y before =>
      obtain ⟨rfl, rfl⟩ : row = y ∧ rows = before ++ x :: after := by simpa using heq
      exact rest (hbefore _ (List.mem_cons_self ..)) before x after rfl
        fun z hz => hbefore z (List.mem_cons_of_mem _ hz)

lemma readRows_malformed {row : Reply} (h : ¬ Formed row) (rows : List Reply) :
    readRows (row :: rows) = some [] := by
  unfold readRows
  split
  · next name desc access value rest heq =>
    obtain ⟨rfl, _⟩ := List.cons.inj heq
    exact absurd ⟨name, desc, access, value, rfl⟩ h
  · rfl

lemma readRows_formed {name desc access value : Reply} {rows : List Reply} :
    (readRows (.arrays [name, desc, access, value] :: rows)).isSome = true ↔
      (isString name = true ∧ isString desc = true) ∧ (readRows rows).isSome = true := by
  conv_lhs => unfold readRows
  split
  · simp [isString]
  · next _ _ hnot =>
    refine iff_of_false (by simp) fun h => ?_
    obtain ⟨n, hn⟩ := isString_iff.mp h.1.1
    obtain ⟨d, hd⟩ := isString_iff.mp h.1.2
    exact hnot n d (Option.some.inj hn) (Option.some.inj hd)

/-- No exception escapes while the entries are read exactly when they have their names. -/
theorem readRows_isSome_iff {rows : List Reply} :
    (readRows rows).isSome = true ↔ RowsNamed rows := by
  induction rows with
  | nil => simp [readRows, RowsNamed]
  | cons row rows ih =>
    rw [rowsNamed_cons]
    by_cases formed : Formed row
    · obtain ⟨name, desc, access, value, rfl⟩ := formed
      have hformed : Formed (.arrays [name, desc, access, value]) := ⟨_, _, _, _, rfl⟩
      rw [named_row, readRows_formed, ih, forall_prop_of_true hformed]
    · have named : Named row := by
        intro name desc access value heq
        exact absurd ⟨name, desc, access, value, heq⟩ formed
      simp [readRows_malformed formed, named, formed]

lemma turn_succ (r : ℕ → Option Reply) (n i : ℕ) : turn r n (i + 1) =
    turn r (if isString (r n) then n + 4 else n + 1) i := by
  induction i with
  | zero => rfl
  | succ i ih => rw [turn, ih, turn]

lemma keysAnswered_cons {item : Reply} {items : List Reply} :
    (∀ i x, (item :: items)[i]? = some x → KeyAnswered r (turn r n i) x) ↔
      KeyAnswered r n item ∧ ∀ i x, items[i]? = some x →
        KeyAnswered r (turn r (if isString (r n) then n + 4 else n + 1) i) x := by
  constructor
  · intro h
    refine ⟨h 0 item rfl, fun i x hx => ?_⟩
    rw [← turn_succ]
    exact h (i + 1) x hx
  · rintro ⟨first, rest⟩ i x hx
    cases i with
    | zero =>
      obtain rfl : item = x := by simpa using hx
      exact first
    | succ i =>
      rw [turn_succ]
      exact rest i x hx

theorem keysLoop_returns_iff {steamId : Bytes} {items : List Reply}
    {results : List (Cookie × Bytes)} :
    ((keysLoop steamId items results).feed r n).isSome = true ↔
      ∀ i x, items[i]? = some x → KeyAnswered r (turn r n i) x := by
  induction items generalizing n results with
  | nil => simp [keysLoop, returned, feed]
  | cons item items ih =>
    rw [keysAnswered_cons]
    unfold keysLoop
    split
    · next key =>
      by_cases hlong : key.length < 11
      · rw [if_pos hlong]
        refine iff_of_false (by simp [feed]) fun h => ?_
        obtain ⟨_, heq, hlen⟩ := h.1.key
        obtain rfl := Reply.string.inj heq
        omega
      · rw [if_neg hlong]
        dsimp only
        rw [feed_command_bind]
        cases hid : r n with
        | none => exact iff_of_false (by simp [feed]) fun h => by simpa [hid] using h.1.id
        | some reply =>
          have hkey : ∃ k, (.string key : Reply) = .string k ∧ 11 ≤ k.length :=
            ⟨key, rfl, Nat.le_of_not_lt hlong⟩
          cases reply with
          | string id =>
            have hstring : isString (r n) = true := by rw [hid]; rfl
            have hreplies : (List.range' (n + 1) 3).map r = [r (n + 1), r (n + 2), r (n + 3)] := rfl
            simp only [feed, List.length_cons, List.length_nil, hreplies]
            split
            · next value desc access heq =>
              simp only [List.cons.injEq, and_true] at heq
              obtain ⟨hvalue, hdesc, haccess⟩ := heq
              have hfound : isString (some (.string id)) = true := rfl
              rw [if_pos hfound, ih]
              refine (and_iff_right ⟨hkey, ?_, ?_, ?_, ?_⟩).symm <;>
                simp [hid, hvalue, hdesc, haccess, isString]
            · next hnot =>
              refine iff_of_false (by simp [feed]) fun h => ?_
              obtain ⟨value, hvalue⟩ := Option.isSome_iff_exists.mp (h.1.value hstring)
              obtain ⟨desc, hdesc⟩ := isString_iff.mp (h.1.desc hstring)
              obtain ⟨access, haccess⟩ := Option.isSome_iff_exists.mp (h.1.access hstring)
              exact hnot value desc access (by rw [hvalue, hdesc, haccess])
          | _ =>
            rw [if_neg (by simp [isString]), ← ih]
            refine (and_iff_right ?_).symm
            refine ⟨hkey, ?_, ?_, ?_, ?_⟩ <;> simp [hid, isString]
    · next hnot =>
      refine iff_of_false (by simp [feed]) fun h => ?_
      obtain ⟨key, rfl, _⟩ := h.1.key
      exact hnot key rfl

theorem returns_iff {c : Conv Cmd Reply α} : Returns r c ↔ (c.feed r 0).isSome = true :=
  Option.isSome_iff_exists.symm

theorem insertCookie_returns_iff {hash : Bytes → ℕ} {name description : Bytes}
    {access : CookieAccess} : Returns r (insertCookie hash name description access) ↔
      Answered r (.insertCookie name description access) := by
  rw [returns_iff, insertCookie, feed_command_bind]
  cases hid : r 0 with
  | none => simp [feed, Answered, hid]
  | some reply =>
    cases reply with
    | string id =>
      cases hz : stoi id <;> simp [feed, append, returned, Answered, hid, hz]
    | _ => simp [feed, append, returned, Answered, hid]

theorem selectId_returns_iff {name : Bytes} :
    Returns r (selectId name) ↔ Answered r (.selectId name) := by
  rw [returns_iff, selectId, feed_command_bind]
  cases hid : r 0 with
  | none => simp [feed, Answered, hid, isString]
  | some reply =>
    cases reply <;> simp [feed, returned, Answered, hid, isString]

theorem slow_returns_iff {steamId : Bytes} : ((do
    match ← command (.keys (bytes "cookies.id.")) with
    | some (.arrays items) => keysLoop steamId items []
    | _ => returned true (-1) [] : Talk).feed r 1).isSome = true ↔
      ∀ items, r 1 = some (.arrays items) →
        ∀ i item, items[i]? = some item → KeyAnswered r (turn r 2 i) item := by
  rw [feed_command_bind]
  split
  · next items hitems =>
    rw [keysLoop_returns_iff]
    constructor
    · intro h items' hitems'
      rw [hitems, Option.some.injEq, Reply.arrays.injEq] at hitems'
      exact hitems' ▸ h
    · intro h
      exact h items hitems
  · next hnot => exact iff_of_true rfl fun items hitems => absurd hitems (hnot items)

theorem selectData_returns_iff {sha steamId : Bytes} :
    Returns r (selectData sha steamId) ↔ Answered r (.selectData steamId) := by
  rw [returns_iff, selectData, feed_command_bind]
  split
  · next rows hrows =>
    have hok : ¬ ((r 0).map Reply.ok).getD false = false := by simp [hrows, Reply.ok]
    have hsplit : Answered r (.selectData steamId) ↔ RowsNamed rows := by
      simp [Answered, hrows, Reply.ok]
    rw [hsplit, ← readRows_isSome_iff]
    cases readRows rows <;> simp [feed, returned]
  · next hnot =>
    have hrows : ∀ rows, r 0 = some (.arrays rows) → RowsNamed rows :=
      fun rows hrows => absurd hrows (hnot rows)
    by_cases hok : ((r 0).map Reply.ok).getD false = true
    · rw [if_pos hok]
      exact iff_of_true rfl ⟨hrows, fun items hnone => absurd hok (by simp [hnone])⟩
    · rw [if_neg hok]
      refine slow_returns_iff.trans ⟨fun h => ⟨hrows, fun items _ => h items⟩, fun h => ?_⟩
      exact fun items => h.2 items (by simpa using hok)

/-- Each query, and the setup of a connection, returns exactly on the replies it is made for. -/
theorem worker_survives_iff (hash : Bytes → ℕ) (settings : Settings) (r : ℕ → Option Reply) :
    (∀ j, Returns r (bindParamsAndRun hash j) ↔ Answered r j) ∧
      (Returns r (connectDb settings) ↔ (r 0).isSome = true) := by
  refine ⟨fun j => ?_, ?_⟩
  · cases j with
    | insertCookie name description access => exact insertCookie_returns_iff
    | selectData steamId => exact selectData_returns_iff
    | insertData steamId id value => exact iff_of_true ⟨_, rfl⟩ trivial
    | selectId name => exact selectId_returns_iff
  · rw [returns_iff, connectDb, feed_command_bind]
    cases hauth : r 0 with
    | none => simp [feed]
    | some reply =>
      cases reply with
      | status text =>
        refine iff_of_true ?_ rfl
        dsimp only
        rw [feed_append_bind, feed_command_bind]
        split <;> rfl
      | _ => exact iff_of_true rfl rfl

/-- The connection is lost before `InsertCookie` has the reply to its `GET`. -/
theorem null_reply_read : ¬ ∀ (hash : Bytes → ℕ) (settings : Settings) (r : ℕ → Option Reply),
    (∀ j, Returns r (bindParamsAndRun hash j)) ∧ Returns r (connectDb settings) := by
  intro h
  obtain ⟨outcome, houtcome⟩ :=
    (h List.length ⟨[], 0⟩ fun _ => none).1 (.insertCookie (bytes "music") [] 0)
  cases houtcome

end ClientPrefs.ReplySafety
