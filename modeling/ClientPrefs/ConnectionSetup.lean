import ClientPrefs.QueryThread

/-!
# Setting up a connection

What `SDK_OnLoad` keeps of the database configuration, and what a query worker sends on
every connection before its queries.
-/
namespace ClientPrefs.ConnectionSetup
open ByteStrings Conversation Conv QueryThread RedisReply RedisStore

/-- `atoi`; a number out of range gives the nearest `int`. -/
def atoi (s : Bytes) : ℤ :=
  let (negative, rest) := splitSign ((cstr s).dropWhile isSpace)
  let n : ℤ := digitsValue (rest.takeWhile isDigit)
  if negative then max (-n) (-2 ^ 31) else min n (2 ^ 31 - 1)

/-- `DatabaseInfo`: the fields that the setup reads, `none` for a null pointer. -/
structure DatabaseInfo where
  pass : Option Bytes
  database : Option Bytes

/-- The members of the extension that a worker reads. -/
structure Settings where
  pass : Bytes
  dbid : ℤ
  deriving DecidableEq, Repr

/-- The part of `SDK_OnLoad` that fills them. -/
def sdkOnLoad (info : DatabaseInfo) : Settings where
  pass := cstr (info.pass.getD [])
  dbid :=
    match info.database with
    | none => 0
    | some database => if cstr database = [] then 0 else atoi database

inductive Request
  | auth (pass : Bytes)
  /-- `SELECT` with the decimal text of the number. -/
  | select (index : ℤ)
  | scriptLoad (script : Bytes)
  | query (c : Command)
  deriving DecidableEq, Repr

/-- `reply::Status`. -/
def statusText : Reply → Option Bytes
  | .invalid => some (bytes "reply is invalid")
  | .status text => some text
  | .error text => some text
  | _ => none

inductive Complaint
  | redisError (status : Option Bytes)
  | invalidReply
  | loadError (status : Option Bytes)
  | shaMismatch (actual : Bytes)
  deriving DecidableEq, Repr

def script : Bytes := bytes (
  "local a=\x7b\x7dfor b,c in ipairs(redis.call('SMEMBERS','cookies.list'))do " ++
  "local d=redis.call('GET','cookies.id.'..c)if d==false then " ++
  "redis.call('SREM','cookies.list',c)else table.insert(a,\x7bc," ++
  "redis.call('GET',string.format('cookies.desc.%s',c))," ++
  "redis.call('GET',string.format('cookies.access.%s',c))," ++
  "redis.call('GET',string.format('%s.%s',KEYS[1],d))\x7d)end end;return a)")

/-- `connectDb` from the moment `Connect` has succeeded. -/
def connectDb (settings : Settings) : Conv Request Reply (Option Complaint) := do
  match ← command (.auth settings.pass) with
  -- The message is made with `reply->Status()` of the null reply.
  | none => .died
  | some (.status _) =>
    append [.select settings.dbid]
    match ← command (.scriptLoad script) with
    | none => .done (some .invalidReply)
    | some (.string sha) =>
      .done (if sha ≠ scriptSha then some (.shaMismatch sha) else none)
    | some reply => .done (some (.loadError (statusText reply)))
  | some reply => .done (some (.redisError (statusText reply)))

/-- What a query worker says on a connection; the setup alone has no outcome. -/
abbrev WorkerTalk := Conv Request Reply (Option Outcome)

/-- The thread part of a query on the connection. -/
def runThreadPart (hash : Bytes → ℕ) (j : Job) : WorkerTalk := do
  let outcome ← (bindParamsAndRun hash j).rename Request.query
  .done (some outcome)

/-- A new connection is set up before anything else. -/
def setupThen (settings : Settings) (rest : WorkerTalk) : WorkerTalk := do
  let _ ← connectDb settings
  rest

end ClientPrefs.ConnectionSetup
