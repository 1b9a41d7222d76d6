import ClientPrefs.Commits
import ClientPrefs.Framing

/-!
# Reading commands off the wire

A reader of RESP arrays of bulk strings, and what it finds in the pipeline of a client.
-/
namespace ClientPrefs.WireReading
open ByteStrings ClientLoop Commits Framing Transition

/-- A decimal number after a marker, on a line of its own. -/
def readNumber (mark : Bytes) : Reader UInt8 ℕ := fun w => do
  let (_, w) ← expect mark w
  let (_, rest) ← expect crlf (w.dropWhile isDigit)
  if w.takeWhile isDigit = [] then none else some (digitsValue (w.takeWhile isDigit), rest)

/-- `$len`, and then `len` bytes of any kind. -/
def readBulkString : Reader UInt8 Bytes := fun w => do
  let (n, w) ← readNumber (bytes "$") w
  let (part, w) ← readTake n w
  let (_, w) ← expect crlf w
  some (part, w)

/-- `*n`, and then `n` bulk strings. -/
def readCommand : Reader UInt8 (List Bytes) := readCounted (readNumber (bytes "*")) readBulkString

def readCommands (stream : Bytes) : Option (List (List Bytes)) := readAll readCommand stream

lemma takeWhile_digits (n : ℕ) (rest : Bytes) :
    (natText n ++ crlf ++ rest).takeWhile isDigit = natText n := by
  rw [List.append_assoc, List.takeWhile_append_of_pos (natText_isDigit n)]
  exact List.append_nil _

lemma dropWhile_digits (n : ℕ) (rest : Bytes) :
    (natText n ++ crlf ++ rest).dropWhile isDigit = crlf ++ rest := by
  rw [List.append_assoc, List.dropWhile_append_of_pos (natText_isDigit n)]
  rfl

lemma reads_number (mark : Bytes) :
    Reads (readNumber mark) fun n => mark ++ natText n ++ crlf := by
  intro n rest
  have split : mark ++ natText n ++ crlf ++ rest = mark ++ (natText n ++ crlf ++ rest) := by
    simp only [List.append_assoc]
  rw [split, readNumber, expect_append]
  simp only [Option.bind_eq_bind, Option.bind_some, takeWhile_digits, dropWhile_digits,
    expect_append, if_neg (natText_ne_nil n), digitsValue_natText]

lemma reads_bulkString : Reads readBulkString bulkString := by
  intro part rest
  have split : bulkString part ++ rest =
      (bytes "$" ++ natText part.length ++ crlf) ++ (part ++ (crlf ++ rest)) := by
    simp only [bulkString, List.append_assoc]
  rw [split, readBulkString, reads_number]
  simp

lemma reads_command : Reads readCommand formatCommand :=
  (reads_number (bytes "*")).counted reads_bulkString

/-- A stream of commands determines the commands, no command is the beginning of another one, and
the reader finds the arguments. -/
theorem stream_unambiguous :
    (∀ cmds cmds' : List (List Bytes),
      cmds.flatMap formatCommand = cmds'.flatMap formatCommand ↔ cmds = cmds') ∧
    (∀ cmd cmd' : List Bytes, formatCommand cmd <+: formatCommand cmd' ↔ cmd = cmd') ∧
    (∀ (cmd : List Bytes) (rest : Bytes),
      readCommand (formatCommand cmd ++ rest) = some (cmd, rest)) ∧
    ∀ cmds : List (List Bytes), readCommands (cmds.flatMap formatCommand) = some cmds :=
  ⟨fun _ _ => (reads_command.flatMap_injective formatCommand_ne_nil).eq_iff,
    fun _ _ => reads_command.prefix_iff, reads_command, reads_command.all formatCommand_ne_nil⟩

def argsOf : Event → Option (List Bytes)
  | .append redisCmd _ => some redisCmd
  | _ => none

def given (commands : List (List Bytes × Option ℕ)) (trace : List (State × Event)) :
    List (List Bytes) := commands.map Prod.fst ++ trace.filterMap fun x => argsOf x.2

/-- The bytes handed to the connection. -/
def wire (s : State) : Bytes := s.sent.flatMap CommandRequest.command

variable {s t : State} {e : Event} {trace : List (State × Event)}
  {commands : List (List Bytes × Option ℕ)} {sem : ℕ} {flush : Bool}

theorem appended_step (h : s.appended.map CommandRequest.command =
      (given commands trace).map formatCommand) (hstep : Step manual s e t) :
    t.appended.map CommandRequest.command =
      (given commands (trace ++ [(s, e)])).map formatCommand := by
  have given_snoc : given commands (trace ++ [(s, e)]) =
      given commands trace ++ (argsOf e).toList := by
    simp only [given, List.filterMap_append, List.append_assoc]
    cases h : argsOf e <;> simp [h]
  rw [given_snoc, List.map_append, ← h]
  cases step_cases hstep with
  | append redisCmd callback => simp [argsOf, request]
  | _ => simp [argsOf, State.appendCommand, State.readReply, State.invoke]

theorem appended_of_run (run : Run (Step manual) (start commands sem flush) trace s) :
    s.appended.map CommandRequest.command = (given commands trace).map formatCommand := by
  have begun : (start commands sem flush).appended.map CommandRequest.command =
      (given commands []).map formatCommand := by
    simp [start, given, request]
  exact run.stable_history (J := fun past a =>
    a.appended.map CommandRequest.command = (given commands past).map formatCommand) begun
    fun _ _ _ _ h hstep => appended_step h hstep

/-- What the worker has written is read as the commands that were appended first. -/
theorem wire_of_run (run : Run (Step manual) (start commands sem flush) trace s)
    (greedy : ∀ x ∈ trace, Greedy x.1 x.2) (good : s.err = false) :
    readCommands (wire s) = some ((given commands trace).take s.sent.length) := by
  have sent : s.sent = s.appended.take s.sent.length :=
    List.prefix_iff_eq_take.mp ((sound_of_run run greedy).ordered good).1
  have texts : s.sent.map CommandRequest.command =
      ((given commands trace).take s.sent.length).map formatCommand :=
    calc s.sent.map CommandRequest.command
        = (s.appended.take s.sent.length).map CommandRequest.command := congrArg _ sent
      _ = ((given commands trace).take s.sent.length).map formatCommand := by
        rw [List.map_take, appended_of_run run, List.map_take]
  have hwire : wire s = ((given commands trace).take s.sent.length).flatMap formatCommand := by
    rw [wire, List.flatMap_def, List.flatMap_def, texts]
  rw [hwire]
  exact reads_command.all formatCommand_ne_nil _

end ClientPrefs.WireReading
