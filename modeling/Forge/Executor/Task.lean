import Forge.Common.Text
import Mathlib.Data.Nat.Notation

/-!
# Tasks and their outcomes

What the schedulers run: a task with its command, and the outcome an executor reports for
it. An executor may also fail or panic; the worker threads turn both into failed outcomes.
Durations are counted in nanoseconds.
-/

namespace Forge.Executor

/-- A command with its arguments and environment. -/
structure CommandSpec where
  program : String
  args : List String
  env : List (String × String)
  envClear : Bool
  cwd : Option String
  deriving DecidableEq, Repr

/-- A command without arguments, in the environment and the directory of the build. -/
def CommandSpec.new (program : String) : CommandSpec :=
  ⟨program, [], [], false, none⟩

/-- An argument as it is shown, in quotes when it has white space or characters of the shell in it. -/
def shownArg (arg : String) : String :=
  if arg.toList.any Common.isWhitespace || arg.toList.any ("\"$`\\;|&<>()[]\x7b\x7d*?!~".toList.contains ·) then
    " '" ++ arg ++ "'"
  else " " ++ arg

/-- The text of a command. -/
def CommandSpec.commandLine (spec : CommandSpec) : String :=
  spec.args.foldl (fun line arg => line ++ shownArg arg) spec.program

/-- The cache identity of a task. -/
structure CacheEntry where
  key : String
  fingerprint : String
  deriving DecidableEq, Repr

/-- A task of the build graph. -/
structure Task where
  label : String
  description : String
  spec : CommandSpec
  cache : Option CacheEntry
  artifacts : List String
  deriving DecidableEq, Repr

/-- A task without cache entry and artifacts. -/
def Task.new (label description : String) (spec : CommandSpec) : Task :=
  ⟨label, description, spec, none, []⟩

/-- How a task ended. -/
inductive TaskStatus where
  | executed
  | cached
  | failed
  deriving DecidableEq, Repr

/-- What an executor reports about a task. -/
structure TaskOutcome where
  status : TaskStatus
  exitCode : Option Int
  stdout : String
  stderr : String
  duration : ℕ
  deriving DecidableEq, Repr

/-- The outcome of a task that ran. -/
def TaskOutcome.executed (_task : Task) : TaskOutcome := ⟨.executed, some 0, "", "", 0⟩

/-- The outcome of a task that was restored. -/
def TaskOutcome.cached (_task : Task) : TaskOutcome := ⟨.cached, none, "", "", 0⟩

/-- The outcome of a task that failed with a message. -/
def TaskOutcome.failed (_task : Task) (message : String) : TaskOutcome :=
  ⟨.failed, none, "", message, 0⟩

/-- How a call of an executor ends: with an outcome, with the text of an error, or with a
panic that may carry a text. -/
inductive ExecResult where
  | ok (outcome : TaskOutcome)
  | err (error : String)
  | panic (message : Option String)
  deriving DecidableEq, Repr

/-- An executor. What a call does beyond its task depends on the environment it meets. -/
structure TaskExecutor (Env : Type*) where
  execute : Task → Env → ExecResult

/-- How a call ended, if it ended with an outcome. -/
def ExecResult.status? : ExecResult → Option TaskStatus
  | .ok outcome => some outcome.status
  | .err _ => none
  | .panic _ => none

/-- What a worker thread reports for a call. -/
def ExecResult.outcome (task : Task) : ExecResult → TaskOutcome
  | .ok outcome => outcome
  | .err error => .failed task error
  | .panic message => .failed task ("executor panicked: " ++ message.getD "unknown panic")

/-- What a worker thread reports for a task. -/
def TaskExecutor.outcome {Env : Type*} (executor : TaskExecutor Env) (env : Env) (task : Task) :
    TaskOutcome :=
  (executor.execute task env).outcome task

end Forge.Executor
