import MeteredTree.CommandLine.HexText
import MeteredTree.CommandLine.Options
import MeteredTree.Config

/-! The command line program. It runs a program given in hexadecimal and
prints the cost and the result; how much is logged beside that depends on the
verbosity. -/

namespace MeteredTree.CommandLine

structure Output where
  code : UInt32
  stdout : String
  stderr : String

inductive Level
  | info
  | debug
  | trace

namespace Level

def name : Level → String
  | .info => "INFO"
  | .debug => "DEBUG"
  | .trace => "TRACE"

/-- The verbosity from which on a level is logged. -/
def threshold : Level → Nat
  | .info => 1
  | .debug => 2
  | .trace => 3

end Level

/-- The parts of the program that log. -/
inductive Target
  | evaluator
  | points

def Target.name : Target → String
  | .evaluator => "clvm"
  | .points => "clvm-bls"

/-- A line of the log, if the verbosity asks for it. -/
def logLine (verbosity : Nat) (level : Level) (target : Target) (message : String) : String :=
  if level.threshold ≤ verbosity then
    level.name ++ " " ++ target.name ++ " - " ++ message ++ "\n"
  else ""

structure Failure where
  message : String
  cause : String

/-- The report of a failure after what was logged. -/
def Failure.output (f : Failure) (log : String) : Output :=
  ⟨1, "", log ++ "Error: " ++ f.message ++ "\n\nCaused by:\n    " ++ f.cause ++ "\n"⟩

def Failure.ofRunError (e : RunError) : Failure :=
  ⟨e.message, e.cause⟩

namespace Options

def config (o : Options) : Config :=
  let base := if o.mainnet then Config.mainnet else {}
  { maxCost := o.maxCost.or base.maxCost, strict := o.strict }

/-- The program and the environment; the program is looked at first. -/
def inputs (o : Options) : Except Failure (Bytes × Bytes) :=
  match hexBytes o.program, hexBytes o.env with
  | .error e, _ => .error ⟨"program is not valid hex", hexMessage e⟩
  | .ok _, .error e => .error ⟨"env is not valid hex", hexMessage e⟩
  | .ok program, .ok env => .ok (program, env)

def watch (o : Options) (log : String) : Event → String
  | .apply operator _ cost =>
    if Level.trace.threshold ≤ o.verbosity then
      log ++ logLine o.verbosity .trace .evaluator
        ("operator " ++ operator.describe ++ " cost " ++ toString cost)
    else log
  | _ => log

/-- The output of a run that ended, with what was logged during it. -/
def conclude (o : Options) (ending : Ending String) : Output :=
  let log := ending.observed
  match ending.response with
  | .ok r =>
    let cost := toString r.cost
    let log := log ++
      logLine o.verbosity .debug .evaluator ("evaluation finished with cost " ++ cost) ++
      logLine o.verbosity .debug .evaluator ("serialized run finished, cost " ++ cost) ++
      logLine o.verbosity .info .evaluator ("cost used: " ++ cost)
    match r.value.encode with
    | .ok bytes => ⟨0, "cost = " ++ cost ++ "\n" ++ Hex.encode bytes ++ "\n", log⟩
    | .error e => ⟨1, "cost = " ++ cost ++ "\n", log ++ "Error: " ++ e.message ++ "\n"⟩
  | .error e =>
    let log := match ending.machine.meter with
      | .overrun limit total =>
        log ++ logLine o.verbosity .debug .evaluator
          ("cost exceeded: " ++ toString total ++ " > " ++ toString limit)
      | _ => log
    (Failure.ofRunError (.eval e)).output log

def run (o : Options) : Output :=
  let log := logLine o.verbosity .debug .points "BLS12-381 capability initialized"
  match o.inputs with
  | .error f => f.output log
  | .ok (program, env) =>
    match decodeInputs program env with
    | .error e => (Failure.ofRunError e).output log
    | .ok (program, env) =>
      let machine := Machine.new (o.config.table (some Curve.group)) program env o.config.maxCost
      match machine.observe o.watch (Machine.ampleSteps o.config.maxCost) log with
      | some ending => o.conclude ending
      | none => ⟨1, "", log⟩

end Options

def usage : String :=
  "clvm-run [OPTIONS] <PROGRAM> [ENV]\n\n" ++
  "    -m, --max-cost <MAX_COST>    cost budget of the run\n" ++
  "        --mainnet                block cost limit of the main network\n" ++
  "    -s, --strict                 fail on unknown operators\n" ++
  "    -v, --verbose                log more\n" ++
  "    -V, --version                print the version\n" ++
  "    -h, --help                   print this text\n"

def execute (args : List String) : Output :=
  match parse args with
  | some (.run options) => options.run
  | some .version => ⟨0, "clvm-run 0.1.0\n", ""⟩
  | some .help => ⟨0, usage, ""⟩
  | none => ⟨2, "", usage⟩

end MeteredTree.CommandLine
