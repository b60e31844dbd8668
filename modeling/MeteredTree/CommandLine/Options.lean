import MeteredTree.Cost

/-! The options of the command line. Flags may stand anywhere among the
program and the environment, short flags combine, and two dashes end the
flags. Asking for the version or for help takes effect where it is met; what
is missing, repeated or malformed is only found at the end. -/

namespace MeteredTree.CommandLine

structure Options where
  program : String
  env : String
  maxCost : Option Cost
  mainnet : Bool
  strict : Bool
  verbosity : Nat

inductive Request
  | run (options : Options)
  | version
  | help

/-- What has been read of a command line so far, the latest first. A missing
value of an option is kept as such. -/
structure Collected where
  positionals : List String := []
  maxCosts : List (Option String) := []
  mainnet : Nat := 0
  strict : Nat := 0
  verbosity : Nat := 0

/-- How reading goes on after an argument. -/
inductive Progress
  | next (c : Collected)
  /-- The next argument may be the value of the cost option. -/
  | wantsCost (c : Collected)
  | stop (r : Request)
  | misuse

/-- A decimal number that fits a cost; one plus sign may stand in front. -/
def parseCost (s : String) : Option Cost :=
  let digits := match s.toList with
    | '+' :: rest => rest
    | cs => cs
  if digits.isEmpty || !digits.all Char.isDigit then none
  else
    let n := digits.foldl (fun n c => 10 * n + (c.toNat - 48)) 0
    if n ≤ Cost.max.toNat then some (UInt64.ofNat n) else none

namespace Collected

/-- A program and an environment are all there may be. -/
def positional (c : Collected) (s : String) : Progress :=
  if c.positionals.length < 2 then .next { c with positionals := s :: c.positionals } else .misuse

def cost (c : Collected) (value : Option String) : Collected :=
  { c with maxCosts := value :: c.maxCosts }

/-- A flag written out, with what follows an equals sign. -/
def long (c : Collected) (name : List Char) (value : Option (List Char)) : Progress :=
  match String.ofList name, value with
  | "max-cost", none => .wantsCost c
  | "max-cost", some v => .next (c.cost (some (String.ofList v)))
  | "mainnet", none => .next { c with mainnet := c.mainnet + 1 }
  | "strict", none => .next { c with strict := c.strict + 1 }
  | "verbose", none => .next { c with verbosity := c.verbosity + 1 }
  | "version", none => .stop .version
  | "help", none => .stop .help
  | _, _ => .misuse

/-- One-letter flags run together. The value of the cost option may follow at
once, also after an equals sign. -/
def short (c : Collected) : List Char → Progress
  | [] => .next c
  | ['m'] => .wantsCost c
  | 'm' :: '=' :: value => .next (c.cost (some (String.ofList value)))
  | 'm' :: value => .next (c.cost (some (String.ofList value)))
  | 's' :: flags => short { c with strict := c.strict + 1 } flags
  | 'v' :: flags => short { c with verbosity := c.verbosity + 1 } flags
  | 'V' :: _ => .stop .version
  | 'h' :: _ => .stop .help
  | _ => .misuse

/-- One argument that is not the two dashes. -/
def argument (c : Collected) (s : String) : Progress :=
  match s.toList with
  | '-' :: '-' :: rest =>
    let name := rest.takeWhile (· != '=')
    c.long name (if name.length < rest.length then some (rest.drop (name.length + 1)) else none)
  | ['-'] => c.positional s
  | '-' :: flags => c.short flags
  | _ => c.positional s

def finish (c : Collected) : Option Request :=
  if 1 < c.mainnet ∨ 1 < c.strict then none
  else
    let request (program env : String) (maxCost : Option Cost) : Request :=
      .run ⟨program, env, maxCost, c.mainnet == 1, c.strict == 1, c.verbosity⟩
    let withCost (program env : String) : Option Request :=
      match c.maxCosts with
      | [] => some (request program env none)
      | [some s] => (parseCost s).map fun cost => request program env (some cost)
      | _ => none
    match c.positionals with
    | [program] => withCost program "80"
    | [env, program] => withCost program env
    | _ => none

/-- Reads arguments none of which is a flag. -/
def plain (c : Collected) : List String → Option Request
  | [] => c.finish
  | s :: args =>
    match c.positional s with
    | .next c => c.plain args
    | _ => none

def isValue (s : String) : Bool :=
  match s.toList with
  | '-' :: _ :: _ => false
  | _ => true

def read (c : Collected) : List String → Option Request
  | [] => c.finish
  | "--" :: args => c.plain args
  | s :: args =>
    match c.argument s with
    | .next c => c.read args
    | .stop r => some r
    | .misuse => none
    | .wantsCost c =>
      match args with
      | [] => (c.cost none).finish
      | v :: rest =>
        if isValue v then (c.cost (some v)).read rest else (c.cost none).read (v :: rest)
termination_by args => args.length

end Collected

/-- What a command line asks for, if it is well formed. -/
def parse (args : List String) : Option Request :=
  Collected.read {} args

end MeteredTree.CommandLine
