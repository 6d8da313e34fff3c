import Scaffold.Path

/-!
The command line: which command is to be run, and with which options. Options may stand before
and behind other arguments; behind a bare `--` everything is an argument. Letters of options may
be written together, and a value directly behind its option or behind an equals sign.
-/

namespace Scaffold

inductive Flag where
  | verbose
  | dump
  | overwrite
  | skipExists
  deriving DecidableEq, Repr

namespace Flag

def letter : Flag → Char
  | .verbose => 'v'
  | .dump => 'd'
  | .overwrite => 'F'
  | .skipExists => 'S'

def name : Flag → Text
  | .verbose => "verbose".toList
  | .dump => "dump".toList
  | .overwrite => "overwrite".toList
  | .skipExists => "skip-exists".toList

end Flag

structure MakeOptions where
  stub : Text
  /-- Parameter values, each a key and a value with a colon between them. -/
  values : List Text
  dump : Bool
  overwrite : Bool
  skipExists : Bool
  output : Option Path
  deriving DecidableEq, Repr

inductive Command where
  | make (options : MakeOptions)
  | info (stub : Text)
  deriving DecidableEq, Repr

structure Invocation where
  verbose : Bool
  command : Command
  deriving DecidableEq, Repr

/-- Why no command is run. -/
inductive Stop where
  | help
  | version
  | misuse
  deriving DecidableEq, Repr

/-- The options that may be given at some place of the command line. -/
structure Allowed where
  flags : List Flag
  output : Bool
  version : Bool

/-- What has been read of the arguments. -/
structure Gathered where
  flags : List Flag
  output : Option Path
  words : List Text

namespace Gathered

def empty : Gathered := ⟨[], none, []⟩

/-- No flag is given twice. -/
def addFlag (g : Gathered) (flag : Option Flag) : Except Stop Gathered :=
  match flag with
  | none => .error .misuse
  | some f => if f ∈ g.flags then .error .misuse else .ok { g with flags := f :: g.flags }

/-- The output directory is given once, and is not empty. -/
def setOutput (g : Gathered) (dir : Path) : Except Stop Gathered :=
  if g.output.isSome || dir.isEmpty then .error .misuse else .ok { g with output := some dir }

def isOption (arg : Text) : Bool := arg.head? == some '-' && arg != ['-']

/-- Reads the letters behind a dash. Also told is whether the output directory is still to come. -/
def letters (a : Allowed) (g : Gathered) : Text → Except Stop (Gathered × Bool)
  | [] => .ok (g, false)
  | c :: t =>
    if c = 'h' then .error .help
    else if c = 'V' ∧ a.version then .error .version
    else if c = 'o' ∧ a.output then
      match t with
      | [] => .ok (g, true)
      | '=' :: dir => (g.setOutput dir).map (·, false)
      | dir => (g.setOutput dir).map (·, false)
    else do
      let g ← g.addFlag (a.flags.find? (·.letter == c))
      letters a g t

/-- Reads a name behind two dashes, perhaps with an equals sign and a value. -/
def word (a : Allowed) (g : Gathered) (t : Text) : Except Stop (Gathered × Bool) :=
  match t.takeWhile (· != '='), t.dropWhile (· != '=') with
  | name, [] =>
    if name = "help".toList then .error .help
    else if name = "version".toList ∧ a.version then .error .version
    else if name = "output".toList ∧ a.output then .ok (g, true)
    else (g.addFlag (a.flags.find? (·.name == name))).map (·, false)
  | name, _ :: value =>
    if name = "output".toList ∧ a.output then (g.setOutput value).map (·, false)
    else .error .misuse

/-- Reads arguments on. If `awaiting`, the next one has to be the output directory. -/
def read (a : Allowed) (awaiting : Bool) (g : Gathered) : List Text → Except Stop Gathered
  | [] => if awaiting then .error .misuse else .ok g
  | arg :: args =>
    if awaiting then
      if isOption arg then .error .misuse
      else do
        let g ← g.setOutput arg
        read a false g args
    else if arg = ['-', '-'] then .ok { g with words := g.words ++ args }
    else if isOption arg then do
      let (g, awaiting) ←
        match arg with
        | '-' :: '-' :: t => word a g t
        | _ => letters a g arg.tail
      read a awaiting g args
    else read a false { g with words := g.words ++ [arg] } args

end Gathered

namespace Invocation

private def make (g : Gathered) : Except Stop Command :=
  match g.words with
  | [] => .error .misuse
  | stub :: values =>
    let options : MakeOptions :=
      { stub, values, dump := .dump ∈ g.flags, overwrite := .overwrite ∈ g.flags,
        skipExists := .skipExists ∈ g.flags, output := g.output }
    if options.overwrite && options.skipExists then .error .misuse else .ok (.make options)

private def info (g : Gathered) : Except Stop Command :=
  match g.words with
  | [stub] => .ok (.info stub)
  | _ => .error .misuse

private def ofCommand (verbose : Bool) (a : Allowed) (command : Gathered → Except Stop Command)
    (args : List Text) : Except Stop Invocation := do
  let g ← Gathered.read a false .empty args
  let command ← command g
  pure ⟨verbose || .verbose ∈ g.flags, command⟩

def ofArguments (args : List Text) : Except Stop Invocation := do
  let options := args.takeWhile Gathered.isOption
  let g ← Gathered.read ⟨[.verbose], false, true⟩ false .empty options
  if options.contains ['-', '-'] then .error .misuse
  let verbose : Bool := .verbose ∈ g.flags
  match args.dropWhile Gathered.isOption with
  | [] => .error .misuse
  | name :: args =>
    if name = "make".toList then
      ofCommand verbose ⟨[.verbose, .dump, .overwrite, .skipExists], true, false⟩ make args
    else if name = "info".toList then ofCommand verbose ⟨[.verbose], false, false⟩ info args
    else if name = "help".toList then .error .help
    else .error .misuse

end Invocation

end Scaffold
