import RuleNetwork.Event

/-!
# Arguments of the command line

An argument is a flag, a cluster of short flags behind one hyphen, or the name of a state.
Flags and states may come in any order; behind `--` everything is a state.

A long flag stands behind two hyphens or more.  It takes no value: what follows its name from
an equals sign on is ignored.

The first flag that asks for help or for the version decides at once.  Flags that are not
known are refused, and so are flags that are given twice, apart from `-v`.
-/

namespace RuleNetwork
namespace CommandLine

/-- What a flag asks for. -/
inductive Flag
  | help
  | version
  | quiet
  | verbose
  | withinRule
  | hidePredicates
  | omitEnd
  deriving DecidableEq

namespace Flag

/-- The flag for a letter. -/
def ofLetter : Char → Option Flag
  | 'h' => some help
  | 'V' => some version
  | 'q' => some quiet
  | 'v' => some verbose
  | _ => none

/-- The flag for a word. -/
def ofWord : String → Option Flag
  | "help" => some help
  | "version" => some version
  | "local" => some withinRule
  | "opaque-predicates" => some hidePredicates
  | "no-eof" => some omitEnd
  | _ => none

/-- The flag as it is written in messages. -/
def text : Flag → String
  | help => "--help"
  | version => "--version"
  | quiet => "-q"
  | verbose => "-v"
  | withinRule => "--local"
  | hidePredicates => "--opaque-predicates"
  | omitEnd => "--no-eof"

end Flag

/-- What one argument says. -/
inductive Argument
  | flags (given : List Flag)
  | unknownFlag (text : String)
  | state (text : String)
  deriving DecidableEq

/-- Reads the letters behind one hyphen, up to one that is not known. -/
def clusterOf : List Char → List Flag → Argument
  | [], given => .flags given.reverse
  | letter :: letters, given =>
      match Flag.ofLetter letter with
      | some flag => clusterOf letters (flag :: given)
      | none =>
          if .help ∈ given ∨ .version ∈ given then .flags given.reverse
          else .unknownFlag (String.ofList ['-', letter])

/-- The name of a long flag: without hyphens in front of it and without a value behind it. -/
def nameOfLong (word : List Char) : String :=
  String.ofList ((word.dropWhile (· = '-')).takeWhile (· ≠ '='))

/-- Reads one argument in front of `--`. -/
def Argument.read (text : String) : Argument :=
  match text.toList with
  | '-' :: '-' :: word =>
      match Flag.ofWord (nameOfLong word) with
      | some flag => .flags [flag]
      | none => .unknownFlag text
  | '-' :: letter :: letters => clusterOf (letter :: letters) []
  | _ => .state text

/-- The flags and states of a command line, in order. -/
structure Request where
  flags : List Flag
  states : List String
  deriving DecidableEq

namespace Request

/-- Tells whether a flag is given. -/
def has (r : Request) (flag : Flag) : Bool := r.flags.contains flag

/-- The level up to which events are shown; silence beats every number of `-v`. -/
def shownLevel (r : Request) : Level :=
  if r.has .quiet then .off
  else match r.flags.count .verbose with
    | 0 => .error
    | 1 => .warn
    | 2 => .info
    | 3 => .debug
    | _ => .trace

/-- A flag that is given twice although it counts only once. -/
def repeated? (r : Request) : Option Flag :=
  r.flags.find? fun flag => flag ≠ .verbose && decide (1 < r.flags.count flag)

end Request

/-- What a command line asks for. -/
inductive Command
  | help
  | version
  | analyse (request : Request)
  | unknownFlag (text : String)
  | repeatedFlag (flag : Flag)
  deriving DecidableEq

namespace Command

/-- The command for arguments of which all have been read. -/
def ofRequest (r : Request) : Command :=
  match r.repeated? with
  | some flag => repeatedFlag flag
  | none => analyse r

/-- Reads arguments behind those that have been read. -/
def readAfter (r : Request) : List String → Command
  | [] => ofRequest r
  | argument :: rest =>
      if argument = "--" then ofRequest { r with states := r.states ++ rest }
      else
        match Argument.read argument with
        | .state text => readAfter { r with states := r.states ++ [text] } rest
        | .unknownFlag text => unknownFlag text
        | .flags given =>
            match given.find? fun flag => flag = .help ∨ flag = .version with
            | some .help => help
            | some _ => version
            | none => readAfter { r with flags := r.flags ++ given } rest

/-- Reads a command line. -/
def read (arguments : List String) : Command := readAfter ⟨[], []⟩ arguments

end Command
end CommandLine
end RuleNetwork
