import RuleNetwork.CommandLine.Arguments
import RuleNetwork.CommandLine.StateArgument
import RuleNetwork.CommandLine.StatementGrammar
import RuleNetwork.Lookahead.FollowSet
import RuleNetwork.Network.Text
import RuleNetwork.Network.Validation

/-!
# The report of the command line

A run prints the demonstration network, the lookahead of its decisions, and the follow sets
of the states that were named, or of the starts of all rules if none was.  Events go to the
error output.

A text that names no state is refused before anything is printed.

**Author.**  The line of the help text that names the author is no part of the report.  It is handed
over by whoever builds the program, and left out if there is none.
-/

namespace RuleNetwork
namespace CommandLine

/-- What a run leaves behind. -/
structure Outcome where
  code : UInt32
  stdout : String
  stderr : String
  deriving DecidableEq

/-- Lines of text, each with its end. -/
def unlines (lines : List String) : String := String.join (lines.map (· ++ "\n"))

/-- The version of the program. -/
def versionLine : String := "lookahead 0.1.0"

/-- What `--help` prints. -/
def helpLines (author : Option String) : List String :=
  versionLine :: author.toList ++
    ["Lookahead and follow set analysis for the transition networks of adaptive parsers.",
    "",
    "USAGE:",
    "    lookahead [FLAGS] [STATE]...",
    "",
    "FLAGS:",
    "    -h, --help                 Prints help information",
    "        --local                Limit follow sets to the enclosing rule",
    "        --no-eof               Do not mark the end of input in follow sets",
    "        --opaque-predicates    Do not look past semantic predicates",
    "    -q                         Silence all log messages",
    "    -V, --version              Prints version information",
    "    -v                         Increase message verbosity",
    "",
    "ARGS:",
    "    <STATE>...    States to compute the follow sets of [default: all rule starts]"]

section Sections

variable (net : Network)

/-- The states of the network, one after the other. -/
def networkLines : Traced (List String) := do
  let states ← net.states.mapM fun s => .quietly (net.prettyState s)
  return "network:" :: states

/-- The alternatives of one decision. -/
def alternativeLines (lookahead : List (Option SymbolSet)) : List String :=
  lookahead.zipIdx.map fun (found, number) =>
    match found with
    | some symbols => s!"  alt {number}: {net.prettySet symbols}"
    | none => s!"  alt {number}: unknown"

/-- The states with more than one transition, with the lookahead of each alternative. -/
def decisionLines : Traced (List String) := do
  let deciding := net.states.filter fun s => decide (1 < s.transitions.length)
  let parts ← deciding.mapM fun s => do
    let lookahead ← net.decision s.id
    return (s.id.text ++ ":") :: alternativeLines net lookahead
  return "" :: "decisions:" :: parts.flatten

/-- The follow sets of some states. -/
def followLines (policy : Policy) (c : Context) (states : List StateId) :
    Traced (List String) := do
  let lines ← states.mapM fun s => do
    let regs ← net.explore policy none s c
    return s!"  {s.text}: {net.prettySet regs.found}"
  return "" :: s!"follow sets in {c.text}:" :: lines

/-- The start states of the rules, in the order of the states. -/
def ruleStarts : List StateId :=
  (net.states.filter fun s => decide (s.kind = .ruleStart)).map State.id

/-- All that a run prints. -/
def reportLines (request : Request) (states : List StateId) : Traced (List String) := do
  let c := if request.has .withinRule then .anyCaller else .noCaller
  let policy : Policy := ⟨!request.has .hidePredicates, !request.has .omitEnd⟩
  let states := if request.states.isEmpty then ruleStarts net else states
  let network ← networkLines net
  let decisions ← decisionLines net
  let follows ← followLines net policy c states
  return network ++ decisions ++ follows

end Sections

/-- A failed run, which prints nothing but the reasons. -/
def failure (reasons : List String) : Outcome :=
  ⟨1, "", unlines (reasons.map ("error: " ++ ·))⟩

/-- Analyses a network as the request asks. -/
def analyse (net : Network) (request : Request) : Outcome :=
  let shown (events : List Event) := Event.lines request.shownLevel " - " events
  if ¬ net.IsValid then
    let invalid := failure (net.issues.map Issue.text)
    { invalid with stderr := unlines (shown net.validate.events) ++ invalid.stderr }
  else
    match readStates net request.states with
    | .error text => failure [s!"`{text}` is not a state of the network"]
    | .ok states =>
        let report := reportLines net request states
        match report.result with
        | .ok lines => ⟨0, unlines lines, unlines (shown report.events)⟩
        | .error fault => failure [fault.message]

/-- Runs a command line. -/
def run (arguments : List String) (author : Option String := none) : Outcome :=
  match Command.read arguments with
  | .help => ⟨0, unlines (helpLines author), ""⟩
  | .version => ⟨0, unlines [versionLine], ""⟩
  | .unknownFlag text => failure [s!"Found argument `{text}` which is not expected"]
  | .repeatedFlag flag => failure [s!"The argument `{flag.text}` was provided more than once"]
  | .analyse request => analyse StatementGrammar.network request

end CommandLine
end RuleNetwork
