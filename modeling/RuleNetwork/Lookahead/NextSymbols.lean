import RuleNetwork.Lookahead.FollowSet

/-!
# Tables of next symbols

A table holds, for every state of a network, the symbols that may come next within the rule
of that state.  Where the end of the rule can be reached, the set holds `Symbol.epsilon`.

From such a table one finds what a parser expects inside nested calls without another walk:
as long as the end of the rule can be reached, the symbols that follow the call come next.
-/

namespace RuleNetwork

/-- The next symbols of the states of a network, in the order of the states. -/
structure NextSymbols where
  sets : List SymbolSet
  deriving DecidableEq

namespace NextSymbols

/-- The table of a network. -/
def ofNetwork (net : Network) : Traced NextSymbols := do
  let sets ← net.states.mapM fun s => net.followSet s.id .anyCaller
  .report (.tableComputed sets.length)
  return ⟨sets⟩

/-- The next symbols of a state. -/
def get (table : NextSymbols) (s : StateId) : Except Fault SymbolSet :=
  elementAt table.sets s.index

/-- A set without the marker for the end of a rule. -/
def withoutEpsilon (symbols : SymbolSet) : SymbolSet := (symbols.remove .epsilon).2

/-- Adds what follows the calls, innermost first, as long as the end of a rule is in reach. -/
def expectedAfter (table : NextSymbols) (net : Network) (expected following : SymbolSet) :
    List StateId → Except Fault SymbolSet
  | [] =>
      return if following.contains .epsilon then
        expected ∪ .single .endOfInput (by decide) else expected
  | caller :: callers =>
      if following.contains .epsilon then do
        let next ← table.get (← net.followOfCall caller)
        expectedAfter table net (withoutEpsilon (expected ∪ next)) next callers
      else return expected

/-- The symbols that a parser expects at a state inside calls, the innermost one first. -/
def expected (table : NextSymbols) (net : Network) (s : StateId) (callers : List StateId) :
    Except Fault SymbolSet := do
  let following ← table.get s
  table.expectedAfter net (withoutEpsilon following) following callers

end NextSymbols
end RuleNetwork
