import RuleNetwork.Lookahead.Closure

/-!
# Follow sets and decisions

The queries of this module start a closure with fresh registers.

* A follow set holds the symbols that may come next at a state in a context.
* A decision has one alternative for each transition of a state.  Its lookahead is not
  known if no symbol was found, or if a predicate would have to be looked at first.
-/

namespace RuleNetwork
namespace Network

variable (net : Network)

/-- The symbols that may come next, and what the walk to them remembers. -/
def explore (policy : Policy) (stop : Option StateId) (s : StateId) (c : Context) :
    Traced Registers :=
  Query.closure ⟨net, stop, policy⟩ s c .fresh

/-- The symbols that may follow a state in a context, up to a further state to stop at. -/
def followSetUpTo (s : StateId) (stop : Option StateId) (c : Context) : Traced SymbolSet := do
  let regs ← net.explore .standard stop s c
  return regs.found

/-- The symbols that may follow a state in a context. -/
def followSet (s : StateId) (c : Context) : Traced SymbolSet := net.followSetUpTo s none c

/-- The lookahead of one alternative, if it is known. -/
def alternative (s : StateId) (number : Nat) (t : Transition) :
    Traced (Option SymbolSet) := do
  let regs ← net.explore .decision none t.target .noCaller
  .report (.alternative s number regs.found)
  return if regs.found.isEmpty || regs.found.contains .predicate then none else some regs.found

/-- The lookahead of each alternative of a state. -/
def decision (s : StateId) : Traced (List (Option SymbolSet)) := do
  let state ← .quietly (net.state s)
  state.transitions.zipIdx.mapM fun (t, number) => net.alternative s number t

end Network
end RuleNetwork
