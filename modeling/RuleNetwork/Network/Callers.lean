import RuleNetwork.Context.Basic
import RuleNetwork.Network.Basic

/-!
# The context of nested calls

A parser that is inside nested calls knows, for every call, the state that made it.
The context of these callers returns to the states that follow the calls: the innermost
call is on top, and below the outermost one there is no caller.
-/

namespace RuleNetwork

/-- The states that follow the calls, innermost first.  The outermost call is looked up first. -/
def Network.followsOfCallers (net : Network) : List StateId → Except Fault (List StateId)
  | [] => return []
  | caller :: callers => do
      let outer ← followsOfCallers net callers
      return (← net.followOfCall caller) :: outer

/-- Pushes return states, the last one first. -/
def Context.pushAll (c : Context) (states : List StateId) : Context :=
  states.foldr (fun s below => below.push s) c

@[simp] theorem Context.pushAll_nil (c : Context) : c.pushAll [] = c := rfl

@[simp] theorem Context.pushAll_cons (c : Context) (s : StateId) (states : List StateId) :
    c.pushAll (s :: states) = (c.pushAll states).push s := rfl

/-- The context of calling states, innermost first. -/
def Context.ofCallers (net : Network) (callers : List StateId) :
    Except Fault Context := do
  return noCaller.pushAll (← net.followsOfCallers callers)

end RuleNetwork
