import RuleNetwork.Symbol.Set

/-!
# Transitions

A transition leads to a target state.  Its kind says what is needed to take it:

* a *label* (`atom`, `range`, `set`, `notSet`, `wildcard`) asks for one symbol;
* a `call` enters another rule and remembers the state that follows the call;
* a `predicate` or a `precedence` asks for a condition that is not looked into here;
* `epsilon` and `action` ask for nothing.
-/

namespace RuleNetwork

/-- What is needed to take a transition. -/
inductive TransitionKind
  | epsilon
  | atom (c : Symbol)
  | range (lo hi : Symbol)
  | set (members : SymbolSet)
  | notSet (members : SymbolSet)
  | wildcard
  | call (rule : RuleId) (follow : StateId)
  | predicate (rule : RuleId) (index : Nat) (ctxDependent : Bool)
  | precedence (level : Nat)
  | action (rule : RuleId) (index : Nat)
  deriving DecidableEq, Inhabited

/-- A step to a target state. -/
structure Transition where
  target : StateId
  kind : TransitionKind
  deriving DecidableEq, Inhabited

/-- The symbols of a grammar whose largest symbol is given. -/
def vocabularyUpTo (maxSymbol : Symbol) : SymbolSet :=
  .between Symbol.firstUser.code maxSymbol.code (by decide)

namespace TransitionKind

/-- A transition without a label takes no symbol. -/
def isEpsilon : TransitionKind → Bool
  | atom _ | range _ _ | set _ | notSet _ | wildcard => false
  | _ => true

/-- Tells whether a transition asks for a condition. -/
def isPredicate : TransitionKind → Bool
  | predicate _ _ _ | precedence _ => true
  | _ => false

/-- The symbols that are written at a transition, if any; for `notSet` those left out. -/
def label : TransitionKind → Except Fault (Option SymbolSet)
  | atom c => do return some (← SymbolSet.of c)
  | range lo hi => do return some (← SymbolSet.range lo hi)
  | set members | notSet members => return some members
  | _ => return none

/-- The symbols that a transition can take. -/
def symbols (maxSymbol : Symbol) : TransitionKind → Except Fault SymbolSet
  | atom c => SymbolSet.of c
  | range lo hi => SymbolSet.range lo hi
  | set members => return members
  | notSet members => return vocabularyUpTo maxSymbol \ members
  | wildcard => return vocabularyUpTo maxSymbol
  | _ => return ∅

end TransitionKind
end RuleNetwork
