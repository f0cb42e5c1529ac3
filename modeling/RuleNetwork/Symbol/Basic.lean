/-!
# Symbols

The symbols of a grammar have positive codes.  Three smaller codes are markers,
which an analysis puts into the same sets as the symbols it finds:

* `epsilon`: the end of the rule, or a stop state, was reached with nothing known
  about the caller;
* `endOfInput`: the end of the outermost rule was reached;
* `predicate`: a predicate that was not looked past.

No set holds a code below that of `epsilon`.
-/

namespace RuleNetwork

/-- A symbol is known by its code. -/
@[ext] structure Symbol where
  code : Int
  deriving DecidableEq, Hashable

namespace Symbol

/-- Marks the end of a rule or a stop state. -/
def epsilon : Symbol := ⟨-2⟩

/-- Marks the end of the input. -/
def endOfInput : Symbol := ⟨-1⟩

/-- Marks a predicate that hides what follows it. -/
def predicate : Symbol := ⟨0⟩

/-- The smallest symbol of a grammar. -/
def firstUser : Symbol := ⟨1⟩

/-- The smallest code that a set may hold. -/
abbrev leastCode : Int := -2

theorem leastCode_le_epsilon : leastCode ≤ epsilon.code := by decide

theorem leastCode_le_endOfInput : leastCode ≤ endOfInput.code := by decide

theorem leastCode_le_firstUser : leastCode ≤ firstUser.code := by decide

/-- The symbols below those of a grammar are reserved. -/
def isReserved (c : Symbol) : Bool := decide (c.code < firstUser.code)

/-- The written form of a symbol: a marker's name, otherwise the code. -/
def text (c : Symbol) : String :=
  if c = epsilon then "<epsilon>"
  else if c = endOfInput then "<eof>"
  else if c = predicate then "<pred>"
  else toString c.code

end Symbol
end RuleNetwork
