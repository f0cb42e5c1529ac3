import RuleNetwork.Symbol.Set

/-!
# Gathering the members of a set into runs

The members of a set are read in ascending order and gathered into runs of consecutive codes.  A
member whose code comes right after the latest run makes that run longer, any other begins a run of
its own.

**Width of codes.**  A code is a number of limited width.  To see whether a member goes on with the
latest run, the code after that run is computed, and for the largest code there is none.  If it is
asked for, gathering comes to an end without a result.
-/

namespace RuleNetwork

/-- The code after another one, which there is if the other is not the largest. -/
def codeAfter (largest code : Int) : Option Int :=
  if code < largest then some (code + 1) else none

namespace SymbolSet

/-- Adds a symbol to the runs gathered so far, the latest of which stands first. -/
def gather (largest : Int) : List Run → Symbol → Option (List Run)
  | [], c => some [⟨c.code, c.code⟩]
  | latest :: earlier, c => do
      let next ← codeAfter largest latest.hi
      if next = c.code then return ⟨latest.lo, c.code⟩ :: earlier
      else return ⟨c.code, c.code⟩ :: latest :: earlier

/-- The runs of consecutive codes in a set, gathered from its members. -/
def intervals (largest : Int) (S : SymbolSet) : Option (List Run) :=
  List.reverse <$> S.toList.foldlM (gather largest) []

end SymbolSet
end RuleNetwork
