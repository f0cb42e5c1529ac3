import RuleNetwork.Network.Basic

/-!
# States on the command line

A state is written as its number in decimal digits.  In front of the digits there may be
any number of letters `s`, and then a plus sign.  The state has to be part of the network.
-/

namespace RuleNetwork
namespace CommandLine

/-- The value of a non-empty text of decimal digits. -/
def readDigits : List Char → Option Nat
  | [] => none
  | digits =>
      if digits.all Char.isDigit then
        some (digits.foldl (fun n digit => 10 * n + (digit.toNat - '0'.toNat)) 0)
      else none

/-- The value of a number, with a plus sign in front or without. -/
def readNumber : List Char → Option Nat
  | '+' :: digits => readDigits digits
  | digits => readDigits digits

/-- The state of the network that a text names. -/
def readState (net : Network) (text : String) : Option StateId :=
  match readNumber (text.toList.dropWhile (· = 's')) with
  | some n => if n < net.states.length then some (.state n) else none
  | none => none

/-- The states that some texts name, or the first text that names none. -/
def readStates (net : Network) : List String → Except String (List StateId)
  | [] => return []
  | text :: texts =>
      match readState net text with
      | some s => return s :: (← readStates net texts)
      | none => throw text

end CommandLine
end RuleNetwork
