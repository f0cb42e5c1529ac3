import RuleNetwork.Traced

/-!
# Validation

To validate a network is to list its defects and to report each of them.  A network
without defects is *valid*.
-/

namespace RuleNetwork
namespace Network

/-- Lists the defects of a network and reports each of them. -/
def validate (net : Network) : Traced (List Issue) :=
  ⟨.ofList (net.issues.map Event.defect), .ok net.issues⟩

/-- A network is valid if it has no defects. -/
def IsValid (net : Network) : Prop := net.issues = []

instance (net : Network) : Decidable net.IsValid := inferInstanceAs (Decidable (_ = _))

end Network
end RuleNetwork
