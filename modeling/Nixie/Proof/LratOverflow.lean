import Nixie.Proof.LratCheck

/-! Where the checker overflows: the smallest literal has no negation and no absolute value. -/

namespace Nixie.Lrat

open Function List

section

end

section

end

section

variable {assigned : Assignment} {clause hints : List Int} {lit : Int} {active : Active}

end

end Nixie.Lrat
