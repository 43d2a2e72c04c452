import Nixie.Ast.SubstituteLoop

/-! Substitution is simultaneous and avoids captures where the sorts of case variables are found. -/

namespace Nixie.Ast

open List

section

variable {rebuild : Kind → List Term → Term} {subst : Subst}

end

end Nixie.Ast
