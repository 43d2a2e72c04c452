import Nixie.Solver.EncodeHistory
import Nixie.Solver.EqualityDecision
import Nixie.Sat.GateDetection
import Nixie.Sat.RoundOccs
import Nixie.Sat.EquivRuns
import Nixie.Euf.Decision
import Nixie.Euf.UnionFindRuns
import Nixie.Sat.Search.Assumptions
import Nixie.DiffLogic.Dense.Propagation
import Nixie.DiffLogic.Sparse.Values
import Nixie.Bv.AbstractionModels
import Nixie.Opt.OllCorrect
import Nixie.Solver.LinearOverflow
import Nixie.Datalog.Correct
import Nixie.Proof.InterpolantCorrect
import Nixie.Solver.PigeonholeCorrect
import Nixie.Solver.SimplifierCorrect
import Nixie.Ast.SubstituteCorrect
import Nixie.Tactic.SolveEqsModels
import Nixie.Qe.VirtualSubstitution
import Nixie.Ematching.CodeTreeFlat
import Nixie.Bdd.SatCount
import Nixie.Bdd.ZddFamilies
import Nixie.Math.IntervalPropagation
import Nixie.Strings.RegexAutomaton
import Nixie.Strings.MinimizeCorrect
import Nixie.Arithmetic.DeltaInstantiation
import Nixie.Math.FastRationalCorrect
import Nixie.Arithmetic.Lia.PseudoBoolean
import Nixie.Arithmetic.Gaussian
import Nixie.Lra.Cuts
import Nixie.DiffLogic.Sparse.Entailed
import Nixie.Bv.AddSub
import Nixie.Proof.LratOverflow
import Nixie.Opt.Preprocess
import Nixie.Sat.Search.AddMidSearch
import Nixie.Sat.Search.Subsume
import Nixie.Sat.Search.HyperBinary
import Nixie.Opt.CardinalityEncoding
