import LetPoly.Infer.Program
import LetPoly.Proofs.Erasure
import LetPoly.Proofs.FreeNames
import LetPoly.Proofs.Matching
import LetPoly.Proofs.MeasureTexts
import LetPoly.Proofs.Measuring
import LetPoly.Proofs.PreludeNames
import LetPoly.Proofs.SchemeTexts
import LetPoly.Proofs.Scoping
import LetPoly.Proofs.Separate
import LetPoly.Proofs.Sessions
import LetPoly.Proofs.Solved
import LetPoly.Proofs.Substitutions
import LetPoly.Proofs.TopLevel
import LetPoly.Proofs.UnifyErrors
import LetPoly.Proofs.UnifyRecursion
import LetPoly.Proofs.UnusedRecursion
import LetPoly.Syntax.Erase
import LetPoly.Ty.Measured
import LetPoly.Ty.Path
import LetPoly.Typing.Program
