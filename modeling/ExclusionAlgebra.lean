import ExclusionAlgebra.Main
import ExclusionAlgebra.Proofs.Command.Combining
import ExclusionAlgebra.Proofs.Engine.Recall
import ExclusionAlgebra.Proofs.Engine.Rejecting
import ExclusionAlgebra.Proofs.Engine.Replay
import ExclusionAlgebra.Proofs.Engine.Shape
import ExclusionAlgebra.Proofs.Engine.Verbatim
import ExclusionAlgebra.Proofs.Notation.Building
import ExclusionAlgebra.Proofs.Notation.Positions
import ExclusionAlgebra.Proofs.Rule.Correspondence
import ExclusionAlgebra.Proofs.Simplify.Commutes
import ExclusionAlgebra.Proofs.Simplify.Foreign
import ExclusionAlgebra.Proofs.Simplify.Lossless
import ExclusionAlgebra.Proofs.Simplify.Meet
import ExclusionAlgebra.Proofs.Simplify.Neutral
import ExclusionAlgebra.Proofs.Simplify.Nothing
import ExclusionAlgebra.Proofs.Simplify.Respects
import ExclusionAlgebra.Proofs.Simplify.Unfailing
import ExclusionAlgebra.Proofs.Simplify.Weight
import ExclusionAlgebra.Proofs.Simplify.WellFormed
import ExclusionAlgebra.Proofs.Terminal.Trace
