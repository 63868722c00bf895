import SymbolicFit.Cancellation
import SymbolicFit.Configuration
import SymbolicFit.Orthogonal
import SymbolicFit.Random
import SymbolicFit.Proofs.FloatOrder
import SymbolicFit.Proofs.ReusedBuffers
import SymbolicFit.Proofs.RelatedRuns
import SymbolicFit.Proofs.ForwardMode
import SymbolicFit.Proofs.RecordedRun
import SymbolicFit.Proofs.CoherentRun
import SymbolicFit.Proofs.NodeOrder
import SymbolicFit.Proofs.TunableSlots
import SymbolicFit.Proofs.TunableLens
import SymbolicFit.Proofs.DraftLogic
import SymbolicFit.Proofs.DraftOutcomes
import SymbolicFit.Proofs.CompiledSlots
import SymbolicFit.Proofs.DraftValues
import SymbolicFit.Proofs.RowReads
import SymbolicFit.Proofs.EvaluatedLeaves
import SymbolicFit.Proofs.CompiledValues
import SymbolicFit.Proofs.FloatSquares
import SymbolicFit.Proofs.RecoverableFailures
import SymbolicFit.Proofs.FitFailures
import SymbolicFit.Proofs.Assessments
import SymbolicFit.Proofs.ReportedQuality
import SymbolicFit.Proofs.AssessmentRuns
import SymbolicFit.Proofs.FittedRows
import SymbolicFit.Proofs.RetunedTrees
import SymbolicFit.Proofs.TunedTrees
import SymbolicFit.Proofs.CheckedTapes
import SymbolicFit.Proofs.WellFormedTapes
import SymbolicFit.Proofs.VectorElements
import SymbolicFit.Proofs.CompiledShapes
import SymbolicFit.Proofs.FloatRounding
import SymbolicFit.Proofs.UndefinedCorrelation
import SymbolicFit.Proofs.WrittenLeaves
import SymbolicFit.Proofs.GuardedRuns
import SymbolicFit.Proofs.LongerRuns
import SymbolicFit.Proofs.LoggedModels
import SymbolicFit.Proofs.CancelledFits
import SymbolicFit.Proofs.CursorWalks
import SymbolicFit.Proofs.ExactWrites
import SymbolicFit.Proofs.PearsonCorrelation
import SymbolicFit.Proofs.UntracedTrees
import SymbolicFit.Proofs.FloatIntegers
import SymbolicFit.Proofs.ScalarGrammar
import SymbolicFit.Proofs.FrozenParameters
import SymbolicFit.Proofs.RescaledTapes
import SymbolicFit.Proofs.MirroredDrafts
import SymbolicFit.Proofs.FreezingOptions
import SymbolicFit.Proofs.Derivatives
import SymbolicFit.Proofs.ReplayedDraws
import SymbolicFit.Proofs.LinearRuns
import SymbolicFit.Proofs.CountedPasses
import SymbolicFit.Proofs.FactorLeaves
import SymbolicFit.Proofs.LaggedRows
import SymbolicFit.Proofs.CentralDifferences
import SymbolicFit.Proofs.RecordingWalks
import SymbolicFit.Proofs.RecordedShapes
import SymbolicFit.Proofs.StoredColumns
import SymbolicFit.Proofs.MatrixRows
import SymbolicFit.Proofs.FloatMultiples
import SymbolicFit.Proofs.DrawnPositions
import SymbolicFit.Proofs.SampledRows
import SymbolicFit.Proofs.NodeAddresses
import SymbolicFit.Proofs.GivenSettings
import SymbolicFit.Proofs.ErrorFunction
import SymbolicFit.Proofs.LogicSymbols
