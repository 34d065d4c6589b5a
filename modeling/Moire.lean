import Moire.Documents.Model
import Moire.LatticeModel
import Moire.Main
import Moire.Proofs.HexagonalNorm
import Moire.Proofs.LatticeClosure
import Moire.Proofs.HopDistance
import Moire.Proofs.BasisShells
import Moire.Proofs.Evaluation
import Moire.Proofs.RealScalar
import Moire.Proofs.Superlattice
import Moire.Proofs.FundamentalCell
import Moire.Proofs.Commensurability
import Moire.Proofs.SupercellSites
import Moire.Proofs.MinimumImage
import Moire.Proofs.ShortestDecimal
import Moire.Proofs.FloatParts
import Moire.Proofs.PlainText
import Moire.Proofs.FloatProduct
import Moire.Proofs.PathLength
import Moire.Proofs.ResultKeys
import Moire.Proofs.TwoRuns
import Moire.Proofs.StoredRows
import Moire.Proofs.CacheTransparency
import Moire.Proofs.ComplexMatrix
import Moire.Proofs.ExactSpectrum
import Moire.Proofs.ZonePeriodicity
import Moire.Proofs.PairTable
import Moire.Proofs.ContinuumBlocks
import Moire.Proofs.MoireTranslation
import Moire.Proofs.ThreefoldRotation
import Moire.Proofs.BandGauge
import Moire.Proofs.PlaquetteSum
import Moire.Proofs.GaugeInvariance
import Moire.Proofs.OneWave
import Moire.Proofs.SharedStore
import Moire.Proofs.FloatDifference
import Moire.Proofs.BandSelection
import Moire.Proofs.CurvatureSum
import Moire.Proofs.TaskOrder
import Moire.Proofs.MissingParameters
import Moire.Proofs.ExactField
import Moire.Proofs.HistogramBins
import Moire.Proofs.Breakdowns
import Moire.Proofs.StoredContent
import Moire.Proofs.NearestFloat
import Moire.Proofs.DocumentNumbers
import Moire.Proofs.DocumentText
import Moire.Proofs.WrittenFiles
import Moire.Proofs.RecordReading
import Moire.Proofs.ReportReading
import Moire.Proofs.ShellSizes
import Moire.Proofs.HalfFilling
import Moire.Proofs.NotANumber
import Moire.Proofs.StateCounts
import Moire.Proofs.SampledPaths
import Moire.Proofs.EvenChunks
import Moire.Proofs.RankedNumbers
import Moire.Proofs.WindowBounds
import Moire.Proofs.AtomicRows
import Moire.Proofs.SortedLevels
import Moire.Proofs.PickleRoundTrip
import Moire.Proofs.SpectrumRequests
import Moire.Proofs.ZoneArea
import Moire.Proofs.DiracSpectrum
import Moire.Proofs.VelocityMatrix
import Moire.Proofs.RamanRestriction
import Moire.Proofs.SpectralAverages
import Moire.Proofs.GridTransversal
import Moire.Proofs.FolderLaws
import Moire.Proofs.TableSizes
