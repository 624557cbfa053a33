import Equilibria.Game.Reference
import Equilibria.Main
import Equilibria.Proofs.Polyhedron
import Equilibria.Proofs.BasicSolution
import Equilibria.Proofs.AscendingLists
import Equilibria.Proofs.ObjectiveAscent
import Equilibria.Proofs.Capped
import Equilibria.Proofs.PivotSearch
import Equilibria.Proofs.VertexEnumeration
import Equilibria.Proofs.PureProfiles
import Equilibria.Proofs.GamePolytopes
import Equilibria.Proofs.BestResponses
import Equilibria.Proofs.BimatrixEquilibria
import Equilibria.Proofs.TwoPlayers
import Equilibria.Proofs.Labels
import Equilibria.Proofs.ExtremeEquilibria
import Equilibria.Proofs.Bicliques
import Equilibria.Proofs.NashSubsets
import Equilibria.Proofs.Restriction
import Equilibria.Proofs.StrictDominance
import Equilibria.Proofs.Expansion
import Equilibria.Proofs.Elimination
import Equilibria.Proofs.Removals
import Equilibria.Proofs.EliminationOrder
import Equilibria.Proofs.ReadRationals
import Equilibria.Proofs.JsonText
import Equilibria.Proofs.GameDocuments
import Equilibria.Proofs.EvenWalls
import Equilibria.Proofs.FeasibleBases
import Equilibria.Proofs.ComplementaryBases
import Equilibria.Proofs.DisjointClasses
import Equilibria.Proofs.LinkedPairs
import Equilibria.Proofs.ConnectedComponents
import Equilibria.Proofs.GroupedLists
import Equilibria.Proofs.ExtremeExpansion
import Equilibria.Proofs.SharedMixtures
import Equilibria.Proofs.MaximalSubsets
import Equilibria.Proofs.VertexOrder
import Equilibria.Proofs.VisitedBases
import Equilibria.Proofs.DelegatedVertices
import Equilibria.Proofs.EliminationReports
import Equilibria.Proofs.InterruptedReports
import Equilibria.Proofs.ZeroSum
import Equilibria.Proofs.NondegenerateBases
import Equilibria.Proofs.NondegenerateGames
import Equilibria.Proofs.ProductSets
import Equilibria.Proofs.CarriedOutcomes
import Equilibria.Proofs.GameSymmetries
import Equilibria.Proofs.TableSizes
import Equilibria.Proofs.DoubleOrder
import Equilibria.Proofs.IteratedRuns
import Equilibria.Proofs.GroupedRows
import Equilibria.Proofs.SolvedSystems
import Equilibria.Proofs.LexicographicPivots
import Equilibria.Proofs.ReversibleSteps
import Equilibria.Proofs.ComplementaryTableaux
import Equilibria.Proofs.ComplementaryWalk
import Equilibria.Proofs.ComplementarySolutions
import Equilibria.Proofs.PairValues
import Equilibria.Proofs.ExpectedPayoffs
import Equilibria.Proofs.Deviations
import Equilibria.Proofs.PolymatrixProblem
import Equilibria.Proofs.PolymatrixSolutions
import Equilibria.Proofs.LinearizedTwoPlayers
import Equilibria.Proofs.LinearizedGames
import Equilibria.Proofs.Responses
import Equilibria.Proofs.FixedPoints
import Equilibria.Proofs.DampedIteration
import Equilibria.Proofs.PairGroupings
import Equilibria.Proofs.SearchRuns
import Equilibria.Proofs.EliminatedGames
import Equilibria.Proofs.ComplementaryRuns
import Equilibria.Proofs.TextLines
import Equilibria.Proofs.VertexTexts
import Equilibria.Proofs.InequalityTexts
import Equilibria.Proofs.DecimalTexts
import Equilibria.Proofs.FloatWords
import Equilibria.Proofs.BinaryQuotients
import Equilibria.Proofs.ShortestDecimals
import Equilibria.Proofs.NumeralTexts
import Equilibria.Proofs.NumeralPayoffs
import Equilibria.Proofs.PivotSequences
import Equilibria.Proofs.AlmostComplementary
import Equilibria.Proofs.ListedStrategies
import Equilibria.Proofs.NormalizedIterates
import Equilibria.Proofs.SignedZeros
import Equilibria.Proofs.ModerateDoubles
import Equilibria.Proofs.RoundedTwoPlayers
import Equilibria.Proofs.LinkedClasses
import Equilibria.Proofs.ProfileNumbers
