import SymbolicAutomata.Conversion
import SymbolicAutomata.Language
import SymbolicAutomata.Listing
import SymbolicAutomata.Minimization
import SymbolicAutomata.Proofs.Compositions
import SymbolicAutomata.Proofs.Staging
import SymbolicAutomata.Proofs.Sessions
import SymbolicAutomata.RationalOperations
import SymbolicAutomata.RegularRelation
import SymbolicAutomata.Simulation
import SymbolicAutomata.Proofs.Automata
import SymbolicAutomata.Proofs.Growth
import SymbolicAutomata.Proofs.Closures
import SymbolicAutomata.Proofs.SubAutomata
import SymbolicAutomata.Proofs.PowerStates
import SymbolicAutomata.Proofs.Determinization
import SymbolicAutomata.Proofs.Products
import SymbolicAutomata.Proofs.Decisions
import SymbolicAutomata.Proofs.Bisimulations
import SymbolicAutomata.Proofs.Minimizations
import SymbolicAutomata.Proofs.Encodings
import SymbolicAutomata.Proofs.Simulations
import SymbolicAutomata.Proofs.Determinism
import SymbolicAutomata.Proofs.Belonging
import SymbolicAutomata.Proofs.Operations
import SymbolicAutomata.Proofs.Histories
import SymbolicAutomata.Proofs.Alignments
import SymbolicAutomata.Proofs.Landings
import SymbolicAutomata.Proofs.Extensions
import SymbolicAutomata.Proofs.RationalOperations
import SymbolicAutomata.Proofs.Relabellings
import SymbolicAutomata.Proofs.Conversions
import SymbolicAutomata.Proofs.Derivations
import SymbolicAutomata.Proofs.Edits
import SymbolicAutomata.Proofs.Atoms
import SymbolicAutomata.Proofs.Matrices
import SymbolicAutomata.Proofs.ExplicitPowerStates
import SymbolicAutomata.Proofs.Isomorphisms
import SymbolicAutomata.Proofs.Frugality
import SymbolicAutomata.Proofs.Mirrors
import SymbolicAutomata.Proofs.Walks
import SymbolicAutomata.Proofs.Sizes
import SymbolicAutomata.Proofs.RationalLanguages
import SymbolicAutomata.Proofs.MatrixEdits
import SymbolicAutomata.Proofs.AddedTransitions
import SymbolicAutomata.Proofs.Questions
import SymbolicAutomata.Proofs.Agreement
import SymbolicAutomata.Proofs.Complements
import SymbolicAutomata.Proofs.Residuals
import SymbolicAutomata.Proofs.MinimalAutomata
import SymbolicAutomata.Proofs.EmptyLanguages
import SymbolicAutomata.Proofs.Numberings
import SymbolicAutomata.Proofs.SimulationLanguages
import SymbolicAutomata.Proofs.Ledgers
import SymbolicAutomata.Proofs.Letters
import SymbolicAutomata.Proofs.Tracks
import SymbolicAutomata.Proofs.RegularRelations
import SymbolicAutomata.Proofs.SameTuples
import SymbolicAutomata.Proofs.Images
import SymbolicAutomata.Proofs.MiddleTracks
import SymbolicAutomata.Proofs.Reversals
import SymbolicAutomata.Proofs.Lookups
import SymbolicAutomata.Proofs.AddedStates
import SymbolicAutomata.Proofs.KeptStates
import SymbolicAutomata.Proofs.Paths
import SymbolicAutomata.Proofs.AcceptedWords
import SymbolicAutomata.Proofs.Supports
import SymbolicAutomata.Proofs.Solutions
import SymbolicAutomata.Proofs.WordLimits
import SymbolicAutomata.Proofs.Cubes
import SymbolicAutomata.Proofs.Confinement
import SymbolicAutomata.Proofs.SetValues
import SymbolicAutomata.Proofs.RelationTuples
import SymbolicAutomata.Proofs.Rounds
import SymbolicAutomata.Proofs.GameFixpoints
import SymbolicAutomata.Proofs.CoarsestPartitions
