import BinaryCsp.Describe
import BinaryCsp.Main
import BinaryCsp.Proofs.Solver
import BinaryCsp.Tables
import BinaryCsp.Proofs.Operations
import BinaryCsp.Proofs.Search.Failure
import BinaryCsp.Proofs.Search.Leaves
import BinaryCsp.Proofs.Forest
import BinaryCsp.Proofs.Search.BacktrackFree
import BinaryCsp.Proofs.Search.Cost
import BinaryCsp.Proofs.Representation
import BinaryCsp.Proofs.Safety
import BinaryCsp.Proofs.Listings
import BinaryCsp.Proofs.Tables
import BinaryCsp.Proofs.Puzzle.Sudoku
import BinaryCsp.Proofs.Puzzle.Peers
import BinaryCsp.Proofs.Puzzle.MapColouring
import BinaryCsp.Proofs.Puzzle.CircuitBoard
import BinaryCsp.Proofs.Search.Balance
import BinaryCsp.Proofs.Search.Least
import BinaryCsp.Proofs.Revisions
import BinaryCsp.Proofs.Conflicts
import BinaryCsp.Proofs.Selection
import BinaryCsp.Proofs.Renaming
import BinaryCsp.Proofs.Agreement
import BinaryCsp.Proofs.Rearrangement
import BinaryCsp.Proofs.Puzzle.Drawing
import BinaryCsp.Proofs.ReadBack
import BinaryCsp.Proofs.Reversal
import BinaryCsp.Proofs.FiniteSet
import BinaryCsp.Proofs.Waiting
import BinaryCsp.Proofs.Search.Frames
