import Blockwork.Main
import Blockwork.Proofs.Allocation
import Blockwork.Proofs.Recursion
import Blockwork.Proofs.Unobservable
import Blockwork.Proofs.Trimming.Simulation
import Blockwork.Proofs.Tracing.Executions
import Blockwork.Proofs.RootScopes
import Blockwork.Proofs.Lists.Refusals
import Blockwork.Proofs.Storing.Programs
import Blockwork.Proofs.Verdicts
import Blockwork.Proofs.Repetition
import Blockwork.Proofs.Reordering
import Blockwork.Proofs.Folding
import Blockwork.Proofs.Parsing.Colors
import Blockwork.Proofs.Parsing.Input
import Blockwork.Proofs.Slices
import Blockwork.Proofs.Slots
import Blockwork.Proofs.CodePoints
import Blockwork.Proofs.Powers
import Blockwork.Proofs.Divisions
import Blockwork.Proofs.Displays
import Blockwork.Proofs.Parsing.Floats
import Blockwork.Proofs.Parameters
