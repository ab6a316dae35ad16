import HackStack.Main
import HackStack.Proofs.ControlFlow
import HackStack.Proofs.Disassembly
import HackStack.Proofs.Simulation
import HackStack.Proofs.Relabeling
import HackStack.Proofs.Requests
import HackStack.Proofs.BlankLines
import HackStack.Proofs.ListMachine
import HackStack.Proofs.DataAbstraction
import HackStack.Proofs.Paths
import HackStack.Proofs.AllOrNothing
import HackStack.Proofs.Pauses
import HackStack.Proofs.CommandText
import HackStack.Proofs.Annotations
import HackStack.Proofs.Reports
import HackStack.Proofs.Spelling
import HackStack.Proofs.Duration
import HackStack.Proofs.Comparisons
import HackStack.Proofs.Transfers
import HackStack.Proofs.ResolvedCode
