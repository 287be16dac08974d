import TapeLang.Main
import TapeLang.Highlight
import TapeLang.Proofs.Balance
import TapeLang.Proofs.Matching
import TapeLang.Proofs.Reachability
import TapeLang.Proofs.Refinement
import TapeLang.Proofs.Composition
import TapeLang.Proofs.Rehearsal
import TapeLang.Proofs.Progress
import TapeLang.Proofs.Consumption
import TapeLang.Proofs.BareSession
import TapeLang.Proofs.Truncation
import TapeLang.Proofs.Interleaving
import TapeLang.Proofs.Supervision
import TapeLang.Proofs.Schedule
import TapeLang.Proofs.Bounds
import TapeLang.Proofs.Caret
import TapeLang.Proofs.ExecutionPaths
import TapeLang.Proofs.LineIndependence
import TapeLang.Proofs.Rotation
import TapeLang.Proofs.Comments
import TapeLang.Proofs.CellRange
import TapeLang.Proofs.Printing
import TapeLang.Proofs.Blame
import TapeLang.Proofs.Footprint
import TapeLang.Proofs.UnreadInput
import TapeLang.Proofs.LineDecoding
import TapeLang.Proofs.Multiplication
import TapeLang.Proofs.Echo
import TapeLang.Proofs.Resolution
import TapeLang.Proofs.Logbook
import TapeLang.Proofs.Colouring
import TapeLang.Proofs.LoopRows
import TapeLang.Proofs.InTime
import TapeLang.Proofs.RunCommand
import TapeLang.Proofs.RefusedOutput
import TapeLang.Proofs.CellHistory
import TapeLang.Proofs.Window
