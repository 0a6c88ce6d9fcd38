import Wireboard.Catalog.Create
import Wireboard.Main
import Wireboard.Rehearsal.Play
import Wireboard.Proofs.Engine.Listeners
import Wireboard.Proofs.Engine.Frames
import Wireboard.Proofs.Store.Listing
import Wireboard.Proofs.Document.Fidelity
import Wireboard.Proofs.Engine.Requests
import Wireboard.Proofs.Store.Recency
import Wireboard.Proofs.Engine.Namespace
import Wireboard.Proofs.Engine.Timers
import Wireboard.Proofs.Engine.PulledValues
import Wireboard.Proofs.Engine.ConditionalLoops
import Wireboard.Proofs.Engine.RequestBranches
import Wireboard.Proofs.Engine.FailSoft
import Wireboard.Proofs.Http.OwnHosts
import Wireboard.Proofs.Value.WholeTexts
import Wireboard.Proofs.Engine.CallStack
import Wireboard.Proofs.Engine.Ownership
import Wireboard.Proofs.Store.Foreign
import Wireboard.Proofs.Catalog.Ids
