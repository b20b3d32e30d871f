import Radiata.Reconcile.IndexRefinement
import Radiata.Reconcile.Dispatch
import Radiata.Routing.SelectorLabel
import Radiata.Session.OpeningContext
import Radiata.Membership.ScanCoverage
import Radiata.Protocol.SelectionSymmetry
import Radiata.Protocol.Completion
import Radiata.Session.Authorization
import Radiata.Session.CrossedDial
import Radiata.Identity.JournalPurpose
import Radiata.Membership.Degree
import Radiata.Membership.DescriptorConvergence
import Radiata.Membership.Recovery
import Radiata.Routing.WalkBudget
import Radiata.Session.ExactDelivery
import Radiata.Keys.DeletedKey
import Radiata.Reconcile.ChangeRecord
import Radiata.Reconcile.Descent
import Radiata.Reconcile.HoldBounds
import Radiata.Reconcile.NeedAnswers
import Radiata.Reconcile.NoteRace
import Radiata.Reconcile.RowAccount
import Radiata.Storage.Paging
import Radiata.Resource.Sweeps
import Radiata.Routing.FrameIsolation
import Radiata.Identity.TokenBucket
