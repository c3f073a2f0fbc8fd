import Verdandi.Comet.Correctness
import Verdandi.Comet.Watching.Correctness
import Verdandi.Star.Credentials.Correctness
import Verdandi.Star.Readout.Correctness
import Verdandi.Star.SceneCursor
import Verdandi.Pulsar.Admission
import Verdandi.Star.Catalog.Convergence
import Verdandi.Star.Runtime.Dialing
import Verdandi.Star.DueTime
import Verdandi.Star.Baseline
import Verdandi.Star.Ephemeris.Orders
import Verdandi.Sdk.Catalog.Rebuilding
import Verdandi.Sdk.Registration.Correctness
import Verdandi.Star.Reception
import Verdandi.Star.HookDeadlines
import Verdandi.Sdk.Catalog.Agreement
import Verdandi.Common.Slewing
import Verdandi.Star.LibraryRuns
import Verdandi.Comet.Endpoints
import Verdandi.Comet.Control
import Verdandi.Comet.Holding
import Verdandi.Star.Broadcast
import Verdandi.Polaris.Directory
import Verdandi.Polaris.Cache
import Verdandi.Polaris.WindowRuns
import Verdandi.Sdk.Registration.Recovery
import Verdandi.Sdk.Registration.Pending
import Verdandi.Sdk.Catalog.Floors
import Verdandi.Sdk.Catalog.Numbers
import Verdandi.Polaris.Grammar
import Verdandi.Star.Rotation
import Verdandi.Star.OriginTotals
