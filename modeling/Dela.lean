import Dela.Trace
import Dela.Chan
import Dela.ForkJoin
import Dela.Session.Send
import Dela.Session.Lifecycle
import Dela.Session.Relays
import Dela.Session.Fates
import Dela.Session.Retries
import Dela.Blocksync.Handler
import Dela.Blocksync.Sync
import Dela.Blocksync.Events
import Dela.Pedersen.Handler
import Dela.Pedersen.Buffering
import Dela.Pedersen.Fanout
import Dela.Skipchain.Database
import Dela.Skipchain.Atomic
import Dela.Blocksync.Progress
import Dela.Access.Action
import Dela.Session.Teardown
import Dela.Session.SplitInstall
