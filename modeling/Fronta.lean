import Fronta.Library.Locks
import Fronta.Library.Runs
import Fronta.Fencing.Theorems
import Fronta.Store.Theorems
import Fronta.Worker.Theorems
import Fronta.Claim.Theorems
import Fronta.Backfill.Theorems
import Fronta.Dedupe.Theorems
import Fronta.Feed.Theorems
import Fronta.Lease.Theorems
import Fronta.Orphans.Theorems
import Fronta.Sandbox.Theorems
import Fronta.Completions.Theorems
import Fronta.Startup.Theorems
import Fronta.Deadlock.Theorems
import Fronta.Attempt.Theorems
import Fronta.Publish.Theorems
import Fronta.Server.Theorems
import Fronta.Hints.Theorems
import Fronta.Signals.Theorems
import Fronta.Shutdown.Theorems
import Fronta.Listing.Theorems
import Fronta.Codec.Theorems
import Fronta.Pidfd.Theorems
import Fronta.Polling.Theorems
import Fronta.Renewals.Theorems
import Fronta.Lifecycle.Theorems
