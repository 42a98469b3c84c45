import AccountSync.Device.Receive
import AccountSync.Device.SyncPass
import AccountSync.Files.Tree
import AccountSync.Main
import AccountSync.Settings.Environment
import AccountSync.Proofs.Layout.RoundTrip
import AccountSync.Proofs.Entries.Lattice
import AccountSync.Proofs.Replica.Transition
import AccountSync.Proofs.Replica.Saving
import AccountSync.Proofs.Step
import AccountSync.Proofs.Device.Calls
import AccountSync.Proofs.Device.Notes
import AccountSync.Proofs.Device.Rollback
import AccountSync.Proofs.Swarm.Steps
import AccountSync.Proofs.Swarm.Convergence
import AccountSync.Proofs.Device.Held
import AccountSync.Proofs.Device.Loading
import AccountSync.Proofs.Device.History
import AccountSync.Proofs.Device.Plans
import AccountSync.Proofs.Device.Durability
import AccountSync.Proofs.Replica.Retired
import AccountSync.Proofs.Swarm.Deletion
import AccountSync.Proofs.Device.Publishing
import AccountSync.Proofs.Replica.Numbers
import AccountSync.Proofs.Device.Numbering
import AccountSync.Proofs.Device.Meanwhile
import AccountSync.Proofs.Device.Pass
import AccountSync.Proofs.Swarm.Batches
import AccountSync.Proofs.Swarm.Acceptance
import AccountSync.Proofs.Swarm.Exchange
import AccountSync.Proofs.Swarm.Lineage
import AccountSync.Proofs.Swarm.Refusal
import AccountSync.Proofs.Device.Redelivery
import AccountSync.Proofs.Swarm.Backing
import AccountSync.Proofs.Swarm.Repetition
import AccountSync.Proofs.Swarm.Survivor
import AccountSync.Proofs.Replica.Tracking
import AccountSync.Proofs.Device.Confirmation
import AccountSync.Proofs.Device.Pruning
import AccountSync.Proofs.Device.Removal
import AccountSync.Proofs.Device.Stages
import AccountSync.Proofs.Layout.Truncation
import AccountSync.Proofs.Replica.Wire
import AccountSync.Proofs.Device.Collecting
import AccountSync.Proofs.Device.Recording
import AccountSync.Proofs.Device.Outstanding
import AccountSync.Proofs.Swarm.Precedence
import AccountSync.Proofs.Device.Reception
import AccountSync.Proofs.Device.Scheduling
import AccountSync.Proofs.Device.Persistence
import AccountSync.Proofs.Device.Receipts
import AccountSync.Proofs.Device.Restoring
import AccountSync.Proofs.Device.Following
import AccountSync.Proofs.Device.Noise
import AccountSync.Proofs.Device.Unheard
import AccountSync.Proofs.Store.Registration
import AccountSync.Proofs.Store.Migrating
import AccountSync.Proofs.Store.Holdings
import AccountSync.Proofs.Settings.RoundTrip
import AccountSync.Proofs.Entries.Greatest
import AccountSync.Proofs.Settings.Environment
