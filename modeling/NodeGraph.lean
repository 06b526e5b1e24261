import NodeGraph.Binary64.Rounding
import NodeGraph.Binary64.Shortest
import NodeGraph.Clock
import NodeGraph.Document
import NodeGraph.Event
import NodeGraph.Fault
import NodeGraph.Hex
import NodeGraph.Hub
import NodeGraph.Json.Numeral
import NodeGraph.Json.Printer
import NodeGraph.Json.Reader
import NodeGraph.Json.Value
import NodeGraph.Keyed
import NodeGraph.Listener
import NodeGraph.Model
import NodeGraph.Node
import NodeGraph.Pass
import NodeGraph.Plan
import NodeGraph.Reconcile
import NodeGraph.Service
import NodeGraph.Settings.Basic
import NodeGraph.Settings.Folder
import NodeGraph.Settings.Text
import NodeGraph.Sha256
import NodeGraph.Snapshot
import NodeGraph.Store.Basic
import NodeGraph.Store.Documents
import NodeGraph.Store.Foreign
import NodeGraph.Store.Lease
import NodeGraph.Store.Nodes
import NodeGraph.Store.Queue
import NodeGraph.Store.Spaces
import NodeGraph.Text.AsciiFold
import NodeGraph.Text.Leaves
import NodeGraph.Text.Printable
import NodeGraph.Text.Quoted
import NodeGraph.Text.Raw
import NodeGraph.Text.Slug
import NodeGraph.Toml.Date
import NodeGraph.Toml.Numeral
import NodeGraph.Toml.Reader
import NodeGraph.Toml.Table
import NodeGraph.Toml.Text
import NodeGraph.Wire.Dump
import NodeGraph.Wire.Reading
import NodeGraph.Wire.Records
import NodeGraph.Wire.Results
import NodeGraph.Workspace
import NodeGraph.Proofs.Binary64.Rounding
import NodeGraph.Proofs.Binary64.Shortest
import NodeGraph.Proofs.Clock
import NodeGraph.Proofs.Keyed
import NodeGraph.Proofs.Json.Numeral
import NodeGraph.Proofs.Json.Value
import NodeGraph.Proofs.Json.RoundTrip
import NodeGraph.Proofs.Json.Leaves
import NodeGraph.Proofs.Store.Sound
import NodeGraph.Proofs.Store.Nodes
import NodeGraph.Proofs.Reconcile.Nodes
import NodeGraph.Proofs.Reconcile.Spaces
import NodeGraph.Proofs.Reconcile.Plans
import NodeGraph.Proofs.Convergence
import NodeGraph.Proofs.Overlap
import NodeGraph.Proofs.Replay
import NodeGraph.Proofs.Draining
import NodeGraph.Proofs.Persistence
import NodeGraph.Proofs.Delivery
import NodeGraph.Proofs.Reordering
import NodeGraph.Proofs.Redelivery
import NodeGraph.Proofs.Integrity.Intact
import NodeGraph.Proofs.Founding
import NodeGraph.Proofs.Durations
import NodeGraph.Proofs.Versions.Settled
import NodeGraph.Proofs.Obstacles
import NodeGraph.Proofs.Courses
import NodeGraph.Proofs.Precedence
import NodeGraph.Proofs.Healing
import NodeGraph.Proofs.Json.Accepted
import NodeGraph.Proofs.EventLog
import NodeGraph.Proofs.Lifecycle
import NodeGraph.Proofs.Atomicity
import NodeGraph.Proofs.Accounts
import NodeGraph.Proofs.Tallies
import NodeGraph.Proofs.Running
import NodeGraph.Proofs.Wakeups
import NodeGraph.Proofs.Relisting
import NodeGraph.Proofs.Cycles
import NodeGraph.Proofs.Replacement
import NodeGraph.Proofs.Additions
import NodeGraph.Proofs.Reconcile.Leases
import NodeGraph.Proofs.SingleFlight
import NodeGraph.Proofs.Stopping
import NodeGraph.Proofs.Requeueing
import NodeGraph.Proofs.Versions.Locality
import NodeGraph.Proofs.Payloads
import NodeGraph.Proofs.Binary64.ReadsBack
import NodeGraph.Proofs.Json.Distinct
import NodeGraph.Proofs.Json.Spelling
import NodeGraph.Proofs.Json.Alike
import NodeGraph.Proofs.Versions.Contents
import NodeGraph.Proofs.Listening
import NodeGraph.Proofs.Slugs
import NodeGraph.Proofs.Retitling
import NodeGraph.Proofs.Toml.Text
import NodeGraph.Proofs.Toml.Reader
import NodeGraph.Proofs.Settings
