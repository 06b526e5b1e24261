import NodeGraph.Store.Basic

/-! Leases: named locks that end by themselves. -/
namespace NodeGraph

/-- What the holder of a lease keeps of it. -/
structure Lease where
  name : String
  owner : Nat
  expiresAt : Int
  deriving DecidableEq, Repr

namespace Lease

/-- The lease of a pass over the queue. -/
def processing : String := "process_document_events_task"

/-- The lease of a snapshot pass. -/
def snapshots : String := "snapshot_documents_task"

/-- Whether a lease of that name is running at a time. -/
def isTaken (now : Int) (name : String) (s : Store) : Bool :=
  s.leases.any fun row => row.name = name && decide (now < row.expiresAt)

/-- Takes a lease for `ttl` milliseconds. A lease that has run out is taken over; one that is
running is left alone and `none` is the answer. -/
def acquire (now : Int) (owner : Nat) (name : String) (ttl : Int) (s : Store) :
    Option Lease × Store :=
  if isTaken now name s then (none, s)
  else
    let expiresAt := Clock.after now ttl
    let row : LeaseRow := { name, owner, expiresAt }
    let others := s.leases.filter (·.name ≠ name)
    (some { name, owner, expiresAt }, { s with leases := others ++ [row] })

/-- Whether the lease is still its holder's and running. -/
def isHeld (now : Int) (lease : Lease) (s : Store) : Bool :=
  s.leases.any fun row =>
    row.name = lease.name && row.owner = lease.owner && decide (now < row.expiresAt)

/-- Gives a lease up. One that was taken over is left to its new holder. -/
def release (lease : Lease) (s : Store) : Store :=
  { s with
    leases := s.leases.filter fun row => !(row.name = lease.name && row.owner = lease.owner) }

end Lease
end NodeGraph
