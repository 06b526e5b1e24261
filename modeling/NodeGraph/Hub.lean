/-! The hub: notices of changed documents, broadcast to everyone who listens. -/
namespace NodeGraph

structure Notice where
  channel : String
  payload : String
  deriving DecidableEq, Repr

/-- All notices ever broadcast, oldest first, and for each receiver how many of them it is done
with; a receiver that has left has no count. -/
structure Hub where
  log : Array Notice := #[]
  receivers : List (Option Nat) := []
  isOpen : Bool := true

/-- What a receiver is handed. -/
inductive Receipt where
  | notice (n : Notice)
  /-- The given number of notices were lost. -/
  | lagged (missed : Nat)
  | empty
  | closed
  deriving DecidableEq, Repr

namespace Hub

/-- How many notices are kept for a receiver that does not keep up. -/
def capacity : Nat := 1024

def listeners (hub : Hub) : Nat :=
  hub.receivers.countP Option.isSome

/-- The number of a receiver of later notices. A closed hub gives a number without a receiver. -/
def subscribe (hub : Hub) : Nat × Hub :=
  let cursor := if hub.isOpen then some hub.log.size else none
  (hub.receivers.length, { hub with receivers := hub.receivers ++ [cursor] })

/-- Lets a receiver go; false if there is none. -/
def unsubscribe (hub : Hub) (receiver : Nat) : Bool × Hub :=
  match hub.receivers[receiver]? with
  | some (some _) => (true, { hub with receivers := hub.receivers.set receiver none })
  | _ => (false, hub)

/-- Broadcasts a notice and counts its receivers. A notice that nobody receives is not kept. -/
def publish (hub : Hub) (n : Notice) : Nat × Hub :=
  if hub.isOpen && hub.listeners ≠ 0 then (hub.listeners, { hub with log := hub.log.push n })
  else (0, hub)

/-- Closes the hub; false if it was closed. Receivers may still take what is left for them. -/
def close (hub : Hub) : Bool × Hub :=
  (hub.isOpen, { hub with isOpen := false })

/-- The next thing for a receiver that is done with the first `cursor` notices, and its count
after it. The oldest notices beyond the capacity are lost, which is reported once. -/
def next (hub : Hub) (cursor : Nat) : Receipt × Nat :=
  if cursor + capacity < hub.log.size then
    (.lagged (hub.log.size - capacity - cursor), hub.log.size - capacity)
  else
    match hub.log[cursor]? with
    | some n => (.notice n, cursor + 1)
    | none => (if hub.isOpen then .empty else .closed, cursor)

/-- Hands a receiver its next thing; `none` if there is no such receiver. -/
def receive (hub : Hub) (receiver : Nat) : Option Receipt × Hub :=
  match hub.receivers[receiver]? with
  | some (some cursor) =>
    let (receipt, cursor) := hub.next cursor
    (some receipt, { hub with receivers := hub.receivers.set receiver (some cursor) })
  | _ => (none, hub)

end Hub
end NodeGraph
