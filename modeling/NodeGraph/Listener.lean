import NodeGraph.Hub

/-! The listener: wakes a worker for the notices of one channel. -/
namespace NodeGraph.Listener

/-- The permit after a receipt. Lost notices wake the worker as well, since one of them may have
been on the channel. -/
def heed (channel : String) (permit : Bool) : Receipt → Bool
  | .notice n => permit || n.channel = channel
  | .lagged _ => true
  | .empty => permit
  | .closed => permit

/-- Takes what is there for a receiver that is done with `cursor` notices, until nothing is left.
Every receipt but the last moves the count on, so `fuel` need not exceed what is left by more than
one. -/
def follow (hub : Hub) (channel : String) : Nat → Nat → Bool → Bool × Nat
  | 0, cursor, permit => (permit, cursor)
  | fuel + 1, cursor, permit =>
    match hub.next cursor with
    | (.empty, cursor) => (permit, cursor)
    | (.closed, cursor) => (permit, cursor)
    | (receipt, cursor) => follow hub channel fuel cursor (heed channel permit receipt)

/-- The permit after listening to all that is there, and the new count. -/
def run (hub : Hub) (channel : String) (cursor : Nat) (permit : Bool) : Bool × Nat :=
  follow hub channel (hub.log.size - cursor + 1) cursor permit

/-- The permit after a receiver of the hub has listened. Without such a receiver nothing changes. -/
def attend (hub : Hub) (receiver : Nat) (channel : String) (permit : Bool) : Bool × Hub :=
  match hub.receivers[receiver]? with
  | some (some cursor) =>
    let (permit, cursor) := run hub channel cursor permit
    (permit, { hub with receivers := hub.receivers.set receiver (some cursor) })
  | _ => (permit, hub)

/-- How often a worker is woken that asks after the listener has stopped: permits collapse. -/
def wakes (permit : Bool) : Nat :=
  if permit then 1 else 0

end NodeGraph.Listener
