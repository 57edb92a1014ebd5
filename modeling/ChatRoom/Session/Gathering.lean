import ChatRoom.Session.Hub
import ChatRoom.Session.Terminal

/-!
# Gatherings

A hub whose peers are all terminals. Bytes are carried along each line in both directions, and so is
the end of either direction.

After something has happened at one end, three turns are enough. The first one brings to the hub
what terminals have written. The second one brings back what the hub has answered, which gives no
terminal anything to write but its end. The third one brings those ends to the hub, which is done
with these peers already.
-/

namespace ChatRoom

/-- A terminal on a line of the hub's. -/
structure Link where
  terminal : Terminal
  /-- How many of the terminal's bytes have been carried to the hub. -/
  up : Nat := 0
  /-- How many of the hub's bytes have been carried to the terminal. -/
  down : Nat := 0

structure Gathering where
  hub : Hub
  /-- The line of each of the hub's peers. -/
  links : List Link := []

namespace Gathering

/-- Carries along one line what has been written at either end. -/
def carry (g : Gathering) (p : Nat) : Gathering :=
  match g.links[p]?, g.hub.peers[p]? with
  | some link, some peer =>
    let outgoing := link.terminal.target
    let hub := (g.hub.send p (outgoing.taken.drop link.up)).2
    let heard := link.terminal.hear (peer.target.taken.drop link.down)
    { hub := if outgoing.shut then hub.finish p else hub
      links := g.links.set p {
        terminal := if peer.target.shut then heard.hearEnd else heard
        up := outgoing.taken.length
        down := peer.target.taken.length } }
  | _, _ => g

/-- Carries along every line, and lets the hub settle. -/
def turn (g : Gathering) : Gathering :=
  let g := (List.range g.links.length).foldl carry g
  { g with hub := g.hub.settle }

def settle (g : Gathering) : Gathering := g.turn.turn.turn

/-- A terminal comes in on a new line, under the next number. -/
def enter (g : Gathering) (address : SocketAddress) (terminal : Terminal) : Gathering :=
  { hub := (g.hub.connect (some address) address.text).2, links := g.links ++ [{ terminal }] }

/-- The user of a terminal asks something of its client. -/
def ask {α : Type} (g : Gathering) (p : Nat) (request : Client → α × Client) :
    Option α × Gathering :=
  match g.links[p]? with
  | none => (none, g)
  | some link =>
    let (answer, terminal) := link.terminal.ask request
    (some answer, { g with links := g.links.set p { link with terminal } }.settle)

/-- Something happens at the hub itself. -/
def happen (g : Gathering) (event : Hub.Event) : Hub.Reply × Gathering :=
  let (reply, hub) := g.hub.step event
  (reply, { g with hub }.settle)

end Gathering

end ChatRoom
