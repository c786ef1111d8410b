import OData.Failure
import OData.Warning

/-!
# What the outside sees

The effects of the client as values. A `Journal` lists, oldest first, everything that others get to
see: calls handed to the transport, what listeners and close handlers are told, and warnings; it
also counts the traffic. A `Network` is a journal together with the answers that the transport will
give, one for each call. Operations that only read keep a journal; only those on a network can send.
-/

set_option autoImplicit false

namespace OData

/-- Someone who watches the requests of a client, known by the number under which they were
registered. -/
structure Listener where
  id : Nat
  deriving DecidableEq, Repr

inductive Event where
  | called (call : Call)
  | announced (listener : Listener) (call : Call)
  | reported (listener : Listener) (failure : Failure)
  | closed (label : String)
  | warned (w : Warning)
  deriving Repr

structure Journal where
  /-- Oldest first. -/
  events : List Event
  /-- The number of body bytes pulled off the wire. -/
  traffic : Nat
  deriving Repr

namespace Journal

def empty : Journal := ⟨[], 0⟩

/-- The journal with more events. -/
def record (j : Journal) (events : List Event) : Journal := { j with events := j.events ++ events }

def warn (j : Journal) (warnings : List Warning) : Journal := j.record (warnings.map .warned)

def pull (j : Journal) (s : Source) (n : Nat) : Journal :=
  { j with traffic := j.traffic + s.traffic n }

def calls (j : Journal) : List Call :=
  j.events.filterMap fun
    | .called c => some c
    | _ => none

def warnings (j : Journal) : List Warning :=
  j.events.filterMap fun
    | .warned w => some w
    | _ => none

end Journal

abbrev Reply := Except TransportFault Answer

structure Network where
  journal : Journal
  replies : List Reply
  deriving Repr

namespace Network

def scripted (replies : List Reply) : Network := ⟨.empty, replies⟩

/-- The reply to a call once no more are prepared. -/
def exhausted (c : Call) : TransportFault := .protocol ("no scripted response left for " ++ c.line)

/-- Makes a call. The body of the answer comes off the wire. -/
def send (n : Network) (c : Call) : Reply × Network :=
  let journal := n.journal.record [.called c]
  match n.replies with
  | [] => (.error (exhausted c), { n with journal })
  | r :: rs => (r.map fun a => { a with body := a.body.map .overWire }, ⟨journal, rs⟩)

/-- The network with more events. -/
def record (n : Network) (events : List Event) : Network :=
  { n with journal := n.journal.record events }

def announce (n : Network) (listeners : List Listener) (c : Call) : Network :=
  n.record (listeners.map (.announced · c))

def report (n : Network) (listeners : List Listener) (f : Failure) : Network :=
  n.record (listeners.map (.reported · f))

def reportError {α : Type} (n : Network) (listeners : List Listener) : Except Failure α → Network
  | .ok _ => n
  | .error f => n.report listeners f

end Network

end OData
