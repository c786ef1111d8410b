import OData.Journal

/-!
# Response bodies

A body is read lazily. While it is *pending*, nothing has been pulled from its stream; the first
access either buffers it, after which it can be read any number of times, or hands the stream out,
after which it is *consumed*. Buffering can be turned off only before the first access.
-/

set_option autoImplicit false

namespace OData

inductive Body.State where
  /-- Not at all; without a source there is no entity. -/
  | pending (source : Option Source)
  | buffered (bytes : List UInt8)
  | consumed
  deriving DecidableEq, Repr

structure Body where
  buffering : Bool
  state : Body.State
  deriving DecidableEq, Repr

inductive Body.Refusal where
  | noEntity
  | alreadyConsumed
  | broken
  deriving DecidableEq, Repr

namespace Body

/-- The body of an answer. -/
def ofSource (buffering : Bool) (source : Option Source) : Body := ⟨buffering, .pending source⟩

/-- A source for the content, the body afterwards and the journal with what was pulled. -/
def access (b : Body) (j : Journal) : Except Refusal Source × Body × Journal :=
  match b.state with
  | .pending none => (.error .noEntity, b, j)
  | .pending (some s) =>
    if b.buffering then
      let j := j.pull s s.rest.length
      if s.breaksOff then (.error .broken, { b with state := .consumed }, j)
      else (.ok (.ofBytes s.rest), { b with state := .buffered s.rest }, j)
    else (.ok s, { b with state := .consumed }, j)
  | .buffered bytes => (.ok (.ofBytes bytes), b, j)
  | .consumed => (.error .alreadyConsumed, b, j)

/-- The body with buffering turned off, if that is still possible. -/
def withoutBuffering? (b : Body) : Option Body :=
  match b.state with
  | .pending _ => some { b with buffering := false }
  | _ => none

/-- Pulls what is left of a stream that has not been touched. The flag tells whether it broke
off. -/
def drain (b : Body) (j : Journal) : Bool × Body × Journal :=
  match b.state with
  | .pending (some s) => (s.breaksOff, { b with state := .consumed }, j.pull s s.rest.length)
  | _ => (false, b, j)

end Body

end OData
