import OData.Execution

/-!
# Pages

The pages of a collection, one after the other. The walk is one step ahead of its caller: before it
gives a page out it reads that page's link, so it knows whether there is anything more to ask for;
the next page itself is asked for only when the caller comes back. The walk ends after a page
without a link and after the first failure.
-/

set_option autoImplicit false

namespace OData

inductive Pages where
  | first (r : Response)
  | follow (r : Request)
  /-- Before a failure to find the next page. -/
  | failed (f : Failure)
  | done

namespace Pages

/-- How a walk goes on after a page. Also gives the page after reading its link. -/
def after (r : Response) : Session (Pages × Response) := do
  let (next, r) ← Session.visit r Access.nextRequest.run
  return match next with
    | .ok (some request) => (follow request, r)
    | .ok none => (done, r)
    | .error f => (failed f, r)

/-- The next page or failure, if there is one, and the rest of the walk. -/
def next : Pages → Session (Option (Except Failure Response) × Pages)
  | first r => do
    let (rest, r) ← after r
    return (some (.ok r), rest)
  | follow request => do
    match ← request.execute with
    | .error f => return (some (.error f), done)
    | .ok r =>
      let (rest, r) ← after r
      return (some (.ok r), rest)
  | failed f => return (some (.error f), done)
  | done => return (none, done)

end Pages

end OData
