/-!
# Lists in key order

Association lists whose keys are strings in ascending order, each key once. `insertByKey` keeps
them so and lets a later value replace an earlier one.
-/

set_option autoImplicit false

namespace OData.Text

/-- The list with `value` for `key`, at the place where the order wants it. -/
def insertByKey {α : Type} (key : String) (value : α) : List (String × α) → List (String × α)
  | [] => [(key, value)]
  | (k, v) :: r =>
    if key < k then (key, value) :: (k, v) :: r
    else if key = k then (key, value) :: r
    else (k, v) :: insertByKey key value r

/-- The pairs in key order; of several values of one key the last. -/
def keyOrdered {α : Type} (pairs : List (String × α)) : List (String × α) :=
  pairs.foldl (fun acc p => insertByKey p.1 p.2 acc) []

end OData.Text
