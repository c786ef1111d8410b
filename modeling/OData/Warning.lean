/-!
# Warnings

What the client tells its log when it goes on although something looks wrong.
-/

set_option autoImplicit false

namespace OData

inductive Warning where
  | emptyKey
  | bufferingTooLate
  | unknownContentId
  | unreadableSeconds
  deriving DecidableEq, Repr

/-- The text written to the log. -/
def Warning.message : Warning → String
  | .emptyKey => "rendering an empty entity key; the resulting request will not address an entity"
  | .bufferingTooLate =>
    "buffering the HTTP response cannot be disabled, the content has already been accessed"
  | .unknownContentId => "sub-response without known Content-ID, correlating by position"
  | .unreadableSeconds => "ignoring unparsable number of seconds"

end OData
