import OData.Pages
import OData.Batch.Execution
import OData.Settings
import OData.Proofs.Link.Escaped
import OData.Proofs.Headers
import OData.Proofs.Headers.Names
import OData.Proofs.Headers.Changes
import OData.Proofs.Response.Access
import OData.Proofs.Text.Lines
import OData.Proofs.Text.Numerals
import OData.Proofs.MediaType
import OData.Proofs.Multipart.Lines
import OData.Proofs.Multipart.Reading
import OData.Proofs.Multipart.Walk
import OData.Proofs.Multipart.Document
import OData.Proofs.Multipart.Heads
import OData.Proofs.Batch.Reachable
import OData.Proofs.Batch.Serialization
import OData.Proofs.Batch.Answers
import OData.Proofs.Batch.Execution
import OData.Proofs.Batch.Correlation
import OData.Proofs.Batch.Isolation
import OData.Proofs.Pages
import OData.Proofs.Response.Lifecycle
import OData.Proofs.Response.Health
import OData.Proofs.Handshake.Retrieval
import OData.Proofs.Handshake.Calls
import OData.Proofs.Batch.Numbering
import OData.Proofs.Text.Pieces
import OData.Proofs.Text.Trim
import OData.Proofs.Text.Quotes
import OData.Proofs.Text.Endings
import OData.Proofs.Text.Encoding
import OData.Proofs.Text.Scanner
import OData.Proofs.Duration
import OData.Proofs.Calendar
import OData.Proofs.Literal.Times
import OData.Proofs.Percent
import OData.Proofs.Link.Pieces
import OData.Proofs.Request.Uri
import OData.Proofs.Request.Reads
import OData.Proofs.Request.Refusal
import OData.Proofs.Literal.Quotes
import OData.Proofs.Parameters
import OData.Proofs.Pages.Links
import OData.Proofs.Pages.ByHand
import OData.Proofs.Pages.FollowUps
import OData.Proofs.Multipart.Calls
import OData.Proofs.Multipart.Breaking
import OData.Proofs.Multipart.Delimiters
import OData.Proofs.Multipart.HeaderLines
import OData.Proofs.Multipart.Payload
import OData.Proofs.Multipart.Responses
import OData.Proofs.Batch.Membership
import OData.Proofs.Json.Machine
import OData.Proofs.Json.Nest
import OData.Proofs.Json.Quoted
import OData.Proofs.Json.Numerals
import OData.Proofs.Json.Trees
import OData.Proofs.Json.Scalars
import OData.Proofs.Json.Kept
import OData.Proofs.Ieee.Rounding
import OData.Proofs.Ieee.Shortest
import OData.Proofs.Json.Range
import OData.Proofs.Json.Fractions
import OData.Proofs.Json.Doubles
import OData.Proofs.Json.Written
import OData.Proofs.ServiceError.Spelling
import OData.Proofs.ServiceError.Reading
import OData.Proofs.Json.Astray
import OData.Proofs.Json.Handed
import OData.Proofs.Json.Descent
import OData.Proofs.Json.Places
import OData.Proofs.Response.Elements
import OData.Proofs.Response.Streaming
import OData.Proofs.Batch.Loci
import OData.Proofs.Batch.PartHeaders
import OData.Proofs.Batch.Preference
import OData.Proofs.Response.Loci
import OData.Proofs.Listeners
import OData.Proofs.Duration.Form
import OData.Proofs.Headers.Absence
import OData.Proofs.Parameters.Adding
import OData.Proofs.Link.Options
