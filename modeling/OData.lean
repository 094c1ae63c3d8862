import OData.Text.Blank
import OData.Text.Split
import OData.Text.Quoted
import OData.Text.Integer
import OData.Text.Utf8
import OData.Number.Rounding
import OData.Number.Notation
import OData.Json.Scan.Skip
import OData.Json.Scan.Container
import OData.Json.Scan.Record
import OData.Json.Writer
import OData.Value.Int64Text
import OData.Value.Scan
import OData.Value.Writer
import OData.MediaType.Json
import OData.Offer.Settings
import OData.Annotation.Basic
import OData.Annotation.Filter
import OData.Annotation.SeenNames
import OData.Url.Parse
import OData.Link.Json
import OData.Payload.Stream
import OData.Proofs.Payload.Acceptance
import OData.Proofs.Payload.RoundTrip
import OData.Proofs.Payload.NormalForm
import OData.Proofs.Payload.FirstFault
import OData.Payload.Slow
import OData.Proofs.Json.Following
import OData.Proofs.Payload.Delivery
import OData.Proofs.Payload.Filtering
import OData.Proofs.Offer.Layers
import OData.Proofs.Payload.Sending
import OData.Proofs.Payload.Classification
import OData.Proofs.Payload.Refusals
import OData.Proofs.Annotation.Specificity
import OData.Proofs.Annotation.Tracking
import OData.Proofs.MediaType.Quoting
import OData.Proofs.MediaType.Cutting
import OData.Proofs.MediaType.Spelling
import OData.Proofs.MediaType.Parameters
import OData.Proofs.MediaType.Accepted
import OData.Proofs.MediaType.RoundTrip
import OData.Proofs.Link.Kept
import OData.Proofs.Settings.RoundTrip
import OData.Proofs.Payload.Pruning
import OData.Proofs.Value.Serialized
import OData.Proofs.Json.Unambiguous
import OData.Proofs.Value.Equality
import OData.Proofs.Value.Int64Text
import OData.Proofs.Payload.SingleLink
import OData.Proofs.Payload.IntegerLiterals
