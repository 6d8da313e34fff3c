import Scaffold.Session
import Scaffold.Main
import Scaffold.Proofs.Tag.Occurrence
import Scaffold.Proofs.Tag.Grammar
import Scaffold.Proofs.Tag.Recognition
import Scaffold.Proofs.Tag.Spans
import Scaffold.Proofs.Placeholder.Derivation
import Scaffold.Proofs.Placeholder.RoundTrip
import Scaffold.Proofs.Placeholder.Literal
import Scaffold.Proofs.Placeholder.Extent
import Scaffold.Proofs.Placeholder.Listing
import Scaffold.Proofs.Render.Pending
import Scaffold.Proofs.Render.Substitution
import Scaffold.Proofs.Disk.Lookup
import Scaffold.Proofs.Output.Insertion
import Scaffold.Proofs.Output.Preservation
import Scaffold.Proofs.Output.Anchor
import Scaffold.Proofs.Output.Delivery
import Scaffold.Proofs.Render.Scope
import Scaffold.Proofs.Render.Independence
import Scaffold.Proofs.Render.Failure
import Scaffold.Proofs.Render.Steady
import Scaffold.Proofs.Render.Attempt
import Scaffold.Proofs.Render.Blank
import Scaffold.Proofs.Render.Nesting
import Scaffold.Proofs.Render.PutChain
import Scaffold.Proofs.Render.Effective
import Scaffold.Proofs.Render.Inheritance
import Scaffold.Proofs.Render.Validation
import Scaffold.Proofs.Session.Lineage
import Scaffold.Proofs.FrontMatter.RoundTrip
import Scaffold.Proofs.FrontMatter.Partition
import Scaffold.Proofs.FrontMatter.Directives
import Scaffold.Proofs.Command.Effects
import Scaffold.Proofs.Output.Exchange
import Scaffold.Proofs.Output.Containment
import Scaffold.Proofs.Calendar.Succession
import Scaffold.Proofs.Calendar.Stamp
import Scaffold.Proofs.Inflection.LastWord
import Scaffold.Proofs.Inflection.Endings
import Scaffold.Proofs.Inflection.RoundTrip
import Scaffold.Proofs.Inflection.Repetition
import Scaffold.Proofs.CaseStyle.Spacing
import Scaffold.Proofs.CaseStyle.Chaining
import Scaffold.Proofs.CaseStyle.Conversion
import Scaffold.Proofs.Number.Numeral
