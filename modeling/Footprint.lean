import Footprint.Main
import Footprint.Proofs.LineEnds
import Footprint.Proofs.Reader
import Footprint.Proofs.Glyph
import Footprint.Proofs.Loading
import Footprint.Proofs.Reading
import Footprint.Proofs.Table
import Footprint.Proofs.Groups
import Footprint.Proofs.Lookup
import Footprint.Proofs.Summary
import Footprint.Proofs.Join
import Footprint.Proofs.RelatedTexts
import Footprint.Proofs.Reordering
import Footprint.Proofs.Deletion
import Footprint.Proofs.Rounding
import Footprint.Proofs.Spelling
import Footprint.Proofs.Denotation
import Footprint.Proofs.Trimming
import Footprint.Proofs.SizeGrammar
import Footprint.Proofs.Search
import Footprint.Proofs.Conservation
import Footprint.Proofs.Tally
import Footprint.Proofs.FixedText
import Footprint.Proofs.Delivery
import Footprint.Proofs.Quotation
import Footprint.Proofs.ReadBack
import Footprint.Proofs.ReportNames
import Footprint.Proofs.Bars
import Footprint.Proofs.DecimalText
import Footprint.Proofs.Labels
