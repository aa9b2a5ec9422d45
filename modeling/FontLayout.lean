import FontLayout.Disk.Tree
import FontLayout.Document.Writer
import FontLayout.Main
import FontLayout.Proofs.Json.Written
import FontLayout.Proofs.Glyph.Order
import FontLayout.Proofs.Document.RoundTrip
import FontLayout.Proofs.Document.Scope
import FontLayout.Proofs.Lookup.Survey
import FontLayout.Proofs.Document.Resolution
import FontLayout.Proofs.Document.Errors
import FontLayout.Proofs.Document.Meaning
import FontLayout.Proofs.Document.Expansion
import FontLayout.Proofs.Document.Unresolved
import FontLayout.Proofs.Glyph.Keyed
import FontLayout.Proofs.Glyph.Counts
import FontLayout.Proofs.Glyph.Partition
import FontLayout.Proofs.Glyph.ClassSizes
import FontLayout.Proofs.Glyph.Parts
import FontLayout.Proofs.Lookup.Sifting
import FontLayout.Proofs.Lookup.Distinct
import FontLayout.Proofs.Lookup.Marks
import FontLayout.Proofs.Lookup.Anchors
import FontLayout.Proofs.Lookup.Validation
import FontLayout.Proofs.Placement.Blocks
import FontLayout.Proofs.Placement.Encoding
import FontLayout.Proofs.Placement.Near
import FontLayout.Proofs.Binary.Sizes
import FontLayout.Proofs.Subtable.Sizes
import FontLayout.Proofs.Packing.Ligatures
import FontLayout.Proofs.Packing.ClassPairs
import FontLayout.Proofs.Packing.PairSplits
import FontLayout.Proofs.Packing.Entries
import FontLayout.Proofs.Packing.Estimates
import FontLayout.Proofs.Packing.PairEstimates
import FontLayout.Proofs.Packing.Sizes
import FontLayout.Proofs.Packing.Greedy
import FontLayout.Proofs.Packing.Fewest
import FontLayout.Proofs.Reading.Standing
import FontLayout.Proofs.Reading.Readers
import FontLayout.Proofs.Reading.Glyphs
import FontLayout.Proofs.Reading.Subtables
import FontLayout.Proofs.Reading.Substitutions
import FontLayout.Proofs.Reading.Positionings
import FontLayout.Proofs.Reading.Packed
import FontLayout.Proofs.Placement.Distances
import FontLayout.Proofs.Counts.Tables
import FontLayout.Proofs.Counts.Subtables
import FontLayout.Proofs.Counts.Packed
import FontLayout.Proofs.Counts.Lists
import FontLayout.Proofs.Counts.Layout
import FontLayout.Proofs.Layout.Attempts
import FontLayout.Proofs.Compilation
import FontLayout.Proofs.Layout.MarkFlags
import FontLayout.Proofs.Counts.Compiled
import FontLayout.Proofs.Layout.Extension
import FontLayout.Proofs.Layout.Registrations
import FontLayout.Proofs.Packing.Gathering
import FontLayout.Proofs.Packing.Anchors
import FontLayout.Proofs.Diagnostic.Audits
import FontLayout.Proofs.Outcomes
import FontLayout.Proofs.Packing.Contexts
import FontLayout.Proofs.References
import FontLayout.Proofs.Packing.Forced
import FontLayout.Proofs.Layout.Halvings
import FontLayout.Proofs.Placement.Paths
import FontLayout.Proofs.Layout.Attribution
import FontLayout.Proofs.Lookup.Conflicts
import FontLayout.Proofs.Reading.Coverage
import FontLayout.Proofs.Reading.Classes
import FontLayout.Proofs.Reading.GlyphDefinition
import FontLayout.Proofs.Reading.LookupFlags
import FontLayout.Proofs.Layout.Roles
import FontLayout.Proofs.Packing.Numbering
