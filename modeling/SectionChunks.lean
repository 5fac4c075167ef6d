import SectionChunks.Main
import SectionChunks.Proofs.Accumulator
import SectionChunks.Proofs.Accumulator.History
import SectionChunks.Proofs.Gathering
import SectionChunks.Proofs.PreChunk
import SectionChunks.Proofs.Section
import SectionChunks.Proofs.Text.Slices
import SectionChunks.Proofs.Text.Windows
import SectionChunks.Proofs.Chunk.Tables
import SectionChunks.Proofs.Chunk.Cutting
import SectionChunks.Proofs.Chunk.Windows
import SectionChunks.Proofs.Combining
import SectionChunks.Proofs.Pipeline.Basic
import SectionChunks.Proofs.Pipeline.Independence
import SectionChunks.Proofs.Pipeline.Prefix
import SectionChunks.Proofs.Gathering.Lockstep
import SectionChunks.Proofs.Marks
import SectionChunks.Proofs.Pipeline.Borders
import SectionChunks.Proofs.Gathering.Blanks
import SectionChunks.Proofs.Pipeline.Blanks
import SectionChunks.Proofs.Dictionary
import SectionChunks.Proofs.Element.Metadata
import SectionChunks.Proofs.Consolidation.Fields
import SectionChunks.Proofs.Consolidation.Placeholders
import SectionChunks.Proofs.Consolidation.Places
import SectionChunks.Proofs.Consolidation.Matches
import SectionChunks.Proofs.Consolidation.Append
import SectionChunks.Proofs.Consolidation.FixedPoint
import SectionChunks.Proofs.Pipeline.Matches
import SectionChunks.Proofs.Pipeline.Rechunking
import SectionChunks.Proofs.Gathering.Fewest
import SectionChunks.Proofs.Gathering.Greedy
import SectionChunks.Proofs.Division
import SectionChunks.Proofs.Division.Fewest
import SectionChunks.Proofs.Pipeline.Fewest
import SectionChunks.Proofs.Json.Number
import SectionChunks.Proofs.Json.Lexer
import SectionChunks.Proofs.Json.Parse
import SectionChunks.Proofs.Json.Record
import SectionChunks.Proofs.Json.Members
import SectionChunks.Proofs.Json.Spacing
import SectionChunks.Proofs.Number.Reading
import SectionChunks.Proofs.Element.Json
import SectionChunks.Proofs.Element.Declared
import SectionChunks.Proofs.Element.Edits
import SectionChunks.Proofs.Element.Rewording
import SectionChunks.Proofs.Chunk.Json
import SectionChunks.Proofs.Options
import SectionChunks.Proofs.CommandLine.FileTree
import SectionChunks.Proofs.CommandLine.Path
import SectionChunks.Proofs.CommandLine.Run
import SectionChunks.Proofs.CommandLine.Directory
import SectionChunks.Proofs.CommandLine.Arguments
import SectionChunks.Proofs.CommandLine.Writing
import SectionChunks.Proofs.CommandLine.AllOrNothing
import SectionChunks.Proofs.CommandLine.Keys
