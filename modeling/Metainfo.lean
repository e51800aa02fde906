import Metainfo.Files.Tree
import Metainfo.Main
import Metainfo.Proofs.Pool.PlainStore
import Metainfo.Proofs.Pool.Refinement
import Metainfo.Proofs.Pool.Observation
import Metainfo.Proofs.Pool.History
import Metainfo.Proofs.Element.Table
import Metainfo.Proofs.Element.Vocabulary
import Metainfo.Proofs.Markup.Fragment
import Metainfo.Proofs.Ingest.Context
import Metainfo.Proofs.Ingest.Frames
import Metainfo.Proofs.Ingest.Edits
import Metainfo.Proofs.Ingest.Rollback
import Metainfo.Proofs.Ingest.Evaluation
import Metainfo.Proofs.Markup.Reading
import Metainfo.Proofs.Ingest.Links
import Metainfo.Proofs.Ingest.Completed
import Metainfo.Proofs.Ingest.Completion
import Metainfo.Proofs.Ingest.Drafts
import Metainfo.Proofs.Ingest.Relations
import Metainfo.Proofs.Ingest.Omission
import Metainfo.Proofs.Ingest.Numbering
import Metainfo.Proofs.Ingest.Blocks
import Metainfo.Proofs.Ingest.Fields
import Metainfo.Proofs.Ingest.Details
import Metainfo.Proofs.Ingest.Members
import Metainfo.Proofs.Ingest.RecordFields
import Metainfo.Proofs.Content.Collapse
import Metainfo.Proofs.Content.Indent
import Metainfo.Proofs.Description.Rendering
import Metainfo.Proofs.Markup.Delivery
import Metainfo.Proofs.Ingest.Balance
import Metainfo.Proofs.Ingest.Applications
import Metainfo.Proofs.Ingest.Portrait
import Metainfo.Proofs.Ingest.Independence
import Metainfo.Proofs.Ingest.Queries
import Metainfo.Proofs.Ingest.Fallback
import Metainfo.Proofs.Ingest.Owners
import Metainfo.Proofs.Ingest.Preservation
import Metainfo.Proofs.Text.LineIndex
import Metainfo.Proofs.Markup.Truncation
import Metainfo.Proofs.Ingest.Outcome
import Metainfo.Proofs.Ingest.Truncation
import Metainfo.Proofs.Text.Decoding
import Metainfo.Proofs.Text.Order
import Metainfo.Proofs.Ingest.Sequence
import Metainfo.Proofs.Ingest.Unissued
import Metainfo.Proofs.Pool.FileList
import Metainfo.Proofs.Directory.Batch
import Metainfo.Proofs.Directory.Linking
import Metainfo.Proofs.Directory.Accounting
import Metainfo.Proofs.Program.Deferral
import Metainfo.Proofs.Files.Root
import Metainfo.Proofs.Content.Words
import Metainfo.Proofs.Config.Layers
import Metainfo.Proofs.Output.Blocks
import Metainfo.Proofs.Markup.CharacterData
import Metainfo.Proofs.Element.Reordering
import Metainfo.Proofs.Pool.Search
import Metainfo.Proofs.Content.Lines
import Metainfo.Proofs.DesktopEntry
import Metainfo.Proofs.Text.Buffering
import Metainfo.Proofs.Markup.Outside
import Metainfo.Proofs.Content.Changes
import Metainfo.Proofs.Pool.Interning
import Metainfo.Proofs.Naming
import Metainfo.Proofs.Directory.Settings
import Metainfo.Proofs.Json.Grammar
import Metainfo.Proofs.Text.Digits
import Metainfo.Proofs.Json.Numbers
import Metainfo.Proofs.Json.Reading
import Metainfo.Proofs.Json.Printing
import Metainfo.Proofs.Output.Json
import Metainfo.Proofs.Json.Numbers
