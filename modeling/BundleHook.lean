import BundleHook.Code.Declaration
import BundleHook.Code.Delimiter
import BundleHook.Code.Extent
import BundleHook.Code.Literal
import BundleHook.Code.Matching
import BundleHook.Code.Pattern
import BundleHook.Code.Splice
import BundleHook.Console.Arguments
import BundleHook.Console.Block
import BundleHook.Console.Command
import BundleHook.Console.Tagged
import BundleHook.Console.Wrapping
import BundleHook.Entry.AppDelegate
import BundleHook.Entry.Hook
import BundleHook.Entry.Import
import BundleHook.Entry.Installed
import BundleHook.Entry.MainApplication
import BundleHook.Entry.Outcome
import BundleHook.Entry.Platform
import BundleHook.Failure
import BundleHook.Glob.NamePattern
import BundleHook.Glob.Selection
import BundleHook.Main
import BundleHook.Markup.Character
import BundleHook.Markup.Declaration
import BundleHook.Markup.Entity
import BundleHook.Markup.Event
import BundleHook.Markup.Fault
import BundleHook.Markup.Layout
import BundleHook.Markup.Lexer
import BundleHook.Markup.Name
import BundleHook.Markup.Node
import BundleHook.Markup.Prolog
import BundleHook.Markup.Rendering
import BundleHook.Markup.Token
import BundleHook.Number.Binary64
import BundleHook.Number.Numeral
import BundleHook.Number.Shortest
import BundleHook.Proofs.Code.Occurrence
import BundleHook.PropertyList.Archive
import BundleHook.PropertyList.Base64
import BundleHook.PropertyList.BinaryObject
import BundleHook.PropertyList.Charset
import BundleHook.PropertyList.Date
import BundleHook.PropertyList.Draft
import BundleHook.PropertyList.Encoding
import BundleHook.PropertyList.Octets
import BundleHook.PropertyList.Problem
import BundleHook.PropertyList.Rendering
import BundleHook.PropertyList.Update
import BundleHook.PropertyList.Value
import BundleHook.Report.Log
import BundleHook.Report.Run
import BundleHook.Report.ServiceAnswer
import BundleHook.Resource.StringTable
import BundleHook.Service.CredentialWriting
import BundleHook.Service.EntryPatching
import BundleHook.Service.Location
import BundleHook.Service.Run
import BundleHook.Service.Work
import BundleHook.Settings.Check
import BundleHook.Settings.Config
import BundleHook.Settings.Credentials
import BundleHook.Settings.Datum
import BundleHook.Store.Basic
import BundleHook.Store.Fault
import BundleHook.Text.Blank
import BundleHook.Text.Lines
import BundleHook.Text.Printable
import BundleHook.Text.Quoted
import BundleHook.Text.Utf8
import BundleHook.Text.Width
import BundleHook.Text.Word
import BundleHook.Tree.Basic
import BundleHook.Tree.Change
import BundleHook.Tree.Links
import BundleHook.Tree.Path
import BundleHook.Proofs.Entry.HookRendering
import BundleHook.Proofs.Entry.Settling
import BundleHook.Proofs.Tree.Files
import BundleHook.Proofs.Tree.Walks
import BundleHook.Proofs.Tree.Resolution
import BundleHook.Proofs.Store.Containment
import BundleHook.Proofs.Service.Duty
import BundleHook.Proofs.Service.Interruption
import BundleHook.Proofs.Text.Utf8
import BundleHook.Proofs.Tree.Plain
import BundleHook.Proofs.Store.PlainKey
import BundleHook.Proofs.Tree.Growth
import BundleHook.Proofs.Glob.Selection
import BundleHook.Proofs.Glob.Files
import BundleHook.Proofs.Service.Location
import BundleHook.Proofs.Service.Writing
import BundleHook.Proofs.Service.Effect
import BundleHook.Proofs.Resource.Upserting
import BundleHook.Proofs.Markup.Growing
import BundleHook.Proofs.Markup.LegalEvents
import BundleHook.Proofs.Number.Numeral
import BundleHook.Proofs.PropertyList.Base64
import BundleHook.Proofs.PropertyList.Date
import BundleHook.Proofs.PropertyList.MarkupFile
import BundleHook.Proofs.PropertyList.SoundValues
import BundleHook.Proofs.Code.Stretches
import BundleHook.Proofs.Code.Extent
import BundleHook.Proofs.Entry.Surroundings
import BundleHook.Proofs.Entry.ImportsKept
import BundleHook.Proofs.Service.Batch
import BundleHook.Proofs.Service.Reporting
import BundleHook.Proofs.PropertyList.BinaryObject
import BundleHook.Proofs.PropertyList.ArchiveValue
import BundleHook.Proofs.PropertyList.Layout
import BundleHook.Proofs.PropertyList.ArchiveSetting
import BundleHook.Proofs.PropertyList.ArchiveSource
import BundleHook.Proofs.PropertyList.DistinctKeys
import BundleHook.Proofs.PropertyList.ArchiveFile
import BundleHook.Proofs.PropertyList.Update
import BundleHook.Proofs.Glob.Agreement
import BundleHook.Proofs.PropertyList.ArchiveClosure
import BundleHook.Proofs.PropertyList.Fate
import BundleHook.Proofs.Service.Acceptance
import BundleHook.Proofs.Service.Finding
import BundleHook.Proofs.Service.Prediction
import BundleHook.Proofs.Service.Rerun
import BundleHook.Proofs.Service.Secrecy
import BundleHook.Proofs.Entry.HookEnclosure
import BundleHook.Proofs.Entry.ClassBody
import BundleHook.Proofs.Entry.HostArgument
import BundleHook.Proofs.Glob.Listing
import BundleHook.Proofs.Service.ListedKey
import BundleHook.Proofs.Code.Blocks
import BundleHook.Proofs.Entry.AccessorLine
import BundleHook.Proofs.Entry.CommentedHook
import BundleHook.Proofs.Entry.Conditional
import BundleHook.Proofs.Entry.LaunchLeads
import BundleHook.Proofs.Text.LineEnds
import BundleHook.Proofs.Code.Apart
import BundleHook.Proofs.Code.Eager
import BundleHook.Proofs.Entry.OutcomeShape
import BundleHook.Proofs.Entry.ImportPlaces
import BundleHook.Proofs.Entry.CarriageReturns
import BundleHook.Proofs.Resource.Holding
import BundleHook.Proofs.Code.Expression
import BundleHook.Proofs.Entry.ClassEnd
import BundleHook.Proofs.Tree.LinksKept
import BundleHook.Proofs.Store.ReadBack
