import PsCast.Library.Run
import PsCast.Library.History
import PsCast.Library.Trail
import PsCast.Library.Records
import PsCast.Library.Memory
import PsCast.Library.Unicode
import PsCast.Library.Pulse
import PsCast.Library.Erasing
import PsCast.Model.App
import PsCast.Model.Gui
import PsCast.Analysis.BodyAssembly
import PsCast.Analysis.NetworkStart
import PsCast.Analysis.Converters
import PsCast.Analysis.ConverterBounds
import PsCast.Analysis.ConverterText
import PsCast.Analysis.Labels
import PsCast.Analysis.Paging
import PsCast.Analysis.FeedFile
import PsCast.Analysis.FeedLog
import PsCast.Analysis.FeedOutcome
import PsCast.Analysis.Reparse
import PsCast.Analysis.UpdateRebuild
import PsCast.Analysis.CopiedValidity
import PsCast.Analysis.Navigation
import PsCast.Analysis.NavigationStep
import PsCast.Analysis.LiveLists
import PsCast.Analysis.Cursor
import PsCast.Analysis.Input
import PsCast.Analysis.BackUndoesAccept
import PsCast.Analysis.Highlight
import PsCast.Analysis.Activation
import PsCast.Analysis.Refinement
import PsCast.Analysis.Confinement
import PsCast.Analysis.Ownership
import PsCast.Analysis.Stored
import PsCast.Model.Feedpp
import PsCast.Analysis.FeedText
import PsCast.Analysis.RssDocument
import PsCast.Analysis.RdfDocument
import PsCast.Interface.Document
import PsCast.Analysis.AtomDocument
import PsCast.Analysis.Documents
import PsCast.Analysis.Published
import PsCast.Analysis.Subscription
import PsCast.Analysis.Reachability
import PsCast.Analysis.Report
import PsCast.Analysis.Ignored
import PsCast.Analysis.Polling
import PsCast.Model.Session
import PsCast.Analysis.Connection
import PsCast.Analysis.TypedText
