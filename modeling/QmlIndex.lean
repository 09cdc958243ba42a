import QmlIndex.Token.Lexer
import QmlIndex.Document.Parser
import QmlIndex.OrdMap
import QmlIndex.FileUri
import QmlIndex.Json.Reader
import QmlIndex.Json.Writer
import QmlIndex.SourceEntry
import QmlIndex.Digest
import QmlIndex.Module.OfManifest
import QmlIndex.Builtins
import QmlIndex.Graph
import QmlIndex.Locks
import QmlIndex.PathText
import QmlIndex.Glob
import QmlIndex.Ignore.Rule
import QmlIndex.Matcher
import QmlIndex.Config
import QmlIndex.Store
import QmlIndex.Main
import QmlIndex.Proofs.Graph.Run
import QmlIndex.Proofs.Index.Convergence
import QmlIndex.Proofs.Index.Reuse
import QmlIndex.Proofs.Index.Mirror
import QmlIndex.Proofs.Index.ModuleConvergence
import QmlIndex.Proofs.Document.Termination
import QmlIndex.Proofs.Document.Spacing
import QmlIndex.Proofs.Document.Layout
import QmlIndex.Proofs.Outline.Text
import QmlIndex.Proofs.Outline.Lexing
import QmlIndex.Proofs.Outline.Document
import QmlIndex.Proofs.Document.Walk
import QmlIndex.Proofs.Token.Places
import QmlIndex.Proofs.Document.Laminar
import QmlIndex.Proofs.Graph.Forward
import QmlIndex.Proofs.Index.Ledger
import QmlIndex.Proofs.Index.Concurrent
import QmlIndex.Proofs.Index.Confluence
import QmlIndex.Proofs.Store.Batches
import QmlIndex.Proofs.Token.Lossless
import QmlIndex.Proofs.Store.Session
import QmlIndex.Proofs.Json.Serialized
import QmlIndex.Proofs.Locks
import QmlIndex.Proofs.Listing
import QmlIndex.Proofs.Index.Rescan
import QmlIndex.Proofs.Index.Isolation
import QmlIndex.Proofs.Resolution
import QmlIndex.Proofs.Manifest.Module
import QmlIndex.Proofs.Document.Brackets
import QmlIndex.Proofs.Document.Nesting
import QmlIndex.Proofs.Store.Startup
import QmlIndex.Proofs.Document.Symbols
import QmlIndex.Proofs.Index.Backing
import QmlIndex.Proofs.NormalPath
import QmlIndex.Proofs.FileUri
import QmlIndex.Proofs.Token.Lines
import QmlIndex.Proofs.Catalogue
import QmlIndex.Proofs.NameLength
import QmlIndex.Proofs.Reference
import QmlIndex.Proofs.Document.Lookahead
import QmlIndex.Proofs.Settings
