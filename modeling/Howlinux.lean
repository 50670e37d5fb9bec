import Howlinux.App.Answer
import Howlinux.App.Application
import Howlinux.App.Cli
import Howlinux.App.Main
import Howlinux.App.Theorems.Answer
import Howlinux.App.Theorems.Arguments
import Howlinux.App.Theorems.Browsing
import Howlinux.App.Theorems.Contents
import Howlinux.App.Theorems.Decision
import Howlinux.App.Theorems.Determinism
import Howlinux.App.Theorems.Export
import Howlinux.App.Theorems.Json
import Howlinux.App.Theorems.Location
import Howlinux.App.Theorems.Main
import Howlinux.App.Theorems.Options
import Howlinux.App.Theorems.Presentation
import Howlinux.App.Theorems.Spelling
import Howlinux.App.Theorems.Terminal
import Howlinux.App.Theorems.Validate
import Howlinux.Concepts.Cycles
import Howlinux.Concepts.Dictionary
import Howlinux.Concepts.Groups
import Howlinux.Concepts.Theorems.Cycles
import Howlinux.Concepts.Theorems.Detect
import Howlinux.Concepts.Theorems.Load
import Howlinux.Knowledge.Base
import Howlinux.Knowledge.Diagnostics
import Howlinux.Knowledge.Directory
import Howlinux.Knowledge.Entry
import Howlinux.Knowledge.Lint
import Howlinux.Knowledge.Store
import Howlinux.Knowledge.Theorems.Layout
import Howlinux.Knowledge.Theorems.Load
import Howlinux.Knowledge.Theorems.Messages
import Howlinux.Knowledge.Theorems.Metadata
import Howlinux.Knowledge.Theorems.Paths
import Howlinux.Knowledge.Theorems.Related
import Howlinux.Knowledge.Theorems.Rewriting
import Howlinux.Knowledge.Theorems.Store
import Howlinux.Library.Alignment
import Howlinux.Library.Bytes
import Howlinux.Library.Cycles
import Howlinux.Library.Hashed
import Howlinux.Library.Json
import Howlinux.Library.LineEndings
import Howlinux.Library.Lists
import Howlinux.Library.Lockstep
import Howlinux.Library.Slices
import Howlinux.Library.Sorting
import Howlinux.Library.Spelling
import Howlinux.Library.Unambiguous
import Howlinux.Library.Utf8
import Howlinux.Markdown.Render
import Howlinux.Markdown.Theorems.Blocks
import Howlinux.Markdown.Theorems.CodeBlocks
import Howlinux.Markdown.Theorems.CodeSpans
import Howlinux.Markdown.Theorems.Color
import Howlinux.Markdown.Theorems.Fences
import Howlinux.Markdown.Theorems.LineEndings
import Howlinux.Markdown.Theorems.Links
import Howlinux.Markdown.Theorems.Spans
import Howlinux.Markdown.Theorems.Words
import Howlinux.Query.Processor
import Howlinux.Query.Theorems.Spelling
import Howlinux.Query.Theorems.Tokenizer
import Howlinux.Query.Theorems.Words
import Howlinux.Query.Tokenizer
import Howlinux.Render.Document
import Howlinux.Render.Escape
import Howlinux.Render.Json
import Howlinux.Render.Text
import Howlinux.Render.Theorems.Escape
import Howlinux.Render.Theorems.Json
import Howlinux.Render.Theorems.Text
import Howlinux.Search.Build
import Howlinux.Search.Distance
import Howlinux.Search.DistanceBuffers
import Howlinux.Search.Engine
import Howlinux.Search.Index
import Howlinux.Search.Theorems.Aliases
import Howlinux.Search.Theorems.Authoring
import Howlinux.Search.Theorems.Build
import Howlinux.Search.Theorems.Candidates
import Howlinux.Search.Theorems.Commands
import Howlinux.Search.Theorems.Distance
import Howlinux.Search.Theorems.Fuzzy
import Howlinux.Search.Theorems.Index
import Howlinux.Search.Theorems.Isolated
import Howlinux.Search.Theorems.NormalForms
import Howlinux.Search.Theorems.Phrases
import Howlinux.Search.Theorems.Points
import Howlinux.Search.Theorems.Policy
import Howlinux.Search.Theorems.QueryType
import Howlinux.Search.Theorems.Repetition
import Howlinux.Search.Theorems.Scores
import Howlinux.Search.Theorems.Typos
import Howlinux.Search.Theorems.Unused
