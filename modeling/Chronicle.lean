import Chronicle.Blake3
import Chronicle.Blank
import Chronicle.Bytes
import Chronicle.Cache
import Chronicle.Calculator
import Chronicle.Calculator.Pool
import Chronicle.Component.Chronology
import Chronicle.Config.Basic
import Chronicle.Config.Document
import Chronicle.Config.Root
import Chronicle.Coordinate.Basic
import Chronicle.Coordinate.Interner
import Chronicle.Coordinate.StatusSet
import Chronicle.Distinct
import Chronicle.Error
import Chronicle.Hex
import Chronicle.Host
import Chronicle.Latest
import Chronicle.Medium.Basic
import Chronicle.Medium.Faults
import Chronicle.Medium.FileReplacement
import Chronicle.Medium.FileTree
import Chronicle.Medium.Folder
import Chronicle.Medium.Shelf
import Chronicle.Nid
import Chronicle.Numeral
import Chronicle.Path.Graph
import Chronicle.Path.Route
import Chronicle.Path.Table
import Chronicle.Proofs.Address
import Chronicle.Proofs.Blob
import Chronicle.Proofs.Calculator.Answer
import Chronicle.Proofs.Calculator.Bulk
import Chronicle.Proofs.Calculator.Found
import Chronicle.Proofs.Calculator.Pool
import Chronicle.Proofs.Calculator.Position
import Chronicle.Proofs.Calculator.Question
import Chronicle.Proofs.Calculator.Recall
import Chronicle.Proofs.Component.Chronology
import Chronicle.Proofs.Component.Merging
import Chronicle.Proofs.Component.Recording
import Chronicle.Proofs.Config
import Chronicle.Proofs.Damage
import Chronicle.Proofs.FirstPlaces
import Chronicle.Proofs.Identity.Entries
import Chronicle.Proofs.Identity.History
import Chronicle.Proofs.Identity.Merging
import Chronicle.Proofs.Identity.Registry
import Chronicle.Proofs.Identity.RoundTrip
import Chronicle.Proofs.Identity.Table
import Chronicle.Proofs.Medium.Agreement
import Chronicle.Proofs.Medium.Attempts
import Chronicle.Proofs.Medium.FileTree
import Chronicle.Proofs.Medium.Mirror
import Chronicle.Proofs.Medium.SpineFile
import Chronicle.Proofs.Medium.Spines
import Chronicle.Proofs.Medium.TableFile
import Chronicle.Proofs.Medium.Tables
import Chronicle.Proofs.Medium.Writes
import Chronicle.Proofs.Path.Decoding
import Chronicle.Proofs.Path.Graph
import Chronicle.Proofs.Path.Horizon
import Chronicle.Proofs.Path.Recording
import Chronicle.Proofs.Path.Route
import Chronicle.Proofs.Path.Search
import Chronicle.Proofs.Path.Table
import Chronicle.Proofs.Path.Walk
import Chronicle.Proofs.Payload
import Chronicle.Proofs.Reader
import Chronicle.Proofs.Resolution
import Chronicle.Proofs.Sorting
import Chronicle.Proofs.Spine.Access
import Chronicle.Proofs.Spine.Activity
import Chronicle.Proofs.Spine.Addressing
import Chronicle.Proofs.Spine.Capacity
import Chronicle.Proofs.Spine.Coherence
import Chronicle.Proofs.Spine.Contest
import Chronicle.Proofs.Spine.Durability
import Chronicle.Proofs.Spine.Entries
import Chronicle.Proofs.Spine.Events
import Chronicle.Proofs.Spine.Inspection
import Chronicle.Proofs.Spine.Linearizability
import Chronicle.Proofs.Spine.Memory
import Chronicle.Proofs.Spine.Observation
import Chronicle.Proofs.Spine.Operations
import Chronicle.Proofs.Spine.PayloadMap
import Chronicle.Proofs.Spine.Pending
import Chronicle.Proofs.Spine.Permits
import Chronicle.Proofs.Spine.Pinned
import Chronicle.Proofs.Spine.ReadOnly
import Chronicle.Proofs.Spine.Reports
import Chronicle.Proofs.Spine.Resizing
import Chronicle.Proofs.Spine.Rivals
import Chronicle.Proofs.Spine.Scans
import Chronicle.Proofs.Spine.Service
import Chronicle.Proofs.Spine.Shown
import Chronicle.Proofs.Spine.Stopping
import Chronicle.Proofs.Spine.Storable
import Chronicle.Proofs.Spine.Stored
import Chronicle.Proofs.Spine.Undisturbed
import Chronicle.Proofs.Spine.UnreadData
import Chronicle.Proofs.Spine.Workers
import Chronicle.Proofs.Spine.Writing
import Chronicle.Proofs.Stamp.History
import Chronicle.Proofs.Store.Allocation
import Chronicle.Proofs.Store.AppendOnly
import Chronicle.Proofs.Store.Appending
import Chronicle.Proofs.Store.AsOf
import Chronicle.Proofs.Store.Asking
import Chronicle.Proofs.Store.Bulk
import Chronicle.Proofs.Store.Caches
import Chronicle.Proofs.Store.Change
import Chronicle.Proofs.Store.Closing
import Chronicle.Proofs.Store.Creation
import Chronicle.Proofs.Store.Deeds
import Chronicle.Proofs.Store.Desk
import Chronicle.Proofs.Store.Drafts
import Chronicle.Proofs.Store.Finality
import Chronicle.Proofs.Store.Hiding
import Chronicle.Proofs.Store.Identified
import Chronicle.Proofs.Store.Import
import Chronicle.Proofs.Store.Inspection
import Chronicle.Proofs.Store.Isolation
import Chronicle.Proofs.Store.Lifecycle
import Chronicle.Proofs.Store.Links
import Chronicle.Proofs.Store.Opening
import Chronicle.Proofs.Store.Operation
import Chronicle.Proofs.Store.Outcome
import Chronicle.Proofs.Store.Perform
import Chronicle.Proofs.Store.Persistence
import Chronicle.Proofs.Store.Refusals
import Chronicle.Proofs.Store.Reopening
import Chronicle.Proofs.Store.Retraction
import Chronicle.Proofs.Store.Retry
import Chronicle.Proofs.Store.Revision
import Chronicle.Proofs.Store.Runs
import Chronicle.Proofs.Store.StampActions
import Chronicle.Proofs.Store.Stamping
import Chronicle.Proofs.Store.Tables
import Chronicle.Proofs.Store.Unfinished
import Chronicle.Proofs.Transaction
import Chronicle.PublicId
import Chronicle.Registry
import Chronicle.Registry.Table
import Chronicle.Resolution
import Chronicle.Spine.Basic
import Chronicle.Spine.Flush
import Chronicle.Spine.Parallel
import Chronicle.Spine.Permits
import Chronicle.Spine.Scan
import Chronicle.Spine.Store
import Chronicle.Stamp.Fields
import Chronicle.Stamp.History
import Chronicle.Stamp.Status
import Chronicle.Store.Basic
import Chronicle.Store.Components
import Chronicle.Store.Flush
import Chronicle.Store.Open
import Chronicle.Store.Stamps
import Chronicle.Store.Views
import Chronicle.Toml.Document
import Chronicle.Toml.Node
import Chronicle.Toml.Number
import Chronicle.Toml.Scanner
import Chronicle.Toml.Text
import Chronicle.Transaction
import Chronicle.Uuid
import Chronicle.Wire
