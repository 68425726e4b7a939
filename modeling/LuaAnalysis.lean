import LuaAnalysis.Compilation
import LuaAnalysis.Config
import LuaAnalysis.Data.DependencyGraph
import LuaAnalysis.Data.Grouped
import LuaAnalysis.Data.WriteOnce
import LuaAnalysis.File.Build
import LuaAnalysis.File.Declaration
import LuaAnalysis.File.Entries
import LuaAnalysis.File.Model
import LuaAnalysis.File.Scope
import LuaAnalysis.File.Task
import LuaAnalysis.Json.Basic
import LuaAnalysis.Json.Reader
import LuaAnalysis.Project.Findings
import LuaAnalysis.Project.Index
import LuaAnalysis.Project.Lookup
import LuaAnalysis.Project.References
import LuaAnalysis.Project.Typing
import LuaAnalysis.Proofs.Data.Cycles
import LuaAnalysis.Proofs.Data.SearchLoop
import LuaAnalysis.Proofs.Data.Sorting
import LuaAnalysis.Proofs.File.Anchors
import LuaAnalysis.Proofs.File.Binding
import LuaAnalysis.Proofs.File.BlockWalk
import LuaAnalysis.Proofs.File.BodyTasks
import LuaAnalysis.Proofs.File.ClosureTasks
import LuaAnalysis.Proofs.File.Contributions
import LuaAnalysis.Proofs.File.DeclaredOnce
import LuaAnalysis.Proofs.File.Declares
import LuaAnalysis.Proofs.File.Environment
import LuaAnalysis.Proofs.File.Homes
import LuaAnalysis.Proofs.File.InnerScope
import LuaAnalysis.Proofs.File.LexicalScope
import LuaAnalysis.Proofs.File.Listings
import LuaAnalysis.Proofs.File.NameResolution
import LuaAnalysis.Proofs.File.Occurrences
import LuaAnalysis.Proofs.File.OpenTasks
import LuaAnalysis.Proofs.File.OutlineWalk
import LuaAnalysis.Proofs.File.PlainWalk
import LuaAnalysis.Proofs.File.ReadTags
import LuaAnalysis.Proofs.File.ScopeGrowth
import LuaAnalysis.Proofs.File.ScopeLookup
import LuaAnalysis.Proofs.File.ScopeMirror
import LuaAnalysis.Proofs.File.ScopeWalk
import LuaAnalysis.Proofs.File.SeenNames
import LuaAnalysis.Proofs.File.Sites
import LuaAnalysis.Proofs.File.StoredTypes
import LuaAnalysis.Proofs.File.TargetTasks
import LuaAnalysis.Proofs.File.Tokens
import LuaAnalysis.Proofs.Project.Alike
import LuaAnalysis.Proofs.Project.AssignedFields
import LuaAnalysis.Proofs.Project.CallValues
import LuaAnalysis.Proofs.Project.Definitions
import LuaAnalysis.Proofs.Project.Evaluation
import LuaAnalysis.Proofs.Project.FieldReferences
import LuaAnalysis.Proofs.Project.FileOrder
import LuaAnalysis.Proofs.Project.FirstLeast
import LuaAnalysis.Proofs.Project.GlobalNames
import LuaAnalysis.Proofs.Project.Identities
import LuaAnalysis.Proofs.Project.InferredReturns
import LuaAnalysis.Proofs.Project.LatestVersions
import LuaAnalysis.Proofs.Project.Lifetimes
import LuaAnalysis.Proofs.Project.Linked
import LuaAnalysis.Proofs.Project.LinkedMembers
import LuaAnalysis.Proofs.Project.LookupReads
import LuaAnalysis.Proofs.Project.MemberLevels
import LuaAnalysis.Proofs.Project.NameReferences
import LuaAnalysis.Proofs.Project.OwnFiles
import LuaAnalysis.Proofs.Project.OwnPlace
import LuaAnalysis.Proofs.Project.OwnerPaths
import LuaAnalysis.Proofs.Project.Published
import LuaAnalysis.Proofs.Project.Reached
import LuaAnalysis.Proofs.Project.Recording
import LuaAnalysis.Proofs.Project.Refers
import LuaAnalysis.Proofs.Project.Renumbering
import LuaAnalysis.Proofs.Project.Republishing
import LuaAnalysis.Proofs.Project.Settled
import LuaAnalysis.Proofs.Project.StoredTypes
import LuaAnalysis.Proofs.Project.TableTypes
import LuaAnalysis.Proofs.Project.Termination
import LuaAnalysis.Proofs.Project.TreeOrder
import LuaAnalysis.Proofs.Project.Update
import LuaAnalysis.Proofs.Project.ValueAdjustment
import LuaAnalysis.Proofs.Resolve.AddedMembers
import LuaAnalysis.Proofs.Resolve.Advance
import LuaAnalysis.Proofs.Resolve.Calls
import LuaAnalysis.Proofs.Resolve.FoundMembers
import LuaAnalysis.Proofs.Resolve.FoundTypes
import LuaAnalysis.Proofs.Resolve.Frame
import LuaAnalysis.Proofs.Resolve.GivenUp
import LuaAnalysis.Proofs.Resolve.KnownIdentities
import LuaAnalysis.Proofs.Resolve.LateTasks
import LuaAnalysis.Proofs.Resolve.Mentioned
import LuaAnalysis.Proofs.Resolve.Rearranged
import LuaAnalysis.Proofs.Resolve.RenumberedTasks
import LuaAnalysis.Proofs.Resolve.SameView
import LuaAnalysis.Proofs.Resolve.Settling
import LuaAnalysis.Proofs.Resolve.Stages
import LuaAnalysis.Proofs.Resolve.TargetOrder
import LuaAnalysis.Proofs.Resolve.TaskGraph
import LuaAnalysis.Proofs.Resolve.TaskNeeds
import LuaAnalysis.Proofs.Resolve.TaskOrder
import LuaAnalysis.Proofs.Resolve.TaskTable
import LuaAnalysis.Proofs.Resolve.Writes
import LuaAnalysis.Proofs.Syntax.Descent
import LuaAnalysis.Proofs.Syntax.Documented
import LuaAnalysis.Proofs.Syntax.Kinship
import LuaAnalysis.Proofs.Syntax.Layout
import LuaAnalysis.Proofs.Syntax.PostOrder
import LuaAnalysis.Proofs.Syntax.ProperTree
import LuaAnalysis.Proofs.Syntax.Region
import LuaAnalysis.Proofs.Syntax.Sorts
import LuaAnalysis.Proofs.Syntax.SourceOrder
import LuaAnalysis.Proofs.Syntax.StackWalk
import LuaAnalysis.Proofs.Syntax.WalkEvents
import LuaAnalysis.Proofs.Syntax.Writing
import LuaAnalysis.Proofs.Types.Closed
import LuaAnalysis.Proofs.Types.Identity
import LuaAnalysis.Proofs.Types.Join
import LuaAnalysis.Proofs.Types.WellFormed
import LuaAnalysis.Resolve.Resolver
import LuaAnalysis.Resolve.Schedule
import LuaAnalysis.Source.SourceMap
import LuaAnalysis.Source.Span
import LuaAnalysis.Syntax.Literal
import LuaAnalysis.Syntax.Node
import LuaAnalysis.Syntax.Parts
import LuaAnalysis.Syntax.Shorthand
import LuaAnalysis.Syntax.Sketch
import LuaAnalysis.Syntax.Tree
import LuaAnalysis.Syntax.Walk
import LuaAnalysis.Text.Binary64
import LuaAnalysis.Text.Graphic
import LuaAnalysis.Text.Quoted
import LuaAnalysis.Types.Annotation
import LuaAnalysis.Types.Encoding
import LuaAnalysis.Types.Operator
import LuaAnalysis.Types.Ty
