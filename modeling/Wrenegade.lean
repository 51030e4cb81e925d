import Wrenegade.Lib.Text
import Wrenegade.Lib.Path
import Wrenegade.Lib.Files
import Wrenegade.Lib.HashMap
import Wrenegade.Lib.Run
import Wrenegade.Lib.Registry
import Wrenegade.Lib.Operation
import Wrenegade.Lib.Double
import Wrenegade.Lib.Probing
import Wrenegade.Lib.Cells
import Wrenegade.Lib.Code
import Wrenegade.Lib.Search
import Wrenegade.Lib.Tracing
import Wrenegade.Lib.Linked
import Wrenegade.Model.Haxe
import Wrenegade.Model.Tables
import Wrenegade.Model.BindInclude
import Wrenegade.Model.Externs
import Wrenegade.Model.GenContent
import Wrenegade.Model.CreatePath
import Wrenegade.Model.Bind
import Wrenegade.Model.ForeignClass
import Wrenegade.Model.Scope
import Wrenegade.Model.WrenModule
import Wrenegade.Model.WrenApi
import Wrenegade.Model.Helper
import Wrenegade.Model.Execution
import Wrenegade.Model.HostVM
import Wrenegade.Model.CallStack
import Wrenegade.Model.LoadModule
import Wrenegade.Model.VMModules
import Wrenegade.Model.Primitive
import Wrenegade.Model.ObjMap
import Wrenegade.Model.ObjList
import Wrenegade.Model.ObjString
import Wrenegade.Model.Garbage
import Wrenegade.Model.Upvalues
import Wrenegade.Model.Scoping
import Wrenegade.Model.HandleList
import Wrenegade.Proofs.Names
import Wrenegade.Proofs.Registration
import Wrenegade.Proofs.Units
import Wrenegade.Proofs.Exports
import Wrenegade.Proofs.Members
import Wrenegade.Proofs.Ancestors
import Wrenegade.Proofs.Constructors
import Wrenegade.Proofs.History
import Wrenegade.Proofs.Dispatch
import Wrenegade.Proofs.ForeignClass
import Wrenegade.Proofs.Manifest
import Wrenegade.Proofs.ModulePaths
import Wrenegade.Proofs.Completion
import Wrenegade.Proofs.Bodies
import Wrenegade.Proofs.Allocators
import Wrenegade.Proofs.Declarations
import Wrenegade.Proofs.Externs
import Wrenegade.Proofs.SuperBlock
import Wrenegade.Proofs.Helper
import Wrenegade.Proofs.HostVM
import Wrenegade.Proofs.Reading
import Wrenegade.Proofs.Execution
import Wrenegade.Proofs.Frames
import Wrenegade.Proofs.Setters
import Wrenegade.Proofs.CallStack
import Wrenegade.Proofs.Decoding
import Wrenegade.Proofs.RoundTrip
import Wrenegade.Proofs.LoadModule
import Wrenegade.Proofs.VMModules
import Wrenegade.Proofs.Primitive
import Wrenegade.Proofs.ObjMap
import Wrenegade.Proofs.ObjList
import Wrenegade.Proofs.Utf8
import Wrenegade.Proofs.ObjString
import Wrenegade.Proofs.StringSlice
import Wrenegade.Proofs.StringFind
import Wrenegade.Proofs.StringSplit
import Wrenegade.Proofs.Marking
import Wrenegade.Proofs.Sweeping
import Wrenegade.Proofs.Garbage
import Wrenegade.Proofs.Upvalues
import Wrenegade.Proofs.Capturing
import Wrenegade.Proofs.Scoping
import Wrenegade.Proofs.HandleList
