import DocTypes.Engine
import DocTypes.Json.Config
import DocTypes.Json.Scope
import DocTypes.Json.StaticType
import DocTypes.Proofs.TypeExpr.NameReading
import DocTypes.Proofs.TypeExpr.Regroup
import DocTypes.Proofs.TypeExpr.Reading
import DocTypes.Proofs.TypeExpr.RoundTrip
import DocTypes.Proofs.Doc.Layout
import DocTypes.Proofs.Doc.Entries
import DocTypes.Proofs.Doc.Printing
import DocTypes.Proofs.Doc.Edits
import DocTypes.Proofs.Doc.SetTag
import DocTypes.Proofs.Doc.TagReading
import DocTypes.Proofs.Doc.VarTypes
import DocTypes.Proofs.Doc.ChangeVar
import DocTypes.Proofs.Doc.Legal
import DocTypes.Proofs.Import.Run
import DocTypes.Proofs.Import.Names
import DocTypes.Proofs.Doc.Renaming
import DocTypes.Proofs.Import.Rereading
import DocTypes.Proofs.Import.Meaning
import DocTypes.Proofs.TypeExpr.Acceptance
import DocTypes.Proofs.Doc.Lossless
import DocTypes.Proofs.Inference.Blindness
import DocTypes.Proofs.Inference.Names
import DocTypes.Proofs.VarDocs
import DocTypes.Proofs.Import.Again
import DocTypes.Proofs.Engine
import DocTypes.Proofs.Import.Aliases
import DocTypes.Proofs.Inference.Aliases
import DocTypes.Proofs.Import.VarTypes
import DocTypes.Proofs.Inference.Canonical
import DocTypes.Proofs.Inference.DeclaredClass
import DocTypes.Proofs.Import.Session
import DocTypes.Proofs.Import.Reported
import DocTypes.Proofs.Doc.Occurrences
import DocTypes.Proofs.Doc.Mentions
import DocTypes.Proofs.StaticType.Order
import DocTypes.Proofs.Syntax.Visits
import DocTypes.Proofs.Inference.Methods
import DocTypes.Proofs.Doc.Placement
import DocTypes.Proofs.Doc.TagLines
import DocTypes.Proofs.Doc.SourceLines
import DocTypes.Proofs.Doc.Retyping
import DocTypes.Proofs.Doc.TypeTags
import DocTypes.Proofs.Doc.Ink
import DocTypes.Proofs.Doc.LineTexts
import DocTypes.Proofs.Doc.TagSpacing
import DocTypes.Proofs.Doc.ParamTags
import DocTypes.Proofs.Doc.Annotations
import DocTypes.Proofs.Doc.Reports
import DocTypes.Proofs.Doc.Opening
import DocTypes.Proofs.Doc.Removal
import DocTypes.Proofs.Doc.Stability
import DocTypes.Proofs.TypeExpr.Words
import DocTypes.Proofs.Doc.FrontLine
import DocTypes.Proofs.Doc.ReturnTag
import DocTypes.Proofs.StaticType.Atoms
import DocTypes.Proofs.Inference.ParamTypes
import DocTypes.Proofs.Inference.Evidence
import DocTypes.Proofs.Inference.DeclaredArray
import DocTypes.Proofs.Inference.Capture
import DocTypes.Proofs.Inference.Assignments
import DocTypes.Proofs.StaticType.Flattening
import DocTypes.Proofs.ClassHierarchy
import DocTypes.Proofs.Inference.Priorities
import DocTypes.Proofs.Doc.ValuePositions
import DocTypes.Proofs.TypeExpr.OtherNames
import DocTypes.Proofs.Doc.LineMentions
import DocTypes.Proofs.Import.Holders
import DocTypes.Proofs.Import.SafeNames
import DocTypes.Proofs.Import.Markers
import DocTypes.Proofs.Settling
