import DocTypes.Doc.Edit
import DocTypes.TypeSet

/-!
Edits of the types in the doc comment of a declaration: replacing a type, setting the types of
`@var` and `@return`, and turning underscores into namespaces.
-/
namespace DocTypes

/-- Whether the full name is `old`, or a class that `isSubtype` places below it. -/
def TypeRef.isReplaceable (isSubtype : Text → Text → Bool) (old : Text) (r : TypeRef) : Bool :=
  r.full == old || (!Name.isReserved r.full && isSubtype r.full old)

/-- Replaces a type by name in every tag that bears a type. The replacement is written absolute
where it has a namespace. -/
def DocTree.replaceType (isSubtype : Text → Text → Bool) (old new : Text)
    (scope : Option NameScope) (d : DocTree) : DocTree :=
  let replacement := .ofWritten (if new.contains '\\' then Name.rooted new else new)
  let replace (r : TypeRef) : TypeRef :=
    if r.isReplaceable isSubtype (Name.unrooted old) then replacement else r
  (d.mapTags fun t => if Tag.bearsType t.name then t.map replace else t).resolveIn scope

namespace DocSlot

/-- Replaces a type, and with `isSubtype` also those below it. -/
def changeTypeOrSubtypes (isSubtype : Text → Text → Bool) (old new : Text) (s : DocSlot) :
    DocSlot × Bool :=
  if s.hasTypeTags then s.editTree (·.replaceType isSubtype old new s.scope) else (s, false)

def changeType (old new : Text) : DocSlot → DocSlot × Bool :=
  changeTypeOrSubtypes (fun _ _ => false) old new

/-- A type string that cannot be read becomes a name of its own. -/
def typedTag (name type : Text) : Tag Text :=
  .named name <| .typed <| .ofType <|
    match TypeExpr.read type with
    | .ok t => t
    | .error _ => .name type

/-- Puts a tag in the place of all tags of its name, behind the content if there are none. -/
def setTag (t : Tag Text) (s : DocSlot) : DocSlot × Bool :=
  if s.text.isSome then
    s.editTree fun d =>
      match d.position? t.name with
      | some p => (d.removeNamed t.name).insertAt p (t.map .ofWritten)
      | none => d.insertAfterContent (t.map .ofWritten)
  else s.create t

/-- The names a comment lists, in the form in which they compare with `types`: an alias of
`types` as written, all else in full. -/
def comparable (types : TypeSet) (i : TypeInfo) : List Text :=
  (i.written.zip i.full).map fun (written, full) =>
    if types.toList.any fun n => n.isAlias && n.text == Name.unrooted written then
      Name.unrooted written
    else Name.unrooted full

/-- The comment lists these types already, in some order. -/
def listsVarTypes (types : TypeSet) (s : DocSlot) : Bool :=
  match s.varInfo? with
  | some i => (comparable types i).isPerm (types.toList.map (Name.unrooted ·.text))
  | none => false

/-- Sets the types of `@var` unless they are listed already. No types change nothing. -/
def changeVar (types : TypeSet) (s : DocSlot) : DocSlot × Bool :=
  if types.isEmpty || s.listsVarTypes types then (s, false)
  else s.setTag (typedTag "@var" (TypeSet.inTag types))

/-- Sets the type of `@return` unless it is the same. -/
def addReturn (type : Text) (s : DocSlot) : DocSlot × Bool :=
  if (s.returnInfo?.map (·.full)) = some [Name.unrooted type] then (s, false)
  else s.setTag (typedTag "@return" (TypeName.plain type).inTag)

/-- Turns `Prefix_Sub_Name` into `\Prefix\Sub\Name`, except for excluded names. -/
def underscoresToNamespaces (start : Text) (excluded : List Text) : DocSlot → DocSlot × Bool :=
  editTree <| DocTree.mapNames fun r =>
    let name := Name.unrooted r.written
    if Text.startsWith start name && !excluded.contains name then
      .ofWritten ('\\' :: name.map fun c => if c == '_' then '\\' else c)
    else r

end DocSlot
end DocTypes
