import DocTypes.Doc.TypeEdit
import DocTypes.Syntax.Class

/-!
Bringing the `@var` tags of properties in line with the types found for them.
-/
namespace DocTypes.ClassLike

/-- The types found for the properties, by name. Of several properties of one name the last of
which types were found counts. -/
def foundTypes (find : Property → TypeSet) (c : ClassLike) : OrderedMap Text TypeSet :=
  .ofList <| c.properties.filterMap fun p =>
    if (find p).isEmpty then none else some (p.name, find p)

/-- Sets the `@var` tag of a property to the types found for its name, if any were. -/
def fixMember (found : OrderedMap Text TypeSet) (m : Member) : Member × Bool :=
  match m with
  | .method _ => (m, false)
  | .property p =>
    match found.get? p.name with
    | none => (m, false)
    | some types =>
      let (doc, changed) := p.doc.changeVar types
      (m.withDoc doc, changed)

/-- The class with its `@var` tags as `find` has them, and how many comments changed. Types in an
anonymous class are hard to get right, so it is left alone. -/
def fixVarDocs (find : Property → TypeSet) (c : ClassLike) : ClassLike × Nat :=
  if c.isAnonymous then (c, 0)
  else
    let fixed := c.members.map (fixMember (c.foundTypes find))
    ({ c with members := fixed.map (·.1) }, fixed.countP (·.2))

end DocTypes.ClassLike
