import DocTypes.Doc.Comment

/-!
The place of the doc comment at a declaration, and what can be asked of it.
-/
namespace DocTypes

/-- What a declaration was expected to have in its doc comment, and has not. -/
inductive DocError where
  | noComment (label : Text)
  | noTag (name label : Text)
  deriving DecidableEq

def DocError.message : DocError → Text
  | .noComment label =>
    "Contract violation in create_php_doc_info_from_node: " ++ label ++
      " must have a comment. Check `doc_comment().is_some()` before passing it"
  | .noTag name label => "Tag \"" ++ name ++ "\" was not found at \"" ++ label ++ "\" node."

structure DocSlot where
  text : Option Text
  /-- The names in force at the declaration, where known. -/
  scope : Option NameScope
  deriving DecidableEq

instance : Inhabited DocSlot := ⟨⟨none, none⟩⟩

namespace DocSlot

def comment? (s : DocSlot) : Option DocComment := s.text.map fun t => .read t s.scope

/-- The text goes on with `name` and no further character of a tag name. -/
def startsWithName (name s : Text) : Bool :=
  match Text.after? name s with
  | some [] => true
  | some (c :: _) => !continuesTagName c
  | none => false

/-- Whether the tag is spelled out somewhere: `@`, perhaps a backslash, and the name. -/
def mentions (name : Text) : Text → Bool
  | [] => false
  | '@' :: '\\' :: r =>
    startsWithName name ('\\' :: r) || startsWithName name r || mentions name ('\\' :: r)
  | '@' :: r => startsWithName name r || mentions name r
  | _ :: r => mentions name r

/-- The text mentions the tag, or the comment has it under another name. -/
def hasTag (s : DocSlot) (name : Text) : Bool :=
  match s.text with
  | none => false
  | some t => mentions (name.dropWhile (· == '@')) t || (DocComment.read t s.scope).hasTag name

def tagsNamed (s : DocSlot) (name : Text) : List (Tag TypeRef) :=
  match s.comment? with
  | some c => c.tagsNamed name
  | none => []

/-- The comment of a declaration that must have one. -/
def required (s : DocSlot) (label : Text) : Except DocError DocComment :=
  match s.comment? with
  | some c => .ok c
  | none => .error (.noComment label)

/-- The first tag called `name`. -/
def firstTag (s : DocSlot) (label name : Text) : Except DocError (Tag TypeRef) :=
  if s.hasTag name then
    match s.tagsNamed name with
    | t :: _ => .ok t
    | [] => .error (.noTag name label)
  else .error (.noTag name label)

def varInfo? (s : DocSlot) : Option TypeInfo := s.comment?.bind (·.varInfo?)

def returnInfo? (s : DocSlot) : Option TypeInfo := s.comment?.bind (·.returnInfo?)

/-- A variable without the marks in front of its name. -/
def bareVariable (v : Text) : Text := v.dropWhile fun c => c == '&' || c == '.' || c == '$'

/-- The types of the parameters by name; of several tags for one parameter the last counts. -/
def paramInfos (s : DocSlot) : OrderedMap Text TypeInfo :=
  match s.comment? with
  | none => ∅
  | some c =>
    .ofList <| (c.typedValues "@param").filterMap fun v =>
      v.variableName.map fun name => (bareVariable name, .ofValue v)

/-- The text goes on with one of the tag names whose types can change, as a whole word. -/
def startsWithTypeTag (s : Text) : Bool :=
  ["param", "throws", "return", "var"].any fun word =>
    match Text.after? word s with
    | some [] => true
    | some (c :: _) => !Text.isWordChar c
    | none => false

def mentionsTypeTag : Text → Bool
  | [] => false
  | '@' :: r => startsWithTypeTag r || mentionsTypeTag r
  | _ :: r => mentionsTypeTag r

/-- Whether looking for types to change is worthwhile, by the text alone. -/
def hasTypeTags (s : DocSlot) : Bool := s.text.any mentionsTypeTag

end DocSlot
end DocTypes
