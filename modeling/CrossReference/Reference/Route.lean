import CrossReference.Reference.Viewpoint
import CrossReference.Source.Literal
import CrossReference.Source.Form

/-!
Route references: a path in a string literal, and the page that a class registers for it in its
route member. The member yields a list of calls with a path and a builder, directly or through one
variable.
-/

namespace CrossReference.Viewpoint

open Source (Node)

def listTypes : List String := ["List"]

def routeClasses (view : Viewpoint) (n : Node) : List Located :=
  (n.enclosingClass?.map view.locate).toList ++
    view.settings.routeTables.filterMap view.index.lookupClass?

def routeMemberOf? (view : Viewpoint) (cls : Located) : Option Located :=
  (cls.node.findMember? view.settings.routeMember).map cls.beside

/-- The route member that counts for a node; none when it is declared with another type than a
list. -/
def routeMember? (view : Viewpoint) (n : Node) : Option Located := do
  let member ← (view.routeClasses n).findSome? view.routeMemberOf?
  if member.node.declaredType?.all listTypes.contains then some member else none

/-- The name a route list is taken over by: the value itself, or its last name. -/
def hopName? (value : Node) : Option Node :=
  match value.kind with
  | .nameRef => some value
  | .memberExpr => value.trailingRef?
  | _ => none

def routeEntries? (view : Viewpoint) (member : Located) : Option (List Located) := do
  let value ← member.node.yielded?
  match value.listElements? with
  | some entries => return entries.map member.beside
  | none =>
    let target ← view.index.resolve? (member.beside (← hopName? value))
    if target.kind = .declarator then
      let entries ← (← target.node.yielded?).listElements?
      return entries.map target.beside
    else none

def constructorName? (callee : Node) : Option Node :=
  match callee.kind with
  | .nameRef => some callee
  | .memberExpr => callee.firstExpr?.filter (·.kind == .nameRef)
  | _ => none

def built? (builder : Node) : Option Node :=
  if builder.kind = .closure then builder.yielded? else some builder

def pageName? (builder : Node) : Option Node := do
  let constructed ← (← built? builder).underNew?
  match constructed.kind with
  | .nameRef => some constructed
  | .callExpr => constructorName? (← constructed.firstExpr?)
  | _ => none

def page? (view : Viewpoint) (builder : Located) : Option Located := do
  view.index.resolve? (builder.beside (← pageName? builder.node))

def routeParts? (entry : Located) : Option (Node × Located) :=
  match entry.node.callArgs? with
  | some (path :: builder :: _) => some (path, entry.beside builder)
  | _ => none

def builderFor? (path : String) : List Located → Option Located
  | [] => none
  | entry :: entries =>
    match routeParts? entry with
    | some (literal, builder) =>
      if literal.stringValue? = some path then some builder else builderFor? path entries
    | none => builderFor? path entries

def routePage? (view : Viewpoint) (literal : Node) : Option Located := do
  if !view.project.recognized then none
  let path ← literal.stringValue?
  if path.toList.head? ≠ some '/' then none
  let entries ← view.routeEntries? (← view.routeMember? literal)
  view.page? (← builderFor? path entries)

def routeTable (view : Viewpoint) (cls : Located) : List (String × String) :=
  match view.routeMemberOf? cls with
  | some member =>
    ((view.routeEntries? member).getD []).filterMap fun entry => do
      let (literal, builder) ← routeParts? entry
      let path ← literal.stringValue?
      let name ← (← view.page? builder).node.declName?
      return (path, name)
  | none => []

end CrossReference.Viewpoint
