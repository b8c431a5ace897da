import CrossReference.Reference.Catalog
import CrossReference.Reference.Viewpoint
import CrossReference.Source.Literal
import CrossReference.Source.Form
import CrossReference.Text.Placeholder

/-!
Localization references: a key of the catalog behind an accessor of the localization class. A call
on the key fills the placeholders of its text.
-/

namespace CrossReference

open Source (Node)
open Text (Range)

namespace Source.Node

theorem depth_le_of_underNew {n e : Node} (h : n.underNew? = some e) : e.depth ≤ n.depth := by
  unfold underNew? at h
  split at h
  · exact Nat.le_of_lt (depth_lt_of_mem_exprs (List.mem_of_mem_head? h))
  · cases h
    exact Nat.le_refl _

theorem depth_lt_of_mem_callArgs {n a : Node} {args : List Node} (h : n.callArgs? = some args)
    (ha : a ∈ args) : a.depth < n.depth := by
  unfold callArgs? at h
  obtain ⟨call, hcall, h⟩ := Option.bind_eq_some_iff.1 h
  obtain ⟨argList, hlist, h⟩ := Option.bind_eq_some_iff.1 h
  obtain ⟨_, h⟩ := Option.ite_none_left_eq_some.1 h
  cases h
  calc a.depth < argList.depth := depth_lt_of_mem_exprs ha
    _ < call.depth := depth_lt_of_mem_children (List.mem_of_find?_eq_some hlist)
    _ ≤ n.depth := depth_le_of_underNew (Option.filter_eq_some_iff.1 hcall).1

end Source.Node

structure LocalizationRef where
  key : String
  call : Option Node

namespace Viewpoint

def isAccessor (view : Viewpoint) (s : Source.Segment) : Bool :=
  (s.name == view.settings.localizationField && s.call.isNone) ||
    (s.name == view.settings.localizationCall && s.call.isSome)

def localizationRef? (view : Viewpoint) (n : Node) : Option LocalizationRef :=
  if view.project.recognized then
    match n.chain? with
    | some [cls, accessor, key] =>
      if cls.name == view.settings.localizationClass && cls.call.isNone &&
          view.isAccessor accessor then
        some ⟨key.name, key.call⟩
      else none
    | _ => none
  else none

def template? (view : Viewpoint) (key : String) : Option String :=
  match Catalog.load view.store view.catalogPath with
  | .ok catalog => catalog.get? key
  | .error _ => none

/-- An argument as it is shown: its localized text, its value, or its source marked as inserted. -/
def argumentText (localized : Option String) (arg : Node) : String :=
  match localized, arg.stringValue? with
  | some text, _ => text
  | none, some value => value
  | none, none =>
    if arg.kind == .literal && arg.text.toList.head?.any Char.isDigit then arg.text
    else r"${" ++ arg.text ++ r"}"

def localizationArgs (ref : LocalizationRef) (n : Node) : List Node :=
  if ref.call.isSome then n.callArgs?.getD [] else []

theorem depth_lt_of_mem_localizationArgs {ref : LocalizationRef} {n a : Node}
    (h : a ∈ localizationArgs ref n) : a.depth < n.depth := by
  unfold localizationArgs at h
  split at h
  · cases hargs : n.callArgs? with
    | none => simp [hargs] at h
    | some args =>
      rw [hargs] at h
      exact Node.depth_lt_of_mem_callArgs hargs h
  · simp at h

def localized? (view : Viewpoint) (n : Node) : Option String :=
  match view.localizationRef? n with
  | none => none
  | some ref =>
    match view.template? ref.key with
    | none => none
    | some template =>
      some (Text.Placeholder.substitute template
        ((localizationArgs ref n).attach.map fun ⟨arg, _⟩ =>
          argumentText (view.localized? arg) arg))
termination_by n.depth
decreasing_by exact depth_lt_of_mem_localizationArgs (by assumption)

def renderArgument (view : Viewpoint) (arg : Node) : String :=
  argumentText (view.localized? arg) arg

def locateKey? (view : Viewpoint) (n : Node) : Option (Path × Range) := do
  let ref ← view.localizationRef? n
  let text ← view.store.read? view.catalogPath
  let range ← Catalog.keyRange? text ref.key
  return (view.catalogPath, range)

end Viewpoint

end CrossReference
