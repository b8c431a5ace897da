import CrossReference.Proofs.Reference.Page

/-!
Looking a route up and listing the routes of a class. Both read the same registrations, each a path
and a builder: a path leads to the page of its first registration, and the listing leaves out those
whose page has no name.
-/

namespace CrossReference

open Source (Node)

section Keyed

variable {κ α β : Type} [DecidableEq κ] {f : κ × α → Option (κ × β)}

theorem find?_filterMap_of_find? (hkey : ∀ x y, f x = some y → y.1 = x.1) {xs : List (κ × α)}
    {key : κ} {x : κ × α} {y : κ × β} (hx : xs.find? (·.1 = key) = some x) (hy : f x = some y) :
    (xs.filterMap f).find? (·.1 = key) = some y := by
  induction xs with
  | nil => cases hx
  | cons z xs ih =>
    rw [List.filterMap_cons]
    by_cases hz : z.1 = key
    · obtain rfl : z = x := by simpa [hz] using hx
      rw [hy]
      simp [hkey z y hy, hz]
    · have hrest : xs.find? (·.1 = key) = some x := by simpa [hz] using hx
      split
      · exact ih hrest
      · next w hw => simpa [hkey z w hw, hz] using ih hrest

theorem find?_filterMap_eq_none (hkey : ∀ x y, f x = some y → y.1 = x.1) {xs : List (κ × α)}
    {key : κ} (hnone : xs.find? (·.1 = key) = none) :
    (xs.filterMap f).find? (·.1 = key) = none := by
  rw [List.find?_eq_none] at hnone ⊢
  intro y hy
  obtain ⟨x, hx, hxy⟩ := List.mem_filterMap.1 hy
  rw [hkey x y hxy]
  exact hnone x hx

end Keyed

namespace Viewpoint

def registered? (entry : Located) : Option (String × Located) := do
  let (literal, builder) ← routeParts? entry
  return (← literal.stringValue?, builder)

def registrations (entries : List Located) : List (String × Located) :=
  entries.filterMap registered?

variable {view : Viewpoint}

def listed? (view : Viewpoint) (route : String × Located) : Option (String × String) := do
  let page ← view.page? route.2
  return (route.1, ← page.node.declName?)

theorem listed?_path {route : String × Located} {pair : String × String}
    (h : view.listed? route = some pair) : pair.1 = route.1 := by
  obtain ⟨page, _, h⟩ := Option.bind_eq_some_iff.1 h
  obtain ⟨name, _, h⟩ := Option.bind_eq_some_iff.1 h
  cases h
  rfl

theorem listed?_eq_some_iff {route : String × Located} {name : String} :
    view.listed? route = some (route.1, name) ↔
      ∃ page, view.page? route.2 = some page ∧ page.node.declName? = some name := by
  simp [listed?, Option.bind_eq_some_iff]

theorem registrations_cons (entry : Located) (entries : List Located) :
    registrations (entry :: entries) = (registered? entry).toList ++ registrations entries := by
  rw [registrations, List.filterMap_cons]
  cases registered? entry <;> rfl

theorem builderFor?_eq (path : String) (entries : List Located) :
    builderFor? path entries = ((registrations entries).find? (·.1 = path)).map Prod.snd := by
  induction entries with
  | nil => rfl
  | cons entry entries ih =>
    rw [builderFor?, registrations_cons, registered?]
    cases hparts : routeParts? entry with
    | none => exact ih
    | some parts =>
      obtain ⟨literal, builder⟩ := parts
      cases hvalue : literal.stringValue? with
      | none => simp [hvalue, ih]
      | some value =>
        by_cases hpath : value = path
        · simp [hvalue, hpath]
        · simp [hvalue, hpath, ih]

theorem routeTable_eq {cls member : Located} (hmember : view.routeMemberOf? cls = some member) :
    view.routeTable cls =
      (registrations ((view.routeEntries? member).getD [])).filterMap view.listed? := by
  rw [routeTable, hmember, registrations, List.filterMap_filterMap]
  refine List.filterMap_congr fun entry _ => ?_
  rw [registered?]
  cases routeParts? entry with
  | none => rfl
  | some parts => cases hvalue : parts.1.stringValue? <;> simp [hvalue, listed?]

section Enclosed

variable {literal cls member : Node} {path : String}

theorem routeMember?_enclosed (hcls : literal.enclosingClass? = some cls)
    (hmember : cls.findMember? view.settings.routeMember = some member) :
    view.routeMember? literal =
      if member.declaredType?.all listTypes.contains then some (view.locate member) else none := by
  have hfound : view.routeMemberOf? (view.locate cls) = some (view.locate member) := by
    simp [routeMemberOf?, locate, Located.beside, hmember]
  have hfirst : (view.routeClasses literal).findSome? view.routeMemberOf? =
      some (view.locate member) := by
    simp [routeClasses, hcls, hfound]
  simp [routeMember?, hfirst, locate]

theorem routePage?_enclosed (hproject : view.project.recognized = true)
    (hpath : literal.stringValue? = some path) (hrooted : path.toList.head? = some '/')
    (hcls : literal.enclosingClass? = some cls)
    (hmember : cls.findMember? view.settings.routeMember = some member) :
    view.routePage? literal =
      if member.declaredType?.all listTypes.contains then
        ((registrations ((view.routeEntries? (view.locate member)).getD [])).find?
          (·.1 = path)).bind fun route => view.page? route.2
      else none := by
  simp only [routePage?, hproject, hpath, hrooted, routeMember?_enclosed hcls hmember,
    Bool.not_true, Bool.false_eq_true, if_false, ne_eq, not_true_eq_false, Option.bind_eq_bind,
    Option.bind_some]
  split
  · rw [Option.bind_some]
    cases hentries : view.routeEntries? (view.locate member) with
    | none => rfl
    | some entries =>
      rw [Option.bind_some, builderFor?_eq, Option.getD_some, Option.bind_map]
      rfl
  · rfl

end Enclosed

/-- Where a class lists a route, its path leads to the page listed first; where it lists none, the
path leads to no named page. If all pages registered for the path have names, listing and looking up
give the same. -/
theorem routePage?_agrees_with_routeTable {view : Viewpoint}
    (hproject : view.project.recognized = true) {literal cls member : Node} {path : String}
    (hpath : literal.stringValue? = some path) (hrooted : path.toList.head? = some '/')
    (hcls : literal.enclosingClass? = some cls)
    (hmember : cls.findMember? view.settings.routeMember = some member) :
    (∀ page name, view.routePage? literal = some page → page.node.declName? = some name →
      (view.routeTable (view.locate cls)).find? (·.1 = path) = some (path, name)) ∧
    ((∀ pair ∈ view.routeTable (view.locate cls), pair.1 ≠ path) →
      ∀ page, view.routePage? literal = some page → page.node.declName? = none) ∧
    (member.declaredType?.all listTypes.contains = true →
      (∀ entries, view.routeEntries? (view.locate member) = some entries →
        ∀ builder, (path, builder) ∈ registrations entries →
          ((view.page? builder).bind (·.node.declName?)).isSome) →
      (view.routePage? literal).bind (·.node.declName?) =
        ((view.routeTable (view.locate cls)).find? (·.1 = path)).map Prod.snd) := by
  have htable : view.routeTable (view.locate cls) =
      (registrations ((view.routeEntries? (view.locate member)).getD [])).filterMap
        view.listed? := by
    refine routeTable_eq ?_
    simp [routeMemberOf?, locate, Located.beside, hmember]
  have hpage := routePage?_enclosed hproject hpath hrooted hcls hmember
  have hkey : ∀ route pair, view.listed? route = some pair → pair.1 = route.1 :=
    fun _ _ => listed?_path
  generalize hroutes : registrations ((view.routeEntries? (view.locate member)).getD []) = routes
    at htable hpage
  have hlisted {page : Located} (h : view.routePage? literal = some page) {name : String}
      (hname : page.node.declName? = some name) :
      (view.routeTable (view.locate cls)).find? (·.1 = path) = some (path, name) := by
    rw [hpage] at h
    obtain ⟨-, h⟩ := Option.ite_none_right_eq_some.1 h
    obtain ⟨route, hroute, hbuilt⟩ := Option.bind_eq_some_iff.1 h
    obtain rfl : route.1 = path := by simpa using List.find?_some hroute
    rw [htable]
    exact find?_filterMap_of_find? hkey hroute (listed?_eq_some_iff.2 ⟨page, hbuilt, hname⟩)
  refine ⟨fun page name h hname => hlisted h hname, fun hnone page h => ?_, fun htype hnamed => ?_⟩
  · refine Option.eq_none_iff_forall_ne_some.2 fun name hname => ?_
    exact hnone _ (List.mem_of_find?_eq_some (hlisted h hname)) rfl
  · rw [if_pos htype] at hpage
    rw [hpage, htable]
    cases hroute : routes.find? (·.1 = path) with
    | none =>
      rw [find?_filterMap_eq_none hkey hroute]
      rfl
    | some route =>
      obtain rfl : route.1 = path := by simpa using List.find?_some hroute
      have hmem : (route.1, route.2) ∈ routes := List.mem_of_find?_eq_some hroute
      have hsome : ((view.page? route.2).bind (·.node.declName?)).isSome := by
        cases hentries : view.routeEntries? (view.locate member) with
        | none =>
          rw [hentries] at hroutes
          rw [← hroutes] at hmem
          cases hmem
        | some entries =>
          rw [hentries, Option.getD_some] at hroutes
          exact hnamed entries hentries route.2 (hroutes ▸ hmem)
      obtain ⟨name, hname⟩ := Option.isSome_iff_exists.1 hsome
      have hpair := listed?_eq_some_iff.2 (Option.bind_eq_some_iff.1 hname)
      rw [find?_filterMap_of_find? hkey hroute hpair]
      exact hname

theorem routePage?_agrees_with_routeTable_one_hop :
    let text := "class PageA {}\nclass PageB {}\nfinal routes = [Route('/a'), " ++
      "Route('/a', () => PageB()), Route('/a', () => PageA())];\n" ++
      r"class App { List getPages() { return routes; } void go() { push('/a'); } }"
    let root := (Source.parse text).root
    let view : Viewpoint := ⟨⟨⟨"/app"⟩, .initial, true⟩, .empty,
      Declarations.empty.addFile ⟨0⟩ root, ⟨0⟩, ⟨"/app/lib/a.dart"⟩⟩
    view.project.recognized = true ∧ "/a".toList.head? = some '/' ∧
      ∃ literal cls member page,
        goLiteral? root = some literal ∧ literal.stringValue? = some "/a" ∧
        literal.enclosingClass? = some cls ∧
        cls.findMember? view.settings.routeMember = some member ∧
        view.routePage? literal = some page ∧ page.node.declName? = some "PageB" ∧
        (view.routeTable (view.locate cls)).find? (·.1 = "/a") = some ("/a", "PageB") := by
  intro text root view
  have hread : ((goLiteral? root).bind fun literal => literal.enclosingClass?.bind fun cls =>
      (cls.findMember? view.settings.routeMember).bind fun _ => (view.routePage? literal).map
        fun page => (literal.stringValue?, page.node.declName?)) =
      some (some "/a", some "PageB") := by
    decide +kernel
  obtain ⟨literal, hliteral, hread⟩ := Option.bind_eq_some_iff.1 hread
  obtain ⟨cls, hcls, hread⟩ := Option.bind_eq_some_iff.1 hread
  obtain ⟨member, hmember, hread⟩ := Option.bind_eq_some_iff.1 hread
  obtain ⟨page, hpage, hread⟩ := Option.map_eq_some_iff.1 hread
  obtain ⟨hpath, hname⟩ := Prod.mk.inj hread
  have hproject : view.project.recognized = true := rfl
  have hrooted : "/a".toList.head? = some '/' := by decide
  have hagrees := routePage?_agrees_with_routeTable hproject hpath hrooted hcls hmember
  exact ⟨hproject, hrooted, literal, cls, member, page, hliteral, hpath, hcls, hmember, hpage,
    hname, hagrees.1 page "PageB" hpage hname⟩

end Viewpoint

end CrossReference
