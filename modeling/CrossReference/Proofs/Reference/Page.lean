import CrossReference.Proofs.Printing.Class
import CrossReference.Proofs.Tree.Within
import CrossReference.Reference.Route

namespace CrossReference

open Source

/-- A path and the page behind it. Members of the class that lists the routes hide a page of their
name. -/
structure PageRoute where
  path : Quoted
  page : Word
  rooted : path.1.toList.head? = some '/'
  visible : page.1 ≠ "getPages" ∧ page.1 ≠ "go"

namespace PageRoute

def print (r : PageRoute) : String :=
  "Route('" ++ r.path.1 ++ "', () => " ++ r.page.1 ++ "())"

def printAll : List PageRoute → String
  | [] => ""
  | [r] => r.print
  | r :: s :: rest => r.print ++ ", " ++ printAll (s :: rest)

end PageRoute

def routesSource (pages : List Word) (routes : List PageRoute) (path : Quoted) : String :=
  String.join (pages.map fun page => "class " ++ page.1 ++ r" {" ++ "\n" ++ r"}" ++ "\n") ++
    r"class App {" ++ "\n  static List<Route> getPages = [" ++ PageRoute.printAll routes ++
    "];\n" ++ r"  void go() { push('" ++ path.1 ++ r"'); }" ++ "\n" ++ r"}"

def goLiteral? (root : Node) : Option Node := do
  let app ← root.children.getLast?
  let go ← app.findMember? "go"
  go.descendants.find? (·.kind == .stringLiteral)

def appWord : Word := ⟨"App", rfl⟩

def routeWord : Word := ⟨"Route", rfl⟩

def getPagesWord : Word := ⟨"getPages", rfl⟩

def goWord : Word := ⟨"go", rfl⟩

def pushWord : Word := ⟨"push", rfl⟩

def PageRoute.expr (r : PageRoute) : Expr :=
  .chain (.call (.name routeWord) [.text r.path, .closure (.chain (.call (.name r.page) []))])

def appMembers (entries : List Expr) (path : Quoted) : List Written :=
  listAndMethod routeWord getPagesWord goWord pushWord (.list entries) [.text path]

def appTokens (entries : List Expr) (path : Quoted) : List Token :=
  Written.behind Token.indent (appMembers entries path)

def appTree (entries : List Expr) (path : Quoted) : Tree :=
  classTree appWord (Written.treesBehind Token.indent (appMembers entries path))

theorem PageRoute.toList_print (r : PageRoute) : r.print.toList = chars r.expr.tokens := by
  simp [print, expr, Expr.tokens, Chain.tokens, Expr.tokensAll, routeWord, Quoted.token]

theorem PageRoute.toList_printAll : (routes : List PageRoute) →
    (printAll routes).toList = chars (Expr.tokensAll (routes.map expr))
  | [] => rfl
  | [r] => r.toList_print
  | r :: s :: rest => by
    have hrest := toList_printAll (s :: rest)
    rw [List.map_cons] at hrest
    simp [printAll, Expr.tokensAll, r.toList_print, hrest]

theorem chars_emptyTokens (pages : List Word) :
    chars (emptyTokens pages) =
      (String.join
        (pages.map fun page => "class " ++ page.1 ++ r" {" ++ "\n" ++ r"}" ++ "\n")).toList := by
  induction pages with
  | nil => rfl
  | cons page pages ih =>
    simp [emptyTokens, classTokens, classAround, ih]

theorem toList_routesSource (pages : List Word) (routes : List PageRoute) (path : Quoted) :
    (routesSource pages routes path).toList = chars
      (emptyTokens pages ++ classTokens appWord (appTokens (routes.map PageRoute.expr) path)) := by
  simp [routesSource, chars_emptyTokens, classTokens, classAround, appTokens, appMembers,
    listAndMethod, Written.behind, Written.separated, listField, method, blockOf, calling,
    declaratorTokens, PageRoute.toList_printAll, Expr.tokens, Expr.tokensAll, Chain.tokens,
    Quoted.token, appWord, routeWord, getPagesWord, goWord, pushWord, listWord, voidWord]

structure ListsRoutes (app literal routes value : Node) (entries : List Expr) (path : Quoted) :
    Prop where
  isClass : app.kind = .classDecl
  goes : (app.findMember? "go").bind (fun go => go.descendants.find? (·.kind == .stringLiteral)) =
    some literal
  text : literal.tree = (Expr.text path).tree
  enclosing : literal.enclosingClass? = some app
  member : app.findMember? "getPages" = some routes
  type : routes.declaredType? = some "List"
  yields : routes.yielded? = some value
  list : value.tree = (Expr.list entries).tree
  members : ∃ go, app.classMembers = [routes, go] ∧ routes.declName? = some "getPages" ∧
    go.declName? = some "go"
  scopes (name : String) : value.ancestors.findSome? (Node.declIn? name) =
    app.ancestors.findSome? (Node.declIn? name)

theorem exists_listsRoutes {app : Node} {entries : List Expr} {path : Quoted}
    (h : app.tree = appTree entries path) :
    ∃ literal routes value, ListsRoutes app literal routes value entries path := by
  -- The tree is fixed down to the entries, so what stands where is a matter of computation.
  obtain ⟨⟨kind, children, start, index⟩, above⟩ := app
  cases h
  refine ⟨?literal, ?routes, ?value, rfl, ?goes, ?text, ?enclosing, ?member, ?type, ?yields, ?list,
    ⟨?go, ?members, ?declared, ?named⟩, fun _ => ?scopes⟩
  -- The first four say which nodes the others are about.
  case goes | member | yields | members => exact rfl
  case text | enclosing | type | list | declared | named | scopes => exact rfl

structure BuildsPage (file : FileId) (entry literal builder ref : Node) (r : PageRoute) : Prop where
  parts : Viewpoint.routeParts? ⟨file, entry⟩ = some (literal, ⟨file, builder⟩)
  path : literal.tree = (Expr.text r.path).tree
  page : Viewpoint.pageName? builder = some ref
  kind : ref.kind = .nameRef
  name : ref.refName? = some r.page.1
  parent : ∃ call, ref.parent? = some call ∧ call.kind = .callExpr
  scopes (name : String) : ref.ancestors.findSome? (Node.declIn? name) =
    entry.strictAncestors.findSome? (Node.declIn? name)

theorem exists_buildsPage (file : FileId) {entry : Node} {r : PageRoute}
    (h : entry.tree = r.expr.tree) :
    ∃ literal builder ref, BuildsPage file entry literal builder ref r := by
  obtain ⟨⟨kind, children, start, index⟩, above⟩ := entry
  cases h
  exact ⟨_, _, _, rfl, rfl, rfl, rfl, rfl, ⟨_, rfl, rfl⟩, fun _ => rfl⟩

namespace Viewpoint

variable {view : Viewpoint}

theorem builderFor?_cons {file : FileId} {entry literal builder ref : Node} {r : PageRoute}
    (h : BuildsPage file entry literal builder ref r) (path : Quoted) (rest : List Located) :
    builderFor? path.1 (⟨file, entry⟩ :: rest) =
      if r.path = path then some ⟨file, builder⟩ else builderFor? path.1 rest := by
  have hvalue : literal.stringValue? = some r.path.1 := Node.stringValue?_text h.path
  simp only [builderFor?, h.parts, hvalue, Option.some.injEq, ← Subtype.ext_iff]

section Entries

variable (file : FileId) {path : Quoted} {routes : List PageRoute} {entries : List Node}
  (h : entries.map Node.tree = routes.map fun r => r.expr.tree)
include h

theorem builderFor?_of_find {r : PageRoute} (hfind : routes.find? (·.path = path) = some r) :
    ∃ entry ∈ entries, ∃ literal builder ref, BuildsPage file entry literal builder ref r ∧
      builderFor? path.1 (entries.map (⟨file, ·⟩)) = some ⟨file, builder⟩ := by
  induction routes generalizing entries with
  | nil => cases hfind
  | cons s routes ih =>
    obtain ⟨entry, entries, rfl, hentry, hentries⟩ := List.map_eq_cons_iff.1 h
    obtain ⟨literal, builder, ref, hbuilds⟩ := exists_buildsPage file hentry
    rw [List.map_cons, builderFor?_cons hbuilds]
    by_cases hpath : s.path = path
    · obtain rfl : s = r := by simpa [hpath] using hfind
      exact ⟨entry, by simp, literal, builder, ref, hbuilds, if_pos hpath⟩
    · have hrest : routes.find? (·.path = path) = some r := by simpa [hpath] using hfind
      obtain ⟨entry, hmem, hentry⟩ := ih hentries hrest
      rw [if_neg hpath]
      exact ⟨entry, by simp [hmem], hentry⟩

theorem builderFor?_of_forall_ne (hne : ∀ r ∈ routes, r.path ≠ path) :
    builderFor? path.1 (entries.map (⟨file, ·⟩)) = none := by
  induction routes generalizing entries with
  | nil =>
    obtain rfl := List.map_eq_nil_iff.1 h
    rfl
  | cons s routes ih =>
    obtain ⟨entry, entries, rfl, hentry, hentries⟩ := List.map_eq_cons_iff.1 h
    obtain ⟨literal, builder, ref, hbuilds⟩ := exists_buildsPage file hentry
    obtain ⟨hs, hroutes⟩ := List.forall_mem_cons.1 hne
    rw [List.map_cons, builderFor?_cons hbuilds, if_neg hs]
    exact ih hentries hroutes

end Entries

section Listing

variable {app literal listing value root d : Node} {entries : List Expr} {path : Quoted}

theorem findMember?_of_listsRoutes (h : ListsRoutes app literal listing value entries path)
    {name : String} (hname : name ≠ "getPages" ∧ name ≠ "go") : app.findMember? name = none := by
  obtain ⟨go, hmembers, hlisting, hgo⟩ := h.members
  simp [Node.findMember?, hmembers, Node.isNamed, hlisting, hgo, hname.1.symm, hname.2.symm]

theorem scopes_of_listsRoutes (h : ListsRoutes app literal listing value entries path)
    (happ : app ∈ root.children) (hroot : root.kind = .sourceFile) {name : String}
    (hname : name ≠ "getPages" ∧ name ≠ "go")
    (hd : root.topLevelDecls.find? (·.isNamed name) = some d) :
    value.ancestors.findSome? (Node.declIn? name) = some d := by
  have hhidden : app.declIn? name = none := by
    simp only [Node.declIn?, h.isClass]
    exact findMember?_of_listsRoutes h hname
  have hfile : root.declIn? name = some d := by
    simp only [Node.declIn?, hroot]
    exact hd
  rw [h.scopes, Node.ancestors, Node.strictAncestors_of_mem_children happ]
  simp [hhidden, hfile]

theorem routeMember?_of_listsRoutes (h : ListsRoutes app literal listing value entries path)
    (hsettings : view.settings = .initial) :
    view.routeMember? literal = some ⟨view.file, listing⟩ := by
  have hmember : view.routeMemberOf? ⟨view.file, app⟩ = some ⟨view.file, listing⟩ := by
    simp [routeMemberOf?, hsettings, Settings.initial, h.member, Located.beside]
  have hclasses : (view.routeClasses literal).findSome? view.routeMemberOf? =
      some ⟨view.file, listing⟩ := by
    simp [routeClasses, h.enclosing, locate, hmember]
  simp [routeMember?, hclasses, h.type, listTypes]

theorem routeEntries?_of_listsRoutes (h : ListsRoutes app literal listing value entries path) :
    view.routeEntries? ⟨view.file, listing⟩ = some (value.exprs.map (⟨view.file, ·⟩)) := by
  have hlist : value.listElements? = some value.exprs := by
    simp [Node.listElements?, Node.kind_of_tree h.list]
  simp [routeEntries?, h.yields, hlist, Located.beside]

theorem routePage?_of_listsRoutes (h : ListsRoutes app literal listing value entries path)
    (hproject : view.project.recognized = true) (hsettings : view.settings = .initial) :
    view.routePage? literal =
      if path.1.toList.head? = some '/' then
        (builderFor? path.1 (value.exprs.map (⟨view.file, ·⟩))).bind view.page?
      else none := by
  have hvalue : literal.stringValue? = some path.1 := Node.stringValue?_text h.text
  by_cases hhead : path.1.toList.head? = some '/'
  · simp [routePage?, hproject, hvalue, hhead, routeMember?_of_listsRoutes h hsettings,
      routeEntries?_of_listsRoutes h]
  · simp [routePage?, hproject, hvalue, hhead]

theorem page?_of_buildsPage {file : FileId} {entry text builder ref : Node} {r : PageRoute}
    (h : BuildsPage file entry text builder ref r) {d : Node}
    (hd : entry.strictAncestors.findSome? (Node.declIn? r.page.1) = some d) :
    view.page? ⟨file, builder⟩ = some ⟨file, d⟩ := by
  obtain ⟨call, hcall, hkind⟩ := h.parent
  have hmember : ref.isMemberName call = false := by simp [Node.isMemberName, hkind]
  have hlexical : view.index.resolveLexically? ⟨file, ref⟩ r.page.1 = some ⟨file, d⟩ := by
    simp [Declarations.resolveLexically?, h.scopes, hd, Located.beside]
  simp [page?, h.page, Located.beside, Declarations.resolve?, Declarations.resolveWithin?,
    Declarations.resolveWith?, Located.kind, h.kind, h.name, hcall, hmember, r.page.ne_this,
    hlexical]

end Listing

end Viewpoint

section Classes

variable {root : Node} {pages : List Word} {entries : List Expr} {path : Quoted}

theorem filter_emptyTrees (pages : List Word) :
    (emptyTrees pages).filter Tree.isNode = pages.map (classTree · []) := by
  induction pages with
  | nil => rfl
  | cons page pages ih =>
    rw [emptyTrees, List.map_cons, ← ih]
    rfl

theorem exists_app {text : String}
    (h : (parse text).items = emptyTrees pages ++ [appTree entries path]) :
    ∃ before app, (parse text).root.children = before ++ [app] ∧
      before.map Node.tree = pages.map (classTree · []) ∧ app.tree = appTree entries path := by
  have htrees : (parse text).root.children.map Node.tree =
      pages.map (classTree · []) ++ [appTree entries path] := by
    rw [Parse.map_tree_children, h, List.filter_append, filter_emptyTrees]
    rfl
  obtain ⟨before, last, hchildren, hbefore, hlast⟩ := List.map_eq_append_iff.1 htrees
  obtain ⟨app, rfl, happ⟩ := List.map_eq_singleton_iff.1 hlast
  exact ⟨before, app, hchildren, hbefore, happ⟩

theorem topLevelDecls_of_classes (h : ∀ c ∈ root.children, c.kind = .classDecl) :
    root.topLevelDecls = root.children := by
  unfold Node.topLevelDecls
  generalize root.children = cs at h
  induction cs with
  | nil => rfl
  | cons c cs ih =>
    obtain ⟨hc, hcs⟩ := List.forall_mem_cons.1 h
    rw [List.flatMap_cons, ih hcs, hc]
    rfl

theorem exists_page {text : String}
    (h : (parse text).items = emptyTrees pages ++ [appTree entries path]) {page : Word}
    (hpage : page ∈ pages ∨ page.1 = "App") :
    ∃ d ∈ (parse text).root.children, d.kind = .classDecl ∧ d.declName? = some page.1 ∧
      (parse text).root.topLevelDecls.find? (·.isNamed page.1) = some d := by
  obtain ⟨before, app, hchildren, hbefore, happ⟩ := exists_app h
  have hkinds : ∀ c ∈ (parse text).root.children, c.kind = .classDecl := by
    intro c hc
    rcases List.mem_append.1 (hchildren ▸ hc) with hc | hc
    · have hmem : c.tree ∈ pages.map (classTree · []) := hbefore ▸ List.mem_map_of_mem hc
      obtain ⟨word, -, hword⟩ := List.mem_map.1 hmem
      exact Node.kind_of_tree hword.symm
    · rw [List.mem_singleton.1 hc]
      exact Node.kind_of_tree happ
  have hnamed : ∃ c ∈ (parse text).root.children, c.isNamed page.1 = true := by
    rcases hpage with hpage | hpage
    · have hmem : classTree page [] ∈ before.map Node.tree := hbefore ▸ List.mem_map_of_mem hpage
      obtain ⟨c, hc, htree⟩ := List.mem_map.1 hmem
      obtain ⟨_, _, -, -, -, -, hname⟩ := Node.exists_classBody htree
      exact ⟨c, by simp [hchildren, hc], by simp [Node.isNamed, hname]⟩
    · obtain ⟨_, _, -, -, -, -, hname⟩ := Node.exists_classBody happ
      exact ⟨app, by simp [hchildren], by simp [Node.isNamed, hname, hpage, appWord]⟩
  obtain ⟨d, hd⟩ := Option.isSome_iff_exists.1 (List.find?_isSome.2 hnamed)
  have hmem : d ∈ (parse text).root.children := List.mem_of_find?_eq_some hd
  have hname : d.isNamed page.1 = true := List.find?_some hd
  refine ⟨d, hmem, hkinds d hmem, beq_iff_eq.1 hname, ?_⟩
  rw [topLevelDecls_of_classes hkinds]
  exact hd

end Classes

theorem Viewpoint.routePage?_of_routes {view : Viewpoint}
    (hproject : view.project.recognized = true) (hsettings : view.settings = .initial)
    {pages : List Word} {routes : List PageRoute}
    (hpages : ∀ r ∈ routes, r.page ∈ pages ∨ r.page.1 = "App") (path : Quoted) :
    let root := (parse (routesSource pages routes path)).root
    ∃ literal, goLiteral? root = some literal ∧
      (∀ i (hi : i < routes.length), routes[i].path = path →
        (∀ j (hj : j < i), routes[j].path ≠ path) →
        ∃ d ∈ root.children, d.kind = .classDecl ∧ d.declName? = some routes[i].page.1 ∧
          view.routePage? literal = some (view.locate d)) ∧
      ((∀ r ∈ routes, r.path ≠ path) ∨ path.1.toList.head? ≠ some '/' →
        view.routePage? literal = none) := by
  intro root
  have hitems : (parse (routesSource pages routes path)).items =
      emptyTrees pages ++ [appTree (routes.map PageRoute.expr) path] := by
    have hread : ReadAsMembers (appTokens (routes.map PageRoute.expr) path) _ :=
      readAsMembers_listAndMethod (by decide) (by decide) (by decide) _ _
    exact parse_classes pages appWord hread (scans_listAndMethod _ _ _ _ _ _)
      (toList_routesSource ..)
  obtain ⟨before, app, hchildren, -, happ⟩ := exists_app hitems
  obtain ⟨literal, listing, value, hlists⟩ := exists_listsRoutes happ
  have hlast : root.children.getLast? = some app := by
    rw [hchildren]
    simp
  have hmem : app ∈ root.children := List.mem_of_getLast? hlast
  have htrees : value.exprs.map Node.tree = routes.map fun r => r.expr.tree := by
    rw [Node.map_tree_exprs hlists.list]
    simp [Expr.filter_treesAll]
  refine ⟨literal, ?_, ?_, ?_⟩
  · simp only [goLiteral?, hlast]
    exact hlists.goes
  · intro i hi hpath hfirst
    have hfind : routes.find? (·.path = path) = some routes[i] := by
      rw [List.find?_eq_some_iff_getElem]
      exact ⟨by simpa using hpath, i, hi, rfl, fun j hj => by simpa using hfirst j hj⟩
    obtain ⟨entry, hentry, text, builder, ref, hbuilds, hbuilder⟩ :=
      builderFor?_of_find view.file htrees hfind
    obtain ⟨d, hd, hkind, hname, hfound⟩ := exists_page hitems (hpages _ (List.getElem_mem hi))
    refine ⟨d, hd, hkind, hname, ?_⟩
    have hscopes : entry.strictAncestors.findSome? (Node.declIn? routes[i].page.1) = some d := by
      rw [Node.strictAncestors_of_mem_children (List.mem_filter.1 hentry).1]
      exact scopes_of_listsRoutes hlists hmem rfl routes[i].visible hfound
    rw [routePage?_of_listsRoutes hlists hproject hsettings, if_pos (hpath ▸ routes[i].rooted),
      hbuilder]
    exact page?_of_buildsPage hbuilds hscopes
  · intro hnone
    rw [routePage?_of_listsRoutes hlists hproject hsettings]
    rcases hnone with hne | hhead
    · rw [builderFor?_of_forall_ne view.file htrees hne]
      simp
    · rw [if_neg hhead]

theorem Viewpoint.routePage?_of_routes_repeated :
    let text := "\n".intercalate [r"class PageA {", r"}", r"class PageB {", r"}", r"class App {",
      "  static List<Route> getPages = [Route('/a', () => PageA()), " ++
        "Route('/b', () => PageB()), Route('/b', () => PageA())];",
      r"  void go() { push('/b'); }", r"}"]
    let root := (parse text).root
    let view : Viewpoint := ⟨⟨⟨"/app"⟩, .initial, true⟩, .empty,
      Declarations.empty.addFile ⟨0⟩ root, ⟨0⟩, ⟨"/app/lib/a.dart"⟩⟩
    let pages : List Word := [⟨"PageA", rfl⟩, ⟨"PageB", rfl⟩]
    let routes : List PageRoute :=
      [⟨⟨"/a", rfl⟩, ⟨"PageA", rfl⟩, rfl, by decide⟩, ⟨⟨"/b", rfl⟩, ⟨"PageB", rfl⟩, rfl, by decide⟩,
       ⟨⟨"/b", rfl⟩, ⟨"PageA", rfl⟩, rfl, by decide⟩]
    (∀ r ∈ routes, r.page ∈ pages ∨ r.page.1 = "App") ∧
      ∃ literal, goLiteral? root = some literal ∧
        ∃ d ∈ root.children, d.kind = .classDecl ∧ d.declName? = some "PageB" ∧
          view.routePage? literal = some (view.locate d) := by
  intro text root view pages routes
  have hpages : ∀ r ∈ routes, r.page ∈ pages ∨ r.page.1 = "App" := by decide
  have htext : routesSource pages routes ⟨"/b", rfl⟩ = text := by decide +kernel
  obtain ⟨literal, hliteral, hfirst, -⟩ :=
    routePage?_of_routes (show view.project.recognized = true from rfl) rfl hpages ⟨"/b", rfl⟩
  rw [htext] at hliteral hfirst
  exact ⟨hpages, literal, hliteral, hfirst 1 (by decide) rfl (by decide)⟩

end CrossReference
