import CrossReference.Proofs.Printing.Declaration
import CrossReference.Proofs.Printing.Forms
import CrossReference.Reference.Localization

namespace CrossReference

open Source

structure Accessors where
  cls : Word
  field : Word
  call : Word

inductive Access where
  | field | call

mutual

inductive Message where
  | plain (via : Access) (key : Word)
  | filled (via : Access) (key : Word) (args : List Argument)

inductive Argument where
  | message (value : Message)
  | text (value : Quoted)
  | number (value : Digits)
  | name (word : Word)

end

variable (names : Accessors)

def Access.print : Access → String
  | .field => names.cls.1 ++ "." ++ names.field.1
  | .call => names.cls.1 ++ "." ++ names.call.1 ++ "(context)"

mutual

def Message.print : Message → String
  | .plain via key => via.print names ++ "." ++ key.1
  | .filled via key args =>
    via.print names ++ "." ++ key.1 ++ "(" ++ Argument.printAll args ++ ")"

def Argument.print : Argument → String
  | .message value => value.print
  | .text value => "'" ++ value.1 ++ "'"
  | .number value => value.1
  | .name word => word.1

def Argument.printAll : List Argument → String
  | [] => ""
  | [a] => a.print
  | a :: b :: rest => a.print ++ ", " ++ Argument.printAll (b :: rest)

end

variable (catalog : Catalog)

mutual

def Message.eval : Message → Option String
  | .plain _ key => (catalog.get? key.1).map (Text.Placeholder.substitute · [])
  | .filled _ key args =>
    (catalog.get? key.1).map (Text.Placeholder.substitute · (Argument.shownAll args))

def Argument.shown : Argument → String
  | .message value => (value.eval).getD (r"${" ++ value.print names ++ r"}")
  | .text value => value.1
  | .number value => value.1
  | .name word => r"${" ++ word.1 ++ r"}"

def Argument.shownAll : List Argument → List String
  | [] => []
  | a :: rest => a.shown :: Argument.shownAll rest

end

def contextWord : Word := ⟨"context", rfl⟩

def Access.chain : Access → Chain
  | .field => .member (.name names.cls) names.field
  | .call => .call (.member (.name names.cls) names.call) [.chain (.name contextWord)]

mutual

def Message.chain : Message → Chain
  | .plain via key => .member (via.chain names) key
  | .filled via key args => .call (.member (via.chain names) key) (Argument.exprs args)

def Argument.expr : Argument → Expr
  | .message value => .chain value.chain
  | .text value => .text value
  | .number value => .number value
  | .name word => .chain (.name word)

def Argument.exprs : List Argument → List Expr
  | [] => []
  | a :: rest => a.expr :: Argument.exprs rest

end

theorem Access.toList_print (via : Access) :
    (via.print names).toList = chars (via.chain names).tokens := by
  cases via with
  | field => simp [Access.print, Access.chain, Chain.tokens]
  | call =>
    simp [Access.print, Access.chain, Chain.tokens, Expr.tokensAll, Expr.tokens, contextWord]

mutual

theorem Message.toList_print :
    (m : Message) → (m.print names).toList = chars (m.chain names).tokens
  | .plain via key => by
    simp [Message.print, Message.chain, Chain.tokens, via.toList_print]
  | .filled via key args => by
    simp [Message.print, Message.chain, Chain.tokens, via.toList_print,
      Argument.toList_printAll args]

theorem Argument.toList_print :
    (a : Argument) → (a.print names).toList = chars (a.expr names).tokens
  | .message value => value.toList_print
  | .text value => by simp [Argument.print, Argument.expr, Expr.tokens, Quoted.token]
  | .number value => by simp [Argument.print, Argument.expr, Expr.tokens, Digits.token]
  | .name word => by simp [Argument.print, Argument.expr, Expr.tokens, Chain.tokens]

theorem Argument.toList_printAll : (as : List Argument) →
    (Argument.printAll names as).toList = chars (Expr.tokensAll (Argument.exprs names as))
  | [] => rfl
  | [a] => a.toList_print
  | a :: b :: rest => by
    have hrest := Argument.toList_printAll (b :: rest)
    rw [Argument.exprs] at hrest
    simp [Argument.printAll, Argument.exprs, Expr.tokensAll, a.toList_print, hrest]

end

def Access.parts : Access → List (String × Bool)
  | .field => [(names.cls.1, false), (names.field.1, false)]
  | .call => [(names.cls.1, false), (names.call.1, true)]

theorem Access.spells (via : Access) : (via.chain names).Spells (via.parts names) := by
  cases via with
  | field => exact (Chain.Spells.name names.cls).member names.field
  | call =>
    have hmember := (Chain.Spells.name names.cls).member names.call
    exact hmember.call rfl _

theorem Catalog.load_of_entries {store : FileStore} {path : Path} {entries : Table String String}
    (h : (Catalog.load store path).toOption.map Catalog.entries = some entries) :
    Catalog.load store path = .ok ⟨entries⟩ := by
  cases hload : Catalog.load store path with
  | error e => simp [hload, Except.toOption] at h
  | ok catalog =>
    rw [hload] at h
    cases h
    rfl

namespace Viewpoint

variable {names} {catalog} {view : Viewpoint} {n : Node}

theorem localized?_eq (view : Viewpoint) (n : Node) :
    view.localized? n = (view.localizationRef? n).bind fun ref =>
      (view.template? ref.key).map fun template =>
        Text.Placeholder.substitute template
          ((localizationArgs ref n).map view.renderArgument) := by
  rw [localized?]
  cases view.localizationRef? n with
  | none => rfl
  | some ref =>
    have hargs : (localizationArgs ref n).attach.map (fun arg => view.renderArgument arg.1) =
        (localizationArgs ref n).map view.renderArgument :=
      List.attach_map_val
    rw [Option.bind_some, ← hargs]
    dsimp only
    cases view.template? ref.key with
    | none => rfl
    | some template => rfl

structure Localizes (view : Viewpoint) (names : Accessors) (catalog : Catalog) : Prop where
  recognized : view.project.recognized = true
  cls : view.settings.localizationClass = names.cls.1
  field : view.settings.localizationField = names.field.1
  call : view.settings.localizationCall = names.call.1
  load : Catalog.load view.store view.catalogPath = .ok catalog

theorem Localizes.template? (h : view.Localizes names catalog) (key : String) :
    view.template? key = catalog.get? key := by
  rw [Viewpoint.template?, h.load]

theorem Localizes.localizationRef? (h : view.Localizes names catalog) {via : Access} {key : String}
    {called : Bool} {c : Chain} (hc : c.Spells (via.parts names ++ [(key, called)]))
    (hn : n.tree = c.tree) :
    ∃ call, view.localizationRef? n = some ⟨key, call⟩ ∧ call.isSome = called := by
  obtain ⟨segments, hchain, hparts⟩ := hc n hn
  obtain ⟨accessor, hvia, haccessor⟩ : ∃ accessor,
      via.parts names = [(names.cls.1, false), accessor] ∧
        ∀ s : Segment, (s.name, s.call.isSome) = accessor → view.isAccessor s = true := by
    cases via with
    | field =>
      refine ⟨_, rfl, fun s hs => ?_⟩
      obtain ⟨hname, hcall⟩ : s.name = names.field.1 ∧ s.call = none := by simpa using hs
      simp [isAccessor, hname, hcall, h.field]
    | call =>
      refine ⟨_, rfl, fun s hs => ?_⟩
      obtain ⟨hname, hcall⟩ : s.name = names.call.1 ∧ s.call.isSome = true := by simpa using hs
      simp [isAccessor, hname, hcall, h.call]
  rw [hvia] at hparts
  obtain ⟨cls, rest, rfl, hcls, hparts⟩ := List.map_eq_cons_iff.1 hparts
  obtain ⟨access, rest, rfl, haccess, hparts⟩ := List.map_eq_cons_iff.1 hparts
  obtain ⟨last, rfl, hlast⟩ := List.map_eq_singleton_iff.1 hparts
  obtain ⟨hname, hcall⟩ : cls.name = names.cls.1 ∧ cls.call = none := by simpa using hcls
  obtain ⟨hkey, hcalled⟩ := Prod.mk.inj hlast
  refine ⟨last.call, ?_, hcalled⟩
  simp [Viewpoint.localizationRef?, h.recognized, hchain, hname, hcall, h.cls,
    haccessor access haccess, hkey]

theorem localizationRef?_name {w : Word} (hn : n.tree = w.tree) :
    view.localizationRef? n = none := by
  obtain ⟨segments, hchain, hparts⟩ := Chain.Spells.name w n hn
  obtain ⟨s, rfl, -⟩ := List.map_eq_singleton_iff.1 hparts
  simp [localizationRef?, hchain]

theorem localizationRef?_literal (hkind : n.kind = .stringLiteral ∨ n.kind = .literal) :
    view.localizationRef? n = none := by
  have hchain : n.chain? = none := by
    rw [Node.chain?]
    rcases hkind with h | h <;> rw [h]
  simp [localizationRef?, hchain]

theorem localized?_of_none (href : view.localizationRef? n = none) : view.localized? n = none := by
  rw [localized?_eq, href]
  rfl

theorem argumentText_chain {c : Chain} (hn : n.tree = c.tree) (localized : Option String) :
    argumentText localized n = localized.getD (r"${" ++ spelling c.tokens ++ r"}") := by
  have hkind : n.kind ≠ .stringLiteral ∧ n.kind ≠ .literal := by
    cases c with
    | name w => simp [Node.kind_of_tree hn]
    | member object w => simp [Node.kind_of_tree hn]
    | call callee args => simp [Node.kind_of_tree hn]
  have htext : n.text = spelling c.tokens := by rw [Node.text, hn, Tree.text, c.tokens_tree]
  have hvalue : n.stringValue? = none := by simp [Node.stringValue?, hkind.1]
  cases localized with
  | none => simp [argumentText, hvalue, hkind.2, htext]
  | some text => simp [argumentText]

theorem argumentText_number {value : Digits} (hn : n.tree = (Expr.number value).tree) :
    argumentText none n = value.1 := by
  obtain ⟨c, x, hdigits, hc, -⟩ := value.digits
  have hkind : n.kind = .literal := Node.kind_of_tree hn
  have htext : n.text = value.1 := by
    rw [Node.text, hn, Tree.text, Expr.tokens_tree]
    simp [Expr.tokens, spelling, Digits.token]
  have hvalue : n.stringValue? = none := by simp [Node.stringValue?, hkind]
  simp [argumentText, hvalue, hkind, htext, hdigits, hc]

mutual

theorem Localizes.localized? (h : view.Localizes names catalog) : (m : Message) → {n : Node} →
    n.tree = (m.chain names).tree → view.localized? n = m.eval names catalog
  | .plain via key, n, hn => by
    obtain ⟨call, href, hcall⟩ := h.localizationRef? ((via.spells names).member key) hn
    have hargs : localizationArgs ⟨key.1, call⟩ n = [] := by simp [localizationArgs, hcall]
    rw [localized?_eq, href, Option.bind_some, hargs, h.template?]
    rfl
  | .filled via key args, n, hn => by
    have hspells := ((via.spells names).member key).call rfl (Argument.exprs names args)
    obtain ⟨call, href, hcall⟩ := h.localizationRef? hspells hn
    have hargs : localizationArgs ⟨key.1, call⟩ n = n.callArgs?.getD [] := by
      simp [localizationArgs, hcall]
    have hshown := h.renderAll args (Node.map_tree_callArgs? hn)
    rw [localized?_eq, href, Option.bind_some, hargs, hshown, h.template?]
    rfl

theorem Localizes.render (h : view.Localizes names catalog) : (a : Argument) → {n : Node} →
    n.tree = (a.expr names).tree → view.renderArgument n = a.shown names catalog
  | .message value, n, hn => by
    have hspelling : spelling (value.chain names).tokens = value.print names := by
      rw [spelling_eq, ← value.toList_print, String.ofList_toList]
    rw [renderArgument, h.localized? value hn, argumentText_chain hn, hspelling]
    rfl
  | .text value, n, hn => by
    have hnone : view.localized? n = none :=
      localized?_of_none (localizationRef?_literal (.inl (Node.kind_of_tree hn)))
    simp only [renderArgument, hnone, argumentText, Node.stringValue?_text hn, Argument.shown]
  | .number value, n, hn => by
    have hnone : view.localized? n = none :=
      localized?_of_none (localizationRef?_literal (.inr (Node.kind_of_tree hn)))
    rw [renderArgument, hnone]
    exact argumentText_number hn
  | .name word, n, hn => by
    have hnone : view.localized? n = none := localized?_of_none (localizationRef?_name hn)
    rw [renderArgument, hnone, argumentText_chain (c := .name word) hn]
    simp [spelling, Chain.tokens, Argument.shown]

theorem Localizes.renderAll (h : view.Localizes names catalog) : (args : List Argument) →
    {ns : List Node} → ns.map Node.tree = (Argument.exprs names args).map Expr.tree →
    ns.map view.renderArgument = Argument.shownAll names catalog args
  | [], ns, hns => by
    rw [List.map_eq_nil_iff.1 hns]
    rfl
  | a :: rest, ns, hns => by
    obtain ⟨n, ns, rfl, hn, hns⟩ := List.map_eq_cons_iff.1 hns
    rw [List.map_cons, h.render a hn, h.renderAll rest hns]
    rfl

end

theorem exists_initializer (names : Accessors) (m : Message) :
    ∃ n, (parse ("final x = " ++ m.print names ++ ";")).root.topLevelDecls.head?.bind
        Node.yielded? = some n ∧ n.tree = (m.chain names).tree := by
  have htext : ("final x = " ++ m.print names ++ ";").toList =
      chars (finalTokens variableWord (.chain (m.chain names))) := by
    simp [m.toList_print, finalTokens, declaratorTokens, Expr.tokens, variableWord]
  have hitems := items_final variableWord rfl (.chain (m.chain names)) htext
  obtain ⟨d, hdecls, hd⟩ := Node.topLevelDecls_final hitems
  obtain ⟨n, -, hn, hyielded, -⟩ := Node.exists_value hd
  refine ⟨n, ?_, hn⟩
  rw [Parse.root, hdecls]
  exact hyielded

theorem localized?_initializer (h : view.Localizes names catalog) (m : Message) :
    ∃ n, (parse ("final x = " ++ m.print names ++ ";")).root.topLevelDecls.head?.bind
        Node.yielded? = some n ∧
      view.localized? n = m.eval names catalog := by
  obtain ⟨n, hyielded, hn⟩ := exists_initializer names m
  exact ⟨n, hyielded, h.localized? m hn⟩

theorem localized?_initializer_nested :
    let names : Accessors := ⟨⟨"S", rfl⟩, ⟨"current", rfl⟩, ⟨"of", rfl⟩⟩
    let store := (FileStore.empty.insert ⟨"/app/lib/l10n/intl_en.arb"⟩
      r#"{"hi": "{a}, {b}!", "who": "Ann", "n": 1}"#).2
    let view : Viewpoint := ⟨⟨⟨"/app"⟩, .initial, true⟩, store, .empty, ⟨1⟩, ⟨"/app/lib/a.dart"⟩⟩
    let catalog : Catalog := ⟨[("hi", "{a}, {b}!"), ("who", "Ann")]⟩
    let text := "final x = S.of(context).hi(S.current.who, S.current.n(7));"
    view.Localizes names catalog ∧
      ∃ n, (parse text).root.topLevelDecls.head?.bind Node.yielded? = some n ∧
        view.localized? n = some "Ann, ${S.current.n(7)}!" := by
  intro names store view catalog text
  have hentries : (Catalog.load view.store view.catalogPath).toOption.map Catalog.entries =
      some catalog.entries := by decide +kernel
  have h : view.Localizes names catalog := ⟨rfl, rfl, rfl, rfl, Catalog.load_of_entries hentries⟩
  let m : Message := .filled .call ⟨"hi", rfl⟩
    [.message (.plain .field ⟨"who", rfl⟩),
     .message (.filled .field ⟨"n", rfl⟩ [.number ⟨"7", rfl⟩])]
  have htext : "final x = " ++ m.print names ++ ";" = text := by decide +kernel
  have heval : m.eval names catalog = some "Ann, ${S.current.n(7)}!" := by decide +kernel
  obtain ⟨n, hn, hlocalized⟩ := localized?_initializer h m
  exact ⟨h, n, htext ▸ hn, hlocalized.trans heval⟩

end Viewpoint

end CrossReference
