import CrossReference.Proofs.Import.CalledName
import CrossReference.Proofs.Reading.Edges
import CrossReference.Proofs.Reading.Reports

namespace CrossReference

open Source (Node Token Tree TokenStarts byteSize)
open Text (Range)

def Source.TokenStops (ts : List Token) (offset : Nat) : Prop :=
  ∃ before t after, ts = before ++ t :: after ∧ t.isTrivia = false ∧
    offset = byteSize before + t.size

structure Source.Tight (ts : List Token) (range : Range) : Prop where
  start : TokenStarts ts range.start
  stop : TokenStops ts range.stop

namespace Source

theorem Tight.of_slice {ts before seg after : List Token} (hts : ts = before ++ seg ++ after)
    (hhead : ∀ t, seg.head? = some t → t.isTrivia = false)
    (hlast : ∃ t, seg.getLast? = some t ∧ t.isTrivia = false) :
    Tight ts ⟨byteSize before, byteSize before + byteSize seg⟩ := by
  obtain ⟨last, hlast, hsignificant⟩ := hlast
  obtain ⟨init, rfl⟩ := List.getLast?_eq_some_iff.1 hlast
  constructor
  · cases init with
    | nil => exact ⟨before, last, after, by simp [hts], hsignificant, rfl⟩
    | cons first init =>
      exact ⟨before, first, init ++ last :: after, by simp [hts], hhead first rfl, rfl⟩
  · refine ⟨before ++ init, last, after, by simp [hts], hsignificant, ?_⟩
    simp [Nat.add_assoc]

namespace Node

variable {text : String} {root n : Node}

theorem Within.everywhere_below {P : NodeKind → List Tree → Prop} (h : Within root n)
    (hne : n ≠ root) (hroot : ∀ t ∈ root.here.children, t.Everywhere P) : n.tree.Everywhere P := by
  rcases eq_or_exists_child h with rfl | ⟨c, hc, hcn⟩
  · exact absurd rfl hne
  · exact hcn.everywhere (hroot _ (tree_mem_of_mem_children hc))

theorem Within.beginsTidily (h : (parse text).root.Within n) (hne : n ≠ (parse text).root) :
    Tree.BeginsTidily n.here.children :=
  (h.everywhere_below hne fun _ ht => Parse.begins_tidily ht).1

theorem Within.endsTidily (h : (parse text).root.Within n) (hne : n ≠ (parse text).root)
    (herrors : (parse text).errors = []) : Tree.EndsTidily n.here.children :=
  (h.everywhere_below hne fun _ ht => Parse.ends_tidily herrors ht).1

theorem Within.tight (h : (parse text).root.Within n) (hne : n ≠ (parse text).root)
    (herrors : (parse text).errors = []) : Tight (Token.scan text) n.range := by
  have hself : n.tree.tokens = [] ++ n.tree.tokens ++ [] := by simp
  obtain ⟨before, after, hscan, hstart⟩ := h.exists_slice hself
  have hrange : n.range = ⟨byteSize before, byteSize before + byteSize n.tree.tokens⟩ := by
    rw [← hstart, range, stop, Tree.sizeAll_eq]
    rfl
  rw [hrange]
  exact .of_slice hscan (h.beginsTidily hne) (h.endsTidily hne herrors)

end Node

end Source

namespace Diagnostic

variable {index : Declarations} {file : FileId} {text : String} {d : Diagnostic} {n : Node}

theorem ne_root_of_kind (hkind : n.kind ≠ .sourceFile) : n ≠ (Source.parse text).root := by
  rintro rfl
  exact hkind rfl

theorem tight_of_ofNameRef? (herrors : (Source.parse text).errors = [])
    (hn : (Source.parse text).root.Within n) (hkind : n.kind = .nameRef)
    (h : ofNameRef? index ⟨file, n⟩ = some d) : Source.Tight (Token.scan text) d.range := by
  obtain ⟨name, _, h⟩ := Option.bind_eq_some_iff.1 h
  split at h
  · cases h
    rcases reported_cases n n.parent? with hself | ⟨p, _, hp, hcall, _, _, hreported⟩
    · rw [hself]
      exact hn.tight (ne_root_of_kind (by rw [hkind]; exact Source.NodeKind.noConfusion)) herrors
    · rw [hreported]
      exact (hn.of_parent? rfl hp).1.tight
        (ne_root_of_kind (by rw [hcall]; exact Source.NodeKind.noConfusion)) herrors
  · cases h

theorem tight_of_ofTypeRef? (hn : (Source.parse text).root.Within n)
    (h : ofTypeRef? index ⟨file, n⟩ = some d) : Source.Tight (Token.scan text) d.range := by
  obtain ⟨before, head, after, hscan, hident, rfl⟩ := exists_head_of_ofTypeRef? hn h
  have hsignificant : head.isTrivia = false := by rw [Token.isTrivia, hident]; rfl
  exact .of_slice hscan (by simpa using hsignificant) ⟨head, rfl, hsignificant⟩

theorem tight_of_mem_check (herrors : (Source.parse text).errors = [])
    (h : d ∈ check index file (Source.parse text).root) :
    Source.Tight (Token.scan text) d.range := by
  obtain ⟨n, hn, h⟩ := List.mem_filterMap.1 h
  have hwithin := Node.mem_descendants_iff.1 hn
  unfold ofNode? at h
  split at h
  · next hkind => exact tight_of_ofNameRef? herrors hwithin hkind h
  · exact tight_of_ofTypeRef? hwithin h
  · cases h

end Diagnostic

theorem Source.parse_ranges_tight (text : String) :
    (∀ n ∈ (parse text).root.descendants, n ≠ (parse text).root →
      ∀ t, n.tree.tokens.head? = some t → t.isTrivia = false) ∧
    ((parse text).errors = [] →
      (∀ n ∈ (parse text).root.descendants, n ≠ (parse text).root →
        n.tree.tokens ≠ [] ∧ (∀ t, n.tree.tokens.getLast? = some t → t.isTrivia = false) ∧
        Tight (Token.scan text) n.range) ∧
      ∀ index file, ∀ d ∈ (parse text).errors.map (Diagnostic.ofParseError file) ++
          Diagnostic.check index file (parse text).root,
        Tight (Token.scan text) d.range) := by
  refine ⟨fun n hn hne => (Node.mem_descendants_iff.1 hn).beginsTidily hne, fun herrors => ⟨?_, ?_⟩⟩
  · intro n hn hne
    have hwithin := Node.mem_descendants_iff.1 hn
    obtain ⟨last, hlast, hsignificant⟩ := hwithin.endsTidily hne herrors
    have hlast : n.tree.tokens.getLast? = some last := hlast
    refine ⟨fun hnil => ?_, fun t ht => ?_, hwithin.tight hne herrors⟩
    · rw [hnil] at hlast
      cases hlast
    · obtain rfl := Option.some.inj (hlast.symm.trans ht)
      exact hsignificant
  · intro index file d hd
    rw [herrors, List.map_nil, List.nil_append] at hd
    exact Diagnostic.tight_of_mem_check herrors hd

theorem Source.parse_ranges_tight_among_trivia :
    (parse "// a\nfinal b = Box ( 1 ) ; // end\n").errors = [] ∧
    ∃ n ∈ (parse "// a\nfinal b = Box ( 1 ) ; // end\n").root.descendants,
      n.kind = .callExpr ∧ Tight (Token.scan "// a\nfinal b = Box ( 1 ) ; // end\n") n.range := by
  have hclean : (parse "// a\nfinal b = Box ( 1 ) ; // end\n").errors = [] := by decide +kernel
  have hsome : (parse "// a\nfinal b = Box ( 1 ) ; // end\n").root.descendants.any
      (·.kind == .callExpr) := by decide +kernel
  obtain ⟨n, hn, hkind⟩ := List.any_eq_true.1 hsome
  have hcall : n.kind = .callExpr := beq_iff_eq.1 hkind
  have hne : n ≠ (parse "// a\nfinal b = Box ( 1 ) ; // end\n").root := by
    rintro rfl
    cases hcall
  obtain ⟨hnodes, _⟩ := (parse_ranges_tight _).2 hclean
  exact ⟨hclean, n, hn, hcall, (hnodes n hn hne).2.2⟩

end CrossReference
