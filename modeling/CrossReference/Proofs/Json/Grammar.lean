import CrossReference.Json.Read
import CrossReference.Text.Range
import Mathlib.Data.String.Basic
import Mathlib.Data.List.DropRight

/-!
The grammar of JSON texts, apart from any reader, and that the reader accepts nothing else. The
members of an object are listed with the place where each key is written.
-/

namespace CrossReference.Json

open Decimal String

def Blank (cs : List Char) : Prop := ∀ c ∈ cs, isSpace c = true

inductive Body : List Char → Prop
  | nil : Body []
  | plain {c : Char} {cs : List Char} :
      c ≠ '"' → c ≠ '\\' → 0x20 ≤ c.toNat → Body cs → Body (c :: cs)
  | simple {c : Char} {cs : List Char} :
      (Text.simple? c).isSome = true → Body cs → Body ('\\' :: c :: cs)
  | unit {cs : List Char} :
      (Text.unit? cs).isSome = true → Body cs → Body ('\\' :: 'u' :: cs)

def Digits (ds : List Nat) (cs : List Char) : Prop :=
  cs ≠ [] ∧ (∀ c ∈ cs, isDigit c = true) ∧ ds = cs.map digitValue

inductive Fraction : List Nat → List Char → Prop
  | absent : Fraction [] []
  | point {ds : List Nat} {cs : List Char} : Digits ds cs → Fraction ds ('.' :: cs)

inductive Exponent : Int → List Char → Prop
  | absent : Exponent 0 []
  | plain {e : Char} {ds : List Nat} {cs : List Char} :
      e = 'e' ∨ e = 'E' → Digits ds cs → Exponent (ofDigits ds) (e :: cs)
  | plus {e : Char} {ds : List Nat} {cs : List Char} :
      e = 'e' ∨ e = 'E' → Digits ds cs → Exponent (ofDigits ds) (e :: '+' :: cs)
  | minus {e : Char} {ds : List Nat} {cs : List Char} :
      e = 'e' ∨ e = 'E' → Digits ds cs → Exponent (-(ofDigits ds : Int)) (e :: '-' :: cs)

inductive Numeral : JsonNumber → List Char → Prop
  | mk {n : JsonNumber} {sign whole fraction exponent : List Char} : sign = [] ∨ sign = ['-'] →
      Digits n.whole whole → (n.whole.head? = some 0 → n.whole = [0]) →
      Fraction n.fraction fraction → Exponent n.exponent exponent →
      Numeral n (sign ++ whole ++ fraction ++ exponent)

/-- A member of an object: the byte of the quote before its key, the key as it is written, and the
value. -/
structure Placed where
  start : Nat
  key : List Char
  value : Json

namespace Placed

def pair (e : Placed) : List Char × Json := (e.key, e.value)

def range (e : Placed) : CrossReference.Text.Range := ⟨e.start, e.start + utf8Len e.key + 2⟩

end Placed

mutual

inductive Spells : Json → List Char → Prop
  | null : Spells .null ['n', 'u', 'l', 'l']
  | true : Spells (.bool true) ['t', 'r', 'u', 'e']
  | false : Spells (.bool false) ['f', 'a', 'l', 's', 'e']
  | number {n : JsonNumber} {cs : List Char} : Numeral n cs → Spells (.number n) cs
  | string {written : List Char} :
      Body written → Spells (.string written) ('"' :: written ++ ['"'])
  | emptyArray {gap : List Char} : Blank gap → Spells (.array []) ('[' :: gap ++ [']'])
  | array {items : List Json} {cs : List Char} :
      Elements items cs → Spells (.array items) ('[' :: cs ++ [']'])
  | emptyObject {gap : List Char} :
      Blank gap → Spells (.object []) ('{' :: gap ++ ['}'])
  | object {start : Nat} {entries : List Placed} {cs : List Char} : Members start entries cs →
      Spells (.object (entries.map Placed.pair)) ('{' :: cs ++ ['}'])

inductive Element : Json → List Char → Prop
  | mk {before cs after : List Char} {j : Json} :
      Blank before → Spells j cs → Blank after → Element j (before ++ cs ++ after)

inductive Elements : List Json → List Char → Prop
  | one {j : Json} {cs : List Char} : Element j cs → Elements [j] cs
  | more {j : Json} {js : List Json} {cs rest : List Char} :
      Element j cs → Elements js rest → Elements (j :: js) (cs ++ ',' :: rest)

inductive Member : Nat → Placed → List Char → Prop
  | mk {start : Nat} {before key middle cs : List Char} {value : Json} :
      Blank before → Body key → Blank middle → Element value cs →
      Member start ⟨start + utf8Len before, key, value⟩
        (before ++ '"' :: key ++ '"' :: middle ++ ':' :: cs)

inductive Members : Nat → List Placed → List Char → Prop
  | one {start : Nat} {e : Placed} {cs : List Char} : Member start e cs → Members start [e] cs
  | more {start : Nat} {e : Placed} {entries : List Placed} {cs rest : List Char} :
      Member start e cs → Members (start + utf8Len cs + 1) entries rest →
      Members start (e :: entries) (cs ++ ',' :: rest)

end

/-- The text is an object with these members, at these places. -/
def Laid (text : String) (entries : List Placed) : Prop :=
  ∃ before cs after : List Char, Blank before ∧ Blank after ∧
    text.toList = before ++ '{' :: cs ++ '}' :: after ∧
    (entries = [] ∧ Blank cs ∨ Members (utf8Len before + 1) entries cs)

theorem blank_nil : Blank [] := by
  intro c hc
  cases hc

theorem skipSpace_cases (cs : List Char) :
    ∃ gap, Blank gap ∧ cs = gap ++ skipSpace cs :=
  ⟨cs.takeWhile isSpace, fun _ hc => List.mem_takeWhile_imp hc,
    List.takeWhile_append_dropWhile.symm⟩

theorem skipSpace_skipSpace (cs : List Char) : skipSpace (skipSpace cs) = skipSpace cs :=
  List.dropWhile_idempotent ..

theorem value?_skipSpace (fuel : Nat) (cs : List Char) :
    value? fuel (skipSpace cs) = value? fuel cs := by
  cases fuel with
  | zero => rw [value?, value?]
  | succ fuel => rw [value?, value?, skipSpace_skipSpace]

theorem items?_skipSpace (fuel : Nat) (cs : List Char) :
    items? fuel (skipSpace cs) = items? fuel cs := by
  cases fuel with
  | zero => rw [items?, items?]
  | succ fuel => rw [items?, items?, value?_skipSpace]

theorem members?_skipSpace (fuel : Nat) (cs : List Char) :
    members? fuel (skipSpace cs) = members? fuel cs := by
  cases fuel with
  | zero => rw [members?, members?]
  | succ fuel => rw [members?, members?, skipSpace_skipSpace]

theorem word?_some {ws cs rest : List Char} (h : word? ws cs = some rest) : cs = ws ++ rest := by
  induction ws generalizing cs with
  | nil => exact Option.some.inj h
  | cons w ws ih =>
    cases cs with
    | nil => cases h
    | cons c cs =>
      rw [word?] at h
      split at h
      · next hc => rw [ih h, hc, List.cons_append]
      · cases h

theorem digits_some {cs rest : List Char} {ds : List Nat} (h : digits cs = (ds, rest))
    (hne : ds ≠ []) : ∃ written, cs = written ++ rest ∧ Digits ds written := by
  obtain ⟨rfl, rfl⟩ := Prod.mk.inj h
  refine ⟨cs.takeWhile isDigit, List.takeWhile_append_dropWhile.symm, ?_,
    fun _ hc => List.mem_takeWhile_imp hc, rfl⟩
  intro hnil
  exact hne (by rw [hnil]; rfl)

theorem someDigits?_some {cs rest : List Char} {ds : List Nat}
    (h : someDigits? cs = some (ds, rest)) :
    ∃ written, cs = written ++ rest ∧ Digits ds written := by
  unfold someDigits? at h
  split at h
  · cases h
  · next hne =>
    refine digits_some (Option.some.inj h) ?_
    rintro rfl
    exact hne _ (Option.some.inj h)

theorem whole?_some {cs rest : List Char} {ds : List Nat} (h : whole? cs = some (ds, rest)) :
    ∃ written, cs = written ++ rest ∧ Digits ds written ∧ (ds.head? = some 0 → ds = [0]) := by
  unfold whole? at h
  split at h
  · cases h
  · cases h
  · next hne hzero =>
    have hdigits := Option.some.inj h
    obtain ⟨written, hcs, hwritten⟩ := digits_some hdigits (by rintro rfl; exact hne _ hdigits)
    refine ⟨written, hcs, hwritten, fun hhead => ?_⟩
    cases ds with
    | nil => cases hhead
    | cons d ds =>
      obtain rfl := Option.some.inj hhead
      cases ds with
      | nil => rfl
      | cons e ds => exact absurd hdigits (hzero _ _ _)

theorem fraction?_some {cs rest : List Char} {ds : List Nat}
    (h : fraction? cs = some (ds, rest)) :
    ∃ written, cs = written ++ rest ∧ Fraction ds written := by
  unfold fraction? at h
  split at h
  · obtain ⟨written, rfl, hwritten⟩ := someDigits?_some h
    exact ⟨'.' :: written, rfl, .point hwritten⟩
  · cases h
    exact ⟨[], rfl, .absent⟩

theorem exponent?_some {cs rest : List Char} {n : Int} (h : exponent? cs = some (n, rest)) :
    ∃ written, cs = written ++ rest ∧ Exponent n written := by
  unfold exponent? at h
  split at h
  · split at h
    · next c cs he =>
      split at h
      · obtain ⟨⟨ds, rest'⟩, hds, h⟩ := Option.map_eq_some_iff.1 h
        cases h
        obtain ⟨written, rfl, hwritten⟩ := someDigits?_some hds
        exact ⟨c :: '-' :: written, rfl, .minus he hwritten⟩
      · obtain ⟨⟨ds, rest'⟩, hds, h⟩ := Option.map_eq_some_iff.1 h
        cases h
        obtain ⟨written, rfl, hwritten⟩ := someDigits?_some hds
        exact ⟨c :: '+' :: written, rfl, .plus he hwritten⟩
      · obtain ⟨⟨ds, rest'⟩, hds, h⟩ := Option.map_eq_some_iff.1 h
        cases h
        obtain ⟨written, rfl, hwritten⟩ := someDigits?_some hds
        exact ⟨c :: written, rfl, .plain he hwritten⟩
    · cases h
      exact ⟨[], rfl, .absent⟩
  · cases h
    exact ⟨[], rfl, .absent⟩

theorem number?_some {cs rest : List Char} {n : JsonNumber} (h : number? cs = some (n, rest)) :
    ∃ written, cs = written ++ rest ∧ Numeral n written := by
  unfold number? at h
  obtain ⟨sign, unsigned, hsign, hcs, hread⟩ : ∃ sign unsigned, (sign = [] ∨ sign = ['-']) ∧
      cs = sign ++ unsigned ∧
      ((whole? unsigned).bind fun whole =>
        (fraction? whole.2).bind fun fraction =>
          (exponent? fraction.2).bind fun exponent =>
            some ((⟨whole.1, fraction.1, exponent.1⟩ : JsonNumber), exponent.2)) =
        some (n, rest) := by
    split at h
    · exact ⟨['-'], _, .inr rfl, rfl, h⟩
    · exact ⟨[], _, .inl rfl, rfl, h⟩
  obtain ⟨⟨whole, afterWhole⟩, hwhole, hread⟩ := Option.bind_eq_some_iff.1 hread
  obtain ⟨⟨fraction, afterFraction⟩, hfraction, hread⟩ := Option.bind_eq_some_iff.1 hread
  obtain ⟨⟨exponent, afterExponent⟩, hexponent, hread⟩ := Option.bind_eq_some_iff.1 hread
  cases hread
  obtain ⟨ws, rfl, hws, hzero⟩ := whole?_some hwhole
  obtain ⟨fs, rfl, hfs⟩ := fraction?_some hfraction
  obtain ⟨es, rfl, hes⟩ := exponent?_some hexponent
  exact ⟨sign ++ ws ++ fs ++ es, by simp [hcs], .mk hsign hws hzero hfs hes⟩

theorem unit?_some {cs : List Char} (h : (Text.unit? cs).isSome = true) :
    ∃ digits rest, cs = digits ++ rest ∧ '"' ∉ digits ∧
      ∀ after, (Text.unit? (digits ++ after)).isSome = true := by
  have hquote : Text.hexDigit? '"' = none := rfl
  unfold Text.unit? at h
  split at h
  · next a b c d rest =>
    refine ⟨[a, b, c, d], rest, rfl, ?_, fun _ => h⟩
    simp only [List.mem_cons, List.not_mem_nil, or_false, not_or]
    refine ⟨?_, ?_, ?_, ?_⟩ <;> rintro rfl <;> simp [hquote] at h
  · cases h

theorem unit?_written {written rest : List Char}
    (h : (Text.unit? (written ++ '"' :: rest)).isSome = true) :
    (Text.unit? written).isSome = true := by
  obtain ⟨digits, after, hsplit, hquote, hdigits⟩ := unit?_some h
  rcases List.append_eq_append_iff.1 hsplit with ⟨_ | ⟨c, more⟩, rfl, hmore⟩ | ⟨more, rfl, _⟩
  · simpa using hdigits []
  · obtain rfl : '"' = c := (List.cons.inj hmore).1
    exact absurd (List.mem_append_right _ List.mem_cons_self) hquote
  · exact hdigits more

theorem body?_some {cs written rest : List Char} (h : Text.body? cs = some (written, rest)) :
    cs = written ++ '"' :: rest ∧ Body written := by
  fun_induction Text.body? cs generalizing written rest with
  | case1 => cases h
  | case2 cs =>
    cases h
    exact ⟨rfl, .nil⟩
  | case3 cs hunit ih =>
    obtain ⟨⟨inner, after⟩, hinner, h⟩ := Option.map_eq_some_iff.1 h
    cases h
    obtain ⟨rfl, hbody⟩ := ih hinner
    exact ⟨rfl, .unit (unit?_written hunit) hbody⟩
  | case4 => cases h
  | case5 c cs hu hsimple ih =>
    obtain ⟨⟨inner, after⟩, hinner, h⟩ := Option.map_eq_some_iff.1 h
    cases h
    obtain ⟨rfl, hbody⟩ := ih hinner
    exact ⟨rfl, .simple hsimple hbody⟩
  | case6 => cases h
  | case7 => cases h
  | case8 c cs hquote hu hs hplain ih =>
    obtain ⟨⟨inner, after⟩, hinner, h⟩ := Option.map_eq_some_iff.1 h
    cases h
    obtain ⟨rfl, hbody⟩ := ih hinner
    obtain ⟨hslash, hcontrol⟩ := not_or.1 hplain
    exact ⟨rfl, .plain hquote hslash (Nat.le_of_not_lt hcontrol) hbody⟩

def ValueSound (fuel : Nat) : Prop :=
  ∀ cs j rest, value? fuel cs = some (j, rest) →
    ∃ gap written, cs = gap ++ written ++ rest ∧ Blank gap ∧ Spells j written

def ItemsSound (fuel : Nat) : Prop :=
  ∀ cs items rest, items? fuel cs = some (items, rest) →
    ∃ written, cs = written ++ ']' :: rest ∧ Elements items written

def MembersSound (fuel : Nat) : Prop :=
  ∀ start cs members rest, members? fuel cs = some (members, rest) →
    ∃ entries written, cs = written ++ '}' :: rest ∧ members = entries.map Placed.pair ∧
      Members start entries written

theorem ValueSound.element {fuel : Nat} (hvalue : ValueSound fuel) {cs after rest : List Char}
    {c : Char} {j : Json} (h : value? fuel cs = some (j, after))
    (hafter : skipSpace after = c :: rest) :
    ∃ written, cs = written ++ c :: rest ∧ Element j written := by
  obtain ⟨before, written, rfl, hbefore, hspells⟩ := hvalue _ _ _ h
  obtain ⟨gap, hgap, hsplit⟩ := skipSpace_cases after
  exact ⟨before ++ written ++ gap, by rw [hsplit, hafter]; simp, .mk hbefore hspells hgap⟩

theorem itemsSound_succ {fuel : Nat} (hvalue : ValueSound fuel) (hitems : ItemsSound fuel) :
    ItemsSound (fuel + 1) := by
  intro cs items rest h
  rw [items?] at h
  obtain ⟨⟨item, after⟩, hitem, h⟩ := Option.bind_eq_some_iff.1 h
  dsimp only at h
  split at h
  · next next hnext =>
    obtain ⟨⟨more, left⟩, hmore, h⟩ := Option.bind_eq_some_iff.1 h
    cases h
    obtain ⟨first, rfl, hfirst⟩ := hvalue.element hitem hnext
    obtain ⟨others, rfl, hothers⟩ := hitems _ _ _ hmore
    exact ⟨first ++ ',' :: others, by simp, .more hfirst hothers⟩
  · next next hnext =>
    cases h
    obtain ⟨first, rfl, hfirst⟩ := hvalue.element hitem hnext
    exact ⟨first, rfl, .one hfirst⟩
  · cases h

theorem membersSound_succ {fuel : Nat} (hvalue : ValueSound fuel) (hmembers : MembersSound fuel) :
    MembersSound (fuel + 1) := by
  intro start cs members rest h
  rw [members?] at h
  obtain ⟨before, hbefore, hcs⟩ := skipSpace_cases cs
  split at h
  · next inner hinner =>
    obtain ⟨⟨key, afterKey⟩, hkey, h⟩ := Option.bind_eq_some_iff.1 h
    obtain ⟨hbody, hwritten⟩ := body?_some hkey
    obtain ⟨middle, hmiddle, hafterKey⟩ := skipSpace_cases afterKey
    dsimp only at h
    split at h
    · next colon hcolon =>
      obtain ⟨⟨value, afterValue⟩, hread, h⟩ := Option.bind_eq_some_iff.1 h
      dsimp only at h
      split at h
      · next next hnext =>
        obtain ⟨⟨more, left⟩, hmore, h⟩ := Option.bind_eq_some_iff.1 h
        cases h
        obtain ⟨element, hsplit, helement⟩ := hvalue.element hread hnext
        have hmember : Member start _ _ := .mk hbefore hwritten hmiddle helement
        obtain ⟨entries, others, rfl, rfl, hothers⟩ := hmembers _ _ _ _ hmore
        refine ⟨_, _, ?_, rfl, .more hmember hothers⟩
        rw [hcs, hinner, hbody, hafterKey, hcolon, hsplit]
        simp
      · next next hnext =>
        cases h
        obtain ⟨element, hsplit, helement⟩ := hvalue.element hread hnext
        have hmember : Member start _ _ := .mk hbefore hwritten hmiddle helement
        refine ⟨_, _, ?_, rfl, .one hmember⟩
        rw [hcs, hinner, hbody, hafterKey, hcolon, hsplit]
        simp
      · cases h
    · cases h
  · cases h

theorem valueSound_succ {fuel : Nat} (hitems : ItemsSound fuel) (hmembers : MembersSound fuel) :
    ValueSound (fuel + 1) := by
  intro cs j rest h
  rw [value?] at h
  obtain ⟨before, hbefore, hcs⟩ := skipSpace_cases cs
  split at h
  · cases h
  · next inner hinner =>
    obtain ⟨gap, hgap, hsplit⟩ := skipSpace_cases inner
    split at h
    · next after hafter =>
      cases h
      refine ⟨before, _, ?_, hbefore, .emptyObject hgap⟩
      rw [hcs, hinner, hsplit, hafter]
      simp
    · obtain ⟨⟨members, after⟩, hread, h⟩ := Option.map_eq_some_iff.1 h
      cases h
      rw [members?_skipSpace] at hread
      obtain ⟨entries, written, rfl, rfl, hwritten⟩ := hmembers 0 _ _ _ hread
      refine ⟨before, _, ?_, hbefore, .object hwritten⟩
      rw [hcs, hinner]
      simp
  · next inner hinner =>
    obtain ⟨gap, hgap, hsplit⟩ := skipSpace_cases inner
    split at h
    · next after hafter =>
      cases h
      refine ⟨before, _, ?_, hbefore, .emptyArray hgap⟩
      rw [hcs, hinner, hsplit, hafter]
      simp
    · obtain ⟨⟨items, after⟩, hread, h⟩ := Option.map_eq_some_iff.1 h
      cases h
      rw [items?_skipSpace] at hread
      obtain ⟨written, rfl, hwritten⟩ := hitems _ _ _ hread
      refine ⟨before, _, ?_, hbefore, .array hwritten⟩
      rw [hcs, hinner]
      simp
  · next inner hinner =>
    obtain ⟨⟨written, after⟩, hread, h⟩ := Option.map_eq_some_iff.1 h
    cases h
    obtain ⟨hbody, hwritten⟩ := body?_some hread
    refine ⟨before, _, ?_, hbefore, .string hwritten⟩
    rw [hcs, hinner, hbody]
    simp
  · next inner hinner =>
    obtain ⟨after, hread, h⟩ := Option.map_eq_some_iff.1 h
    cases h
    refine ⟨before, _, ?_, hbefore, .true⟩
    rw [hcs, hinner, word?_some hread]
    simp
  · next inner hinner =>
    obtain ⟨after, hread, h⟩ := Option.map_eq_some_iff.1 h
    cases h
    refine ⟨before, _, ?_, hbefore, .false⟩
    rw [hcs, hinner, word?_some hread]
    simp
  · next inner hinner =>
    obtain ⟨after, hread, h⟩ := Option.map_eq_some_iff.1 h
    cases h
    refine ⟨before, _, ?_, hbefore, .null⟩
    rw [hcs, hinner, word?_some hread]
    simp
  · obtain ⟨⟨n, after⟩, hread, h⟩ := Option.map_eq_some_iff.1 h
    cases h
    obtain ⟨written, hwritten, hnumeral⟩ := number?_some hread
    refine ⟨before, written, ?_, hbefore, .number hnumeral⟩
    rw [List.append_assoc, ← hwritten]
    exact hcs

theorem reader_sound (fuel : Nat) : ValueSound fuel ∧ ItemsSound fuel ∧ MembersSound fuel := by
  -- The three readers call each other with one unit less.
  induction fuel with
  | zero =>
    refine ⟨?_, ?_, ?_⟩
    · intro cs j rest h
      rw [value?] at h
      cases h
    · intro cs items rest h
      rw [items?] at h
      cases h
    · intro start cs members rest h
      rw [members?] at h
      cases h
  | succ fuel ih =>
    obtain ⟨hvalue, hitems, hmembers⟩ := ih
    exact ⟨valueSound_succ hitems hmembers, itemsSound_succ hvalue hitems,
      membersSound_succ hvalue hmembers⟩

theorem Members.at {start : Nat} {entries : List Placed} {cs : List Char} :
    Members start entries cs → ∀ other, ∃ moved, moved.map Placed.pair = entries.map Placed.pair ∧
      Members other moved cs
  | .one (.mk hbefore hkey hmiddle hvalue), other =>
    ⟨[⟨other + _, _, _⟩], rfl, .one (.mk hbefore hkey hmiddle hvalue)⟩
  | .more (.mk hbefore hkey hmiddle hvalue) hrest, other => by
    obtain ⟨moved, hmoved, hmembers⟩ := hrest.at _
    refine ⟨⟨other + _, _, _⟩ :: moved, ?_, .more (.mk hbefore hkey hmiddle hvalue) hmembers⟩
    rw [List.map_cons, List.map_cons, hmoved]
    rfl

theorem Spells.members {members : List (List Char × Json)} {cs : List Char}
    (h : Spells (.object members) cs) (start : Nat) :
    ∃ entries inner, cs = '{' :: inner ++ ['}'] ∧ members = entries.map Placed.pair ∧
      (entries = [] ∧ Blank inner ∨ Members start entries inner) := by
  cases h with
  | emptyObject hgap => exact ⟨[], _, rfl, rfl, .inl ⟨rfl, hgap⟩⟩
  | object hmembers =>
    obtain ⟨moved, hmoved, hmembers⟩ := hmembers.at start
    exact ⟨moved, _, rfl, hmoved.symm, .inr hmembers⟩

theorem exists_laid_of_read? {text : String} {members : List (List Char × Json)}
    (h : read? text = some (.object members)) :
    ∃ entries, Laid text entries ∧ members = entries.map Placed.pair := by
  unfold read? at h
  obtain ⟨⟨value, rest⟩, hvalue, h⟩ := Option.bind_eq_some_iff.1 h
  obtain ⟨hend, h⟩ := Option.ite_none_right_eq_some.1 h
  cases h
  obtain ⟨before, written, htext, hbefore, hspells⟩ := (reader_sound _).1 _ _ _ hvalue
  obtain ⟨entries, cs, rfl, rfl, hmembers⟩ := hspells.members (utf8Len before + 1)
  obtain ⟨after, hafter, hrest⟩ := skipSpace_cases rest
  rw [List.isEmpty_iff.1 hend, List.append_nil] at hrest
  refine ⟨entries, ⟨before, cs, after, hbefore, hafter, ?_, hmembers⟩, rfl⟩
  rw [htext, hrest]
  simp

end CrossReference.Json
