import GoOutline.Proofs.Drafted
import GoOutline.Proofs.Swapping

/-!
Structures and interfaces that are yet to be written. With nothing between its braces a type is one
line below its docs, which is read as one declaration, and every member is one more line in it.
-/

namespace GoOutline

open Text Syntax Syntax.Lexer Syntax.Grammar Syntax.Parser

namespace Draft

open Splice

variable {l m : List Char} {ms : List (List Char)}

/-- Lines that are not blank, behind a tab and in front of a line feed each, the last of them without
blanks at its end. -/
def Neat (m : List Char) : Prop :=
  indentLines ['\t'] m = indented m ∧ ∃ x, indented m = x ++ ['\n'] ∧ trimEnd x = x ∧ x ≠ []

theorem neat_of_line (hl : '\n' ∉ l) (ht : trimEnd l = l) (hne : l ≠ []) : Neat l := by
  have hlines : lines l = [l] := by rw [lines_of_line hl, if_neg (by simpa using hne)]
  have htrim : trim l ≠ [] := fun h => hne (ht.symm.trans (trim_eq_nil.1 h))
  have htab : trimEnd ('\t' :: l) = '\t' :: l := by
    rw [← List.singleton_append, trimEnd_append_of_ne (by rwa [ht]), ht]
  refine ⟨?_, '\t' :: l, ?_, htab, List.cons_ne_nil _ _⟩
  · simp [indentLines, indented, hlines, htrim, hne]
  · simp [indented, hlines, hne]

theorem neat_append (hl : '\n' ∉ l) (ht : trimEnd l ≠ []) (hm : Neat m) : Neat (l ++ '\n' :: m) := by
  obtain ⟨hindent, x, hx, hxe, hxne⟩ := hm
  have htrim : trim (dropReturn l) ≠ [] := by
    rwa [ne_eq, trim_eq_nil, trimEnd_dropReturn]
  have hne : dropReturn l ≠ [] := by
    intro h
    rw [h] at htrim
    exact htrim rfl
  have hindents : indentLines ['\t'] (l ++ '\n' :: m) =
      '\t' :: dropReturn l ++ '\n' :: indentLines ['\t'] m := by
    simp [indentLines, lines_append hl, htrim]
  have hindented : indented (l ++ '\n' :: m) = '\t' :: dropReturn l ++ '\n' :: indented m := by
    simp [indented, lines_append hl, hne]
  refine ⟨by rw [hindents, hindented, hindent], '\t' :: dropReturn l ++ '\n' :: x, ?_, ?_, by simp⟩
  · rw [hindented, hx]
    simp
  · have hline : '\t' :: dropReturn l ++ '\n' :: x = ('\t' :: dropReturn l ++ ['\n']) ++ x := by simp
    rw [hline, trimEnd_append_of_ne (by rwa [hxe]), hxe]

/-- A member on one line, behind lines of docs. -/
theorem neat_docs {docs : List String} (hdocs : ∀ line ∈ docs, '\n' ∉ line.toList) (hl : '\n' ∉ l)
    (ht : trimEnd l = l) (hne : l ≠ []) : Neat (Docs.render docs ++ l) := by
  induction docs with
  | nil => exact neat_of_line hl ht hne
  | cons line docs ih =>
      obtain ⟨hline, hdocs⟩ := List.forall_mem_cons.1 hdocs
      have hrest := ih hdocs
      rw [Docs.render, List.flatMap_cons, ← Docs.render]
      by_cases hempty : line.toList.isEmpty
      · rw [if_pos hempty]
        exact neat_append (l := "//".toList) (by decide) (by decide) hrest
      · rw [if_neg hempty]
        have hslash : trimEnd ("// ".toList ++ line.toList) ≠ [] := by
          intro h
          exact absurd (trimEnd_eq_nil.1 h '/' (by simp)) (by decide)
        have hneat := neat_append (l := "// ".toList ++ line.toList) (by simpa using hline) hslash hrest
        simpa using hneat

/-- What stands between the braces of a type with members. -/
def body : List (List Char) → List Char
  | [] => []
  | ms => '\n' :: ms.flatMap indented

theorem body_of_ne_nil (h : ms ≠ []) : body ms = '\n' :: ms.flatMap indented := by
  cases ms with
  | nil => exact absurd rfl h
  | cons m ms => rfl

theorem renderType_nil (name keyword : String) : renderType name keyword [] =
    "type ".toList ++ name.toList ++ ' ' :: keyword.toList ++ ['{', '}'] := rfl

theorem renderType_of_ne_nil (h : ms ≠ []) (name keyword : String) : renderType name keyword ms =
    "type ".toList ++ name.toList ++ ' ' :: keyword.toList ++ (' ' :: '{' :: body ms ++ ['}']) := by
  rw [body_of_ne_nil h]
  cases ms with
  | nil => exact absurd rfl h
  | cons m ms => rfl

theorem exists_renderType (name keyword : String) (ms : List (List Char)) :
    ∃ x, renderType name keyword ms = x ++ ['}'] := by
  by_cases h : ms = []
  · refine ⟨"type ".toList ++ name.toList ++ ' ' :: keyword.toList ++ ['{'], ?_⟩
    rw [h, renderType_nil]
    simp
  · refine ⟨"type ".toList ++ name.toList ++ ' ' :: keyword.toList ++ ' ' :: '{' :: body ms, ?_⟩
    rw [renderType_of_ne_nil h]
    simp

/-- One member more. -/
theorem grown_body (hms : ∀ m ∈ ms, Neat m) (hm : Neat m) :
    grown ['\t'] m (body ms) = body (ms ++ [m]) := by
  have hnext : body (ms ++ [m]) = '\n' :: ms.flatMap indented ++ indented m := by
    simp [body_of_ne_nil]
  rw [grown, hm.1, hnext]
  rcases List.eq_nil_or_concat' ms with rfl | ⟨front, last, rfl⟩
  · rfl
  · obtain ⟨-, x, hx, hxe, hxne⟩ := hms last (by simp)
    have hbody : body (front ++ [last]) = '\n' :: front.flatMap indented ++ x ++ ['\n'] := by
      simp [body_of_ne_nil, hx]
    have htrim : trimEnd (body (front ++ [last])) = '\n' :: front.flatMap indented ++ x := by
      rw [hbody, trimEnd_append_blanks (by simp [isBlank_newline]),
        trimEnd_append_of_ne (by rwa [hxe]), hxe]
    rw [htrim]
    simp [hx]

/-- A structure or an interface. -/
inductive Composite where
  | struct (s : Structure)
  | interface (i : Interface)

namespace Composite

def name : Composite → String
  | .struct s => s.name
  | .interface i => i.name

def docs : Composite → List String
  | .struct s => s.docs
  | .interface i => i.docs

def keyword : Composite → String
  | .struct _ => "struct"
  | .interface _ => "interface"

def members : Composite → List (List Char)
  | .struct s => s.fields.map Field.render
  | .interface i => i.methods.map Method.render

def render : Composite → List Char
  | .struct s => s.render
  | .interface i => i.render

/-- Without its members. -/
def bare : Composite → Composite
  | .struct s => .struct { s with fields := [] }
  | .interface i => .interface { i with methods := [] }

def declare : Composite → Edit
  | .struct s => .appendStructure s
  | .interface i => .appendInterface i

/-- The members one by one. -/
def additions : Composite → List Edit
  | .struct s => s.fields.map (.appendField s.name)
  | .interface i => i.methods.map (.appendMethod i.name)

/-- The declaration below its docs, up to its keyword. -/
def head (c : Composite) : List Char :=
  "type ".toList ++ (c.name.toList ++ ' ' :: c.keyword.toList)

/-- Every member can be written on a line below its docs, where it is read. -/
def Readable (imports : List Import) : Composite → Prop
  | .struct s => ∀ f ∈ s.fields, (∃ T, f.ReadAs imports T) ∧ ∀ line ∈ f.docs, '\n' ∉ line.toList
  | .interface i => ∀ m ∈ i.methods, (∃ params results, m.ReadAs imports params results) ∧
      ∀ line ∈ m.docs, '\n' ∉ line.toList

/-- The name that the type goes by once it is declared. -/
def target : Composite → TargetKind × String
  | .struct s => (.struct, s.name)
  | .interface i => (.interface, i.name)

/-- Braces with nothing between them. -/
def emptyBody (s : Span) (braces : Delimiters) : Composite → TypeBody
  | .struct _ => .struct s ⟨braces, []⟩
  | .interface _ => .interface s ⟨braces, []⟩

/-- What is declared without members. -/
def declared (span inner : Span) (docs : List String) (annotations : List Annotation) :
    Composite → Outline.Declared
  | .struct s => .struct ⟨s.name, span, inner, docs, annotations, []⟩
  | .interface i => .interface ⟨i.name, span, inner, docs, annotations, [], []⟩

@[simp] theorem target_declared (c : Composite) (span inner : Span) (docs : List String)
    (annotations : List Annotation) : (c.declared span inner docs annotations).target = c.target := by
  cases c <;> rfl

theorem unplaced_declared (c : Composite) (span inner : Span) (docs : List String)
    (annotations : List Annotation) : (c.declared span inner docs annotations).unplaced =
      c.declared default default docs annotations := by
  cases c <;> rfl

theorem bare_of_members_eq_nil {c : Composite} (h : c.members = []) : c.bare = c ∧ c.additions = [] := by
  cases c with
  | struct s =>
      obtain ⟨name, fields, docs⟩ := s
      obtain rfl : fields = [] := List.map_eq_nil_iff.1 h
      exact ⟨rfl, rfl⟩
  | interface i =>
      obtain ⟨name, methods, docs⟩ := i
      obtain rfl : methods = [] := List.map_eq_nil_iff.1 h
      exact ⟨rfl, rfl⟩

theorem keyword_cases (c : Composite) : c.keyword = "struct" ∨ c.keyword = "interface" := by
  cases c
  · exact .inl rfl
  · exact .inr rfl

variable {c : Composite} {n : Nat} {t u k o z : Token} {rest : List Token} {gap : List Char} {st : State}

/-- Braces with nothing between them are the body of a type. -/
theorem run_typeBody_empty (hk : k.is c.keyword) (ho : o.is lbrace) (hz : z.is rbrace)
    (hoc : o.comments = []) (hzc : z.comments = []) :
    (typeBody (n + 3)).run (k :: o :: z :: rest) =
      some (c.emptyBody (extentOf [k, o, z]).span ⟨o.extent.span, z.extent.span⟩, rest) := by
  have hplain : k.isPlain := Token.isPlain_of_is hk fun b => by
    rcases c.keyword_cases with h | h <;> rw [h] <;> cases b <;> decide
  have hgroup {α : Type} (p : Parser α) :
      (group .curly (memberList rbrace p (n + 1))).run (o :: z :: rest) = some (⟨o, [], z⟩, rest) := by
    have hnil : (commentSiblings z : List (Sibling α)) = [] := by simp [commentSiblings, hzc]
    have hgathered : Gathered rbrace p (z :: rest) (commentSiblings z) (z :: rest) := .closed hz
    have hlist := hgathered.memberList (k := n + 1) (by simp)
    rw [hnil] at hlist
    exact group_eq_some.2 ⟨z :: rest, rfl, ho, hlist, hz⟩
  cases c with
  | struct s =>
      have hk : k.is "struct" := hk
      have hstruct : (structBody (n + 2)).run (k :: o :: z :: rest) =
          some (⟨⟨o.extent.span, z.extent.span⟩, []⟩, rest) :=
        bind_eq_some.2 ⟨⟨⟩, _, discard_eq_some.2 ⟨k, expect_eq_some.2 ⟨rfl, hk,
          hplain⟩⟩, bind_eq_some.2 ⟨_, _, hgroup _, rfl⟩⟩
      rw [typeBody, run_peek_cons, if_pos hk]
      exact bind_eq_some.2 ⟨_, _, placed_eq_some.2 ⟨[k, o, z], rfl, hstruct, rfl⟩, rfl⟩
  | interface i =>
      have hk : k.is "interface" := hk
      have hinterface : (interfaceBody (n + 2)).run (k :: o :: z :: rest) =
          some (⟨⟨o.extent.span, z.extent.span⟩, []⟩, rest) := by
        refine bind_eq_some.2 ⟨⟨⟩, _, discard_eq_some.2 ⟨k, expect_eq_some.2 ⟨rfl, hk,
          hplain⟩⟩, bind_eq_some.2 ⟨_, _, hgroup _, ?_⟩⟩
        simp [commentSiblings, hoc, Grouped.delimiters, pure_eq_some]
      rw [typeBody, run_peek_cons, if_neg (by simp [Token.is_eq_false_of_is hk]), if_pos hk]
      exact bind_eq_some.2 ⟨_, _, placed_eq_some.2 ⟨[k, o, z], rfl, hinterface, rfl⟩, rfl⟩

/-- The declaration of a type with nothing between its braces. -/
theorem run_itemKind_empty (ht : t.is "type") (hu : u.kind = .name) (hk : k.is c.keyword)
    (ho : o.is lbrace) (hz : z.is rbrace) (hoc : o.comments = []) (hzc : z.comments = []) :
    (itemKind (n + 7)).run (t :: u :: k :: o :: z :: rest) =
      some (.types (.lone (.definition ⟨extentOf [u, k, o, z], u.text,
        c.emptyBody (extentOf [k, o, z]).span ⟨o.extent.span, z.extent.span⟩⟩)), rest) := by
  have hsymbol (text : String) (hs : "struct" ≠ text) (hi : "interface" ≠ text) : k.is text = false := by
    refine Token.is_eq_false_of_is hk ?_
    rcases c.keyword_cases with h | h <;> rwa [h]
  have hequals := hsymbol "=" (by decide) (by decide)
  have hbracket := hsymbol "[" (by decide) (by decide)
  have hbody : (typeBody (n + 3)).run (k :: o :: z :: rest) = _ := run_typeBody_empty hk ho hz hoc hzc
  have hright := typeRight_cons.2 (.inr ⟨hequals, _, rfl, hbody⟩)
  have hbehind := run_typeBehind (n := n + 4) k (o :: z :: rest)
  rw [if_neg (by simp [hbracket]), hright] at hbehind
  have hentry := typeEntry_eq_some.2 ⟨u, _, [u, k, o, z], _, rfl, hu, hbehind, rfl, rfl⟩
  have hplain : t.isPlain := Token.isPlain_of_is ht fun b => by cases b <;> decide
  rw [itemKind_types, typeDecl]
  refine ⟨ht, bind_eq_some.2 ⟨⟨⟩, _, discard_eq_some.2 ⟨t, expect_eq_some.2 ⟨rfl, ht, hplain⟩⟩, ?_⟩⟩
  rw [run_peek_cons, if_neg (by simp [Token.is, hu])]
  exact bind_eq_some.2 ⟨_, _, hentry, rfl⟩

/-- The line of a type with nothing between its braces, and some blanks in front of them. -/
def line (c : Composite) (gap : List Char) : List Char := c.head ++ (gap ++ ['\x7b', '\x7d'])

theorem pieces_keyword (c : Composite) :
    pieces c.keyword.toList = [⟨.token .fixed, c.keyword.toList⟩] := by
  rcases c.keyword_cases with h | h <;> rw [h] <;> decide +kernel

theorem phrase_keyword (c : Composite) : Phrase c.keyword.toList :=
  .of_token c.pieces_keyword (by decide) (by rcases c.keyword_cases with h | h <;> rw [h] <;> decide)

theorem pieces_type : pieces "type".toList = [⟨.token .fixed, "type".toList⟩] := by decide +kernel

theorem phrase_braces : Phrase ['\x7b', '\x7d'] :=
  (Phrase.of_delimiter (by decide)).delimited (by decide)

theorem phrase_line (hname : IsName c.name.toList) (hgap : gap = [] ∨ gap = [' ']) :
    Phrase (c.line gap) := by
  have htail : Phrase (c.keyword.toList ++ (gap ++ ['\x7b', '\x7d'])) := by
    rcases hgap with rfl | rfl
    · exact c.phrase_keyword.append phrase_braces (edge_cons (by decide +kernel) _)
    · exact c.phrase_keyword.spaced phrase_braces
  have htype : Phrase "type".toList := .of_token pieces_type (by decide) (by decide)
  have hline := htype.spaced (hname.phrase.spaced htail)
  simpa [line, head] using hline

/-- The tokens of a type with nothing between its braces. -/
theorem emit_line (hname : IsName c.name.toList) (hgap : gap = [] ∨ gap = [' ']) (st : State) :
    ∃ n m, emit st (pieces (c.line gap)) =
      [⟨.fixed, "type", st.extent "type".toList, st.newline, st.comments⟩,
        tokenAt n st.row .name c.name.toList, tokenAt m st.row .fixed c.keyword.toList,
        tokenAt (st.offset + byteLength (c.head ++ gap)) st.row .fixed ['\x7b'],
        tokenAt (st.offset + byteLength (c.head ++ gap) + 1) st.row .fixed ['\x7d']] := by
  have htype : Phrase "type".toList := .of_token pieces_type (by decide) (by decide)
  have hkeyword (n : Nat) :
      wordsAt n st.row c.keyword.toList = [tokenAt n st.row .fixed c.keyword.toList] := by
    have hword := wordsAt_token (s := c.keyword.toList) (r := []) (by simpa [pieces] using c.pieces_keyword)
      c.phrase_keyword.line n st.row
    simpa [wordsAt, pieces, emit] using hword
  have hbraces (n : Nat) : wordsAt n st.row ['\x7b', '\x7d'] =
      [tokenAt n st.row .fixed ['\x7b'], tokenAt (n + 1) st.row .fixed ['\x7d']] := by
    rw [wordsAt_delimiter (by decide), wordsAt_delimiter (by decide)]
    simp [wordsAt, pieces, emit, byteLength, show '\x7b'.utf8Size = 1 by decide]
  have htail (n : Nat) : wordsAt n st.row (c.keyword.toList ++ (gap ++ ['\x7b', '\x7d'])) =
      tokenAt n st.row .fixed c.keyword.toList ::
        wordsAt (n + byteLength (c.keyword.toList ++ gap)) st.row ['\x7b', '\x7d'] := by
    rcases hgap with rfl | rfl
    · rw [List.nil_append, c.phrase_keyword.wordsAt_append (edge_cons (by decide +kernel) _), hkeyword]
      simp
    · have hspace : byteLength [' '] = 1 := by decide
      rw [List.singleton_append, c.phrase_keyword.wordsAt_spaced, hkeyword, byteLength_append, hspace]
      simp [Nat.add_assoc]
  have hline : c.line gap = "type".toList ++ ' ' :: (c.name.toList ++
      ' ' :: (c.keyword.toList ++ (gap ++ ['\x7b', '\x7d']))) := by simp [line, head]
  have hlength : byteLength (c.head ++ gap) = byteLength "type".toList + 1 + byteLength c.name.toList + 1 +
      byteLength (c.keyword.toList ++ gap) := by
    have htype : byteLength "type ".toList = byteLength "type".toList + 1 := by decide
    have hspace : ' '.utf8Size = 1 := by decide
    simp only [head, byteLength_append, byteLength, htype, hspace]
    omega
  refine ⟨st.offset + byteLength "type".toList + 1,
    st.offset + byteLength "type".toList + 1 + byteLength c.name.toList + 1, ?_⟩
  rw [hline, htype.emit_spaced, hname.phrase.wordsAt_spaced, hname.wordsAt_eq, htail, hbraces, hlength,
    pieces_type]
  simp only [emit, State.token?, Option.toList_some, List.singleton_append, List.append_nil,
    String.ofList_toList, ← Nat.add_assoc]

/-- A type with nothing between its braces is read as one declaration. -/
theorem exists_item (hname : IsName c.name.toList) (hgap : gap = [] ∨ gap = [' ']) (st : State) :
    ∃ t ts e s braces, emit st (pieces (c.line gap)) = t :: ts ∧ t.is "type" ∧
      t.newline = st.newline ∧ t.comments = st.comments ∧ (extentOf (t :: ts)).row = st.row ∧
      (let n := st.offset + byteLength (c.head ++ gap) + 1; Delimiters.inner braces = ⟨n, n⟩) ∧
      ∀ n z, (itemKind (n + 7)).run (t :: ts ++ [z]) =
        some (.types (.lone (.definition ⟨e, c.name, c.emptyBody s braces⟩)), [z]) := by
  obtain ⟨n, m, hemit⟩ := emit_line hname hgap st
  have hrow := congrArg Extent.row ((phrase_line hname hgap).extentOf_emit st)
  rw [hemit] at hrow
  have hnamed : (tokenAt n st.row .name c.name.toList).text = c.name := String.ofList_toList
  have hkeyword : (tokenAt m st.row .fixed c.keyword.toList).is c.keyword := by simp [Token.is, tokenAt]
  have hrun (k : Nat) (z : Token) : (itemKind (k + 7)).run (_ :: _ :: _ :: _ :: _ :: [z]) = _ :=
    run_itemKind_empty (c := c) (t := ⟨.fixed, "type", st.extent "type".toList, st.newline, st.comments⟩)
    (u := tokenAt n st.row .name c.name.toList) (k := tokenAt m st.row .fixed c.keyword.toList)
    (o := tokenAt (st.offset + byteLength (c.head ++ gap)) st.row .fixed ['\x7b'])
    (z := tokenAt (st.offset + byteLength (c.head ++ gap) + 1) st.row .fixed ['\x7d'])
    rfl rfl hkeyword rfl rfl rfl rfl
  rw [hnamed] at hrun
  exact ⟨_, _, _, _, _, hemit, rfl, rfl, rfl, hrow, rfl, hrun⟩

/-- What is declared between empty braces. -/
theorem describe_empty (c : Composite) (scope : Scope) (marker : String) (e : Extent)
    (s span : Span) (braces : Delimiters) (docs : List String) :
    let split := Annotation.split marker docs
    ∃ t, (TypeEntry.definition ⟨e, c.name, c.emptyBody s braces⟩).topics span docs = [t] ∧
      (Outline.Context.mk scope ⟨marker, false⟩).describe t =
        .ok (c.declared span braces.inner split.1 split.2) := by
  cases c with
  | struct d =>
      refine ⟨_, rfl, ?_⟩
      simp only [Outline.Context.describe, Outline.Context.structureOf, Annotation.partition_lenient]
      rfl
  | interface d =>
      refine ⟨_, rfl, ?_⟩
      simp only [Outline.Context.describe, Outline.Context.interfaceOf, Annotation.partition_lenient]
      rfl

theorem fragment_additions (c : Composite) : c.additions.map Edit.fragment = c.members := by
  cases c <;> simp [additions, members, Edit.fragment, Function.comp_def]

theorem render_eq (c : Composite) :
    c.render = Docs.render c.docs ++ renderType c.name c.keyword c.members := by
  cases c <;> rfl

/-- With its members between its braces. -/
theorem render_of_members (h : c.members ≠ []) :
    c.render = Docs.render c.docs ++ (c.head ++ (' ' :: '\x7b' :: body c.members ++ ['\x7d'])) := by
  rw [render_eq, renderType_of_ne_nil h]
  simp [head]

theorem render_bare (c : Composite) : c.bare.render = Docs.render c.docs ++ c.line [] := by
  cases c <;> simp [render, bare, Structure.render, Interface.render, renderType_nil, line, head, docs,
    name, keyword]

theorem trimEnd_render (c : Composite) : trimEnd c.render = c.render := by
  obtain ⟨x, hx⟩ := exists_renderType c.name c.keyword c.members
  rw [render_eq, hx, ← List.append_assoc, trimEnd_concat (by decide)]

/-- A type that is declared stands below an empty line behind all that stands in a text. -/
theorem apply_declare (c : Composite) (d : Document) (find : Finder) : d.apply find c.declare =
    d.commit find (trimEnd d.text ++ '\n' :: '\n' :: (c.render ++ ['\n'])) := by
  have hsplice : c.declare.splice? d.settings d.outline =
      .ok (some (appendDeclaration d.text c.render)) := by
    cases c <;> rfl
  obtain ⟨w, hw, -⟩ := exists_trimEnd_append d.text
  have hfront := takeBytes_byteLength (trimEnd d.text) w
  rw [← hw] at hfront
  have hback : dropBytes (byteLength d.text) d.text = [] := by
    have hall := dropBytes_byteLength d.text []
    rwa [List.append_nil] at hall
  have hnew : (appendDeclaration d.text c.render).apply d.text =
      trimEnd d.text ++ '\n' :: '\n' :: (c.render ++ ['\n']) := by
    rw [appendDeclaration, Splice.apply, hfront, hback, c.trimEnd_render]
    simp
  simp only [Document.apply, hsplice, hnew]

end Composite

end Draft

end GoOutline
