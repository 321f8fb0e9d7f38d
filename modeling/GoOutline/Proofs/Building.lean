import GoOutline.Proofs.Declaring
import GoOutline.Proofs.Settled

/-!
Types that are built up. A type that is declared without members and then given them one by one comes
to the same outline, but for places, as one that is declared with all of them.
-/

namespace GoOutline

open Text Syntax Syntax.Lexer

namespace Outline.Declared

/-- A structure with a field more. -/
def withField (g : Field) : Declared → Declared
  | .struct s => .struct { s with fields := s.fields ++ [g] }
  | x => x

/-- An interface with a method more. -/
def withMethod (n : Method) : Declared → Declared
  | .interface i => .interface { i with methods := i.methods ++ [n] }
  | x => x

end Outline.Declared

namespace Document

open Draft Outline

variable {find : Finder} {d d' : Document} {e : Edit} {es : List Edit} {p p' : List Char}
  {ms : List (List Char)} {x x' : Declared} {marker owner : String} {imports : List Import}
  {target : TargetKind × String} {c : Composite} {layout : Layout} {settings : Settings} {text : List Char}

/-- A whole document at whose end a type is being written, with some members between its braces. -/
structure Writes (d : Document) (p : List Char) (ms : List (List Char)) (x : Declared) : Prop where
  whole : ∃ layout, d.Whole layout
  text : d.text = p ++ body ms ++ ['\x7d', '\n']
  owner : ∃ hole ds es, hole.Tidy ∧
    Locates ⟨d.settings.dialect.marker, false⟩ d.text d.outline hole ds x es
  inner : x.inner? = some ⟨byteLength p, byteLength (p ++ body ms)⟩

/-- A member that is written into a type, which then has it wherever the type stands. -/
def Adds (marker : String) (imports : List Import) (target : TargetKind × String) (e : Edit) : Prop :=
  Neat e.fragment ∧ ∃ add : Declared → Declared, ∀ {d : Document} {p ms x}, d.Writes p ms x →
    d.settings.dialect.marker = marker → d.outline.imports = imports → d.settings.indent = "\t" →
    x.target = target → (∀ m ∈ ms, Neat m) →
    ∃ q y s, (∀ find, d.apply find e = (.ok (), { d with outline := q })) ∧
      ({ d with outline := q } : Document).Writes p (ms ++ [e.fragment]) y ∧
      d.outline.Turns target y s d.text q.text q ∧ y.target = target ∧ y.unplaced = add x.unplaced

/-- The next member goes between the braces, behind the others. -/
theorem Writes.next (h : d.Writes p ms x) (hindent : d.settings.indent = "\t") (hms : ∀ m ∈ ms, Neat m)
    (he : Neat e.fragment) {s : Span} {q : Outline} {stop : Nat} {layout : Layout} {hole : Hole}
    {ds es : List Declared} (hs : x.inner? = some s) (ht : q.text = (d.bodySplice s e).apply d.text)
    (hwhole : ({ d with outline := q } : Document).Whole layout)
    (ha : Locates ⟨d.settings.dialect.marker, false⟩ q.text q hole ds x' es) (htidy : hole.Tidy)
    (hx : x'.inner? = some ⟨s.start, stop⟩)
    (hstop : stop + byteLength d.text = s.stop + byteLength q.text) :
    ({ d with outline := q } : Document).Writes p (ms ++ [e.fragment]) x' := by
  have htab : d.settings.indent.toList = ['\t'] := by rw [hindent]; rfl
  obtain rfl : s = ⟨byteLength p, byteLength (p ++ body ms)⟩ := Option.some.inj (hs.symm.trans h.inner)
  rw [bodySplice, h.text, htab, Splice.apply_appendToInner, grown_body hms he] at ht
  refine ⟨⟨layout, hwhole⟩, ht, ⟨hole, ds, es, htidy, ha⟩, ?_⟩
  rw [hx, Option.some_inj]
  simp only [ht, h.text, byteLength_append _ ['\x7d', '\n']] at hstop
  congr 1
  omega

theorem adds_field {f : Draft.Field} {T : GoType} (hf : f.ReadAs imports T)
    (hdocs : ∀ line ∈ f.docs, '\n' ∉ line.toList) (marker owner : String) :
    Adds marker imports (.struct, owner) (.appendField owner f) := by
  have hneat : Neat (Edit.appendField owner f).fragment := by
    rw [Edit.fragment, f.render_eq]
    exact neat_docs hdocs hf.phrase.line hf.phrase.trimEnd_eq hf.phrase.ne_nil
  obtain ⟨g₀, hadd⟩ := exists_append_field hf hdocs marker
  refine ⟨hneat, Declared.withField g₀, fun {d p ms x} hw hmarker himports hindent hx hms => ?_⟩
  obtain ⟨s, rfl, rfl⟩ : ∃ s, x = .struct s ∧ s.name = owner := by
    cases x with
    | struct s => exact ⟨s, rfl, congrArg Prod.snd hx⟩
    | interface i => cases congrArg Prod.fst hx
    | function f => cases congrArg Prod.fst hx
  subst hmarker
  obtain ⟨layout, hd⟩ := hw.whole
  obtain ⟨hole, ds, es, htidy, ha⟩ := hw.owner
  obtain ⟨layout', q, hole', es', span, stop, g, happly, htext, hd', ha', hturns, hstop, -, hsame⟩ :=
    hadd hd rfl himports ha
  obtain ⟨hg, htidy'⟩ := hsame (by rw [hindent]; decide) htidy
  refine ⟨q, _, _, happly, hw.next hindent hms hneat rfl htext hd' ha' htidy' rfl hstop, hturns, rfl, ?_⟩
  simp [Declared.unplaced, Declared.withField, Structure.unplaced, hg]

theorem adds_method {m : Draft.Method} {params results : List Parameter}
    (hm : m.ReadAs imports params results) (hdocs : ∀ line ∈ m.docs, '\n' ∉ line.toList)
    (marker owner : String) : Adds marker imports (.interface, owner) (.appendMethod owner m) := by
  have hneat : Neat (Edit.appendMethod owner m).fragment := by
    rw [Edit.fragment, m.render_eq]
    exact neat_docs hdocs hm.phrase.line hm.phrase.trimEnd_eq hm.phrase.ne_nil
  obtain ⟨n₀, hadd⟩ := exists_append_method hm hdocs marker
  refine ⟨hneat, Declared.withMethod n₀, fun {d p ms x} hw hmarker himports hindent hx hms => ?_⟩
  obtain ⟨i, rfl, rfl⟩ : ∃ i, x = .interface i ∧ i.name = owner := by
    cases x with
    | struct s => cases congrArg Prod.fst hx
    | interface i => exact ⟨i, rfl, congrArg Prod.snd hx⟩
    | function f => cases congrArg Prod.fst hx
  subst hmarker
  obtain ⟨layout, hd⟩ := hw.whole
  obtain ⟨hole, ds, es, htidy, ha⟩ := hw.owner
  obtain ⟨layout', q, hole', es', span, stop, n, happly, htext, hd', ha', hturns, hstop, -, hsame⟩ :=
    hadd hd rfl himports ha
  obtain ⟨hn, htidy'⟩ := hsame (by rw [hindent]; decide) htidy
  refine ⟨q, _, _, happly, hw.next hindent hms hneat rfl htext hd' ha' htidy' rfl hstop, hturns, rfl, ?_⟩
  simp [Declared.unplaced, Declared.withMethod, Interface.unplaced, hn]

/-- Requests that go well one after the other. -/
def Carries (d : Document) (requests : List Request) : Prop :=
  ∀ front r back, requests = front ++ r :: back → ((d.run front).apply r.find r.edit).1 = .ok ()

theorem carries_cons {r : Request} {requests : List Request} (h : (d.apply r.find r.edit).1 = .ok ())
    (hrest : (d.apply r.find r.edit).2.Carries requests) : d.Carries (r :: requests) := by
  intro front s back hs
  rcases front with _ | ⟨t, front⟩
  · obtain ⟨rfl, -⟩ := List.cons.inj hs
    exact h
  · obtain ⟨rfl, hrequests⟩ := List.cons.inj hs
    exact hrest front s back hrequests

theorem run_cons_of_apply {r : Request} {q : Outline} (requests : List Request)
    (h : d.apply r.find r.edit = (.ok (), { d with outline := q })) :
    d.run (r :: requests) = ({ d with outline := q } : Document).run requests := by
  rw [run, List.foldl_cons, h]
  rfl

/-- Two documents at whose ends the same type is written go on alike. -/
theorem Writes.run_congr (h : d.Writes p ms x) (h' : d'.Writes p' ms x') (hs : d'.settings = d.settings)
    (hindent : d.settings.indent = "\t") (hms : ∀ m ∈ ms, Neat m) (hx : x.target = target)
    (hx' : x'.target = target) (ho : d.outline.unplaced = d'.outline.unplaced)
    (hd : x.unplaced = x'.unplaced)
    (hes : ∀ e ∈ es, Adds d.settings.dialect.marker d.outline.imports target e)
    {steps steps' : List Request} (he : steps.map (·.edit) = es) (he' : steps'.map (·.edit) = es) :
    d.Carries steps ∧ d'.Carries steps' ∧ ∃ q q' y y',
      d.run steps = { d with outline := q } ∧ d'.run steps' = { d' with outline := q' } ∧
      (d.run steps).Writes p (ms ++ es.map Edit.fragment) y ∧
      (d'.run steps').Writes p' (ms ++ es.map Edit.fragment) y' ∧ q.unplaced = q'.unplaced := by
  induction es generalizing d d' ms x x' steps steps' with
  | nil =>
      obtain rfl := List.map_eq_nil_iff.1 he
      obtain rfl := List.map_eq_nil_iff.1 he'
      refine ⟨fun front r back hr => by simp at hr, fun front r back hr => by simp at hr, _, _, x, x',
        rfl, rfl, ?_, ?_, ho⟩
      · rwa [List.map_nil, List.append_nil]
      · rwa [List.map_nil, List.append_nil]
  | cons e es ih =>
      obtain ⟨r, steps, rfl, rfl, hsteps⟩ := List.map_eq_cons_iff.1 he
      obtain ⟨r', steps', rfl, hr', hsteps'⟩ := List.map_eq_cons_iff.1 he'
      obtain ⟨⟨hneat, add, hadd⟩, hes⟩ := List.forall_mem_cons.1 hes
      have himports : d'.outline.imports = d.outline.imports := (congrArg Outline.imports ho).symm
      obtain ⟨q, y, s, happly, hw, hturns, hy, hsame⟩ := hadd h rfl rfl hindent hx hms
      obtain ⟨q', y', s', happly', hw', hturns', hy', hsame'⟩ :=
        hadd h' (by rw [hs]) himports (by rw [hs, hindent]) hx' hms
      obtain ⟨⟨b, hmoves, -⟩, hspared⟩ := hturns
      obtain ⟨⟨b', hmoves', -⟩, hspared'⟩ := hturns'
      have hd' : y.unplaced = y'.unplaced := by rw [hsame, hsame', hd]
      have ho' := hmoves.unplaced_congr hmoves' hspared hspared' ho hd'
      have hms' : ∀ m ∈ ms ++ [r.edit.fragment], Neat m := by
        simpa [or_imp, forall_and] using ⟨hms, hneat⟩
      have hes' : ∀ e ∈ es, Adds d.settings.dialect.marker q.imports target e := by
        rwa [hspared.imports]
      obtain ⟨hc, hc', p₁, p₂, y₁, y₂, hrun, hrun', hw₁, hw₂, hp⟩ :=
        ih hw hw' hs hindent hms' hy hy' ho' hd' hes' hsteps hsteps'
      have hfirst := happly r.find
      have hfirst' := happly' r'.find
      rw [← hr'] at hfirst'
      rw [List.append_assoc] at hw₁ hw₂
      have hok : (d.apply r.find r.edit).1 = .ok () := by rw [hfirst]
      have hok' : (d'.apply r'.find r'.edit).1 = .ok () := by rw [hfirst']
      refine ⟨carries_cons hok (by rwa [hfirst]), carries_cons hok' (by rwa [hfirst']), p₁, p₂, y₁, y₂,
        ?_, ?_, ?_, ?_, hp⟩
      · rw [run_cons_of_apply steps hfirst, hrun]
      · rw [run_cons_of_apply steps' hfirst', hrun']
      · rwa [run_cons_of_apply steps hfirst]
      · rwa [run_cons_of_apply steps' hfirst']

theorem adds_of_readable (h : c.Readable imports) (marker : String) :
    ∀ e ∈ c.additions, Adds marker imports c.target e := by
  intro e he
  cases c with
  | struct s =>
      obtain ⟨f, hf, rfl⟩ := List.mem_map.1 he
      obtain ⟨⟨T, hread⟩, hdocs⟩ := h f hf
      exact adds_field hread hdocs marker s.name
  | interface i =>
      obtain ⟨m, hm, rfl⟩ := List.mem_map.1 he
      obtain ⟨⟨params, results, hread⟩, hdocs⟩ := h m hm
      exact adds_method hread hdocs marker i.name

/-- An empty type can be written, with a blank in front of its braces or without one, which makes no
difference but in places. -/
theorem Whole.exists_writes (h : d.Whole layout) (hname : IsName c.name.toList)
    (hdocs : ∀ line ∈ c.docs, '\n' ∉ line.toList) (hfree : d.outline.declared? c.target = none) :
    ∃ q v x y, (∀ find, d.apply find c.bare.declare = (.ok (), { d with outline := q })) ∧
      ({ d with outline := q } : Document).Writes (c.opened d.text []) [] x ∧
      ({ d with outline := v } : Document).Writes (c.opened d.text [' ']) [] y ∧
      x.target = c.target ∧ y.target = c.target ∧ q.unplaced = v.unplaced ∧ x.unplaced = y.unplaced ∧
      q.imports = d.outline.imports := by
  obtain ⟨ds, htab, hall⟩ := h.shows.exists_declared h.closed hname hdocs hfree
  set split := Annotation.split d.settings.dialect.marker (c.docs.map Docs.said)
  have hgap (gap : List Char) (hgap : gap = [] ∨ gap = [' ']) : ∃ q span,
      let x := c.declared span ⟨byteLength (c.opened d.text gap), byteLength (c.opened d.text gap)⟩
        split.1 split.2
      (∀ find, d.commit find (c.opened d.text gap ++ ['\x7d', '\n']) = (.ok (), { d with outline := q })) ∧
        ({ d with outline := q } : Document).Writes (c.opened d.text gap) [] x ∧
        d.outline.SameHead q ∧ q.Tabulates (ds ++ [x]) := by
    obtain ⟨layout', q, hole, span, hs, himports, hclosed, hhead, htidy, ha⟩ := hall gap hgap
    obtain ⟨hcommit, htext, hwhole⟩ := h.commit hs himports hclosed
    refine ⟨q, span, hcommit, ⟨⟨layout', hwhole⟩, ?_, ⟨hole, ds, [], htidy, ?_⟩, ?_⟩, hhead, ha.tabulates⟩
    · rw [body, List.append_nil]
      exact htext
    · rw [Document.text, htext]
      exact ha
    · rw [body, List.append_nil]
      cases c <;> rfl
  obtain ⟨q, span, hcommit, hw, hhead, hq⟩ := hgap [] (.inl rfl)
  obtain ⟨v, span', -, hw', hhead', hv⟩ := hgap [' '] (.inr rfl)
  refine ⟨q, v, _, _, fun find => ?_, hw, hw', c.target_declared _ _ _ _, c.target_declared _ _ _ _,
    hhead.unplaced_congr hhead' hq hv ?_, ?_, hhead.imports⟩
  · rw [c.bare.apply_declare, ← c.opened_bare, hcommit]
  · simp [Composite.unplaced_declared]
  · rw [c.unplaced_declared, c.unplaced_declared]

/-- A whole document comes back from its text. -/
theorem Whole.commit_text {v : Outline} (h : ({ d with outline := v } : Document).Whole layout)
    (find : Finder) : d.commit find v.text = (.ok (), { d with outline := v }) := by
  have hlaid : layoutOf v.text = .ok layout := h.shows.laid
  have hasked : d.memo.askAll find (importPaths layout) = d.memo := h.asked find
  have hdialect : d.settings.dialect = ⟨d.settings.dialect.marker, false⟩ := h.dialect
  have hread : ofLayout d.settings.dialect d.memo.find v.text layout = .ok v := by
    rw [hdialect]
    exact h.shows.read
  simp only [Document.commit, Document.read, hlaid, hasked, hread]

/-- In any document that can be come to, with lenient annotations, tabs to indent with and no comment
left open, a structure or an interface under a name of its own can be declared with its members, and it
can be declared without them and then given them one by one. The outlines that come of it differ in
nothing but places. -/
theorem declare_one_by_one (h : ofText settings find text = .ok d) (requests : List Request)
    (hlenient : d.settings.dialect.strict = false) (hindent : d.settings.indent = "\t")
    (hclosed : Closes (pieces (d.run requests).text) []) (hname : IsName c.name.toList)
    (hdocs : ∀ line ∈ c.docs, '\n' ∉ line.toList) (hmembers : c.Readable (d.run requests).outline.imports)
    (hfree : (d.run requests).outline.declared? c.target = none) :
    let e := d.run requests
    ∀ find' (steps : List Request), steps.map (·.edit) = c.bare.declare :: c.additions →
      ∃ p q, e.apply find' c.declare = (.ok (), { e with outline := p }) ∧ e.Carries steps ∧
        e.run steps = { e with outline := q } ∧ p.unplaced = q.unplaced := by
  intro e find' steps hsteps
  have hspace : ∀ c ∈ d.settings.indent.toList, isSpace c := by
    rw [hindent]
    exact List.all_eq_true.1 (by decide)
  obtain ⟨layout, hd⟩ := exists_whole h requests hlenient hspace hclosed
  obtain ⟨r, steps, rfl, hr, hsteps⟩ := List.map_eq_cons_iff.1 hsteps
  obtain ⟨q, v, x, y, hbare, hw, hw', hx, hy, hsame, hxy, himports⟩ := hd.exists_writes hname hdocs hfree
  have hfirst := hbare r.find
  rw [← hr] at hfirst
  have hok : (e.apply r.find r.edit).1 = .ok () := by rw [hfirst]
  have htab : e.settings.indent = "\t" := by rwa [settings_run]
  have hadds : ∀ a ∈ c.additions, Adds e.settings.dialect.marker q.imports c.target a := by
    rw [himports]
    exact adds_of_readable hmembers _
  obtain ⟨hc, -, p₁, p₂, y₁, y₂, hrun, hrun', -, hw₂, hp⟩ :=
    hw.run_congr hw' rfl htab (by simp) hx hy hsame hxy hadds hsteps hsteps
  have hcarries := carries_cons hok (by rwa [hfirst])
  rw [c.fragment_additions, List.nil_append] at hw₂
  by_cases hnone : c.members = []
  · obtain ⟨hsame, hadditions⟩ := Composite.bare_of_members_eq_nil hnone
    rw [hadditions, List.map_eq_nil_iff] at hsteps
    subst hsteps
    refine ⟨q, q, ?_, hcarries, run_cons_of_apply [] hfirst, rfl⟩
    rw [← hsame, hbare]
  · refine ⟨p₂, p₁, ?_, hcarries, ?_, hp.symm⟩
    · obtain ⟨layout', hwhole⟩ := hw₂.whole
      have htext := hw₂.text
      rw [hrun'] at hwhole htext
      have htext : p₂.text = c.opened e.text [' '] ++ body c.members ++ ['\x7d', '\n'] := htext
      rw [c.apply_declare, ← Composite.opened_members hnone, ← htext]
      exact Whole.commit_text (d := e) hwhole find'
    · rw [run_cons_of_apply steps hfirst, hrun]

/-- A structure with a field and an embedded type, the first below a line of docs. -/
theorem declare_one_by_one_structure :
    let settings : Settings := ⟨⟨"gen", false⟩, "\t", .verbatim⟩
    let find : Finder := fun _ => .error (.unresolved "no packages")
    let x : Draft.Field := ⟨some "X", .simple "int", default, ["", "X is counted."]⟩
    let y : Draft.Field := ⟨none, .simple "Y", default, []⟩
    let c : Composite := .struct ⟨"T", [x, y], ["T has docs."]⟩
    let steps : List Request :=
      [⟨find, c.bare.declare⟩, ⟨find, .appendField "T" x⟩, ⟨find, .appendField "T" y⟩]
    ∃ d p q, ofText settings find "package p\n".toList = .ok d ∧
      d.apply find c.declare = (.ok (), { d with outline := p }) ∧ d.Carries steps ∧
      d.run steps = { d with outline := q } ∧ p.unplaced = q.unplaced := by
  intro settings find x y c steps
  have hm : (fun d : Document => decide ((d.outline.declared? c.target).isNone ∧
      d.settings = settings ∧ ∀ p ∈ pieces d.text, p.text ≠ ['/'])) <$>
        ofText settings find "package p\n".toList = .ok true := by
    decide +kernel
  obtain ⟨d, hd, h⟩ := map_eq_ok.1 hm
  obtain ⟨hfree, hsettings, hslash⟩ := of_decide_eq_true h
  have hclosed : Closes (pieces d.text) [] := fun l p r he ht => absurd ht (hslash p (by simp [he]))
  have hname : IsName "Y".toList := by decide +kernel
  have hint := denotes_name (s := "int".toList) (by decide +kernel) d.outline.imports
  have hY := denotes_name hname d.outline.imports
  have hx : x.ReadAs d.outline.imports (.simple "int") :=
    ⟨by rintro n ⟨⟩; decide +kernel, hint, fun hn => absurd hn (Option.some_ne_none "X"), by decide +kernel⟩
  have hy : y.ReadAs d.outline.imports (.simple "Y") :=
    ⟨by rintro n ⟨⟩, hY, fun _ => ⟨_, _, hname.wordsAt_eq 0 0, .inl rfl⟩, by decide +kernel⟩
  have hmembers : c.Readable d.outline.imports := by
    refine List.forall_mem_cons.2 ⟨⟨⟨_, hx⟩, by decide +kernel⟩, List.forall_mem_singleton.2 ⟨⟨_, hy⟩, ?_⟩⟩
    decide
  obtain ⟨p, q, hdeclare, hcarries, hrun, hsame⟩ := declare_one_by_one hd [] (by rw [hsettings])
    (by rw [hsettings]) hclosed (by decide +kernel) (by decide) hmembers (Option.isNone_iff_eq_none.1 hfree)
    find steps rfl
  exact ⟨d, p, q, hd, hdeclare, hcarries, hrun, hsame⟩

/-- A slash and a star that nothing closes are two operators. The docs of a field close them and take
the structure along, so that the next field has no structure to go to. -/
theorem not_built_open_comment :
    let settings : Settings := ⟨⟨"gen", false⟩, "\t", .verbatim⟩
    let find : Finder := fun _ => .error (.unresolved "no packages")
    let x : Draft.Field := ⟨some "X", .simple "int", default, ["*/; type U struct \x7b"]⟩
    let z : Draft.Field := ⟨some "Z", .simple "int", default, []⟩
    let c : Composite := .struct ⟨"T", [x, z], []⟩
    ∃ d, ofText settings find "package p\n\nvar v = a /*p\n".toList = .ok d ∧
      (d.apply find c.declare).1 = .ok () ∧
      (((d.apply find c.bare.declare).2.apply find (.appendField "T" x)).2.apply find
        (.appendField "T" z)).1 ≠ .ok () := by
  intro settings find x z c
  have hm : (fun d : Document => decide ((d.apply find c.declare).1 = .ok () ∧
      (((d.apply find c.bare.declare).2.apply find (.appendField "T" x)).2.apply find
        (.appendField "T" z)).1 ≠ .ok ())) <$>
          ofText settings find "package p\n\nvar v = a /*p\n".toList = .ok true := by
    decide +kernel
  obtain ⟨d, hd, h⟩ := map_eq_ok.1 hm
  exact ⟨d, hd, of_decide_eq_true h⟩

end Document

end GoOutline
