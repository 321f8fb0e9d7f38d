import GoOutline.Proofs.Itemized

/-!
Trees that grow. New tokens in front of the brace of a body add a member to the body and change
nothing else but the places of what stands behind.
-/

namespace GoOutline.Syntax.Grammar

open Syntax.Parser

variable {n : Nat} {ts us rest : List Token} {x : Addition} {t c z c' : Token}

/-- What ends on a line below its first one is not cheap to drop. -/
theorem forgiven_of_rows {d : Shift} {e : Extent} (h : e.row < d.row e.lastRow) :
    forgivenFrom ≤ dropCost (d.widerExtent e) := by
  simp only [dropCost, forgivenFrom, Shift.widerExtent]
  omega

theorem mayDrop_grown {d : Shift} {e : Extent} {u : Token} (hu : Ended (u :: us))
    (hd : d.Reaches u.extent) (he : forgivenFrom ≤ dropCost (d.widerExtent e))
    (h : mayDrop e u (lookAt 1 (u :: us))) :
    mayDrop (d.widerExtent e) (d.motion.token u)
      (lookAt 1 (d.motion.token u :: us.map d.motion.token)) := by
  have hl : lookAt 1 (d.motion.token u :: us.map d.motion.token) =
      d.motion.token (lookAt 1 (u :: us)) := lookAt_token hu 1
  simp only [mayDrop, Bool.and_eq_true, decide_eq_true_eq] at h ⊢
  rw [hl, Motion.endsAlone_token, (Shift.judges hd).isCheap, Motion.kind_token]
  exact ⟨he, h.2⟩

/-- What stands between an item that grows and the token behind it moves on. -/
theorem Parted.grown {d : Shift} {used used' sep : List Token} {kind kind' : ItemKind} {u : Token}
    (h : Parted used kind sep u us) (hu : Ended (u :: us)) (hd : d.Reaches u.extent)
    (he : extentOf used' = d.widerExtent (extentOf used))
    (hcost : forgivenFrom ≤ dropCost (d.widerExtent (extentOf used)))
    (hends : endsText kind used → endsText kind' used') :
    Parted used' kind' (sep.map d.motion.token) (d.motion.token u) (us.map d.motion.token) := by
  rcases h with ⟨rfl, hn | ⟨hterm, hdrop | hend⟩⟩ | ⟨s, rfl, hs⟩
  · exact .inl ⟨rfl, .inl hn⟩
  · refine .inl ⟨rfl, .inr ⟨by simpa using hterm, .inl ?_⟩⟩
    rw [he]
    exact mayDrop_grown hu hd hcost hdrop
  · refine .inl ⟨rfl, .inr ⟨by simpa using hterm, .inr ?_⟩⟩
    rw [Bool.and_eq_true] at hend ⊢
    exact ⟨hend.1, hends hend.2⟩
  · exact .inr ⟨d.motion.token s, rfl, by simpa using hs⟩

/-- The comments in front of what stands between two items move with it. -/
theorem Parted.siblings {used sep : List Token} {kind : ItemKind} {u : Token}
    (h : Parted used kind sep u us) (d : Motion) :
    (sep.map d.token).flatMap commentSiblings = (sep.flatMap commentSiblings).map (d.sibling d.item) := by
  rcases h with ⟨rfl, _⟩ | ⟨s, rfl, _⟩
  · rfl
  · simpa using d.commentSiblings_token d.item s

/-- The place of a piece with something behind the brace that closes the body. -/
theorem extentOf_grown_append {new post rest' : List Token}
    (hi : Inserts x c z c' new (post ++ rest) rest') :
    extentOf (t :: ts ++ z :: (new ++ c' :: post.map x.shift.motion.token)) =
      x.shift.widerExtent (extentOf (t :: ts ++ c :: post)) := by
  rcases List.eq_nil_or_concat post with rfl | ⟨post, y, rfl⟩
  · exact extentOf_grown hi
  · have hold : t :: ts ++ c :: post.concat y = t :: (ts ++ c :: post) ++ [y] := by simp
    have hnew : t :: ts ++ z :: (new ++ c' :: (post.concat y).map x.shift.motion.token) =
        t :: (ts ++ z :: (new ++ c' :: post.map x.shift.motion.token)) ++ [x.shift.motion.token y] := by simp
    rw [hold, hnew, extentOf_append_singleton, extentOf_append_singleton]
    rfl

theorem nestsExpression_grown {new post : List Token} (ht : t.is "type") (hc : c.is rbrace)
    (h : nestsExpression (t :: ts ++ c :: post)) (d : Motion) :
    nestsExpression (t :: ts ++ z :: (new ++ c' :: post.map d.token)) := by
  have hgo : t.isAny ["go", "defer"] = false := Token.isAny_of_is ht _
  have hreturn : t.is "return" = false := Token.is_eq_false_of_is ht (by decide)
  have hbrace : c.isAny assignments = false := (Token.isAny_of_is hc _).trans (by decide)
  simp only [nestsExpression, List.cons_append, List.head?_cons, Option.any_some, hgo, hreturn,
    Bool.or_false, Bool.false_and, List.any_cons, List.any_append, hbrace, Bool.false_or,
    List.any_map, Bool.or_eq_true] at h ⊢
  rcases h with h | h | h
  · exact .inl h
  · exact .inr (.inl h)
  · exact .inr (.inr (.inr (.inr (.inr (by simpa [Function.comp_def] using h)))))

/-- The tokens around the brace that closes the definition of a type in a list of items. -/
structure Around (ts front : List Token) (c : Token) (post : List Token) (extent : Extent)
    (spot : Spot) (spec : TypeSpec) (suf : List (Sibling Item)) : Prop where
  tokens : ts = front ++ c :: post
  closed : Addition.Closed spec.body c
  /-- The declaration starts in front of the brace and ends there or behind. -/
  row : ∃ t ∈ front, extent.row = t.extent.row
  lastRow : ∃ t ∈ c :: post, extent.lastRow = t.extent.lastRow
  specRow : spec.extent.lastRow = c.extent.lastRow
  /-- What is behind the definition is read of the tokens behind the brace. -/
  fixed : ∀ d : Motion, (∀ t ∈ post, d.token t = t) → suf.map (d.sibling d.item) = suf ∧
    spot.after.map (d.sibling d.typeEntry) = spot.after

namespace Itemized

theorem uncons {e : Extent} {kind : ItemKind} {suf : List (Sibling Item)}
    (h : Itemized n (t :: ts) (commentSiblings t ++ .member ⟨e, kind⟩ :: suf) rest) :
    ∃ seg sep u us more, ts = seg ++ (sep ++ u :: us) ∧ t.kind ≠ .stop ∧ e = extentOf (t :: seg) ∧
      (itemKind n).run (t :: ts) = some (kind, sep ++ u :: us) ∧ Parted (t :: seg) kind sep u us ∧
      Itemized n (u :: us) more rest ∧ suf = sep.flatMap commentSiblings ++ more := by
  generalize hss : t :: ts = ss at h
  generalize has : commentSiblings t ++ .member ⟨e, kind⟩ :: suf = as at h
  cases h with
  | stop ht =>
      have hm := congrArg members has
      simp at hm
  | @next t' u seg sep us _ kind' more ht hk hs hl =>
      rw [List.cons_append] at hss
      obtain ⟨rfl, rfl⟩ := List.cons.inj hss
      obtain ⟨hx, rfl⟩ := List.cons.inj (List.append_cancel_left has)
      cases hx
      exact ⟨seg, sep, u, us, more, rfl, ht, rfl, hk, hs, hl, rfl⟩

/-- Another item in the place of one, with other items behind. -/
theorem replace {pre suf : List (Sibling Item)} {i : Item}
    (h : Itemized n ts (pre ++ .member i :: suf) rest) (hk : ∀ i ∈ members pre, i.kind ≠ .statement) :
    ∃ before z seg sep u us more, ts = before ++ (z :: seg ++ (sep ++ u :: us)) ∧
      (∀ t ∈ before, t.isSolid) ∧ i.extent = extentOf (z :: seg) ∧
      (itemKind n).run (z :: seg ++ (sep ++ u :: us)) = some (i.kind, sep ++ u :: us) ∧
      Parted (z :: seg) i.kind sep u us ∧ Itemized n (u :: us) more rest ∧
      suf = sep.flatMap commentSiblings ++ more ∧
      ∀ seg' kind' sep' u' us' more' rest',
        (itemKind n).run (z :: seg' ++ (sep' ++ u' :: us')) = some (kind', sep' ++ u' :: us') →
        Parted (z :: seg') kind' sep' u' us' → Itemized n (u' :: us') more' rest' →
        lookAt 1 (z :: seg' ++ (sep' ++ u' :: us')) = lookAt 1 (z :: seg ++ (sep ++ u :: us)) →
        Fences (z :: seg ++ (sep ++ u :: us)) (z :: seg' ++ (sep' ++ u' :: us')) →
        Itemized n (before ++ (z :: seg' ++ (sep' ++ u' :: us')))
          (pre ++ .member ⟨extentOf (z :: seg'), kind'⟩ :: (sep'.flatMap commentSiblings ++ more')) rest' := by
  obtain ⟨extent, kind⟩ := i
  obtain ⟨before, z, us, pre, rfl, _, hsolid, rfl, hl, hnext⟩ := h.split hk
  obtain ⟨seg, sep, u, us, more, rfl, hstop, rfl, hkind, hsep, hmore, rfl⟩ := hl.uncons
  refine ⟨before, z, seg, sep, u, us, more, rfl, hsolid, rfl, hkind, hsep, hmore, rfl,
    fun seg' kind' sep' u' us' more' rest' hkind' hsep' hmore' hlook hfences => ?_⟩
  have hall := hnext _ _ _ hlook hfences (.next hstop hkind' hsep' hmore')
  simpa using hall

theorem exists_lastRow (t : Token) (ts : List Token) (c : Token) (post more : List Token) :
    ∃ y ∈ c :: (post ++ more), (extentOf (t :: (ts ++ c :: post))).lastRow = y.extent.lastRow := by
  have hlast : (t :: (ts ++ c :: post)).getLast (List.cons_ne_nil _ _) =
      (c :: post).getLast (List.cons_ne_nil _ _) := by
    rw [List.getLast_cons (by simp), List.getLast_append_of_ne_nil _ (List.cons_ne_nil c post)]
  refine ⟨_, List.mem_append_left more (List.getLast_mem (List.cons_ne_nil c post)), ?_⟩
  rw [← hlast]
  rfl

/-- A list of items grows where a definition in it grows. -/
theorem grow {pre suf : List (Sibling Item)} {extent : Extent} {spot : Spot} {spec : TypeSpec}
    (h : Itemized (n + 6) ts
      (pre ++ .member ⟨extent, .types (spot.fill (.definition spec))⟩ :: suf) rest)
    (hn : Covered (n + 3) ts) (hk : ∀ i ∈ members pre, i.kind ≠ .statement)
    (hb : Addition.closing? spec.body ≠ none) :
    ∃ front c post, Around ts front c post extent spot spec suf ∧
      ∀ x z c' new post', x.Fits spec.body → Inserts x c z c' new post post' →
        Covered n (z :: (new ++ c' :: post')) →
        forgivenFrom ≤ dropCost (x.shift.widerExtent extent) →
        Itemized (n + 6) (front ++ z :: (new ++ c' :: post'))
          (pre ++ .member ⟨x.shift.widerExtent extent,
            .types ((spot.shift x.shift).fill (x.entry (.definition spec)))⟩ ::
              suf.map (x.shift.motion.sibling x.shift.motion.item)) (rest.map x.shift.motion.token) := by
  obtain ⟨before, z₀, seg, sep, u, us, more, rfl, hsolid, rfl, hkind, hsep, hmore, rfl, hnext⟩ := h.replace hk
  have hcov : Covered (n + 3) (z₀ :: seg ++ (sep ++ u :: us)) := hn.append hsolid
  obtain ⟨htype, hdecl⟩ := itemKind_types.1 hkind
  have hitem : ∀ y ∈ z₀ :: seg, y.isSolid := (itemKind (n + 6)).solid hkind
  have hfront : ∀ y ∈ z₀ :: seg ++ sep, y.isSolid := fun y hy =>
    (List.mem_append.1 hy).elim (hitem y) (hsep.solid y)
  have hcu : Covered (n + 3) (u :: us) := Covered.append (by simpa using hcov) hfront
  obtain ⟨_, w, ts, c, post, hus, _, hclose, hrow, hfixed, hgrow⟩ := typeDecl_grows hdecl hcov hb
  obtain ⟨rfl, hrest⟩ := List.cons.inj hus
  obtain rfl : seg = w :: ts ++ c :: post :=
    (List.append_left_inj (sep ++ u :: us)).1 (hrest.trans (by simp))
  have hcu' : Covered (n + 6) (u :: us) := ⟨hcu.ended, Nat.lt_add_right 3 hcu.bound⟩
  refine ⟨before ++ z₀ :: w :: ts, c, post ++ (sep ++ u :: us), ⟨by simp, hclose, ⟨z₀, by simp, rfl⟩,
    exists_lastRow z₀ (w :: ts) c post (sep ++ u :: us), hrow, fun d hd => ⟨?_, hfixed d hd⟩⟩, ?_⟩
  · rw [List.map_append, siblings_fixed fun y hy => hd y (by simp [hy]),
      hmore.fixed hcu' fun y hy => hd y (List.mem_append_right post (List.mem_append_right sep hy))]
  intro x z c' new post' hfit hi hcov' hcost
  have hnew := hgrow x z c' new post' hfit hi hcov'
  have hreach : ∀ y ∈ u :: us, x.shift.Reaches y.extent := fun y hy =>
    hi.reaches y (List.mem_append_right _ (List.mem_append_right sep hy))
  have hafter := hmore.move hcu' (Shift.fair hreach)
  have hparted : Parted (z₀ :: w :: ts ++ z :: (new ++ c' :: post.map x.shift.motion.token))
      (.types ((spot.shift x.shift).fill (x.entry (.definition spec)))) (sep.map x.shift.motion.token)
      (x.shift.motion.token u) (us.map x.shift.motion.token) :=
    hsep.grown hcu.ended (hreach u List.mem_cons_self) (extentOf_grown_append hi) hcost
      (nestsExpression_grown htype hi.old · x.shift.motion)
  have hpost : post' = post.map x.shift.motion.token ++
      (sep.map x.shift.motion.token ++ x.shift.motion.token u :: us.map x.shift.motion.token) := by
    simpa using hi.rest
  have hlist : z₀ :: (w :: ts ++ z :: (new ++ c' :: post.map x.shift.motion.token)) ++
      (sep.map x.shift.motion.token ++ x.shift.motion.token u :: us.map x.shift.motion.token) =
      z₀ :: (w :: ts ++ z :: (new ++ c' :: post')) := by
    rw [hpost]
    simp
  have hextent : extentOf (z₀ :: (w :: ts ++ z :: (new ++ c' :: post.map x.shift.motion.token))) =
      x.shift.widerExtent (extentOf (z₀ :: (w :: ts ++ c :: post))) := extentOf_grown_append hi
  have hkind' : (itemKind (n + 6)).run (z₀ :: (w :: ts ++ z :: (new ++ c' :: post'))) =
      some (.types ((spot.shift x.shift).fill (x.entry (.definition spec))),
        sep.map x.shift.motion.token ++ x.shift.motion.token u :: us.map x.shift.motion.token) :=
    itemKind_types.2 ⟨htype, by simpa using hnew⟩
  rw [← hlist] at hkind'
  have hall := hnext _ _ _ _ _ _ _ hkind' hparted hafter rfl (.mute (.inl htype) (.inl htype) rfl _ _)
  rw [hlist, hextent, hsep.siblings] at hall
  simpa using hall

end Itemized

end GoOutline.Syntax.Grammar
