import GoOutline.Proofs.Growth
import GoOutline.Proofs.Carrying
import GoOutline.Proofs.Slicing

/-!
What a hole leaves as it is. Where a tree grows, whatever is read of the tokens in front of the new
member stands in front of it.
-/

namespace GoOutline

open Text Syntax Motion

variable {s : List Char} {n r : Nat} {t : Token} {e : Extent} {d : Shift} {front back ts : List Token}

/-- All that stands in a text that another one starts with stays. -/
def Motion.upto (s : List Char) : Motion :=
  .sieve (fun m => decide (IsBoundary s m)) fun r => decide (r ≤ s.count '\n')

section Sieve

variable {p q : Nat → Bool}

theorem extent_sieve (hs : p e.span.start) (ht : p e.span.stop) (hr : q e.row) (hl : q e.lastRow) :
    (sieve p q).extent e = e := by
  obtain ⟨⟨start, stop⟩, row, lastRow⟩ := e
  simp only [sieve, plain, Motion.extent, Motion.span, past_eq_self.2 hs, past_eq_self.2 ht,
    past_eq_self.2 hr, past_eq_self.2 hl]

theorem token_sieve (he : (sieve p q).extent t.extent = t.extent)
    (hc : ∀ c ∈ t.comments, (sieve p q).extent c.extent = c.extent) : (sieve p q).token t = t := by
  obtain ⟨kind, text, extent, newline, comments⟩ := t
  have hcomments : comments.map (sieve p q).comment = comments :=
    (List.map_congr_left fun c hm => congrArg (Comment.mk c.text) (hc c hm)).trans
      (List.map_id comments)
  simp only [Motion.token, he, hcomments]
  congr 1
  split <;> rfl

end Sieve

/-- So far from the start of a text. -/
def Shift.onward (n row : Nat) : Shift := ⟨n, row⟩

/-- One byte and one row further on. -/
def Shift.later (d : Shift) : Shift := ⟨d.bytes + 1, d.rows + 1⟩

section Upto

theorem extent_of_upto (h : e.Upto s) : (upto s).extent e = e :=
  extent_sieve (decide_eq_true h.start) (decide_eq_true h.stop) (decide_eq_true h.row)
    (decide_eq_true h.lastRow)

theorem token_of_upto (h : t.Upto s) : (upto s).token t = t :=
  token_sieve (extent_of_upto h.1) fun c hc => extent_of_upto (h.2 c hc)

theorem extent_of_beyond (h : e.Beyond (byteLength s + 1) (s.count '\n' + 1)) :
    (upto s).extent e =
      ⟨⟨e.span.start + 1, e.span.stop + 1⟩, e.row + 1, e.lastRow + 1⟩ := by
  obtain ⟨⟨start, stop⟩, row, lastRow⟩ := e
  have hs : ¬ IsBoundary s start := fun hm => Nat.not_le_of_lt h.start hm.le
  have ht : ¬ IsBoundary s stop := fun hm => Nat.not_le_of_lt h.stop hm.le
  have hrow : ¬ row ≤ s.count '\n' := Nat.not_le_of_lt h.row
  have hlast : ¬ lastRow ≤ s.count '\n' := Nat.not_le_of_lt h.lastRow
  simp [upto, sieve, plain, Motion.extent, Motion.span, past, hs, ht, hrow, hlast]

theorem extent_upto_motion (h : e.Beyond n r) (hn : byteLength s < n + d.bytes)
    (hr : s.count '\n' < r + d.rows) :
    (upto s).extent (d.motion.extent e) = d.later.motion.extent e := by
  obtain ⟨hstart, hstop, hrow, hlast⟩ := h
  have hbeyond : (d.motion.extent e).Beyond (byteLength s + 1) (s.count '\n' + 1) := by
    constructor <;>
      simp only [Motion.extent, Motion.span, Shift.motion, Shift.byte, Shift.row] <;> omega
  rw [extent_of_beyond hbeyond]
  simp only [Motion.extent, Motion.span, Shift.motion, Shift.byte, Shift.row, Shift.later,
    Extent.mk.injEq, Span.mk.injEq]
  omega

theorem token_upto_motion (h : t.Beyond n r) (hn : byteLength s < n + d.bytes)
    (hr : s.count '\n' < r + d.rows) :
    (upto s).token (d.motion.token t) = d.later.motion.token t := by
  have hc : (t.comments.map d.comment).map (upto s).comment = t.comments.map d.later.comment := by
    rw [List.map_map]
    exact List.map_congr_left fun c hc => congrArg (Comment.mk c.text)
      (extent_upto_motion (h.2 c hc) hn hr)
  have he := extent_upto_motion h.1 hn hr
  obtain ⟨kind, text, extent, newline, comments⟩ := t
  simp only [Motion.token, Token.mk.injEq, true_and]
  refine ⟨?_, he, hc⟩
  split <;> rfl

theorem beyond_extentOf (hne : ts ≠ []) (h : ∀ t ∈ ts, t.extent.Beyond n r) :
    (Parser.extentOf ts).Beyond n r := by
  rcases ts with _ | ⟨t, ts⟩
  · exact absurd rfl hne
  · have hfirst := h t List.mem_cons_self
    have hlast := h _ (List.getLast_mem (List.cons_ne_nil t ts))
    exact ⟨hfirst.start, hlast.stop, hfirst.row, hlast.lastRow⟩

/-- A piece with a line feed in it is too long to be left out, however its ends move. -/
theorem judges_of_row_lt (h : e.row < e.lastRow) (s : List Char) : (upto s).Judges e := by
  have hrow : (upto s).row e.row < (upto s).row e.lastRow := by
    simp only [upto, sieve, plain, past, decide_eq_true_eq]
    split <;> split <;> omega
  simp only [Motion.Judges, Grammar.dropCost, Grammar.forgivenFrom, Motion.extent]
  omega

/-- Tokens up to a place, and behind it, with a line feed between. -/
theorem fair_upto (hf : ∀ t ∈ front, t.Upto s)
    (hb : ∀ t ∈ back, t.extent.Beyond (byteLength s + 1) (s.count '\n' + 1)) :
    (upto s).Fair (front ++ back) := by
  intro used hu hne _
  have hfront (hs : ∀ t ∈ used, t ∈ front) : (upto s).Judges (Parser.extentOf used) := by
    have hmap : used.map (upto s).token = used :=
      (List.map_congr_left fun t ht => token_of_upto (hf t (hs t ht))).trans (List.map_id used)
    rw [Motion.Judges, ← Motion.extentOf_token _ hne, hmap]
  have hback (hs : ∀ t ∈ used, t ∈ back) : (upto s).Judges (Parser.extentOf used) := by
    have hbeyond := beyond_extentOf hne fun t ht => hb t (hs t ht)
    rw [Motion.Judges, extent_of_beyond hbeyond]
    simp only [Grammar.dropCost]
    omega
  obtain ⟨x, y, he⟩ := hu
  rcases List.append_eq_append_iff.1 he with ⟨v, rfl, _⟩ | ⟨v, hv, rfl⟩
  · exact hfront fun t ht => by simp [ht]
  rcases List.append_eq_append_iff.1 hv with ⟨w, rfl, rfl⟩ | ⟨w, rfl, rfl⟩
  · rcases List.eq_nil_or_concat v with rfl | ⟨v, l, rfl⟩
    · exact hfront fun t ht => by simpa using Or.inr ht
    rcases w with _ | ⟨f, w⟩
    · exact hback fun t ht => by simp at ht ⊢; tauto
    · have hrow := (hf f (by simp)).1.row
      have hlast := (hb l (by simp)).lastRow
      refine judges_of_row_lt ?_ s
      simp only [Parser.extentOf, Extent.through, List.cons_append]
      simp
      omega
  · exact hback fun t ht => by simp [ht]

end Upto

section Texts

variable {u v w : List Char} {i j : Nat}

theorem slice_of_isPrefix {s : Span} (h : u <+: v) (hs : IsBoundary u s.start)
    (ht : IsBoundary u s.stop) : slice v s = slice u s := by
  obtain ⟨w, rfl⟩ := h
  obtain ⟨p, ⟨q, rfl⟩, hp⟩ := hs
  obtain ⟨p', hp', hstop⟩ := ht
  have hdrop : dropBytes s.start (p ++ q ++ w) = q ++ w := by
    rw [← hp, List.append_assoc, dropBytes_byteLength]
  have hdrop' : dropBytes s.start (p ++ q) = q := by rw [← hp, dropBytes_byteLength]
  rw [slice, slice, hdrop, hdrop', ← hp, ← hstop]
  rcases List.prefix_or_prefix_of_prefix hp' (List.prefix_append p q) with ⟨l, rfl⟩ | ⟨l, rfl⟩
  · simp
  · have hl : l <+: q := (List.prefix_append_right_inj p).1 hp'
    obtain ⟨l', rfl⟩ := hl
    have hlen : byteLength (p ++ l) - byteLength p = byteLength l := by simp
    rw [hlen, List.append_assoc, takeBytes_byteLength, takeBytes_byteLength]

/-- What stands in a text that two others start with is the same in both. -/
theorem keeps_front (h : u <+: v) (h' : u <+: w) :
    Keeps (fun m => decide (IsBoundary u m)) (fun r => decide (r ≤ u.count '\n')) id id v w where
  slice s hs ht := by
    have hstart : IsBoundary u s.start := by simpa using hs
    have hstop : IsBoundary u s.stop := by simpa using ht
    exact (slice_of_isPrefix h' hstart hstop).trans (slice_of_isPrefix h hstart hstop).symm
  row _ _ _ _ := Iff.rfl
  next _ _ _ _ := Iff.rfl

theorem dropBytes_add (a y : List Char) (n : Nat) :
    dropBytes (byteLength a + n) (a ++ y) = dropBytes n y := by
  induction a with
  | nil => simp [byteLength]
  | cons c a ih =>
      have hc := c.utf8Size_pos
      have hne : byteLength (c :: a) + n ≠ 0 := by simp only [byteLength]; omega
      have hsub : byteLength (c :: a) + n - c.utf8Size = byteLength a + n := by
        simp only [byteLength]
        omega
      rw [List.cons_append, dropBytes, hsub, ih]
      simpa using hne

theorem slice_add (a y : List Char) (i j : Nat) :
    slice (a ++ y) ⟨byteLength a + i, byteLength a + j⟩ = slice y ⟨i, j⟩ := by
  rw [slice, slice, dropBytes_add, Nat.add_sub_add_left]

/-- A text stands in another one. -/
theorem keeps_within (u s v : List Char) (row : Nat) :
    Keeps (fun m => decide (IsBoundary s m)) (fun r => decide (r ≤ s.count '\n'))
      (Shift.onward (byteLength u) row).byte (Shift.onward (byteLength u) row).row s (u ++ s ++ v) where
  slice span hs ht := by
    have hstart : IsBoundary s span.start := by simpa using hs
    have hstop : IsBoundary s span.stop := by simpa using ht
    have hmoved (k : Nat) : (Shift.onward (byteLength u) row).byte k = byteLength u + k := by
      simp only [Shift.byte, Shift.onward]
      omega
    rw [Span.via, hmoved, hmoved, List.append_assoc, slice_add,
      slice_of_isPrefix (List.prefix_append s v) hstart hstop]
  row i j _ _ := by
    simp only [Shift.row, Shift.onward]
    omega
  next i j _ _ := by
    simp only [Shift.row, Shift.onward]
    omega

end Texts

/-- The same addition where what stands behind a place is further on. -/
def Addition.later (x : Addition) (s : List Char) : Addition :=
  ⟨x.shift.later, x.passed, x.comments.map (upto s).comment,
    x.member.map (upto s).field (upto s).elem⟩

namespace Syntax.Grammar

open Syntax.Parser

variable {x : Addition} {c z c' : Token} {new post post' rest : List Token} {k m : Nat}

/-- A rule reads the same in moved tokens, whatever the bound. -/
theorem run_moved {α : Type} (r : Rule α) {a : α} {d : Motion}
    (h : (r.parser k).run ts = some (a, rest)) (hd : Readable d ts)
    (hk : 16 * ts.length + r.rank < k) (hm : 16 * ts.length + r.rank < m) :
    ∃ b, (r.parser m).run (ts.map d.token) = some (b, rest.map d.token) ∧ r.Moves d a b := by
  rcases sim_rule (d := d) r hk hm hd (Nat.le_refl _) with ⟨hn, _⟩ | ⟨a', b, rest', ha, hb, hr⟩
  · rw [hn] at h
    cases h
  · rw [ha] at h
    cases h
    exact ⟨b, hb, hr⟩

theorem Inserts.later (hi : Inserts x c z c' new post post')
    (hback : ∀ t ∈ z :: (new ++ c' :: post'), t.extent.Beyond (byteLength s + 1) (s.count '\n' + 1))
    (hc : c.extent.Beyond n r) (hpost : ∀ t ∈ post, t.Beyond n r) (hn : byteLength s < n + x.shift.bytes)
    (hr : s.count '\n' < r + x.shift.rows) (he : Ended (z :: (new ++ c' :: post'))) :
    Inserts (x.later s) c ((upto s).token z) ((upto s).token c') (new.map (upto s).token) post
      (post'.map (upto s).token) := by
  have hmap : (upto s).token z :: (new.map (upto s).token ++ (upto s).token c' ::
      post'.map (upto s).token) = (z :: (new ++ c' :: post')).map (upto s).token := by simp
  have hfair : (upto s).Fair ([] ++ z :: (new ++ c' :: post')) := fair_upto (by simp) hback
  have hcovered {k : Nat} (h : Covered k ((z :: (new ++ c' :: post')).map (upto s).token)) :
      Covered k (z :: (new ++ c' :: post')) := ⟨he, by simpa using h.bound⟩
  have hreach (e : Extent) (h : e.Beyond n r) : x.shift.later.Reaches e := by
    have := h.start
    have := h.row
    constructor <;> simp only [Shift.later] <;> omega
  constructor
  · exact hi.old
  · simpa using hi.newline
  · simpa using hi.opens
  · exact hi.passed
  · exact congrArg (List.map _) hi.comments
  · simpa using hi.closing
  · simp [Motion.token, hi.bare]
  · rw [Motion.extent_token, hi.moved]
    exact extent_upto_motion hc hn hr
  · rw [hi.rest, List.map_map]
    exact List.map_congr_left fun t ht => token_upto_motion (hpost t ht) hn hr
  · exact fun t ht => hreach t.extent (hpost t ht).1
  · intro f hf k hcov
    rw [hmap] at hcov ⊢
    rcases hm : x.member with f₀ | e₀
    · simp only [Addition.later, hm, Sum.map_inl, Sum.inl.injEq] at hf
      have hk := (hcovered hcov).bound
      have hrun := hi.field f₀ hm k (hcovered hcov)
      obtain ⟨f', hf', hmoves⟩ := run_moved .fieldDecl hrun ⟨he, hfair⟩
        (by show _ + 3 < k; omega) (by show _ + 3 < k; omega)
      obtain rfl : f' = (upto s).field f₀ := hmoves
      rw [← hf]
      exact hf'
    · simp [Addition.later, hm] at hf
  · intro e hm' k hcov
    rw [hmap] at hcov ⊢
    rcases hm : x.member with f₀ | e₀
    · simp [Addition.later, hm] at hm'
    · simp only [Addition.later, hm, Sum.map_inr, Sum.inr.injEq] at hm'
      have hk := (hcovered hcov).bound
      have hrun := hi.elem e₀ hm k (hcovered hcov)
      obtain ⟨e', he', hmoves⟩ := run_moved .interfaceElem hrun ⟨he, hfair⟩
        (by show _ + 4 < k; omega) (by show _ + 4 < k; omega)
      obtain rfl : e' = (upto s).elem e₀ := hmoves
      rw [← hm']
      exact he'

/-- What a body keeps of its members stays. -/
def Stays (d : Motion) (x : Addition) : TypeBody → Prop
  | .struct _ b => (x.kept b.fields).map (d.sibling d.field) = x.kept b.fields
  | .interface _ b => (x.kept b.elems).map (d.sibling d.elem) = x.kept b.elems
  | .plain _ => True

theorem kept_of_siblings {α : Type} {d : Motion} {f : α → α} {y : Addition} {a a' : α}
    {as : List (Sibling α)} (hp : y.passed = x.passed)
    (h : y.siblings a' as = (x.siblings a as).map (d.sibling f)) :
    (x.kept as).map (d.sibling f) = x.kept as := by
  have hl : (y.kept as).length = ((x.kept as).map (d.sibling f)).length := by
    simp [Addition.kept, hp]
  rw [Addition.siblings, Addition.siblings, List.map_append] at h
  have hkept := (List.append_inj h hl).1
  rw [← hkept, Addition.kept, Addition.kept, hp]

theorem stays_of_body {d : Motion} {y : Addition} {b : TypeBody} (hx : x.Fits b) (hy : y.Fits b)
    (hp : y.passed = x.passed) (h : y.body b = d.body (x.body b)) : Stays d x b := by
  cases b with
  | struct s b =>
      obtain ⟨f, hf⟩ := Sum.isLeft_iff.1 hx
      obtain ⟨f', hf'⟩ := Sum.isLeft_iff.1 hy
      simp only [Addition.body, hf, hf', Motion.body, Motion.struct, TypeBody.struct.injEq,
        StructBody.mk.injEq] at h
      exact kept_of_siblings hp h.2.2
  | interface s b =>
      obtain ⟨e, he⟩ := Sum.isRight_iff.1 hx
      obtain ⟨e', he'⟩ := Sum.isRight_iff.1 hy
      simp only [Addition.body, he, he', Motion.body, Motion.interface, TypeBody.interface.injEq,
        InterfaceBody.mk.injEq] at h
      exact kept_of_siblings hp h.2.2
  | plain t => trivial

namespace Itemized

/-- Where a list of items grows, what stands in front of the new member stays. -/
theorem grow_behind {pre suf : List (Sibling Item)} {extent : Extent} {spot : Spot} {spec : TypeSpec}
    (h : Itemized (k + 6) ts
      (pre ++ .member ⟨extent, .types (spot.fill (.definition spec))⟩ :: suf) rest)
    (hn : Covered (k + 3) ts) (hk : ∀ i ∈ members pre, i.kind ≠ .statement)
    (hb : Addition.closing? spec.body ≠ Option.none) :
    ∃ front c post, Around ts front c post extent spot spec suf ∧
      ∀ x z c' new post' s n r, x.Fits spec.body → Inserts x c z c' new post post' →
        Covered k (z :: (new ++ c' :: post')) → Covered (k + 6) (front ++ z :: (new ++ c' :: post')) →
        forgivenFrom ≤ dropCost (x.shift.widerExtent extent) → (∀ t ∈ front, t.Upto s) →
        (∀ t ∈ z :: (new ++ c' :: post'), t.extent.Beyond (byteLength s + 1) (s.count '\n' + 1)) →
        c.extent.Beyond n r → (∀ t ∈ post, t.Beyond n r) → byteLength s < n + x.shift.bytes →
        s.count '\n' < r + x.shift.rows →
        Itemized (k + 6) (front ++ z :: (new ++ c' :: post'))
          (pre ++ .member ⟨x.shift.widerExtent extent,
            .types ((spot.shift x.shift).fill (x.entry (.definition spec)))⟩ ::
              suf.map (x.shift.motion.sibling x.shift.motion.item)) (rest.map x.shift.motion.token) ∧
          pre.map ((upto s).sibling (upto s).item) = pre ∧
          spot.before.map ((upto s).sibling (upto s).typeEntry) = spot.before ∧
          Stays (upto s) x spec.body := by
  obtain ⟨front, c, post, haround, hgrow⟩ := h.grow hn hk hb
  refine ⟨front, c, post, haround, ?_⟩
  intro x z c' new post' s n r hfit hi hcov hall hcost hfront hback hc hpost hN hR
  have hnew := hgrow x z c' new post' hfit hi hcov hcost
  have hlater := hi.later hback hc hpost hN hR hcov.ended
  have hmap : front ++ (upto s).token z :: (new.map (upto s).token ++ (upto s).token c' ::
      post'.map (upto s).token) = (front ++ z :: (new ++ c' :: post')).map (upto s).token := by
    rw [List.map_append, (List.map_congr_left fun t ht => token_of_upto (hfront t ht)).trans
      (List.map_id front)]
    simp
  have hfit' : (x.later s).Fits spec.body := by
    revert hfit
    cases spec.body <;> simp [Addition.Fits, Addition.later]
  have hcov' : Covered k ((upto s).token z :: (new.map (upto s).token ++ (upto s).token c' ::
      post'.map (upto s).token)) := by simpa using hcov.map (upto s)
  have hcost' : forgivenFrom ≤ dropCost ((x.later s).shift.widerExtent extent) := by
    simp only [dropCost, Shift.widerExtent, Shift.wider, Shift.byte, Shift.row, Addition.later,
      Shift.later] at hcost ⊢
    omega
  have hgrown := hgrow (x.later s) _ _ _ _ hfit' hlater hcov' hcost'
  rw [hmap] at hgrown
  have hmoved := hnew.move hall (fair_upto hfront hback)
  have hsame := hgrown.unique hmoved
  rw [List.map_append, List.map_cons] at hsame
  obtain ⟨hpre, hrest⟩ := List.append_inj hsame (by simp)
  have hdecl := ItemKind.types.inj (Item.mk.inj (Sibling.member.inj (List.cons.inj hrest).1)).2
  refine ⟨hnew, hpre.symm, ?_⟩
  cases spot with
  | lone =>
      have hspec := TypeEntry.definition.inj (TypeDecl.lone.inj hdecl)
      exact ⟨rfl, stays_of_body hfit hfit' rfl (TypeSpec.mk.inj hspec).2.2⟩
  | group before after =>
      have hgroup := TypeDecl.group.inj hdecl
      rw [List.map_append, List.map_cons] at hgroup
      obtain ⟨hbefore, hentry⟩ := List.append_inj hgroup (by simp)
      have hspec := TypeEntry.definition.inj (Sibling.member.inj (List.cons.inj hentry).1)
      exact ⟨hbefore.symm, stays_of_body hfit hfit' rfl (TypeSpec.mk.inj hspec).2.2⟩

end Itemized

end Syntax.Grammar

end GoOutline
