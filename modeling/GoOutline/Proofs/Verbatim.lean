import GoOutline.Proofs.Settling

/-!
The tokens of a text and of the text settled. They are the same but for raw strings and comments,
each where the text settled holds it, and only the break in front of the end of the text may differ.
-/

namespace GoOutline

open Text Syntax

/-- Where an offset of a text is in the text settled. -/
def settledOffset (text : List Char) (n : Nat) : Nat :=
  byteLength (settle text) - byteLength (settle (dropBytes n text))

/-- A comment as it stands in a settled text. What says more than that stays as it is. -/
def settledRemark (c : String) : String :=
  if Docs.clean (settle c.toList) = Docs.clean c.toList then String.ofList (settle c.toList) else c

/-- From a text to the text settled. No row moves, as no line feed goes in front of anything. -/
def settling (text : List Char) : Motion where
  start := settledOffset text
  stop := settledOffset text
  row := id
  literal l := String.ofList (tidy l.toList)
  comment c := ⟨settledRemark c.text, ⟨⟨settledOffset text c.extent.span.start,
    settledOffset text c.extent.span.stop⟩, c.extent.row, c.extent.lastRow⟩⟩

theorem settledOffset_append (a s : List Char) : settledOffset (a ++ s) (byteLength a) =
    byteLength (settle (a ++ s)) - byteLength (settle s) := by
  rw [settledOffset, dropBytes_byteLength]

theorem exists_dropBytes {m n : Nat} (h : m ≤ n) (s : List Char) :
    ∃ w, dropBytes m s = w ++ dropBytes n s := by
  induction s generalizing m n with
  | nil => exact ⟨[], by simp [dropBytes]⟩
  | cons c s ih =>
      rcases m with _ | m
      · exact ⟨takeBytes n (c :: s), by rw [dropBytes_zero, takeBytes_append_dropBytes]⟩
      · rcases n with _ | n
        · omega
        · rw [dropBytes, dropBytes]
          · exact ih (by omega)
          · simp
          · simp

theorem settledOffset_mono (text : List Char) {m n : Nat} (h : m ≤ n) :
    settledOffset text m ≤ settledOffset text n := by
  obtain ⟨w, hw⟩ := exists_dropBytes h text
  obtain ⟨v, hv⟩ := exists_settle_append w (dropBytes n text)
  rw [settledOffset, settledOffset, hw, hv, byteLength_append]
  omega

/-- What ends with no blank, at the place it has moved to. -/
theorem span_settling {text a m c : List Char} (ht : text = a ++ m ++ c) (hm : Firm m) :
    ∃ w, settle text = w ++ tidy m ++ settle c ∧
      (settling text).span ⟨byteLength a, byteLength (a ++ m)⟩ =
        ⟨byteLength w, byteLength (w ++ tidy m)⟩ := by
  obtain ⟨w, hw⟩ := exists_settle_append a (m ++ c)
  rw [settle_append hm, ← List.append_assoc, ← List.append_assoc, ← ht] at hw
  refine ⟨w, hw, ?_⟩
  have hstart := settledOffset_append a (m ++ c)
  have hstop := settledOffset_append (a ++ m) c
  rw [← List.append_assoc, ← ht, hw, settle_append hm] at hstart
  rw [← ht, hw] at hstop
  simp only [byteLength_append] at hstart hstop
  simp only [Motion.span, settling, byteLength_append, hstart, hstop, Span.mk.injEq]
  omega

/-- It is cut out of the settled text tidied. -/
theorem slice_settling {text a m c : List Char} (ht : text = a ++ m ++ c) (hm : Firm m) :
    slice (settle text ++ ['\n']) ((settling text).span ⟨byteLength a, byteLength (a ++ m)⟩) =
      tidy m := by
  obtain ⟨w, hw, hspan⟩ := span_settling ht hm
  rw [hspan, hw, List.append_assoc (w ++ tidy m)]
  exact slice_append w (tidy m) _

namespace Syntax.Lexer

variable {text a s t r : List Char} {k : PieceKind} {st st' : State}

theorem scan_append (h : piece (t ++ s) = (k, t.length)) (ht : t ≠ []) (st : State) :
    scan st (t ++ s) = (st.token? ⟨k, t⟩).toList ++ scan (st.behind ⟨k, t⟩) s := by
  rw [scan_eq, pieces_append_piece h ht, emit, List.foldl_cons, scan_eq, List.append_assoc]

/-- Two scans are at the same place, one in a text, the other in the text settled. -/
structure Abreast (text s : List Char) (st st' : State) : Prop where
  front : ∃ a, text = a ++ s ∧ st.offset = byteLength a ∧ st.row = a.count '\n'
  offset : st'.offset + byteLength (settle s) = byteLength (settle text)
  comments : st'.comments = st.comments.map (settling text).comment
  line : settle s ≠ [] → st'.row = st.row ∧ st'.newline = st.newline

namespace Abreast

theorem extent (h : Abreast text (t ++ r) st st') (hs : Settles k t r) :
    st'.extent (settle t) = (settling text).extent (st.extent t) := by
  obtain ⟨a, rfl, hoff, hrow⟩ := h.front
  have hline := h.line (by simp [hs.append, hs.ne_nil])
  have hst := h.offset
  have hstart := settledOffset_append a (t ++ r)
  have hstop := settledOffset_append (a ++ t) r
  rw [hs.append, byteLength_append] at hst hstart
  rw [List.append_assoc, byteLength_append a] at hstop
  simp only [State.extent, Motion.extent, Motion.span, settling, id_eq, hoff, hs.breaks, hline.1,
    hstart, hstop, Extent.mk.injEq, Span.mk.injEq, and_true]
  omega

theorem token? {kind : TokenKind} (h : Abreast text (t ++ r) st st')
    (hs : Settles (.token kind) t r) (ht : settle t = if kind = .string then tidy t else t) :
    st'.token? ⟨.token kind, settle t⟩ =
      (st.token? ⟨.token kind, t⟩).map (settling text).token := by
  have hline := h.line (by simp [hs.append, hs.ne_nil])
  have htext : String.ofList (settle t) = if kind = .string then String.ofList (tidy t)
      else String.ofList t := by
    rw [ht]
    split <;> rfl
  simp only [State.token?, h.extent hs, hline.2, h.comments, htext, Option.map_some, Motion.token,
    settling, String.toList_ofList]

theorem behind (h : Abreast text (t ++ r) st st') (hs : Settles k t r) (hk : k ≠ .space)
    (hc : k = .comment → Docs.clean (settle t) = Docs.clean t) :
    Abreast text r (st.behind ⟨k, t⟩) (st'.behind ⟨k, settle t⟩) := by
  obtain ⟨a, ha, hoff, hrow⟩ := h.front
  have hline := h.line (by simp [hs.append, hs.ne_nil])
  have hst := h.offset
  rw [hs.append, byteLength_append] at hst
  have hfront : text = a ++ t ++ r := by rw [ha, List.append_assoc]
  have hrow' : st'.row + (settle t).count '\n' = st.row + t.count '\n' := by rw [hline.1, hs.breaks]
  have hoffset : (st'.behind ⟨k, settle t⟩).offset + byteLength (settle r) =
      byteLength (settle text) := by
    rw [offset_behind]
    show st'.offset + byteLength (settle t) + _ = _
    omega
  cases k with
  | space => exact absurd rfl hk
  | comment =>
      refine ⟨⟨a ++ t, hfront, by simp [hoff], by simp [State.behind, State.pass, hrow]⟩,
        hoffset, ?_, ?_⟩
      · have hremark : settledRemark (String.ofList t) = String.ofList (settle t) := by
          rw [settledRemark, String.toList_ofList, if_pos (hc rfl)]
        have hcomment : (settling text).comment ⟨String.ofList t, st.extent t⟩ =
            ⟨String.ofList (settle t), st'.extent (settle t)⟩ := by
          rw [h.extent hs, ← hremark]
          rfl
        simp only [State.behind, State.pass, h.comments, List.map_append, List.map_cons, hcomment,
          List.map_nil]
      · exact fun _ => ⟨hrow', hline.2⟩
  | token kind =>
      refine ⟨⟨a ++ t, hfront, by simp [hoff], by simp [State.behind, State.pass, hrow]⟩,
        hoffset, rfl, fun _ => ⟨hrow', rfl⟩⟩

/-- Behind a blank that stays. -/
theorem keep {c : Char} (h : Abreast text (c :: r) st st') (hc : settle (c :: r) = c :: settle r) :
    Abreast text r (st.behind ⟨.space, [c]⟩) (st'.behind ⟨.space, [c]⟩) := by
  obtain ⟨a, ha, hoff, hrow⟩ := h.front
  have hline := h.line (by simp [hc])
  have hst := h.offset
  rw [hc, byteLength] at hst
  refine ⟨⟨a ++ [c], by simp [ha], by simp [hoff], by simp [State.behind, State.pass, hrow]⟩, ?_,
    h.comments, fun _ => ?_⟩
  · rw [offset_behind]
    simp only [byteLength]
    omega
  · simp only [State.behind, State.pass, hline, and_self]

/-- Behind a blank that goes. -/
theorem drop {c : Char} (h : Abreast text (c :: r) st st')
    (hc : settle (c :: r) = settle r) (hline : settle r ≠ [] → c ≠ '\n') :
    Abreast text r (st.behind ⟨.space, [c]⟩) st' := by
  obtain ⟨a, ha, hoff, hrow⟩ := h.front
  refine ⟨⟨a ++ [c], by simp [ha], by simp [hoff], by simp [State.behind, State.pass, hrow]⟩, ?_,
    h.comments, fun hr => ?_⟩
  · rw [← h.offset, hc]
  · obtain ⟨hrows, hbreak⟩ := h.line (by rwa [hc])
    simp [State.behind, State.pass, hrows, hbreak, hline hr]

end Abreast

/-- A token at its place, with no blank at its end. -/
def Seated (text : List Char) (t : Token) : Prop :=
  ∃ a c, text = a ++ t.text.toList ++ c ∧ t.text.toList ≠ [] ∧ Firm t.text.toList ∧
    t.extent = ⟨⟨byteLength a, byteLength (a ++ t.text.toList)⟩, a.count '\n',
      (a ++ t.text.toList).count '\n'⟩

/-- The tokens of a text and those of the text settled, each list up to its end. -/
def Alike (text : List Char) (us us' : List Token) : Prop :=
  ∃ ts z z', us = ts ++ [z] ∧ us' = ts.map (settling text).token ++ [z'] ∧ z.kind = .stop ∧
    z'.kind = .stop ∧ z'.newline ∧ ∀ t ∈ ts, Seated text t

theorem Alike.cons {us us' : List Token} {u : Token} (h : Alike text us us') (hu : Seated text u) :
    Alike text (u :: us) ((settling text).token u :: us') := by
  obtain ⟨ts, z, z', rfl, rfl, hz, hz', hn, hs⟩ := h
  exact ⟨u :: ts, z, z', rfl, rfl, hz, hz', hn, by simpa using ⟨hu, hs⟩⟩

theorem Abreast.seated {kind : TokenKind} {u : Token} (h : Abreast text (t ++ r) st st')
    (hu : u ∈ st.token? ⟨.token kind, t⟩) (hf : Firm t) (ht : t ≠ []) : Seated text u := by
  obtain ⟨a, ha, hoff, hrow⟩ := h.front
  obtain ⟨hut, hue⟩ := mem_token? (Option.mem_toList.2 hu)
  dsimp only at hut hue
  refine ⟨a, r, by rw [hut, ha, List.append_assoc], hut ▸ ht, hut ▸ hf, ?_⟩
  rw [hut, hue]
  simp only [State.extent, hoff, hrow, byteLength_append, List.count_append]

theorem settle_token {kind : TokenKind} (h : piece (t ++ r) = (.token kind, t.length))
    (hs : kind ≠ .stray) (hf : Firm t) : settle t = if kind = .string then tidy t else t := by
  rw [settle_of_firm hf]
  split
  · rfl
  next hk =>
    refine tidy_of_piece h hs fun hq => hk ?_
    obtain ⟨b, rfl⟩ := List.head?_eq_some_iff.1 hq
    rw [List.cons_append, piece_backquote] at h
    split at h
    · exact (by simpa using (Prod.mk.inj h).1.symm)
    · exact absurd (by simpa using (Prod.mk.inj h).1.symm) hs

theorem scan_settle_nil (st' : State) :
    ∃ z', scan st' ['\n'] = [z'] ∧ z'.kind = .stop ∧ z'.newline := by
  have hp : piece (['\n'] ++ []) = (.space, ['\n'].length) := by decide +kernel
  have h := scan_append hp (by simp) st'
  refine ⟨(st'.behind ⟨.space, ['\n']⟩).stop, ?_, rfl, ?_⟩
  · simpa [scan, State.token?, State.stop] using h
  · simp [State.stop, State.behind, State.pass]

/-- Scans that are at the same place read the same tokens from there on. -/
theorem alike_scan (hs : ∀ t ∈ scan st s, t.kind ≠ .stray) (h : Abreast text s st st') :
    Alike text (scan st s) (scan st' (settle s ++ ['\n'])) := by
  induction hn : s.length using Nat.strongRecOn generalizing s st st' with
  | _ n ih =>
      subst hn
      cases hp : pieces s with
      | nil =>
          have hnil : s = [] := by rw [← flat_pieces s, hp]; rfl
          subst hnil
          obtain ⟨z', hz, hk, hl⟩ := scan_settle_nil st'
          exact ⟨[], st.stop, z', by rw [scan]; rfl, hz, rfl, hk, hl, by simp⟩
      | cons p ps =>
          obtain ⟨kind, t⟩ := p
          obtain ⟨he, ht, hpiece, -⟩ := pieces_eq_cons hp
          dsimp only at he ht hpiece
          generalize flat ps = r at he
          subst he
          have hlen : r.length < (t ++ r).length := by
            have := List.length_pos_iff.2 ht
            simp only [List.length_append]
            omega
          rw [scan_append hpiece ht] at hs ⊢
          have hrest {st'' : State} (hb : Abreast text r (st.behind ⟨kind, t⟩) st'') :=
            ih r.length hlen (fun u hu => hs u (List.mem_append_right _ hu)) hb rfl
          cases kind with
          | space =>
              obtain ⟨hone, hsp⟩ := space_of_piece hpiece
              obtain ⟨c, rfl⟩ := List.length_eq_one_iff.1 hone
              have hsp : isSpace c := by simpa using hsp
              rw [List.cons_append, List.nil_append] at h ⊢
              show Alike text (scan (st.behind ⟨.space, [c]⟩) r) _
              by_cases hd : settle (c :: r) = settle r
              · rw [hd]
                exact hrest (h.drop hd (ne_newline_of_settle hd))
              · have hc := settle_cons_of_ne hd
                have hpiece' : piece ([c] ++ (settle r ++ ['\n'])) = (.space, [c].length) := by
                  simp [piece, hsp]
                have hscan := scan_append hpiece' (by simp) st'
                rw [hc, List.cons_append]
                exact hscan ▸ hrest (h.keep hc)
          | comment =>
              have hset := settles_of_piece hpiece ht (by simp) (by simp)
              have hb := hrest (h.behind hset (by simp) fun _ => clean_settle hpiece)
              rw [hset.append, List.append_assoc, scan_append hset.piece hset.ne_nil]
              exact hb
          | token kind =>
              have hstray : kind ≠ .stray := by
                exact hs ⟨kind, String.ofList t, st.extent t, st.newline, st.comments⟩
                  (List.mem_append_left _ (by simp [State.token?]))
              obtain ⟨hf, hset⟩ := settles_of_token hpiece ht hstray
              have hb := hrest (h.behind hset (by simp) (by simp))
              rw [hset.append, List.append_assoc, scan_append hset.piece hset.ne_nil,
                h.token? hset (settle_token hpiece hstray hf)]
              exact hb.cons (h.seated rfl hf ht)

/-- The text settled has the tokens of the text. -/
theorem alike_tokens (hs : ∀ t ∈ tokens text, t.kind ≠ .stray) :
    Alike text (tokens text) (tokens (settle text ++ ['\n'])) := by
  have hmark : isBlank '\ufeff' = false := by decide
  unfold tokens at hs ⊢
  split at hs
  next rest =>
    have hsettle := settle_cons_of_not_blank hmark rest
    rw [hsettle, List.cons_append]
    refine alike_scan hs ⟨⟨['\ufeff'], rfl, rfl, rfl⟩, ?_, rfl, fun _ => ⟨rfl, rfl⟩⟩
    rw [hsettle]
    simp [byteLength]
  next hne =>
    have h := alike_scan hs ⟨⟨[], rfl, rfl, rfl⟩, Nat.zero_add _, rfl, fun _ => ⟨rfl, rfl⟩⟩
    split
    next rest he =>
      cases hh : settle text with
      | nil =>
          rw [hh] at he
          exact absurd (List.cons.inj he).1 (by decide)
      | cons c t =>
          rw [hh] at he
          have hc : (settle text).head? = some '\ufeff' := by
            rw [hh, (List.cons.inj he).1]
            rfl
          obtain ⟨r, hr⟩ := List.head?_eq_some_iff.1 (head?_of_settle hc (by decide))
          exact absurd hr (hne r)
    next => exact h

end Syntax.Lexer

namespace Syntax

open Lexer Syntax.Parser

variable {text : List Char} {ts us : List Token} {t u : Token}

/-- What stands from one token to another ends with no blank. -/
theorem Lexer.Seated.through (ht : Seated text t) (hu : Seated text u)
    (h : t.extent.span.start ≤ u.extent.span.stop) :
    ∃ a m c, text = a ++ m ++ c ∧ Firm m ∧ t.extent.through u.extent =
      ⟨⟨byteLength a, byteLength (a ++ m)⟩, a.count '\n', (a ++ m).count '\n'⟩ := by
  obtain ⟨a, c, ha, -, -, hta⟩ := ht
  obtain ⟨b, d, hb, hne, hf, hub⟩ := hu
  rw [hta, hub] at h ⊢
  have hpre : a <+: text := ⟨t.text.toList ++ c, by rw [ha, List.append_assoc]⟩
  obtain ⟨m, hm⟩ := prefix_of_byteLength_le hpre ⟨d, hb.symm⟩ h
  refine ⟨a, m, d, by rw [hm, hb], fun x hx => hf x ?_, by rw [hm]; rfl⟩
  have hlast := congrArg List.getLast? hm
  rw [List.getLast?_append, List.getLast?_append, Option.mem_def.1 hx] at hlast
  cases hl : u.text.toList.getLast? with
  | none => exact absurd (List.getLast?_eq_none_iff.1 hl) hne
  | some y => simpa [hl] using hlast.symm

/-- The place of some tokens, from a place behind a part of the text. -/
theorem exists_extentOf_seated (hl : Laid text ts) (hs : ∀ t ∈ ts, Seated text t) (hne : ts ≠ []) :
    ∃ a m c, text = a ++ m ++ c ∧ Firm m ∧ extentOf ts =
      ⟨⟨byteLength a, byteLength (a ++ m)⟩, a.count '\n', (a ++ m).count '\n'⟩ := by
  have ho := (hl.fits_extentOf hne).ordered
  cases ts with
  | nil => exact absurd rfl hne
  | cons t ts => exact (hs t List.mem_cons_self).through (hs _ (List.getLast_mem _)) ho

/-- What grows shorter when a text is settled has several lines, and is too long to be left out before and
behind. -/
theorem judges_settling {a m c : List Char} (ht : text = a ++ m ++ c) (hm : Firm m) :
    (settling text).Judges
      ⟨⟨byteLength a, byteLength (a ++ m)⟩, a.count '\n', (a ++ m).count '\n'⟩ := by
  obtain ⟨w, _, hspan⟩ := span_settling ht hm
  rw [Motion.Judges, Grammar.dropCost, Grammar.dropCost, Motion.extent, hspan]
  simp only [settling, id_eq, byteLength_append, List.count_append, Nat.add_sub_cancel_left,
    Grammar.forgivenFrom]
  by_cases hn : '\n' ∈ m
  · have := List.count_pos_iff.2 hn
    omega
  · rw [tidy_eq_self hn]

theorem fair_settling (hl : Laid text ts) (hs : ∀ t ∈ ts, Seated text t) :
    (settling text).Fair ts := by
  intro used hi hne _
  have hsub := hi.sublist
  obtain ⟨a, m, c, ht, hm, he⟩ := exists_extentOf_seated (hl.sublist hsub)
    (fun t hu => hs t (hsub.subset hu)) hne
  rw [he]
  exact judges_settling ht hm

end Syntax

end GoOutline
