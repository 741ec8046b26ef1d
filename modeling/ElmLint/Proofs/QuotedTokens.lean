import ElmLint.Proofs.BlockMarkers
import ElmLint.Proofs.Insertions
import ElmLint.Proofs.Partition
import ElmLint.Proofs.Spelling

/-!
# Tokens between quotes

The scanner and the grammar tell by the same quotes where a literal is, but they do so in different texts. What is a string or a character by
its length is a body between quotes (`exists_enclose_of_string`, `exists_enclose_of_char`), and a token of that form has the kind that the
quotes tell (`Enclosure.kind_of_token`). In a scanned text every quote belongs to a token that begins with a quote
(`Scanned.exists_token_of_quote`). Layout writes no marker inside a token (`Scanned.insertions_outside`), so in the laid-out text such a
token stands as a whole (`LaidOut.exists_whole`), and a quote there is one of a token (`LaidOut.exists_token_of_quote`).
-/

namespace ElmLint

/-! ## What is between the quotes -/

/-- What is longer on the left ends as late. -/
theorem exists_end_append {ending cs : List Char} {n : Nat} (as : List Char)
    (h : ∃ body rest, cs = body ++ ending ++ rest ∧ n = (body ++ ending).length) :
    ∃ body rest, as ++ cs = body ++ ending ++ rest ∧ n + as.length = (body ++ ending).length := by
  obtain ⟨body, rest, rfl, rfl⟩ := h
  exact ⟨as ++ body, rest, by simp, by simp only [List.length_append]; omega⟩

theorem exists_of_quotedEnd? {q : Char} {acrossLines : Bool} (cs : List Char) : ∀ {n : Nat},
    quotedEnd? q acrossLines cs = some n → ∃ body rest, cs = body ++ [q] ++ rest ∧ n = (body ++ [q]).length := by
  fun_induction quotedEnd? q acrossLines cs with
  | case1 =>
    intro n h
    cases h
  | case2 c cs hline =>
    intro n h
    cases h
  | case3 c cs hline ih =>
    intro n h
    obtain ⟨k, hk, rfl⟩ := Option.map_eq_some_iff.1 h
    exact exists_end_append ['\\', c] (ih hk)
  | case4 c cs hescape hquote =>
    intro n h
    cases h
    exact ⟨[], cs, by rw [beq_iff_eq.1 hquote]; rfl, rfl⟩
  | case5 c cs hescape hquote hstop =>
    intro n h
    cases h
  | case6 c cs hescape hquote hstop ih =>
    intro n h
    obtain ⟨k, hk, rfl⟩ := Option.map_eq_some_iff.1 h
    exact exists_end_append [c] (ih hk)

theorem exists_of_blockStringEnd? (cs : List Char) : ∀ {n : Nat}, blockStringEnd? cs = some n →
    ∃ body rest, cs = body ++ ['"', '"', '"'] ++ rest ∧ n = (body ++ ['"', '"', '"']).length := by
  fun_induction blockStringEnd? cs with
  | case1 =>
    intro n h
    cases h
  | case2 cs =>
    intro n h
    cases h
    exact ⟨[], cs, rfl, rfl⟩
  | case3 c cs ih =>
    intro n h
    obtain ⟨k, hk, rfl⟩ := Option.map_eq_some_iff.1 h
    exact exists_end_append ['\\', c] (ih hk)
  | case4 c cs hquotes hescape hback =>
    intro n h
    cases h
  | case5 c cs hquotes hescape hback ih =>
    intro n h
    obtain ⟨k, hk, rfl⟩ := Option.map_eq_some_iff.1 h
    exact exists_end_append [c] (ih hk)

/-- A string is a body between double quotes, or between three of them on each side. -/
theorem exists_enclose_of_string {acrossLines : Bool} {cs : List Char} {n : Nat} (h : stringLength? acrossLines cs = some n) :
    ∃ (e : Enclosure) (body rest : List Char), e.kind = .string ∧ cs = e.enclose body ++ rest ∧ n = (e.enclose body).length ∧
      (e = .line → ¬ ['"', '"', '"'] <+: e.enclose body) := by
  obtain ⟨cs, rfl⟩ := exists_of_stringLength? h
  by_cases htriple : ['"', '"'] <+: cs
  · obtain ⟨cs, rfl⟩ := htriple
    rw [List.cons_append, List.singleton_append, stringLength?_quotes] at h
    cases hblock : blockStringEnd? cs with
    | some k =>
      obtain ⟨body, rest, rfl, rfl⟩ := exists_of_blockStringEnd? cs hblock
      rw [hblock, Option.elim_some, Option.some.injEq] at h
      refine ⟨.block, body, rest, rfl, rfl, ?_, nofun⟩
      rw [← h]
      simp [Enclosure.enclose, Enclosure.delimiter]
    | none =>
      -- The empty string, with one quote more after it.
      rw [hblock, Option.elim_none, Option.some.injEq] at h
      exact ⟨.line, [], '"' :: cs, rfl, rfl, h.symm, fun _ => by decide⟩
  · rw [stringLength?_cons htriple] at h
    obtain ⟨k, hk, rfl⟩ := Option.map_eq_some_iff.1 h
    obtain ⟨body, rest, rfl, rfl⟩ := exists_of_quotedEnd? cs hk
    refine ⟨.line, body, rest, rfl, rfl, ?_, fun _ hbegins => htriple ?_⟩
    · simp [Enclosure.enclose, Enclosure.delimiter]
    · exact ((List.prefix_cons_inj _).1 hbegins).trans (List.prefix_append _ _)

/-- A character is a body between apostrophes. -/
theorem exists_enclose_of_char {acrossLines : Bool} {cs : List Char} {n : Nat} (h : charLength? acrossLines cs = some n) :
    ∃ body rest, cs = Enclosure.char.enclose body ++ rest ∧ n = (Enclosure.char.enclose body).length := by
  obtain ⟨cs, rfl⟩ := exists_of_charLength? h
  have hhead : cs.head? ≠ some '\'' := by
    intro hhead
    obtain ⟨rest, rfl⟩ := List.head?_eq_some_iff.1 hhead
    cases h
  rw [charLength?_cons hhead] at h
  obtain ⟨k, hk, rfl⟩ := Option.map_eq_some_iff.1 h
  obtain ⟨body, rest, rfl, rfl⟩ := exists_of_quotedEnd? cs hk
  exact ⟨body, rest, rfl, by simp [Enclosure.enclose, Enclosure.delimiter]⟩

/-- A token of a body between quotes has the kind that the quotes tell. -/
theorem Enclosure.kind_of_token {e : Enclosure} {body cs : List Char} {kind : Token.Kind}
    (h : firstPiece? (e.enclose body ++ cs) = some (.token kind, (e.enclose body).length)) : kind = e.kind := by
  rcases token_cases h with ⟨-, hsolid⟩ | hstring | hchar | ⟨c, hsingle, -⟩
  · have hquote := hsolid e.quote (by cases e <;> exact List.mem_cons_self)
    cases e <;> cases hquote
  · cases e with
    | line | block =>
      have hpiece : firstPiece? _ = some (.token .string, _) :=
        firstPiece?_of_begins (stringLength? true) (by simp [pieceClasses]) (by decide +kernel) (by decide) (by decide) hstring
      exact Piece.Kind.token.inj (Prod.mk.inj (Option.some.inj (h.symm.trans hpiece))).1
    | char => cases hstring
  · cases e with
    | line | block => cases hchar
    | char =>
      have hpiece : firstPiece? _ = some (.token .char, _) :=
        firstPiece?_of_begins (charLength? true) (by simp [pieceClasses]) (by decide +kernel) (by decide) (by decide) hchar
      exact Piece.Kind.token.inj (Prod.mk.inj (Option.some.inj (h.symm.trans hpiece))).1
  · have hlength := congrArg List.length hsingle
    cases e <;> simp [enclose, delimiter] at hlength

/-! ## Tokens that begin with a quote -/

/-- Whether a token begins with a quote: a string, a character, or a quote that begins neither. -/
def Token.isQuoted (t : Token) : Bool := t.text.toList.head?.any isQuote

namespace Scanned

variable {source : List Char} {s : Scanned} (hs : ofSource source = .ok s)

include hs

/-- Every quote of the scanned text belongs to a token that begins with a quote. -/
theorem exists_token_of_quote {o : Nat} {c : Char} (hc : s.text[o]? = some c) (hquote : isQuote c = true) :
    ∃ t ∈ s.tokens, t.isQuoted = true ∧ InSpan o t.span := by
  obtain ⟨ps, htiles, rfl⟩ := ofSource_ok_iff.1 hs
  have hlt := (List.getElem?_eq_some_iff.1 hc).1
  rw [length_text hs] at hlt
  obtain ⟨p, hp, ho⟩ := htiles.exists_inSpan (List.getElem?_eq_getElem hlt)
  obtain ⟨hsource, htext⟩ := htiles.getElem?_of_inSpan hp ho
  rw [hc] at htext
  rcases htiles.cases_of_piece hp with ⟨t, ht, hkind, hword, hspan⟩ | ⟨hkind, -⟩ | ⟨hkind, hblank⟩
  · refine ⟨t, ht, ?_, hspan ▸ ho⟩
    rw [if_neg (by rw [hkind]; nofun), hsource] at htext
    obtain ⟨rest, -, hfirst⟩ := htiles.cut p hp
    by_contra hhead
    rw [Token.isQuoted, hword] at hhead
    have hplain := plain_of_token (hkind ▸ hfirst) hhead c (List.mem_of_getElem? htext.symm)
    rw [hquote] at hplain
    cases hplain.2
  · rw [if_pos hkind] at htext
    obtain ⟨d, -, rfl⟩ := Option.map_eq_some_iff.1 htext.symm
    rcases blanked_cases d with hd | ⟨-, hd⟩ <;> rw [hd] at hquote <;> cases hquote
  · rw [if_neg (by rw [hkind]; nofun), hsource] at htext
    have hnot := hblank c (List.mem_of_getElem? htext.symm)
    rw [(isBlank_of_isQuote hquote).1] at hnot
    cases hnot

/-- Layout writes no marker inside a token. -/
theorem insertions_outside {t : Token} (ht : t ∈ s.tokens) : ∀ i ∈ Layout.insertions s.tokens, i.1 ≤ t.start ∨ t.stop ≤ i.1 := by
  have houtside : ∀ u ∈ s.tokens, (u.start ≤ t.start ∨ t.stop ≤ u.start) ∧ (u.stop ≤ t.start ∨ t.stop ≤ u.stop) := by
    intro u hu
    have := token_bounds hs u hu
    by_cases heq : t = u
    · subst heq
      exact ⟨.inl (Nat.le_refl _), .inr (Nat.le_refl _)⟩
    · rcases disjoint_tokens hs ht hu heq with hbefore | hafter <;> omega
  intro i hi
  rw [Layout.insertions_eq, List.mem_append] at hi
  rcases hi with hi | hi
  · obtain ⟨u, hu, hstart⟩ := Layout.mem_beforeTokens hi
    exact hstart ▸ (houtside u hu).1
  · obtain ⟨u, hu, hstop⟩ := Layout.mem_afterTokens hi
    exact congrArg Prod.fst hstop ▸ (houtside u (List.mem_of_getLast? hu)).2

end Scanned

/-! ## Tokens in the laid-out text -/

namespace LaidOut

section Scanned

variable {source : List Char} {s : Scanned} (hs : Scanned.ofSource source = .ok s) (hsource : ∀ c ∈ source, isMarker c = false)

include hs hsource

/-- What comes after a part of the text is as much further on in the source as the part has characters other than markers. -/
theorem sourceOffset_after {part rest : List Char} : ∀ {i : Nat}, (ofScanned source s).text.drop i = part ++ rest →
    (ofScanned source s).text.drop (i + part.length) = rest ∧
      (ofScanned source s).sourceOffset (i + part.length) =
        (ofScanned source s).sourceOffset i + part.countP fun c => !isMarker c := by
  have hmarked := wellMarked_ofSource (ofSource_ok_iff.2 ⟨s, hs, rfl⟩)
  induction part with
  | nil => exact fun h => ⟨h, rfl⟩
  | cons c part ih =>
    intro i h
    have hc : (ofScanned source s).text[i]? = some c := by rw [← List.head?_drop, h]; rfl
    obtain ⟨hdrop, hoffset⟩ := ih (i := i + 1) (by rw [← List.drop_drop, h]; rfl)
    rw [List.length_cons, Nat.add_comm part.length 1, ← Nat.add_assoc]
    refine ⟨hdrop, ?_⟩
    rw [hoffset, hmarked.sourceOffset_succ, List.countP_cons]
    cases hmarker : isMarker c with
    | true => rw [if_pos ((mem_markers_iff hs hsource hc).2 hmarker), if_neg (by simp), Nat.add_zero, Nat.add_zero]
    | false =>
      rw [if_neg (mt (mem_markers_iff hs hsource hc).1 (by simp [hmarker])), Bool.not_false, if_pos rfl]
      omega

/-- A part without markers is as long in the source. -/
theorem sourceOffset_after_plain {part rest : List Char} {i : Nat} (h : (ofScanned source s).text.drop i = part ++ rest)
    (hplain : ∀ c ∈ part, isMarker c = false) : (ofScanned source s).text.drop (i + part.length) = rest ∧
      (ofScanned source s).sourceOffset (i + part.length) = (ofScanned source s).sourceOffset i + part.length := by
  have hall : (part.countP fun c => !isMarker c) = part.length :=
    List.countP_eq_length.2 fun c hc => by rw [hplain c hc]; rfl
  obtain ⟨hdrop, hoffset⟩ := sourceOffset_after hs hsource h
  rw [hall] at hoffset
  exact ⟨hdrop, hoffset⟩

/-- Markers alone take nothing from the source. -/
theorem sourceOffset_after_markers {part rest : List Char} {i : Nat} (h : (ofScanned source s).text.drop i = part ++ rest)
    (hmarkers : ∀ c ∈ part, isMarker c = true) : (ofScanned source s).text.drop (i + part.length) = rest ∧
      (ofScanned source s).sourceOffset (i + part.length) = (ofScanned source s).sourceOffset i := by
  have hnone : (part.countP fun c => !isMarker c) = 0 := List.countP_eq_zero.2 fun c hc => by simp [hmarkers c hc]
  obtain ⟨hdrop, hoffset⟩ := sourceOffset_after hs hsource h
  rw [hnone, Nat.add_zero] at hoffset
  exact ⟨hdrop, hoffset⟩

open Layout in
/-- In the laid-out text of some pieces, the tokens that begin with a quote stand where they stand in the source, and are read as a whole. -/
theorem exists_whole_of_tiles {offset : Nat} {ps : List Piece} {cs : List Char} (h : Tiles offset ps cs) :
    source.drop offset = cs → (∀ c ∈ ps.flatMap Piece.visible, isMarker c = false) →
    ∀ (st : State) (i : Nat), (ofScanned source s).text.drop i = laid (lineStarts source) st ps →
      (ofScanned source s).sourceOffset i = offset →
      ∀ t ∈ ps.filterMap (Piece.token? (lineStarts source)), t.isQuoted = true →
        ∃ o rest, (ofScanned source s).sourceOffset o = t.start ∧ (ofScanned source s).text.drop o = t.text.toList ++ rest ∧
          Whole t.text.toList rest := by
  induction h with
  | nil => exact fun _ _ _ _ _ _ t ht => nomatch ht
  | @cons offset p ps cs hstart htext hfirst htail ih =>
    intro hrest hplain st i hlaid hoffset
    subst hstart
    have ih := ih (by rw [Piece.stop, ← List.drop_drop, hrest, List.drop_left])
      fun c hc => hplain c (List.mem_append_right _ hc)
    have hvisible : ∀ c ∈ p.visible, isMarker c = false := fun c hc => hplain c (List.mem_append_left _ hc)
    cases ht : p.token? (lineStarts source) with
    | none =>
      rw [laid, ht] at hlaid
      obtain ⟨hdrop, hnext⟩ := sourceOffset_after_plain hs hsource hlaid hvisible
      rw [hoffset, Tiles.length_visible] at hnext
      rw [Tiles.length_visible] at hdrop
      rw [List.filterMap_cons_none ht]
      exact ih st _ hdrop hnext
    | some t =>
      obtain ⟨hkind, hword, hspan, -⟩ := Piece.of_token? ht
      rw [laid_token ht] at hlaid
      -- First the markers before the token, then the token, then those that close the last blocks.
      obtain ⟨hdrop, hnext⟩ := sourceOffset_after_markers hs hsource hlaid (by simpa using fun m _ => isMarker_char m)
      rw [hoffset] at hnext
      rw [List.filterMap_cons_some ht]
      refine List.forall_mem_cons.2 ⟨fun hquoted => ?_, ?_⟩
      · rw [Token.isQuoted, hword, String.toList_ofList] at hquoted
        rw [hword, String.toList_ofList]
        exact ⟨_, _, hnext.trans (congrArg Prod.fst hspan).symm, hdrop, Tiles.whole hkind ht hrest hfirst htail hquoted st⟩
      · obtain ⟨hdrop', hnext'⟩ := sourceOffset_after_plain hs hsource hdrop (visible_of_token? ht ▸ hvisible)
        obtain ⟨hdrop'', hnext''⟩ := sourceOffset_after_markers hs hsource hdrop' fun c hc => by
          split at hc
          · obtain ⟨b, -, rfl⟩ := List.mem_map.1 hc
            rfl
          · cases hc
        exact ih _ _ hdrop'' (hnext''.trans (hnext'.trans (congrArg (· + p.text.length) hnext)))

/-- A token that begins with a quote stands as a whole in the laid-out text, from the offset of its quote on. -/
theorem exists_whole {t : Token} (ht : t ∈ s.tokens) (hquoted : t.isQuoted = true) :
    ∃ o q rest, (ofScanned source s).sourceOffset o = t.start ∧ (ofScanned source s).text[o]? = some q ∧ isQuote q = true ∧
      o ∉ (ofScanned source s).markers ∧ (ofScanned source s).text.drop o = t.text.toList ++ rest ∧ Whole t.text.toList rest := by
  obtain ⟨ps, htiles, htokens, htext, hlaid⟩ := Scanned.exists_pieces hs
  have hstart : (ofScanned source s).sourceOffset 0 = 0 := Nat.zero_sub _
  obtain ⟨o, rest, hoffset, hdrop, hwhole⟩ := exists_whole_of_tiles hs hsource htiles rfl
    (htext ▸ Scanned.isMarker_text hs hsource) .start 0 hlaid hstart t (htokens ▸ ht) hquoted
  obtain ⟨q, hq, hquote⟩ := (Option.any_eq_true _ _).1 hquoted
  have hchar : (ofScanned source s).text[o]? = some q := by rw [← List.head?_drop, hdrop, List.head?_append, hq]; rfl
  refine ⟨o, q, rest, hoffset, hchar, hquote, ?_, hdrop, hwhole⟩
  exact mt (mem_markers_iff hs hsource hchar).1 (by simp [(isBlank_of_isQuote hquote).2])

/-- A quote of the laid-out text belongs to a token that begins with a quote. If it is the first character of the token, then the
token is what is read there. -/
theorem exists_token_of_quote {o : Nat} {c : Char} (hc : (ofScanned source s).text[o]? = some c) (hquote : isQuote c = true) :
    ∃ t ∈ s.tokens, t.isQuoted = true ∧ InSpan ((ofScanned source s).sourceOffset o) t.span ∧
      ((ofScanned source s).sourceOffset o = t.start →
        ∃ rest, (ofScanned source s).text.drop o = t.text.toList ++ rest ∧ Whole t.text.toList rest) := by
  rcases getElem?_sourceOffset hs hc with ⟨-, hmarker⟩ | ⟨hmem, hscanned⟩
  · rw [(isBlank_of_isQuote hquote).2] at hmarker
    cases hmarker
  obtain ⟨t, ht, hquoted, hspan⟩ := Scanned.exists_token_of_quote hs hscanned hquote
  refine ⟨t, ht, hquoted, hspan, fun hstart => ?_⟩
  -- Both offsets are those of the first character of the token, which is no marker.
  obtain ⟨o', q, rest, hoffset, hq, -, hmem', hdrop, hwhole⟩ := exists_whole hs hsource ht hquoted
  obtain rfl := (bijOn_sourceOffset hs).injOn ⟨(List.getElem?_eq_some_iff.1 hc).1, hmem⟩
    ⟨(List.getElem?_eq_some_iff.1 hq).1, hmem'⟩ (hstart.trans hoffset.symm)
  exact ⟨rest, hdrop, hwhole⟩

end Scanned

end LaidOut

end ElmLint
