import ElmLint.Proofs.Dashes
import ElmLint.Proofs.Parse

/-!
# Block comments

What stands between the delimiters of a block comment is told by a grammar, `CommentBody`. Counting the comments that are open comes to
its end where the text has closed them all (`closesAll_of_blockCommentEnd?`, `ClosesAll.ends`), so a comment ends where its slice is one
(`commentStop?_eq_some_iff`).

A scan comes from piece to piece (`Reached`). Where no piece is cut, a comment opens that is never closed
(`firstPiece?_drop_eq_none_iff`), and there the scan fails (`pieces_eq_error_iff`). No token but a literal goes on past a brace
(`eq_brace_of_token`), so a scan comes to each comment that opens outside literals and other comments (`OpensAt.reached_iff`).

* `Scanned.block_comments_balanced`: block comments are the balanced ones, and the error of a scan is at the opener of one that is never
  closed, outside literals and other comments.
-/

namespace ElmLint

/-! ## Balanced comments -/

/-- What stands between the delimiters of a block comment: block comments, and characters that begin no delimiter, read from left to
right up to the delimiter that closes the comment. -/
inductive CommentBody : List Char → Prop
  | nil : CommentBody []
  | char {c : Char} {body : List Char} : ¬ ['{', '-'] <+: c :: body ++ ['-', '}'] → ¬ ['-', '}'] <+: c :: body ++ ['-', '}'] →
      CommentBody body → CommentBody (c :: body)
  | nested {inner body : List Char} : CommentBody inner → CommentBody body →
      CommentBody (['{', '-'] ++ inner ++ ['-', '}'] ++ body)

/-- A block comment with its delimiters. -/
def IsBlockComment (text : List Char) : Prop := ∃ body, CommentBody body ∧ text = ['{', '-'] ++ body ++ ['-', '}']

/-! ## The end of a comment -/

/-- A character that begins no delimiter is passed over. -/
theorem blockCommentEnd?_char {c : Char} {cs : List Char} (hopener : ¬ ['{', '-'] <+: c :: cs) (hcloser : ¬ ['-', '}'] <+: c :: cs)
    (depth : Nat) : blockCommentEnd? depth (c :: cs) = (blockCommentEnd? depth cs).map (· + 1) := by
  refine blockCommentEnd?.eq_5 depth c cs ?_ ?_ ?_
  · rintro rest rfl rfl
    exact hopener (List.prefix_append ['{', '-'] rest)
  · rintro rest - rfl rfl
    exact hcloser (List.prefix_append ['-', '}'] rest)
  · rintro - rest - rfl rfl
    exact hcloser (List.prefix_append ['-', '}'] rest)

/-- What is left of a block comment in which `depth` more comments are open: the rest of each of them, the innermost first. -/
def ClosesAll : Nat → List Char → Prop
  | 0, text => ∃ body, CommentBody body ∧ text = body ++ ['-', '}']
  | depth + 1, text => ∃ body rest, CommentBody body ∧ ClosesAll depth rest ∧ text = body ++ ['-', '}'] ++ rest

/-- The rest of a comment begins with the rest of the innermost one that is open; what can stand before the latter can stand before
the former. -/
theorem ClosesAll.prepend {before text : List Char} {depth : Nat} (h : ClosesAll depth text)
    (hbefore : ∀ body, CommentBody body → body ++ ['-', '}'] <+: text → CommentBody (before ++ body)) :
    ClosesAll depth (before ++ text) := by
  cases depth with
  | zero =>
    obtain ⟨body, hbody, rfl⟩ := h
    exact ⟨before ++ body, hbefore body hbody (List.prefix_refl _), by simp⟩
  | succ depth =>
    obtain ⟨body, rest, hbody, hrest, rfl⟩ := h
    exact ⟨before ++ body, rest, hbefore body hbody (List.prefix_append _ _), hrest, by simp⟩

/-- The end that is found closes all comments. -/
theorem closesAll_of_blockCommentEnd? {depth : Nat} {cs : List Char} :
    ∀ {n : Nat}, blockCommentEnd? depth cs = some n → ClosesAll depth (cs.take n) := by
  fun_induction blockCommentEnd? depth cs with
  | case1 =>
    intro n hn
    cases hn
  | case2 depth cs ih =>
    intro n hn
    obtain ⟨k, hk, rfl⟩ := Option.map_eq_some_iff.1 hn
    obtain ⟨inner, rest, hinner, hrest, htake⟩ := ih hk
    have hclosed : ClosesAll depth ((['{', '-'] ++ inner ++ ['-', '}']) ++ rest) :=
      hrest.prepend fun body hbody _ => .nested hinner hbody
    rw [List.append_assoc, List.append_assoc, ← List.append_assoc inner, ← htake] at hclosed
    exact hclosed
  | case3 cs =>
    intro n hn
    cases hn
    exact ⟨[], .nil, rfl⟩
  | case4 depth cs ih =>
    intro n hn
    obtain ⟨k, hk, rfl⟩ := Option.map_eq_some_iff.1 hn
    exact ⟨[], cs.take k, .nil, ih hk, rfl⟩
  | case5 depth c cs hopener hcloser hcloser' ih =>
    intro n hn
    obtain ⟨k, hk, rfl⟩ := Option.map_eq_some_iff.1 hn
    have hchar : ∀ body, CommentBody body → body ++ ['-', '}'] <+: cs.take k → CommentBody ([c] ++ body) := by
      intro body hbody hbegins
      have hlonger : c :: body ++ ['-', '}'] <+: c :: cs := List.cons_prefix_cons.2 ⟨rfl, hbegins.trans (List.take_prefix k cs)⟩
      refine .char (fun hdelimiter => ?_) (fun hdelimiter => ?_) hbody
      · obtain ⟨rest, hrest⟩ := hdelimiter.trans hlonger
        obtain ⟨rfl, rfl⟩ := List.cons_eq_cons.1 hrest
        exact hopener rest rfl rfl
      · obtain ⟨rest, hrest⟩ := hdelimiter.trans hlonger
        obtain ⟨rfl, rfl⟩ := List.cons_eq_cons.1 hrest
        cases depth with
        | zero => exact hcloser rest rfl rfl rfl
        | succ depth => exact hcloser' depth rest rfl rfl rfl
    exact (ih hk).prepend hchar

/-- What stands in a comment is passed over up to its closer. -/
theorem CommentBody.skips {body : List Char} (h : CommentBody body) : ∀ (depth : Nat) (rest : List Char),
    blockCommentEnd? depth (body ++ (['-', '}'] ++ rest)) =
      (blockCommentEnd? depth (['-', '}'] ++ rest)).map (· + body.length) := by
  induction h with
  | nil => intro depth rest; simp
  | @char c body hopener hcloser _ ih =>
    intro depth rest
    have hshorter : ∀ d e : Char, [d, e] <+: c :: (body ++ (['-', '}'] ++ rest)) → [d, e] <+: c :: body ++ ['-', '}'] := by
      intro d e hdelimiter
      exact List.prefix_of_prefix_length_le hdelimiter ⟨rest, by simp⟩ (by simp)
    rw [List.cons_append, blockCommentEnd?_char (fun h => hopener (hshorter _ _ h)) (fun h => hcloser (hshorter _ _ h)), ih,
      Option.map_map]
    rfl
  | @nested inner body _ _ ihinner ihbody =>
    intro depth rest
    have hinner : blockCommentEnd? depth (['{', '-'] ++ inner ++ ['-', '}'] ++ body ++ (['-', '}'] ++ rest)) =
        (blockCommentEnd? (depth + 1) (inner ++ (['-', '}'] ++ (body ++ (['-', '}'] ++ rest))))).map (· + 2) := by
      simp only [List.append_assoc]
      rfl
    have hcloser : blockCommentEnd? (depth + 1) (['-', '}'] ++ (body ++ (['-', '}'] ++ rest))) =
        (blockCommentEnd? depth (body ++ (['-', '}'] ++ rest))).map (· + 2) := rfl
    rw [hinner, ihinner, hcloser, ihbody]
    simp only [Option.map_map, List.length_append, List.length_cons, List.length_nil]
    congr 1
    funext n
    simp only [Function.comp_apply]
    omega

/-- What closes all comments ends where the end is found. -/
theorem ClosesAll.ends {depth : Nat} : ∀ {text : List Char}, ClosesAll depth text → ∀ rest,
    blockCommentEnd? depth (text ++ rest) = some text.length := by
  induction depth with
  | zero =>
    rintro _ ⟨body, hbody, rfl⟩ rest
    have hcloser : blockCommentEnd? 0 (['-', '}'] ++ rest) = some 2 := rfl
    rw [List.append_assoc, hbody.skips, hcloser, Option.map_some, List.length_append, Nat.add_comm]
    rfl
  | succ depth ih =>
    rintro _ ⟨body, text, hbody, htext, rfl⟩ rest
    have hcloser : blockCommentEnd? (depth + 1) (['-', '}'] ++ (text ++ rest)) =
        (blockCommentEnd? depth (text ++ rest)).map (· + 2) := rfl
    rw [List.append_assoc, List.append_assoc, hbody.skips, hcloser, ih htext]
    simp only [Option.map_some, List.length_append, List.length_cons, List.length_nil]
    congr 1
    omega

/-- The end that is found is that of a body and its closer. -/
theorem blockCommentEnd?_eq_some_iff {cs : List Char} {n : Nat} :
    blockCommentEnd? 0 cs = some n ↔ n ≤ cs.length ∧ ∃ body, CommentBody body ∧ cs.take n = body ++ ['-', '}'] := by
  constructor
  · exact fun h => ⟨(reads_blockCommentEnd? 0 cs n h).2, closesAll_of_blockCommentEnd? h⟩
  · rintro ⟨hle, hbody⟩
    have hclosed : ClosesAll 0 (cs.take n) := hbody
    have hends := hclosed.ends (cs.drop n)
    rwa [List.take_append_drop, List.length_take_of_le hle] at hends

/-! ## Comments in a source -/

/-- A block comment opens at an offset. -/
def OpensAt (source : List Char) (o : Nat) : Prop := ['{', '-'] <+: source.drop o

/-- The slice between two offsets of a source is a block comment. -/
def IsCommentSlice (source : List Char) (o e : Nat) : Prop := e ≤ source.length ∧ IsBlockComment (spanned source (o, e))

/-- The offset just past the block comment that opens at an offset, if it is ever closed. -/
def commentStop? (source : List Char) (o : Nat) : Option Nat := (blockCommentEnd? 0 (source.drop (o + 2))).map (o + 2 + ·)

section Slices

variable {source : List Char} {o : Nat}

theorem OpensAt.drop (h : OpensAt source o) : source.drop o = '{' :: '-' :: source.drop (o + 2) := by
  obtain ⟨rest, hrest⟩ := h
  rw [← List.drop_drop, ← hrest]
  rfl

theorem OpensAt.length_drop (h : OpensAt source o) : o + 2 + (source.drop (o + 2)).length = source.length := by
  have hlength := congrArg List.length h.drop
  simp only [List.length_drop, List.length_cons] at hlength ⊢
  omega

/-- A slice from where a comment opens begins with the opener. -/
theorem OpensAt.spanned (h : OpensAt source o) (n : Nat) :
    ElmLint.spanned source (o, o + 2 + n) = ['{', '-'] ++ (source.drop (o + 2)).take n := by
  have hlength : o + 2 + n - o = n + 2 := by omega
  rw [ElmLint.spanned, List.drop_take, hlength, h.drop]
  rfl

/-- A block comment ends where its slice is one. -/
theorem commentStop?_eq_some_iff (h : OpensAt source o) {e : Nat} : commentStop? source o = some e ↔ IsCommentSlice source o e := by
  have hlength := h.length_drop
  rw [commentStop?, Option.map_eq_some_iff]
  constructor
  · rintro ⟨n, hn, rfl⟩
    obtain ⟨hle, body, hbody, htake⟩ := blockCommentEnd?_eq_some_iff.1 hn
    refine ⟨by omega, body, hbody, ?_⟩
    rw [h.spanned, htake, List.append_assoc]
  · rintro ⟨hle, body, hbody, htext⟩
    have hlong : 4 ≤ (ElmLint.spanned source (o, e)).length := by
      rw [htext]
      simp
    have hpast : o + 2 ≤ e := by
      simp only [ElmLint.spanned, List.length_drop, List.length_take] at hlong
      omega
    obtain ⟨n, rfl⟩ := Nat.exists_eq_add_of_le hpast
    refine ⟨n, blockCommentEnd?_eq_some_iff.2 ⟨by omega, body, hbody, ?_⟩, rfl⟩
    rw [h.spanned, List.append_assoc] at htext
    exact List.append_cancel_left htext

example : commentStop? ['{', '-', '}', '-', '}', '}'] 0 = some 5 := by decide

example : commentStop? ['{', '-', '{', '-', '}', '-', '}'] 0 = none := by decide

/-- A slice that is a comment opens one. -/
theorem IsCommentSlice.opensAt {e : Nat} (h : IsCommentSlice source o e) : OpensAt source o := by
  obtain ⟨-, body, -, htext⟩ := h
  have hbegins : ElmLint.spanned source (o, e) <+: source.drop o := by
    rw [ElmLint.spanned, List.drop_take]
    exact List.take_prefix _ _
  rw [htext, List.append_assoc] at hbegins
  exact (List.prefix_append _ _).trans hbegins

theorem IsCommentSlice.unique {e e' : Nat} (h : IsCommentSlice source o e) (h' : IsCommentSlice source o e') : e = e' :=
  Option.some.inj (((commentStop?_eq_some_iff h.opensAt).2 h).symm.trans ((commentStop?_eq_some_iff h.opensAt).2 h'))

theorem commentStop?_eq_none_iff (h : OpensAt source o) : commentStop? source o = none ↔ ∀ e, ¬ IsCommentSlice source o e := by
  simp only [Option.eq_none_iff_forall_ne_some, ne_eq, commentStop?_eq_some_iff h]

end Slices

/-! ## The way of a scan -/

/-- A piece that the source can be cut into from the place where it starts. -/
def PieceAt (source : List Char) (p : Piece) : Prop :=
  p.text ≠ [] ∧ ∃ rest, source.drop p.start = p.text ++ rest ∧ firstPiece? (p.text ++ rest) = some (p.kind, p.text.length)

/-- The offsets that a scan comes to: the first one, and the one just past each piece that it cuts. -/
inductive Reached (source : List Char) : Nat → Prop
  | start : Reached source 0
  | past {p : Piece} : Reached source p.start → PieceAt source p → Reached source p.stop

theorem firstPiece?_eq_none_iff {cs : List Char} :
    firstPiece? cs = none ↔ ∃ rest, cs = '{' :: '-' :: rest ∧ blockCommentEnd? 0 rest = none := by
  constructor
  · intro h
    unfold firstPiece? at h
    split at h
    · next rest => exact ⟨rest, rfl, Option.map_eq_none_iff.1 h⟩
    · cases h
    · cases h
  · rintro ⟨rest, rfl, hnone⟩
    rw [firstPiece?, hnone, Option.map_none]

section Scans

variable {source : List Char}

/-- Where a block comment opens, the piece that is cut goes up to the end of the comment. -/
theorem OpensAt.firstPiece?_drop {o : Nat} (h : OpensAt source o) :
    firstPiece? (source.drop o) = (commentStop? source o).map fun e => (.comment, e - o) := by
  rw [h.drop, firstPiece?, commentStop?, Option.map_map]
  congr 1
  funext n
  have hlength : o + 2 + n - o = n + 2 := by omega
  rw [Function.comp_apply, hlength]

/-- No piece begins just where a block comment opens that is never closed. -/
theorem firstPiece?_drop_eq_none_iff {o : Nat} :
    firstPiece? (source.drop o) = none ↔ OpensAt source o ∧ ∀ e, ¬ IsCommentSlice source o e := by
  have hnone : OpensAt source o → (firstPiece? (source.drop o) = none ↔ ∀ e, ¬ IsCommentSlice source o e) := by
    intro hopens
    rw [hopens.firstPiece?_drop, Option.map_eq_none_iff, commentStop?_eq_none_iff hopens]
  constructor
  · intro h
    obtain ⟨rest, hrest, -⟩ := firstPiece?_eq_none_iff.1 h
    have hopens : OpensAt source o := ⟨rest, hrest.symm⟩
    exact ⟨hopens, (hnone hopens).1 h⟩
  · rintro ⟨hopens, hunclosed⟩
    exact (hnone hopens).2 hunclosed

namespace PieceAt

variable {p q : Piece}

theorem start_lt_stop (h : PieceAt source p) : p.start < p.stop := by
  have hpos := List.length_pos_iff.2 h.1
  rw [Piece.stop]
  omega

theorem drop_stop (h : PieceAt source p) : source.drop p.start = p.text ++ source.drop p.stop := by
  obtain ⟨-, rest, hrest, -⟩ := h
  rw [Piece.stop, ← List.drop_drop, hrest, List.drop_left]

theorem firstPiece? (h : PieceAt source p) : firstPiece? (p.text ++ source.drop p.stop) = some (p.kind, p.text.length) := by
  obtain ⟨-, rest, hrest, hfirst⟩ := id h
  rwa [← h.drop_stop, hrest]

/-- The characters of the source in a piece are those of the piece. -/
theorem getElem? {i : Nat} (h : PieceAt source p) (hstart : p.start ≤ i) (hstop : i < p.stop) : p.text[i - p.start]? = source[i]? := by
  have hdrop : source[i]? = (source.drop p.start)[i - p.start]? := by rw [List.getElem?_drop, Nat.add_sub_cancel' hstart]
  rw [hdrop, h.drop_stop, List.getElem?_append_left (by rw [Piece.stop] at hstop; omega)]

/-- No other piece starts at the same place. -/
theorem eq_of_start (hp : PieceAt source p) (hq : PieceAt source q) (hstart : p.start = q.start) : p = q := by
  have hcut : p.text ++ source.drop p.stop = q.text ++ source.drop q.stop := by rw [← hp.drop_stop, ← hq.drop_stop, hstart]
  have hfirst := hp.firstPiece?
  rw [hcut, hq.firstPiece?] at hfirst
  obtain ⟨hkind, hlength⟩ := Prod.mk.inj (Option.some.inj hfirst)
  obtain ⟨htext, -⟩ := List.append_inj hcut hlength.symm
  obtain ⟨kind, start, text⟩ := p
  obtain ⟨kind', start', text'⟩ := q
  simp only at hkind hstart htext
  rw [hkind, hstart, htext]

/-- The scan goes on past a piece. -/
theorem piecesFrom (h : PieceAt source p) :
    piecesFrom p.start 0 (source.drop p.start) = (piecesFrom p.stop 0 (source.drop p.stop)).map (p :: ·) := by
  rw [h.drop_stop, piecesFrom_piece h.1 h.firstPiece?]

end PieceAt

/-- From any place inside a source a piece is cut, or the scan fails there. -/
theorem exists_pieceAt {o : Nat} (h : o < source.length) :
    (∃ p, PieceAt source p ∧ p.start = o) ∨ firstPiece? (source.drop o) = none := by
  cases hfirst : firstPiece? (source.drop o) with
  | none => exact .inr rfl
  | some found =>
    rw [List.drop_eq_getElem_cons h] at hfirst
    obtain ⟨p, rest, hstart, hcut, htext, hcutfirst⟩ := exists_first_piece hfirst o
    exact .inl ⟨p, ⟨htext, rest, by rw [hstart, List.drop_eq_getElem_cons h, hcut], hcutfirst⟩, hstart⟩

/-- Where no piece is cut, the scan fails. -/
theorem piecesFrom_eq_error {o : Nat} (h : firstPiece? (source.drop o) = none) : piecesFrom o 0 (source.drop o) = .error o := by
  obtain ⟨rest, hrest, -⟩ := firstPiece?_eq_none_iff.1 h
  rw [hrest] at h ⊢
  rw [piecesFrom, h]

theorem map_eq_error_iff {ε α β : Type} {x : Except ε α} {f : α → β} {e : ε} : x.map f = .error e ↔ x = .error e := by
  cases x <;> simp [Except.map]

/-- A scan fails just where it fails from an offset on that it comes to. -/
theorem Reached.error_iff {o e : Nat} (h : Reached source o) :
    pieces source = .error e ↔ piecesFrom o 0 (source.drop o) = .error e := by
  induction h with
  | start => rfl
  | past _ hp ih => rw [ih, hp.piecesFrom, map_eq_error_iff]

/-- A scan fails at an offset that it comes to. -/
theorem reached_of_error {o e : Nat} (h : Reached source o) (herror : piecesFrom o 0 (source.drop o) = .error e) :
    Reached source e ∧ firstPiece? (source.drop e) = none := by
  by_cases ho : o < source.length
  · rcases exists_pieceAt ho with ⟨p, hp, rfl⟩ | hnone
    · have hstop := hp.start_lt_stop
      rw [hp.piecesFrom, map_eq_error_iff] at herror
      exact reached_of_error (h.past hp) herror
    · rw [piecesFrom_eq_error hnone] at herror
      cases herror
      exact ⟨h, hnone⟩
  · rw [List.drop_eq_nil_of_le (Nat.le_of_not_lt ho)] at herror
    cases herror
  termination_by source.length - o

theorem pieces_eq_error_iff {o : Nat} : pieces source = .error o ↔ Reached source o ∧ firstPiece? (source.drop o) = none := by
  constructor
  · exact fun h => reached_of_error .start h
  · rintro ⟨hreached, hnone⟩
    exact hreached.error_iff.2 (piecesFrom_eq_error hnone)

/-- Every offset of the source is in a piece that the scan cuts, or behind the place where the scan fails. -/
theorem exists_reached {o i : Nat} (hi : i < source.length) (h : Reached source o) (hle : o ≤ i) :
    (∃ p, Reached source p.start ∧ PieceAt source p ∧ p.start ≤ i ∧ i < p.stop) ∨
      ∃ e ≤ i, Reached source e ∧ firstPiece? (source.drop e) = none := by
  rcases exists_pieceAt (Nat.lt_of_le_of_lt hle hi) with ⟨p, hp, rfl⟩ | hnone
  · have hstop := hp.start_lt_stop
    by_cases hin : i < p.stop
    · exact .inl ⟨p, h, hp, hle, hin⟩
    · exact exists_reached hi (h.past hp) (Nat.le_of_not_lt hin)
  · exact .inr ⟨o, hle, h, hnone⟩
  termination_by i - o

/-- A scan that has come to an offset and to one before it has cut a piece at the earlier one. -/
theorem Reached.exists_piece {o i : Nat} (h : Reached source i) (ho : Reached source o) (hlt : o < i) :
    ∃ p, PieceAt source p ∧ p.start = o ∧ p.stop ≤ i := by
  cases h with
  | start => cases hlt
  | @past q hreached hq =>
    have hstop := hq.start_lt_stop
    rcases Nat.lt_trichotomy o q.start with hbefore | rfl | hafter
    · obtain ⟨p, hp, hstart, hle⟩ := hreached.exists_piece ho hbefore
      exact ⟨p, hp, hstart, by omega⟩
    · exact ⟨q, hq, rfl, Nat.le_refl _⟩
    · -- The piece that was cut last would end before it ends.
      obtain ⟨p, hp, hstart, hle⟩ := ho.exists_piece hreached hafter
      obtain rfl := hp.eq_of_start hq hstart
      omega
  termination_by i

end Scans

/-! ## Openers that are passed over -/

theorem NumberWord.brace_notMem {w : List Char} (h : NumberWord w) : '{' ∉ w := by
  induction h with
  | plain hplain => exact fun hmem => nomatch hplain _ hmem
  | marked hmark _ hdigits =>
    rw [List.mem_cons]
    rintro (rfl | hmem)
    · cases hmark
    · exact absurd (hdigits _ hmem) (by decide)
  | append _ _ hx hy => exact fun hmem => (List.mem_append.1 hmem).elim hx hy

/-- A token with a brace that is no literal is the brace. -/
theorem eq_brace_of_token {w u : List Char} {kind : Token.Kind} (h : firstPiece? (w ++ u) = some (.token kind, w.length))
    (hkind : kind ≠ .string ∧ kind ≠ .char) (hmem : '{' ∈ w) : w = ['{'] := by
  by_cases hoperator : kind = .operator
  · subst hoperator
    cases (operator_of_token h).1 _ hmem
  · rcases word_of_token h ⟨hkind.1, hkind.2, hoperator⟩ with hnumber | hname | ⟨c, rfl, -⟩
    · exact absurd hmem hnumber.brace_notMem
    · cases hname _ hmem
    · rw [List.mem_singleton.1 hmem]

/-- An offset inside a literal or a comment that a scan comes to before it. A comment that is never closed goes on to the end. -/
def InLiteralOrComment (source : List Char) (i : Nat) : Prop :=
  ∃ o < i, Reached source o ∧
    ((∃ p, PieceAt source p ∧ p.start = o ∧ i < p.stop ∧
        (p.kind = .comment ∨ p.kind = .token .string ∨ p.kind = .token .char)) ∨
      (OpensAt source o ∧ ∀ e, ¬ IsCommentSlice source o e))

/-- A block comment opens outside literals and other comments. -/
def OpensOutside (source : List Char) (o : Nat) : Prop := OpensAt source o ∧ ¬ InLiteralOrComment source o

section Openers

variable {source : List Char} {i : Nat}

theorem OpensAt.getElem? (h : OpensAt source i) : source[i]? = some '{' := by
  rw [← List.head?_drop, h.drop]
  rfl

/-- A piece that does not start where a comment opens is a comment or a literal. -/
theorem PieceAt.kind_of_opensAt {p : Piece} (h : PieceAt source p) (hopens : OpensAt source i) (hstart : p.start < i)
    (hstop : i < p.stop) : p.kind = .comment ∨ p.kind = .token .string ∨ p.kind = .token .char := by
  have hbrace : '{' ∈ p.text := List.mem_of_getElem? ((h.getElem? (Nat.le_of_lt hstart) hstop).trans hopens.getElem?)
  have hfirst := h.firstPiece?
  cases hkind : p.kind with
  | comment => exact .inl rfl
  | blank =>
    rw [hkind] at hfirst
    cases isBlank_of_firstPiece? hfirst _ hbrace
  | token kind =>
    by_cases hliteral : kind ≠ .string ∧ kind ≠ .char
    · rw [hkind] at hfirst
      have hone := congrArg List.length (eq_brace_of_token hfirst hliteral hbrace)
      rw [List.length_singleton] at hone
      rw [Piece.stop] at hstop
      omega
    · rw [not_and_or, not_not, not_not] at hliteral
      exact .inr (hliteral.imp (congrArg _) (congrArg _))

/-- A scan comes to the block comments that open outside literals and other comments. -/
theorem OpensAt.reached_iff (h : OpensAt source i) : Reached source i ↔ ¬ InLiteralOrComment source i := by
  constructor
  · rintro hreached ⟨o, hlt, ho, hinside⟩
    obtain ⟨p, hp, rfl, hle⟩ := hreached.exists_piece ho hlt
    rcases hinside with ⟨q, hq, hstart, hstop, -⟩ | hunclosed
    · obtain rfl := hp.eq_of_start hq hstart.symm
      omega
    · have hnone := firstPiece?_drop_eq_none_iff.2 hunclosed
      rw [hp.drop_stop, hp.firstPiece?] at hnone
      cases hnone
  · intro houtside
    have hi : i < source.length := (List.getElem?_eq_some_iff.1 h.getElem?).1
    rcases exists_reached hi .start (Nat.zero_le i) with ⟨p, hreached, hp, hle, hstop⟩ | ⟨e, hle, hreached, hnone⟩
    · rcases Nat.eq_or_lt_of_le hle with rfl | hstart
      · exact hreached
      · exact absurd ⟨p.start, hstart, hreached, .inl ⟨p, hp, rfl, hstop, hp.kind_of_opensAt h hstart hstop⟩⟩ houtside
    · rcases Nat.eq_or_lt_of_le hle with rfl | hlt
      · exact hreached
      · exact absurd ⟨e, hlt, hreached, .inr (firstPiece?_drop_eq_none_iff.1 hnone)⟩ houtside

end Openers

/-! ## Sources with an open comment -/

namespace Scanned

variable {source : List Char} {o : Nat}

/-- A scan fails at a block comment that is never closed and that opens outside literals and other comments. -/
theorem ofSource_eq_error_iff : ofSource source = .error o ↔ OpensOutside source o ∧ ∀ e, ¬ IsCommentSlice source o e := by
  rw [ofSource, map_eq_error_iff, pieces_eq_error_iff, firstPiece?_drop_eq_none_iff]
  constructor
  · rintro ⟨hreached, hopens, hunclosed⟩
    exact ⟨⟨hopens, hopens.reached_iff.1 hreached⟩, hunclosed⟩
  · rintro ⟨⟨hopens, houtside⟩, hunclosed⟩
    exact ⟨hopens.reached_iff.2 houtside, hopens, hunclosed⟩

/-- A source that cannot be scanned is not parsed; the error tells the place after the characters before the comment. -/
theorem parse_of_error (h : ofSource source = .error o) (file : String) :
    Module.parse (String.ofList source) file = .error (.unclosedComment ((source.take o).foldl Position.advance ⟨1, 1⟩)) := by
  have hlength := (ofSource_eq_error_iff.1 h).1.1.length_drop
  have hle : o ≤ source.length := by omega
  have hlaid : LaidOut.ofSource source = .error o := by rw [LaidOut.ofSource, h, Except.map]
  rw [Position.foldl_advance_take hle, Module.parse, LaidOut.parse, String.toList_ofList, hlaid]
  rfl

/-- Block comments are the balanced ones, and the first that is not is what a scan fails at. -/
structure BalancedComments (source : List Char) : Prop where
  /-- A comment that opens ends at an offset just when the slice up to it is a block comment. -/
  stop_iff : ∀ o e, OpensAt source o → (commentStop? source o = some e ↔ IsCommentSlice source o e)
  /-- This is the end of the piece that is cut there. -/
  cut : ∀ o, OpensAt source o → firstPiece? (source.drop o) = (commentStop? source o).map fun e => (.comment, e - o)
  /-- There is no second such offset. -/
  stop_unique : ∀ o e e', IsCommentSlice source o e → IsCommentSlice source o e' → e = e'
  /-- A comment has no end just when there is no such offset. -/
  unclosed_iff : ∀ o, OpensAt source o → (commentStop? source o = none ↔ ∀ e, ¬ IsCommentSlice source o e)
  /-- A scan fails at the opener of a comment without an end that is outside literals and other comments. -/
  fails_iff : ∀ o, ofSource source = .error o ↔ OpensOutside source o ∧ ∀ e, ¬ IsCommentSlice source o e
  /-- The failure that is reported carries the position of that opener. -/
  reported : ∀ o file, ofSource source = .error o → ∃ error failure, Module.parse (String.ofList source) file = .error error ∧
    error.report file = .ok failure ∧ failure.kind = .source ∧ failure.message = "unterminated block comment" ∧
    ∃ place, place = (source.take o).foldl Position.advance ⟨1, 1⟩ ∧ failure.span = ⟨file, place.row, place.column⟩

/-- **Block comments are exactly the balanced ones.** -/
theorem block_comments_balanced (source : List Char) : BalancedComments source where
  stop_iff _ _ h := commentStop?_eq_some_iff h
  cut _ h := h.firstPiece?_drop
  stop_unique _ _ _ h h' := h.unique h'
  unclosed_iff _ h := commentStop?_eq_none_iff h
  fails_iff _ := ofSource_eq_error_iff
  reported _ file h := ⟨_, _, parse_of_error h file, rfl, rfl, rfl, _, rfl, rfl⟩

end Scanned

end ElmLint
