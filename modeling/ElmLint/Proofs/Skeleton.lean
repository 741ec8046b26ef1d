import ElmLint.Proofs.LaidQuotes

/-!
# Skeletons

A skeleton keeps of a laid-out text what its tokens tell: its markers and its tokens, and where there is a gap between two of them,
but not what fills the gap. `Layout.skeleton` makes it from the tokens, without their offsets, and every laid-out text renders
the skeleton of its tokens (`LaidOut.renders`). All texts with one skeleton show as many characters (`Renders.visibleCount_eq`).
-/

namespace ElmLint

/-- A part of a skeleton: a gap, a character, or a token that begins with a quote. -/
inductive Chunk where
  | gap
  | char (c : Char)
  | token (text : List Char)
deriving Repr, DecidableEq, Inhabited

/-- The kind and the characters of a token. -/
def Token.word (t : Token) : Token.Kind × List Char := (t.kind, t.text.toList)

/-- A text with a skeleton, made of some words. A gap is filled with blanks and something comes after it, in which a name is one
of the words; a token that begins with a quote is one of the words, and the grammar reads it as a whole or not at all. After the
last token there may be blanks. -/
inductive Renders (words : List (Token.Kind × List Char)) : List Chunk → List Char → Prop
  | done {cs : List Char} : (∀ c ∈ cs, isBlank c = true) → Renders words [] cs
  | gap {bs cs : List Char} {sk : List Chunk} : bs ≠ [] → (∀ c ∈ bs, isBlank c = true) →
      (∃ c ∈ cs.head?, isBlank c = false) → (cs.head?.any isLetter = true → (.name, cs.takeWhile isNameChar) ∈ words) →
      Renders words sk cs → Renders words (.gap :: sk) (bs ++ cs)
  | char {c : Char} {cs : List Char} {sk : List Chunk} : isBlank c = false → isQuote c = false → Renders words sk cs →
      Renders words (.char c :: sk) (c :: cs)
  | token {kind : Token.Kind} {text cs : List Char} {sk : List Chunk} : (kind, text) ∈ words → text.head?.any isQuote = true →
      Whole text cs → Renders words sk cs → Renders words (.token text :: sk) (text ++ cs)

theorem Renders.chars {words : List (Token.Kind × List Char)} {cs : List Char} {sk : List Chunk} (h : Renders words sk cs) :
    ∀ {ds : List Char}, (∀ d ∈ ds, isBlank d = false ∧ isQuote d = false) → Renders words (ds.map .char ++ sk) (ds ++ cs)
  | [], _ => h
  | d :: _, hds => .char (hds d List.mem_cons_self).1 (hds d List.mem_cons_self).2
      (h.chars fun e he => hds e (List.mem_cons_of_mem d he))

/-! ## The skeleton of some tokens -/

/-- The part of a skeleton that a token is. -/
def Token.chunks (t : Token) : List Chunk :=
  if t.text.toList.head?.any isQuote then [.token t.text.toList] else t.text.toList.map .char

namespace Layout

/-- The skeleton of some tokens, in a state, when the token before them ends at a place. -/
def skeletonFrom : State → Position → List Token → List Chunk
  | _, _, [] => []
  | s, place, t :: ts =>
    (if place = ⟨t.line, t.column⟩ then [] else [.gap]) ++ (((step s t).1.map Marker.char).map .char ++ (t.chunks ++
      (((if ts.isEmpty then (step s t).2.blocks.map fun _ => Marker.closing.char else []).map .char) ++
        skeletonFrom (step s t).2 (t.text.toList.foldl Position.advance ⟨t.line, t.column⟩) ts)))

/-- The skeleton of the tokens of a source. -/
def skeleton (tokens : List Token) : List Chunk := skeletonFrom .start ⟨1, 1⟩ tokens

end Layout

/-- A token without its offsets. -/
def Token.unplaced (t : Token) : Token := { t with start := 0, stop := 0 }

/-- Offsets leave no trace in a skeleton. -/
theorem Layout.skeletonFrom_unplaced : ∀ (tokens : List Token) (s : State) (place : Position),
    skeletonFrom s place (tokens.map Token.unplaced) = skeletonFrom s place tokens
  | [], _, _ => rfl
  | t :: ts, s, place => by
    rw [List.map_cons, skeletonFrom, skeletonFrom, List.isEmpty_map]
    have ih := skeletonFrom_unplaced ts (step s t).2 (t.text.toList.foldl Position.advance ⟨t.line, t.column⟩)
    rw [← ih]
    rfl

/-! ## Where names end -/

/-- A class with all letters among the first characters has all letters. -/
theorem of_isLetter {p : Char → Bool}
    (h : ((List.range 128).all fun n => !isLetter (Char.ofNat n) || p (Char.ofNat n)) = true) {c : Char}
    (hc : isLetter c = true) : p c = true := by
  have hlt : c.toNat < 128 := by
    simp only [isLetter, isLower, isUpper, Bool.or_eq_true, Bool.and_eq_true, decide_eq_true_eq] at hc
    rcases hc with ⟨-, hc⟩ | ⟨-, hc⟩
    · exact Nat.lt_of_le_of_lt (show c.toNat ≤ 'z'.toNat from hc) (by decide)
    · exact Nat.lt_of_le_of_lt (show c.toNat ≤ 'Z'.toNat from hc) (by decide)
  have hn := List.all_eq_true.1 h c.toNat (List.mem_range.2 hlt)
  rw [Char.ofNat_toNat, hc] at hn
  exact hn

/-- A token that begins with a letter is a name, and it runs up to the next character that no name has. -/
theorem name_of_token {kind : Token.Kind} {c : Char} {cs : List Char} {n : Nat} (hc : isLetter c = true)
    (h : firstPiece? (c :: cs) = some (.token kind, n)) : kind = .name ∧ n = runLength isNameChar cs + 1 := by
  have hno : (!(c == '"') && !(c == '\'') && !(c == '0') && !isDigit c && !isBracket c && !(c == ',') &&
      !isOperatorChar c && !isBlank c) = true := of_isLetter (p := fun c => !(c == '"') && !(c == '\'') && !(c == '0') &&
        !isDigit c && !isBracket c && !(c == ',') && !isOperatorChar c && !isBlank c) (by decide +kernel) hc
  simp only [Bool.and_eq_true, Bool.not_eq_true', beq_eq_false_iff_ne] at hno
  obtain ⟨⟨⟨⟨⟨⟨⟨hdouble, hsingle⟩, hzero⟩, hdigit⟩, hbracket⟩, hcomma⟩, hoperator⟩, hblank⟩ := hno
  have hrun : ∀ {p : Char → Bool}, p c = false → someRun? p (c :: cs) = none := by
    intro p hp
    simp [someRun?, runLength, hp]
  have hname : nameLength? (fun c => isLetter c || c == '_') (c :: cs) = some (runLength isNameChar cs + 1) := by
    simp [nameLength?, hc]
  rcases firstPiece?_cases h with ⟨hkind, -⟩ | ⟨hkind, -⟩ | ⟨p, hp, hkind, hlength⟩ | ⟨-, -, hnone⟩
  · cases hkind
  · cases hkind
  · simp only [pieceClasses, List.mem_cons, List.not_mem_nil, or_false] at hp
    rcases hp with rfl | rfl | rfl | rfl | rfl | rfl | rfl | rfl
    · obtain ⟨rest, hrest⟩ := exists_of_stringLength? hlength
      exact absurd (List.cons_eq_cons.1 hrest).1 hdouble
    · obtain ⟨rest, hrest⟩ := exists_of_charLength? hlength
      exact absurd (List.cons_eq_cons.1 hrest).1 hsingle
    · have hhex : hexLength? (c :: cs) = none := by
        unfold hexLength?
        split
        · next heq => exact absurd (List.cons_eq_cons.1 heq).1 hzero
        · rfl
      simp [numberLength?, hhex, floatLength?, hrun hdigit] at hlength
    · cases hkind
      exact ⟨rfl, Option.some.inj (hlength.symm.trans hname)⟩
    · simp [hbracket] at hlength
    · simp [exactLength?, List.isPrefixOf, Ne.symm hcomma] at hlength
    · cases hlength.symm.trans (hrun hoperator)
    · cases hkind
  · cases (hnone (.token .name, nameLength? fun c => isLetter c || c == '_') (by simp [pieceClasses])).symm.trans hname

/-- What comes after a token begins, if not with a blank or a marker, as the source goes on. -/
theorem Layout.head?_laidAfter {starts : List Nat} {offset : Nat} {ps : List Piece} {cs : List Char} (h : Tiles offset ps cs)
    (s : State) : ∀ c ∈ (laidAfter starts s ps).head?, LaidOut.isFiller c = true ∨ cs.head? = some c := by
  have hmarkers : ∀ {c : Char} (ms : List Char) (rest : List Char), (∀ d ∈ ms, LaidOut.isFiller d = true) → c ∈ (ms ++ rest).head? →
      LaidOut.isFiller c = true ∨ c ∈ rest.head? := by
    intro c ms rest hms hc
    cases ms with
    | nil => exact .inr hc
    | cons d ms => exact .inl (Option.some.inj hc ▸ hms d List.mem_cons_self)
  intro c hc
  refine (hmarkers _ _ (fun d hd => ?_) hc).elim .inl fun hc => ?_
  · split at hd
    · obtain ⟨b, -, rfl⟩ := List.mem_map.1 hd
      rfl
    · cases hd
  · cases h with
    | nil => cases hc
    | @cons _ p ps cs _ htext hfirst _ =>
      cases ht : p.token? starts with
      | none =>
        rw [laid, ht] at hc
        obtain ⟨d, vs, hvisible⟩ : ∃ d vs, p.visible = d :: vs := by
          refine List.exists_cons_of_ne_nil fun hnil => htext (List.eq_nil_of_length_eq_zero ?_)
          rw [← Tiles.length_visible, hnil]
          rfl
        have hblank := Piece.isBlank_visible ht hfirst d (by rw [hvisible]; exact List.mem_cons_self)
        rw [hvisible] at hc
        exact .inl (Option.some.inj hc ▸ LaidOut.isFiller_of_isBlank hblank)
      | some t =>
        rw [laid_token ht] at hc
        refine (hmarkers _ _ (fun d hd => ?_) hc).imp_right fun hc => ?_
        · obtain ⟨m, -, rfl⟩ := List.mem_map.1 hd
          exact LaidOut.isFiller_char m
        · obtain ⟨d, ds, hcut⟩ := List.exists_cons_of_ne_nil htext
          rw [hcut] at hc ⊢
          exact hc

/-- A name at the beginning of a token and what comes after it is the token. -/
theorem takeWhile_of_token (starts : List Nat) {p : Piece} {ps : List Piece} {cs : List Char} {kind : Token.Kind}
    (hfirst : firstPiece? (p.text ++ cs) = some (.token kind, p.text.length)) (htail : Tiles p.stop ps cs) (s : Layout.State)
    (hletter : p.text.head?.any isLetter = true) :
    kind = .name ∧ (p.text ++ Layout.laidAfter starts s ps).takeWhile isNameChar = p.text := by
  obtain ⟨c, rest, hcut⟩ : ∃ c rest, p.text = c :: rest := by
    cases htext : p.text with
    | nil =>
      rw [htext] at hletter
      cases hletter
    | cons c rest => exact ⟨c, rest, rfl⟩
  rw [hcut] at hletter hfirst ⊢
  rw [List.cons_append] at hfirst
  obtain ⟨hkind, hlength⟩ := name_of_token (by simpa using hletter) hfirst
  refine ⟨hkind, ?_⟩
  -- The rest of the token is all the name characters after the first one.
  have hrest : (rest ++ cs).takeWhile isNameChar = rest := by
    have hbegins := List.prefix_iff_eq_take.1 (List.takeWhile_prefix isNameChar (l := rest ++ cs))
    have hn : ((rest ++ cs).takeWhile isNameChar).length = rest.length := by
      rw [List.length_cons, runLength] at hlength
      omega
    rw [hbegins, hn, List.take_left]
  have hnames : ∀ d ∈ rest, isNameChar d = true := by
    rw [← hrest]
    exact List.all_eq_true.1 List.all_takeWhile
  have hnext : cs.takeWhile isNameChar = [] := by
    rw [List.takeWhile_append_of_pos hnames] at hrest
    exact List.append_right_eq_self.1 hrest
  have hafter : (Layout.laidAfter starts s ps).takeWhile isNameChar = [] := by
    cases hcase : Layout.laidAfter starts s ps with
    | nil => rfl
    | cons d ds =>
      refine List.takeWhile_cons_of_neg fun hd => ?_
      rcases Layout.head?_laidAfter htail s d (by rw [hcase]; rfl) with hfiller | hhead
      · have hsolid := isSolid_of_isNameChar hd
        rw [isSolid, hfiller] at hsolid
        cases hsolid
      · obtain ⟨ds', rfl⟩ := List.head?_eq_some_iff.1 hhead
        rw [List.takeWhile_cons_of_pos hd] at hnext
        cases hnext
  have hc : isNameChar c = true := by
    have : isLetter c = true := by simpa using hletter
    rw [isNameChar, this, Bool.true_or, Bool.true_or]
  rw [List.cons_append, List.takeWhile_cons_of_pos hc, List.takeWhile_append_of_pos hnames, hafter, List.append_nil]

/-! ## Laid-out texts render their skeletons -/

/-- A token without a quote at its beginning has neither blanks nor quotes. -/
theorem plain_of_token {t s : List Char} {kind : Token.Kind} (h : firstPiece? (t ++ s) = some (.token kind, t.length))
    (hquote : ¬ t.head?.any isQuote = true) : ∀ c ∈ t, isBlank c = false ∧ isQuote c = false := by
  intro c hc
  rcases token_cases h with ⟨-, hsolid⟩ | hstring | hchar | ⟨d, rfl, hblank, -⟩
  · have := hsolid c hc
    simp only [isSolid, LaidOut.isFiller, Bool.and_eq_true, Bool.not_eq_true', Bool.or_eq_false_iff, bne_iff_ne] at this
    exact ⟨this.1.1.1, by simp [isQuote, this.1.2, this.2]⟩
  · obtain ⟨rest, hrest⟩ := exists_of_stringLength? hstring
    cases t with
    | nil => cases hc
    | cons d t =>
      rw [(List.cons_eq_cons.1 hrest).1] at hquote
      exact absurd rfl hquote
  · obtain ⟨rest, hrest⟩ := exists_of_charLength? hchar
    cases t with
    | nil => cases hc
    | cons d t =>
      rw [(List.cons_eq_cons.1 hrest).1] at hquote
      exact absurd rfl hquote
  · obtain rfl := List.mem_singleton.1 hc
    exact ⟨hblank, by simpa using hquote⟩

/-- A marker is neither a blank nor a quote. -/
theorem Marker.isBlank_isQuote (m : Marker) : isBlank m.char = false ∧ isQuote m.char = false := by
  cases m <;> exact ⟨rfl, rfl⟩

/-- A token that is one of the words, before what renders a skeleton. -/
theorem Renders.chunks {words : List (Token.Kind × List Char)} {t : Token} {s cs : List Char} {sk : List Chunk} (hword : t.word ∈ words)
    (hfirst : firstPiece? (t.text.toList ++ s) = some (.token t.kind, t.text.toList.length))
    (hwhole : t.text.toList.head?.any isQuote = true → Whole t.text.toList cs) (h : Renders words sk cs) :
    Renders words (t.chunks ++ sk) (t.text.toList ++ cs) := by
  unfold Token.chunks
  split
  · next hquote => exact .token hword hquote (hwhole hquote) h
  · next hquote => exact h.chars (plain_of_token hfirst hquote)

/-- Blanks before what renders a skeleton are a gap, unless there are none and the place before them is the place after them. -/
theorem Renders.spaced {words : List (Token.Kind × List Char)} {source bs cs : List Char} {sk : List Chunk} {before after : Nat}
    (hafter : after = before + bs.length) (hbs : ∀ c ∈ bs, isBlank c = true) (hnext : ∃ c ∈ cs.head?, isBlank c = false)
    (hname : cs.head?.any isLetter = true → (.name, cs.takeWhile isNameChar) ∈ words) (h : Renders words sk cs) :
    Renders words ((if Position.ofOffset (lineStarts source) before = Position.ofOffset (lineStarts source) after then [] else [.gap]) ++
      sk) (bs ++ cs) := by
  cases bs with
  | nil =>
    obtain rfl : after = before := hafter
    rw [if_pos rfl]
    exact h
  | cons b bs =>
    have hne : Position.ofOffset (lineStarts source) before ≠ Position.ofOffset (lineStarts source) after := by
      intro heq
      have hsame := Position.ofOffset_injective heq
      rw [List.length_cons] at hafter
      omega
    rw [if_neg hne]
    exact .gap (List.cons_ne_nil b bs) hbs hnext hname h

open Layout in
/-- The laid-out text of some pieces, after blanks, renders the skeleton of their tokens. -/
theorem Tiles.renders {source : List Char} {words : List (Token.Kind × List Char)} {offset : Nat} {ps : List Piece} {cs : List Char}
    (h : Tiles offset ps cs) : source.drop offset = cs →
    (∀ t ∈ ps.filterMap (Piece.token? (lineStarts source)), t.word ∈ words) →
    ∀ (s : State) (before : Nat) (bs : List Char), offset = before + bs.length → (∀ c ∈ bs, isBlank c = true) →
      Renders words (skeletonFrom s (Position.ofOffset (lineStarts source) before) (ps.filterMap (Piece.token? (lineStarts source))))
        (bs ++ laid (lineStarts source) s ps) := by
  induction h with
  | nil =>
    intro _ _ s before bs _ hbs
    rw [laid, List.append_nil]
    exact .done hbs
  | @cons offset p ps cs hstart htext hfirst htail ih =>
    intro hsource hwords s before bs hbefore hbs
    subst hstart
    have ih := ih (by rw [Piece.stop, ← List.drop_drop, hsource, List.drop_left])
    cases hkind : p.kind with
    | comment | blank =>
      have ht : p.token? (lineStarts source) = none := by rw [Piece.token?, hkind]
      rw [List.filterMap_cons_none ht] at hwords ⊢
      rw [laid, ht]
      simp only
      rw [← List.append_assoc]
      refine ih hwords s before (bs ++ p.visible) ?_ fun c hc => ?_
      · rw [List.length_append, length_visible, Piece.stop]
        omega
      · rcases List.mem_append.1 hc with hc | hc
        · exact hbs c hc
        · exact Piece.isBlank_visible ht hfirst c hc
    | token kind =>
      obtain ⟨t, ht, htkind, httext, htline, htcolumn, -⟩ := Piece.token?_of_kind (lineStarts source) hkind
      have hplace : (⟨t.line, t.column⟩ : Position) = Position.ofOffset (lineStarts source) p.start := by
        rw [htline, htcolumn]
        rfl
      have htoken : t.text.toList = p.text := by rw [httext, String.toList_ofList]
      rw [hkind] at hfirst
      rw [List.filterMap_cons_some ht] at hwords ⊢
      have hword : (kind, p.text) ∈ words := by
        have hmem := hwords t List.mem_cons_self
        rwa [Token.word, htkind, htoken] at hmem
      -- From right to left: what comes after the token, the closing markers of the last token, the token, its markers, the gap.
      have hafter := ih (fun u hu => hwords u (List.mem_cons_of_mem t hu)) (step s t).2 p.stop [] rfl (List.forall_mem_nil _)
      have hclosing : ∀ d ∈ if (ps.filterMap (Piece.token? (lineStarts source))).isEmpty then
          (step s t).2.blocks.map fun _ => Marker.closing.char else [], isBlank d = false ∧ isQuote d = false := by
        split
        · exact List.forall_mem_map.2 fun _ _ => Marker.closing.isBlank_isQuote
        · exact List.forall_mem_nil _
      have hread : Renders words _ (t.text.toList ++ laidAfter (lineStarts source) (step s t).2 ps) :=
        .chunks (hwords t List.mem_cons_self) (by rw [htoken, htkind]; exact hfirst)
          (fun hquote => htoken ▸ Tiles.whole hkind ht hsource (hkind ▸ hfirst) htail (htoken ▸ hquote) s)
          (hafter.chars hclosing)
      have hmarkers : ∀ d ∈ (step s t).1.map Marker.char, isBlank d = false ∧ isQuote d = false :=
        List.forall_mem_map.2 fun m _ => m.isBlank_isQuote
      have hmarked := hread.chars hmarkers
      rw [htoken] at hmarked
      rw [skeletonFrom, laid_token ht, hplace, htoken, Position.foldl_advance hsource]
      refine .spaced hbefore hbs ?_ (fun hletter => ?_) hmarked
      · cases hwritten : (step s t).1 with
        | nil =>
          obtain ⟨c, rest, hcut⟩ := List.exists_cons_of_ne_nil htext
          exact ⟨c, by rw [hcut]; rfl, isBlank_of_token hfirst c (by rw [hcut]; rfl)⟩
        | cons m ms => exact ⟨m.char, rfl, m.isBlank_isQuote.1⟩
      · cases hwritten : (step s t).1 with
        | nil =>
          rw [hwritten] at hletter
          obtain ⟨c, rest, hcut⟩ := List.exists_cons_of_ne_nil htext
          obtain ⟨rfl, hname⟩ := takeWhile_of_token (lineStarts source) hfirst htail (step s t).2
            (by rw [hcut] at hletter ⊢; exact hletter)
          rw [List.map_nil, List.nil_append, hname]
          exact hword
        | cons m ms =>
          rw [hwritten] at hletter
          cases m <;> cases hletter

/-- A laid-out text renders the skeleton of its tokens. -/
theorem LaidOut.renders {source : List Char} {s : Scanned} (h : Scanned.ofSource source = .ok s) :
    Renders (s.tokens.map Token.word) (Layout.skeleton s.tokens) (ofScanned source s).text := by
  obtain ⟨ps, htiles, htokens, -, htext⟩ := Scanned.exists_pieces h
  have hwords : ∀ t ∈ ps.filterMap (Piece.token? (lineStarts source)), t.word ∈ s.tokens.map Token.word :=
    fun t ht => List.mem_map_of_mem (htokens ▸ ht)
  have hall := htiles.renders rfl hwords .start 0 [] rfl (List.forall_mem_nil _)
  rw [Position.ofOffset_zero, ← htokens] at hall
  rw [htext]
  exact hall

/-! ## How much a text shows -/

/-- The number of characters of a text other than blanks and markers. -/
def visibleCount (cs : List Char) : Nat := cs.countP fun c => !LaidOut.isFiller c

theorem visibleCount_fillers {cs : List Char} (h : ∀ c ∈ cs, LaidOut.isFiller c = true) : visibleCount cs = 0 :=
  List.countP_eq_zero.2 fun c hc => by simp [h c hc]

theorem visibleCount_blanks {bs : List Char} (h : ∀ c ∈ bs, isBlank c = true) : visibleCount bs = 0 :=
  visibleCount_fillers fun c hc => LaidOut.isFiller_of_isBlank (h c hc)

theorem visibleCount_append (cs ds : List Char) : visibleCount (cs ++ ds) = visibleCount cs + visibleCount ds :=
  List.countP_append

/-- Texts with one skeleton show as many characters. -/
theorem Renders.visibleCount_eq {words : List (Token.Kind × List Char)} {sk : List Chunk} {cs cs' : List Char}
    (h : Renders words sk cs) (h' : Renders words sk cs') : visibleCount cs = visibleCount cs' := by
  induction h generalizing cs' with
  | done hblank =>
    cases h' with
    | done hblank' => rw [visibleCount_blanks hblank, visibleCount_blanks hblank']
  | @gap bs cs sk _ hblank _ _ _ ih =>
    cases h' with
    | gap _ hblank' _ _ h' =>
      rw [visibleCount_append, visibleCount_append, visibleCount_blanks hblank, visibleCount_blanks hblank', ih h']
  | char _ _ _ ih =>
    cases h' with
    | char _ _ h' => simp only [visibleCount, List.countP_cons] at ih ⊢; rw [ih h']
  | token _ _ _ _ ih =>
    cases h' with
    | token _ _ _ h' => rw [visibleCount_append, visibleCount_append, ih h']

end ElmLint
