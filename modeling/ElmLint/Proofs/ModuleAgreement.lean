import ElmLint.Proofs.GrammarAgreement

/-!
# Modules read from texts that differ in their gaps

The items of a module are the same in two texts with one skeleton (`agree_topLevel`). The settings of an effect module are skipped up
to the next closing brace, wherever that is; so a reading may go on inside a literal, in both texts astray. What is left of a
header can be read there, but no further item, unless the literal has a marker between two items of its own.
-/

namespace ElmLint.Grammar

variable {α β : Type} {w : Runs} {T U : List Char → List Char → Prop} {words : List (Token.Kind × List Char)}

/-! ## Exposing lists -/

section Exposing

variable (hT : Steady T) (hw : w.Fair)

include hT hw

theorem agree_exposedItem : Agree w T T Eq (exposedItem w.left.range) (exposedItem w.right.range) := by
  have hdots : Agree w T T Eq (upperName <* gap <* symbol "(" <* gap <* symbol ".." <* gap <* symbol ")")
      (upperName <* gap <* symbol "(" <* gap <* symbol ".." <* gap <* symbol ")") :=
    ((((((agree_textOf hT rfl rfl).andSkip (agree_gap hT)).andSkip (agree_symbol hT rfl)).andSkip (agree_gap hT)).andSkip
      (agree_symbol hT rfl)).andSkip (agree_gap hT)).andSkip (agree_symbol hT rfl)
  exact ((agree_between hT rfl rfl (agree_textOf hT rfl rfl)).node_eq hw hT.count hT.count rfl rfl
      fun _ _ _ _ _ h => by rw [h]).orElse <|
    (hdots.node_eq hw hT.count hT.count rfl rfl fun _ _ _ _ _ h => by rw [h]).orElse <|
    ((agree_textOf hT rfl rfl).node_eq hw hT.count hT.count rfl rfl fun _ _ _ _ _ h => by rw [h]).orElse <|
    (agree_lowerName hT).node_eq hw hT.count hT.count rfl rfl fun _ _ _ _ _ h => by rw [h]

theorem agree_exposing : Agree w T T Eq (exposing w.left.range) (exposing w.right.range) := by
  have hbody : Agree w T T Eq (exposedBody w.left.range) (exposedBody w.right.range) :=
    (agree_symbol hT rfl).map_eq.orElse (agree_commaList hT hw (agree_exposedItem hT hw)).map_eq
  exact (agree_between hT rfl rfl hbody).node_eq hw hT.count hT.count rfl rfl fun _ _ _ _ _ h => by rw [h]

/-- `exposing (…)` after blanks. -/
theorem agree_importExposing : Agree w T T Eq (importExposing w.left.range) (importExposing w.right.range) :=
  (((agree_gap hT).andThen (agree_word hT rfl)).andThen (agree_gap hT)).andThen (agree_exposing hT hw)

end Exposing

/-! ## Headers -/

/-- Texts with one skeleton, or texts that are both read from inside a literal. -/
def Strayed (words : List (Token.Kind × List Char)) (cs cs' : List Char) : Prop := Alike words cs cs' ∨ Astray cs cs'

theorem steady_strayed (words : List (Token.Kind × List Char)) : Steady (Strayed words) where
  count _ _ h := h.elim (fun h => h.visibleCount_eq) fun h => h.visibleCount_eq
  reads l hl cs cs' h := by
    have hmono : ∀ {T : List Char → List Char → Prop}, (∀ cs cs', T cs cs' → Strayed words cs cs') → l.ReadsAlike T cs cs' →
        l.ReadsAlike (Strayed words) cs cs' := by
      rintro T hT (hnone | ⟨n, n', hn, hn', htake, hrest⟩)
      · exact .inl hnone
      · exact .inr ⟨n, n', hn, hn', htake, hT _ _ hrest⟩
    rcases h with h | h
    · exact hmono (fun _ _ => .inl) (h.reads hl)
    · exact hmono (fun _ _ => .inr) (h.reads hl)

theorem Steady.and (hT : Steady T) (P : Prop) : Steady fun cs cs' => T cs cs' ∧ P where
  count _ _ h := hT.count _ _ h.1
  reads l hl cs cs' h := by
    rcases hT.reads l hl cs cs' h.1 with hnone | ⟨n, n', hn, hn', htake, hrest⟩
    · exact .inl hnone
    · exact .inr ⟨n, n', hn, hn', htake, hrest, h.2⟩

section Headers

variable (hw : w.Fair)

include hw

/-- Where settings begin, `where` is one of the words. -/
theorem agree_where : Agree w (Alike words) (fun cs cs' => Alike words cs cs' ∧ (.name, "where".toList) ∈ words) (fun _ _ => True)
    (space *> word "where") (space *> word "where") := by
  intro c c' hc
  have hagree := loose_space.andThen hw (agree_word (steady_alike words) (rfl : (Lexeme.word "where").isWord = true)) rfl rfl c c' hc
  rcases hagree.cases with h | h | ⟨h, h'⟩ | ⟨v, d, v', d', h, h', -, hd⟩
  · rw [h]
    trivial
  · rw [h]
    exact .exhausted_right _
  · rw [h, h']
    trivial
  · rw [h, h']
    refine ⟨trivial, hd.left, hd.right, hd.rest, ?_⟩
    obtain ⟨_, c₁, h₁, h₂⟩ := Peg.read_andThen_ok.1 h
    obtain ⟨n, hn, -, rfl⟩ := Peg.read_lexeme_ok.1 h₁
    obtain ⟨m, hm, -, rfl⟩ := Peg.read_lexeme_ok.1 h₂
    obtain ⟨sk, hrenders, -⟩ := hc.rest
    exact hrenders.mem_of_word "where" rfl rfl hn hm

/-- Settings are skipped alike, but both readings may end inside a literal. -/
theorem agree_effectSettings
    (hwords : (.name, "where".toList) ∈ words → ∀ v ∈ words, Marker.separating.char ∉ v.2.dropWhile (· != '}')) :
    Agree w (Alike words) (Strayed words) (fun _ _ => True) effectSettings effectSettings := by
  have hsteady := (steady_alike words).and ((.name, "where".toList) ∈ words)
  have hopening := ((agree_where hw).andThen (agree_gap hsteady)).andThen (agree_symbol hsteady (rfl : (Lexeme.exact "\x7b").isWord = true))
  have hskip : Agree w (fun cs cs' => Alike words cs cs' ∧ (.name, "where".toList) ∈ words)
      (fun cs cs' => (cs = [] ∧ cs' = []) ∨ Strayed words cs cs') (fun _ _ => True) (.lexeme .untilBrace) (.lexeme .untilBrace) := by
    intro c c' hc
    refine ⟨trivial, hc.left.ahead ⟨_, rfl⟩, hc.right.ahead ⟨_, rfl⟩, ?_⟩
    simp only [Cursor.advance, drop_runLength]
    exact hc.rest.1.untilBrace (hwords hc.rest.2)
  have hclosing : Agree w (fun cs cs' => (cs = [] ∧ cs' = []) ∨ Strayed words cs cs') (Strayed words) (fun _ _ => True)
      (symbol "\x7d") (symbol "\x7d") := by
    intro c c' hc
    rcases hc.rest with ⟨hnil, hnil'⟩ | hstrayed
    · rw [symbol, Peg.read_lexeme, Peg.read_lexeme, hnil, hnil']
      trivial
    · exact (agree_symbol (steady_strayed words) rfl).any c c' ⟨hc.left, hc.right, hstrayed⟩
  exact (hopening.andThen hskip).andSkip hclosing

end Headers

/-- The word that announces the kind of a module. -/
def kindWord : Phrase ModuleKind := .map (fun _ => .port) (word "port") <|> .map (fun _ => .effect) (word "effect")

section Kinds

variable {call : (r : Rule) → Cursor → Outcome r.Sem} {c d : Cursor} {v : ModuleKind}

/-- Whether the kind of a module is read depends on its word and on the blanks after it. -/
theorem read_opt_moduleKind (call : (r : Rule) → Cursor → Outcome r.Sem) (c : Cursor) : (Peg.opt moduleKind).read call c =
    match kindWord.read call c with
    | .fail => .ok none c
    | .exhausted => .exhausted
    | .ok v d => match space.read call d with
      | .fail => .ok none c
      | .exhausted => .exhausted
      | .ok _ e => .ok (some v) e := by
  change (Peg.opt (.node (fun _ _ v => Prod.fst v) (.seq kindWord space))).read call c = _
  rw [Peg.read_opt, Peg.read_node, Peg.read_seq]
  cases kindWord.read call c with
  | fail => rfl
  | exhausted => rfl
  | ok v d =>
    simp only
    cases space.read call d <;> rfl

theorem head?_of_read_word {text : String} {c₀ : Char} (htext : text.toList.head? = some c₀) {v : List Char}
    (h : (word text).read call c = .ok v d) : c.rest.head? = some c₀ := by
  obtain ⟨n, hn, -⟩ := Peg.read_lexeme_ok.1 h
  obtain ⟨⟨rest, hrest⟩, -⟩ := wordLength?_eq_some_iff.1 hn
  obtain ⟨more, hmore⟩ := List.head?_eq_some_iff.1 htext
  rw [← hrest, hmore]
  rfl

/-- The word that announces the kind of a module is not the one that begins the rest of its header. -/
theorem read_afterKind_fail (h : kindWord.read call c = .ok v d) (q : Phrase α) :
    (Peg.seq (word "module" *> space *> moduleName <* .opt effectSettings) q).read call c = .fail := by
  have hhead : c.rest.head? = some 'p' ∨ c.rest.head? = some 'e' := by
    rcases Peg.read_alt_ok.1 h with h | ⟨-, h⟩
    · obtain ⟨text, htext, -⟩ := Peg.read_node_ok.1 h
      exact .inl (head?_of_read_word rfl htext)
    · obtain ⟨text, htext, -⟩ := Peg.read_node_ok.1 h
      exact .inr (head?_of_read_word rfl htext)
  cases hread : (word "module").read call c with
  | fail =>
    have hname : (word "module" *> space *> moduleName).read call c = .fail := by rw [read_andThen, read_andThen, hread]
    change (Peg.seq (.node (fun _ _ v => Prod.fst v) (.seq (word "module" *> space *> moduleName) (.opt effectSettings))) q).read
      call c = .fail
    rw [Peg.read_seq, Peg.read_node, Peg.read_seq, hname]
  | exhausted =>
    rw [word, Peg.read_lexeme] at hread
    split at hread <;> cases hread
  | ok text d =>
    have hm : c.rest.head? = some 'm' := head?_of_read_word rfl hread
    rcases hhead with hhead | hhead <;> cases hhead.symm.trans hm

/-- Blanks that are missing after the kind leave nothing that the rest could be read from. -/
theorem read_afterKind_of_spent (hcall : Peg.Showing call) {q : Phrase α} (hshows : q.shows = true)
    (hfail : q.read call c = .fail) (hkind : kindWord.read call c = .ok v d) (hspace : Spent (space.read call d)) :
    (Peg.seq (.opt moduleKind) q).read call c = .fail ∨ (Peg.seq (.opt moduleKind) q).read call c = .exhausted := by
  rw [Peg.read_seq, read_opt_moduleKind, hkind]
  simp only
  cases hs : space.read call d with
  | fail => exact .inl (by simp only [hfail])
  | exhausted => exact .inr rfl
  | ok blanks e =>
    rw [hs] at hspace
    simp only
    cases hr : q.read call e with
    | fail => exact .inl rfl
    | exhausted => exact .inr rfl
    | ok a f =>
      have hlt := Peg.read_shows hcall q hshows hr
      rw [visibleCount_blanks hspace] at hlt
      cases hlt

end Kinds

section Headers

variable (hw : w.Fair)

include hw

/-- What may be announced before a phrase that begins with the word `module` is settled with it. -/
theorem agree_afterKind {R : α → α → Prop} {q q' : Phrase α} (hq : Agree w (Alike words) U R q q') (hshows : q.shows = true)
    (hshows' : q'.shows = true)
    (hfail : ∀ call c v d, kindWord.read call c = .ok v d → q.read call c = .fail ∧ q'.read call c = .fail) :
    Agree w (Alike words) U (fun v v' => v.1 = v'.1 ∧ R v.2 v'.2) (.seq (.opt moduleKind) q) (.seq (.opt moduleKind) q') := by
  intro c c' hc
  have hkind : Agree w (Alike words) (Alike words) Eq kindWord kindWord :=
    (agree_word (steady_alike words) rfl).map_eq.orElse (agree_word (steady_alike words) rfl).map_eq
  rcases (hkind c c' hc).cases with h | h | ⟨h, h'⟩ | ⟨v, d, v', d', h, h', rfl, hd⟩
  · refine Agree.seq_at ?_ hq
    rw [read_opt_moduleKind, h]
    trivial
  · refine Agree.seq_at ?_ hq
    rw [read_opt_moduleKind w.callRight, h]
    exact .exhausted_right _
  · refine Agree.seq_at ?_ hq
    rw [read_opt_moduleKind, read_opt_moduleKind, h, h']
    exact ⟨rfl, hc⟩
  · rcases loose_space d d' hd with hspace | ⟨hspace, hspace'⟩
    · refine Agree.seq_at ?_ hq
      rw [read_opt_moduleKind, read_opt_moduleKind, h, h']
      simp only
      rcases hspace.cases with hs | hs | ⟨hs, hs'⟩ | ⟨_, e, _, e', hs, hs', -, he⟩
      · rw [hs]
        trivial
      · rw [hs]
        exact .exhausted_right _
      · rw [hs, hs']
        exact ⟨rfl, hc⟩
      · rw [hs, hs']
        exact ⟨rfl, he⟩
    · rcases read_afterKind_of_spent hw.left hshows (hfail _ _ _ _ h).1 h hspace with hleft | hleft
      · rcases read_afterKind_of_spent hw.right hshows' (hfail _ _ _ _ h').2 h' hspace' with hright | hright
        · rw [hleft, hright]
          trivial
        · rw [hright]
          exact .exhausted_right _
      · rw [hleft]
        trivial

/-- A header gives the same, but both readings may end inside a literal. -/
theorem agree_header
    (hwords : (.name, "where".toList) ∈ words → ∀ v ∈ words, Marker.separating.char ∉ v.2.dropWhile (· != '}')) :
    Agree w (Alike words) (Strayed words) Eq (header w.left.range) (header w.right.range) := by
  have hname : Agree w (Alike words) (Alike words) Eq (word "module" *> space *> moduleName) (word "module" *> space *> moduleName) :=
    ((agree_word (steady_alike words) rfl).andThen_loose loose_space).andThen hw (agree_moduleName (steady_alike words)) rfl rfl
  have hsettings : Agree w (Alike words) (Strayed words) (fun _ _ => True) (.opt effectSettings) (.opt effectSettings) :=
    (agree_effectSettings hw hwords).opt (fun _ _ => .inl) (fun _ _ _ => trivial) trivial
  have hrest := (hname.andSkip hsettings).both (agree_importExposing (steady_strayed words) hw)
  have hall := agree_afterKind hw hrest rfl rfl fun call c v d h =>
    ⟨read_afterKind_fail h (importExposing w.left.range), read_afterKind_fail h (importExposing w.right.range)⟩
  exact hall.node hw (steady_alike words).count (steady_strayed words).count rfl rfl fun i j i' j' v v' hrange hv => by
    rw [Prod.ext hv.1 hv.2, hrange]

end Headers

/-! ## Items of a module -/

section Items

variable (hw : w.Fair) (hcall : ∀ r, Settled w words fun _ => rule r)

include hw

theorem settled_importDecl : Settled w words importDecl := by
  have hname : Settled w words fun _ => word "import" *> space *> moduleName :=
    ((agree_word (steady_alike words) rfl).andThen_loose loose_space).andThen hw (agree_moduleName (steady_alike words)) rfl rfl
  have has : Settled w words fun _ => space *> word "as" :=
    loose_space.andThen hw (agree_word (steady_alike words) rfl) rfl rfl
  have halias : Settled w words fun _ => importAlias :=
    (has.andThen_loose loose_space).andThen hw (agree_textOf (steady_alike words) rfl rfl) rfl rfl
  exact settled_node hw (hname.both ((settled_opt halias).both (settled_opt (agree_importExposing (steady_alike words) hw))))
    rfl rfl fun _ _ _ _ _ h => by rw [h]

theorem settled_typeVariables : Settled w words fun _ => typeVariables :=
  settled_many hw (loose_space.andThen hw (agree_lowerName (steady_alike words)) rfl rfl) rfl rfl

include hcall

theorem settled_customType : Settled w words customType := by
  have hname : Settled w words fun _ => word "type" *> space *> upperName :=
    ((agree_word (steady_alike words) rfl).andThen_loose loose_space).andThen hw (agree_textOf (steady_alike words) rfl rfl) rfl rfl
  have hconstructor : Settled w words valueConstructor :=
    settled_node hw ((agree_textOf (steady_alike words) rfl rfl).both
      (settled_many hw ((agree_gap (steady_alike words)).andThen (hcall .typeAtom)) rfl rfl)) rfl rfl fun _ _ _ _ _ h => by rw [h]
  have hmore : Settled w words moreConstructors :=
    settled_many hw ((agree_spaced (steady_alike words) rfl).andThen hconstructor) rfl rfl
  exact settled_node hw (hname.both ((settled_typeVariables hw).both
    (((agree_spaced (steady_alike words) rfl).andThen hconstructor).both hmore))) rfl rfl fun _ _ _ _ _ h => by rw [h]

theorem settled_typeAlias : Settled w words typeAlias := by
  have halias : Settled w words fun _ => word "type" *> space *> word "alias" :=
    ((agree_word (steady_alike words) rfl).andThen_loose loose_space).andThen hw (agree_word (steady_alike words) rfl) rfl rfl
  have hname : Settled w words fun _ => word "type" *> space *> word "alias" *> space *> upperName :=
    (halias.andThen_loose loose_space).andThen hw (agree_textOf (steady_alike words) rfl rfl) rfl rfl
  exact settled_node hw (hname.both ((settled_typeVariables hw).both
    ((agree_spaced (steady_alike words) rfl).andThen (hcall .typeExpr)))) rfl rfl fun _ _ _ _ _ h => by rw [h]

theorem settled_port : Settled w words port := by
  have hname : Settled w words fun _ => word "port" *> space *> lowerName :=
    ((agree_word (steady_alike words) rfl).andThen_loose loose_space).andThen hw (agree_lowerName (steady_alike words)) rfl rfl
  exact settled_node hw (hname.both ((agree_spaced (steady_alike words) rfl).andThen (hcall .typeExpr))) rfl rfl
    fun _ _ _ _ _ h => by rw [h]

variable (hwords : (.name, "where".toList) ∈ words → ∀ v ∈ words, Marker.separating.char ∉ v.2.dropWhile (· != '}'))

include hwords

theorem agree_topItem : Agree w (Alike words) (Strayed words) Eq (topItem w.left.range) (topItem w.right.range) := by
  have hmono : ∀ {p p' : Phrase TopItem}, Agree w (Alike words) (Alike words) Eq p p' → Agree w (Alike words) (Strayed words) Eq p p' :=
    fun h => h.mono (fun _ _ => id) (fun _ _ => .inl) fun _ _ => id
  exact (agree_header hw hwords).map_eq.orElse <| (hmono (settled_importDecl hw).map_eq).orElse <|
    (hmono (settled_port hw hcall).map_eq).orElse <| (hmono (settled_typeAlias hw hcall).map_eq).orElse <|
    (hmono (settled_customType hw hcall).map_eq).orElse <| (hmono (settled_signature hw hcall).map_eq).orElse <|
    hmono (settled_functionDecl hw hcall).map_eq

omit hw hcall hwords in
/-- Two items are separated alike, and not inside a literal. -/
theorem agree_separator : Agree w (Strayed words) (Alike words) (fun _ _ => True) (gap *> marker .separating *> gap)
    (gap *> marker .separating *> gap) := by
  have hmarker : Agree w (Strayed words) (Alike words) (fun v v' => Lexeme.isGap (.marker .separating) = false → v = v')
      (marker .separating) (marker .separating) := by
    refine Agree.lexeme fun cs cs' h => ?_
    rcases h with h | h
    · exact h.reads_marker .separating
    · exact .inl h.reads_separating
  exact ((agree_gap (steady_strayed words)).andThen hmarker).andThen (agree_gap (steady_alike words))

/-- The items of a module are the same, and one text is read to its end just when the other one is. -/
theorem agree_topLevel : Agree w (Alike words) (fun cs cs' => cs = [] ↔ cs' = []) Eq (topLevel w.left.range)
    (topLevel w.right.range) := by
  have hitem := agree_topItem hw hcall hwords
  have hmore := (agree_separator.andThen hitem).many hw (steady_strayed words).count rfl rfl
  have hitems : Agree w (Alike words) (Strayed words) Eq (Peg.opt (separated (gap *> marker .separating *> gap) (topItem w.left.range)))
      (Peg.opt (separated (gap *> marker .separating *> gap) (topItem w.right.range))) :=
    (hitem.both hmore).map_eq.opt (fun _ _ => .inl) (fun _ _ => congrArg some) rfl
  have hend : Agree w (Strayed words) (fun cs cs' => cs = [] ↔ cs' = []) (fun _ _ => True) gap gap := by
    intro c c' hc
    refine ⟨trivial, hc.left.ahead ⟨_, rfl⟩, hc.right.ahead ⟨_, rfl⟩, ?_⟩
    simp only [Cursor.advance, drop_runLength]
    rcases hc.rest with halike | hastray
    · exact halike.dropWhile_eq_nil_iff
    · obtain ⟨hne, hne'⟩ := hastray.dropWhile_ne_nil
      exact ⟨fun h => absurd h hne, fun h => absurd h hne'⟩
  exact (((agree_gap (steady_alike words)).andThen hitems).andSkip hend).map_eq

end Items

end ElmLint.Grammar
