import ElmLint.Proofs.Alike
import ElmLint.Proofs.Shown

/-!
# Two runs that agree

`Grammar.Agree` relates two phrases that are read in two laid-out texts: at related places both fail, or both give related values and
end at related places again. A run that stops for want of fuel agrees with every other. There is one rule for each kind of
expression, so that a phrase of the grammar is followed the way it is written. Nodes agree since what they read shows something
and ranges are told by what can be seen (`Agree.node`). Blanks that must be there are read loosely: at the end they may be
missing in one of the texts; but a phrase that shows something makes up for that (`Loose.andThen`).
-/

namespace ElmLint

/-- Two outcomes agree: both are failures, or both are successes with related values and places. -/
def Outcome.Agrees {α : Type} (S : Cursor → Cursor → Prop) (R : α → α → Prop) : Outcome α → Outcome α → Prop
  | .exhausted, _ => True
  | _, .exhausted => True
  | .fail, .fail => True
  | .ok v c, .ok v' c' => R v v' ∧ S c c'
  | _, _ => False

namespace Outcome.Agrees

variable {α : Type} {S : Cursor → Cursor → Prop} {R : α → α → Prop}

theorem exhausted_right (o : Outcome α) : o.Agrees S R .exhausted := by cases o <;> trivial

/-- One of two outcomes that agree is for want of fuel, or both are failures, or both are successes. -/
theorem cases {o o' : Outcome α} (h : o.Agrees S R o') : o = .exhausted ∨ o' = .exhausted ∨ (o = .fail ∧ o' = .fail) ∨
    ∃ v c v' c', o = .ok v c ∧ o' = .ok v' c' ∧ R v v' ∧ S c c' := by
  cases o with
  | exhausted => exact .inl rfl
  | fail =>
    cases o' with
    | exhausted => exact .inr (.inl rfl)
    | fail => exact .inr (.inr (.inl ⟨rfl, rfl⟩))
    | ok => exact False.elim h
  | ok v c =>
    cases o' with
    | exhausted => exact .inr (.inl rfl)
    | fail => exact False.elim h
    | ok v' c' => exact .inr (.inr (.inr ⟨v, c, v', c', rfl, rfl, h⟩))

end Outcome.Agrees

namespace Grammar

/-- Places of two laid-out texts where what is left is related. -/
structure Places (l l' : LaidOut) (T : List Char → List Char → Prop) (c c' : Cursor) : Prop where
  left : c.On l.text
  right : c'.On l'.text
  rest : T c.rest c'.rest

/-- Two laid-out texts, each with what runs the rules in it. -/
structure Runs where
  left : LaidOut
  right : LaidOut
  callLeft : (r : Rule) → Cursor → Outcome r.Sem
  callRight : (r : Rule) → Cursor → Outcome r.Sem

namespace Runs

/-- The same can be seen of both texts, and rules show something in both. -/
structure Fair (w : Runs) : Prop where
  seen : w.left.seen = w.right.seen
  left : Peg.Showing w.callLeft
  right : Peg.Showing w.callRight

/-- Places of the two texts where what is left is related. -/
abbrev At (w : Runs) (T : List Char → List Char → Prop) : Cursor → Cursor → Prop := Places w.left w.right T

end Runs

variable {α β : Type}

/-- Two phrases agree in two runs: read at places related by `T`, they give values related by `R` and end at places related
by `U`. -/
def Agree (w : Runs) (T U : List Char → List Char → Prop) (R : α → α → Prop) (p p' : Phrase α) : Prop :=
  ∀ c c', w.At T c c' → (p.read w.callLeft c).Agrees (w.At U) R (p'.read w.callRight c')

/-- Related texts show as many characters. -/
def Counts (T : List Char → List Char → Prop) : Prop := ∀ cs cs', T cs cs' → visibleCount cs = visibleCount cs'

variable {w : Runs} {T U V : List Char → List Char → Prop} {R : α → α → Prop} {S : β → β → Prop} {p p' : Phrase α}
  {q q' : Phrase β}

/-! ## One rule for each kind of expression -/

namespace Agree

/-- A word that is read alike gives the same value, unless it is of blanks. -/
theorem lexeme {l : Lexeme} (h : ∀ cs cs', T cs cs' → l.ReadsAlike U cs cs') :
    Agree w T U (fun v v' => l.isGap = false → v = v') (.lexeme l) (.lexeme l) := by
  intro c c' hc
  rw [Peg.read_lexeme, Peg.read_lexeme]
  rcases h _ _ hc.rest with ⟨hn, hn'⟩ | ⟨n, n', hn, hn', htake, hrest⟩
  · rw [hn, hn']
    trivial
  · rw [hn, hn']
    exact ⟨htake, hc.left.ahead ⟨n, rfl⟩, hc.right.ahead ⟨n', rfl⟩, hrest⟩

/-- What follows from the values and places of two successes follows from the outcomes. -/
theorem mono {R' : α → α → Prop} (h : Agree w T U R p p') (hT : ∀ cs cs', V cs cs' → T cs cs')
    {U' : List Char → List Char → Prop} (hU : ∀ cs cs', U cs cs' → U' cs cs') (hR : ∀ v v', R v v' → R' v v') :
    Agree w V U' R' p p' := by
  intro c c' hc
  rcases (h c c' ⟨hc.left, hc.right, hT _ _ hc.rest⟩).cases with hp | hp | ⟨hp, hp'⟩ | ⟨v, d, v', d', hp, hp', hv, hd⟩
  · rw [hp]
    trivial
  · rw [hp]
    exact .exhausted_right _
  · rw [hp, hp']
    trivial
  · rw [hp, hp']
    exact ⟨hR v v' hv, hd.left, hd.right, hU _ _ hd.rest⟩

/-- It may not matter what the values are. -/
theorem any (h : Agree w T U R p p') : Agree w T U (fun _ _ => True) p p' :=
  h.mono (fun _ _ => id) (fun _ _ => id) fun _ _ _ => trivial

/-- One phrase after another agrees at two places, when the first one does there and the second one does. -/
theorem seq_at {c c' : Cursor} (hp : (p.read w.callLeft c).Agrees (w.At U) R (p'.read w.callRight c')) (hq : Agree w U V S q q') :
    ((Peg.seq p q).read w.callLeft c).Agrees (w.At V) (fun v v' => R v.1 v'.1 ∧ S v.2 v'.2)
      ((Peg.seq p' q').read w.callRight c') := by
  rw [Peg.read_seq, Peg.read_seq]
  rcases hp.cases with h₁ | h₁ | ⟨h₁, h₁'⟩ | ⟨a, c₁, a', c₁', h₁, h₁', ha, hc₁⟩
  · rw [h₁]
    trivial
  · rw [h₁]
    exact .exhausted_right _
  · rw [h₁, h₁']
    trivial
  · rw [h₁, h₁']
    simp only
    rcases (hq c₁ c₁' hc₁).cases with h₂ | h₂ | ⟨h₂, h₂'⟩ | ⟨b, c₂, b', c₂', h₂, h₂', hb, hc₂⟩
    · rw [h₂]
      trivial
    · rw [h₂]
      exact .exhausted_right _
    · rw [h₂, h₂']
      trivial
    · rw [h₂, h₂']
      exact ⟨⟨ha, hb⟩, hc₂⟩

theorem seq (hp : Agree w T U R p p') (hq : Agree w U V S q q') :
    Agree w T V (fun v v' => R v.1 v'.1 ∧ S v.2 v'.2) (.seq p q) (.seq p' q') := fun c c' hc => seq_at (hp c c' hc) hq

/-- One phrase after another gives the same values. -/
theorem both (hp : Agree w T U Eq p p') (hq : Agree w U V Eq q q') : Agree w T V Eq (.seq p q) (.seq p' q') :=
  (hp.seq hq).mono (fun _ _ => id) (fun _ _ => id) fun _ _ h => Prod.ext h.1 h.2

theorem alt {r r' : Phrase α} (hp : Agree w T U R p p') (hr : Agree w T U R r r') : Agree w T U R (.alt p r) (.alt p' r') := by
  intro c c' hc
  rw [Peg.read_alt, Peg.read_alt]
  rcases (hp c c' hc).cases with h | h | ⟨h, h'⟩ | ⟨v, d, v', d', h, h', hv, hd⟩
  · rw [h]
    trivial
  · rw [h]
    exact .exhausted_right _
  · rw [h, h']
    exact hr c c' hc
  · rw [h, h']
    exact ⟨hv, hd⟩

theorem orElse {r r' : Phrase α} (hp : Agree w T U R p p') (hr : Agree w T U R r r') : Agree w T U R (p <|> r) (p' <|> r') :=
  hp.alt hr

/-- What may be there agrees, with values related like those of what is there. -/
theorem opt {S : Option α → Option α → Prop} (hp : Agree w T U R p p') (hU : ∀ cs cs', T cs cs' → U cs cs')
    (hsome : ∀ v v', R v v' → S (some v) (some v')) (hnone : S none none) : Agree w T U S (.opt p) (.opt p') := by
  intro c c' hc
  rw [Peg.read_opt, Peg.read_opt]
  rcases (hp c c' hc).cases with h | h | ⟨h, h'⟩ | ⟨v, d, v', d', h, h', hv, hd⟩
  · rw [h]
    trivial
  · rw [h]
    exact .exhausted_right _
  · rw [h, h']
    exact ⟨hnone, hc.left, hc.right, hU _ _ hc.rest⟩
  · rw [h, h']
    exact ⟨hsome v v' hv, hd⟩

theorem without (hp : Agree w T U R p p') : Agree w T T Eq (.without p) (.without p') := by
  intro c c' hc
  rw [Peg.read_without, Peg.read_without]
  rcases (hp c c' hc).cases with h | h | ⟨h, h'⟩ | ⟨v, d, v', d', h, h', -⟩
  · rw [h]
    trivial
  · rw [h]
    exact .exhausted_right _
  · rw [h, h']
    exact ⟨rfl, hc⟩
  · rw [h, h']
    trivial

/-- Nodes agree, when they are built alike for the same range. -/
theorem node {build build' : Nat → Nat → α → β} (hw : w.Fair) (hT : Counts T) (hU : Counts U) (hp : Agree w T U R p p')
    (hshows : p.shows = true) (hshows' : p'.shows = true)
    (hbuild : ∀ i j i' j' v v', w.left.range i j = w.right.range i' j' → R v v' → S (build i j v) (build' i' j' v')) :
    Agree w T U S (.node build p) (.node build' p') := by
  intro c c' hc
  rw [Peg.read_node, Peg.read_node]
  rcases (hp c c' hc).cases with h | h | ⟨h, h'⟩ | ⟨v, d, v', d', h, h', hv, hd⟩
  · rw [h]
    trivial
  · rw [h]
    exact .exhausted_right _
  · rw [h, h']
    trivial
  · rw [h, h']
    refine ⟨hbuild _ _ _ _ v v' ?_ hv, hd⟩
    rw [LaidOut.range_eq hc.left (Peg.read_ahead hw.left.ahead p h) (Peg.read_shows hw.left p hshows h),
      LaidOut.range_eq hc.right (Peg.read_ahead hw.right.ahead p' h') (Peg.read_shows hw.right p' hshows' h'), hw.seen,
      hT _ _ hc.rest, hU _ _ hd.rest]

/-- Values changed by functions agree at two places, when the values do. -/
theorem map_at {c c' : Cursor} {build build' : α → β}
    (hp : (p.read w.callLeft c).Agrees (w.At U) R (p'.read w.callRight c')) (hbuild : ∀ v v', R v v' → S (build v) (build' v')) :
    ((Peg.map build p).read w.callLeft c).Agrees (w.At U) S ((Peg.map build' p').read w.callRight c') := by
  rw [Peg.map, Peg.map, Peg.read_node, Peg.read_node]
  rcases hp.cases with h | h | ⟨h, h'⟩ | ⟨v, d, v', d', h, h', hv, hd⟩
  · rw [h]
    trivial
  · rw [h]
    exact .exhausted_right _
  · rw [h, h']
    trivial
  · rw [h, h']
    exact ⟨hbuild v v' hv, hd⟩

theorem map {build build' : α → β} (hp : Agree w T U R p p') (hbuild : ∀ v v', R v v' → S (build v) (build' v')) :
    Agree w T U S (.map build p) (.map build' p') := fun c c' hc => map_at (hp c c' hc) hbuild

theorem andThen (hp : Agree w T U R p p') (hq : Agree w U V S q q') : Agree w T V S (p *> q) (p' *> q') :=
  (hp.seq hq).map fun _ _ h => h.2

theorem andSkip (hp : Agree w T U R p p') (hq : Agree w U V S q q') : Agree w T V R (p <* q) (p' <* q') :=
  (hp.seq hq).map fun _ _ h => h.1

/-- Where nothing is left to be seen, a repetition of what shows something ends at once. -/
theorem repeated_spent {item : Cursor → Outcome α} {c : Cursor}
    (hshown : ∀ v d, item c = .ok v d → visibleCount d.rest < visibleCount c.rest) (hspent : visibleCount c.rest = 0) :
    ∀ bound, Peg.repeated item bound c = .ok [] c ∨ Peg.repeated item bound c = .exhausted
  | 0 => .inl rfl
  | bound + 1 => by
    rw [Peg.repeated_succ]
    cases h : item c with
    | fail => exact .inl rfl
    | exhausted => exact .inr rfl
    | ok v d =>
      have := hshown v d h
      omega

/-- A repetition of what agrees and shows something agrees. It may be bounded differently in the two runs, as long as the
bounds are no smaller than what is left to be seen. -/
theorem repeated {item item' : Cursor → Outcome α} (hT : Counts T)
    (hitem : ∀ c c', w.At T c c' → (item c).Agrees (w.At T) Eq (item' c'))
    (hshown : ∀ c v d, item c = .ok v d → c.Ahead d ∧ visibleCount d.rest < visibleCount c.rest)
    (hshown' : ∀ c v d, item' c = .ok v d → c.Ahead d ∧ visibleCount d.rest < visibleCount c.rest) :
    ∀ (bound bound' : Nat) (c c' : Cursor), w.At T c c' → visibleCount c.rest ≤ bound → visibleCount c'.rest ≤ bound' →
      (Peg.repeated item bound c).Agrees (w.At T) Eq (Peg.repeated item' bound' c') := by
  have hspent : ∀ {bound bound' : Nat} {c c' : Cursor}, w.At T c c' → visibleCount c.rest = 0 →
      (Peg.repeated item bound c).Agrees (w.At T) Eq (Peg.repeated item' bound' c') := by
    intro bound bound' c c' hc hnone
    have hnone' : visibleCount c'.rest = 0 := (hT _ _ hc.rest).symm.trans hnone
    rcases repeated_spent (fun v d h => (hshown c v d h).2) hnone bound with h | h
    · rcases repeated_spent (fun v d h => (hshown' c' v d h).2) hnone' bound' with h' | h'
      · rw [h, h']
        exact ⟨rfl, hc⟩
      · rw [h']
        exact .exhausted_right _
    · rw [h]
      trivial
  have hmoves : ∀ {c d : Cursor}, c.Ahead d ∧ visibleCount d.rest < visibleCount c.rest → ¬ (d.offset == c.offset) = true := by
    rintro c d ⟨⟨n, rfl⟩, hlt⟩ heq
    obtain rfl : n = 0 := by simpa [Cursor.advance] using heq
    exact Nat.lt_irrefl _ hlt
  intro bound
  induction bound with
  | zero => exact fun bound' c c' hc hle _ => hspent hc (Nat.eq_zero_of_le_zero hle)
  | succ bound ih =>
    intro bound' c c' hc hle hle'
    cases bound' with
    | zero => exact hspent hc ((hT _ _ hc.rest).trans (Nat.eq_zero_of_le_zero hle'))
    | succ bound' =>
      rw [Peg.repeated_succ, Peg.repeated_succ]
      rcases (hitem c c' hc).cases with h | h | ⟨h, h'⟩ | ⟨v, d, v', d', h, h', hv, hd⟩
      · rw [h]
        trivial
      · rw [h]
        exact .exhausted_right _
      · rw [h, h']
        exact ⟨rfl, hc⟩
      · have hd₁ := hshown c v d h
        have hd₂ := hshown' c' v' d' h'
        rw [h, h']
        simp only
        rw [if_neg (hmoves hd₁), if_neg (hmoves hd₂)]
        rcases (ih bound' d d' hd (by omega) (by omega)).cases with h | h | ⟨h, h'⟩ | ⟨vs, e, vs', e', h, h', hvs, he⟩
        · rw [h]
          trivial
        · rw [h]
          exact .exhausted_right _
        · rw [h, h']
          trivial
        · rw [h, h', hv, hvs]
          exact ⟨rfl, he⟩

theorem many (hw : w.Fair) (hT : Counts T) (hp : Agree w T T Eq p p') (hshows : p.shows = true) (hshows' : p'.shows = true) :
    Agree w T T Eq (.many p) (.many p') := by
  intro c c' hc
  rw [Peg.read_many, Peg.read_many]
  exact repeated hT hp (fun c v d h => ⟨Peg.read_ahead hw.left.ahead p h, Peg.read_shows hw.left p hshows h⟩)
    (fun c v d h => ⟨Peg.read_ahead hw.right.ahead p' h, Peg.read_shows hw.right p' hshows' h⟩) _ _ c c' hc
    List.countP_le_length List.countP_le_length

theorem atLeastOne (hw : w.Fair) (hT : Counts T) (hp : Agree w T T Eq p p') (hshows : p.shows = true)
    (hshows' : p'.shows = true) : Agree w T T Eq (.atLeastOne p) (.atLeastOne p') :=
  (hp.both (hp.many hw hT hshows hshows')).map fun _ _ h => by rw [h]

end Agree

/-! ## Blanks that may be missing at the end -/

/-- A reading that fails, or that leaves nothing but blanks. -/
def Spent : Outcome α → Prop
  | .ok _ c => ∀ ch ∈ c.rest, isBlank ch = true
  | _ => True

/-- Two phrases agree, or both readings are spent. -/
def Loose (w : Runs) (T : List Char → List Char → Prop) (p p' : Phrase α) : Prop :=
  ∀ c c', w.At T c c' → (p.read w.callLeft c).Agrees (w.At T) (fun _ _ => True) (p'.read w.callRight c') ∨
    Spent (p.read w.callLeft c) ∧ Spent (p'.read w.callRight c')

theorem read_andThen {call : (r : Rule) → Cursor → Outcome r.Sem} (c : Cursor) : (p *> q).read call c =
    match p.read call c with
    | .fail => .fail
    | .exhausted => .exhausted
    | .ok _ d => q.read call d := by
  change (Peg.node (fun _ _ v => Prod.snd v) (.seq p q)).read call c = _
  rw [Peg.read_node, Peg.read_seq]
  cases p.read call c with
  | fail => rfl
  | exhausted => rfl
  | ok v d =>
    simp only
    cases q.read call d <;> rfl

/-- After a spent reading there is nothing to be read that shows something. -/
theorem Spent.andThen {call : (r : Rule) → Cursor → Outcome r.Sem} (hcall : Peg.Showing call) {c : Cursor}
    (hp : Spent (p.read call c)) (hq : q.shows = true) :
    (p *> q).read call c = .fail ∨ (p *> q).read call c = .exhausted := by
  rw [read_andThen]
  cases h : p.read call c with
  | fail => exact .inl rfl
  | exhausted => exact .inr rfl
  | ok v d =>
    rw [h] at hp
    simp only
    cases h' : q.read call d with
    | fail => exact .inl rfl
    | exhausted => exact .inr rfl
    | ok v' e =>
      have hlt := Peg.read_shows hcall q hq h'
      rw [visibleCount_blanks hp] at hlt
      cases hlt

/-- Blanks that must be there are read loosely. -/
theorem loose_space {words : List (Token.Kind × List Char)} : Loose w (Alike words) space space := by
  intro c c' hc
  have hread : ∀ {call : (r : Rule) → Cursor → Outcome r.Sem} {c : Cursor}, (∀ ch ∈ c.rest, isBlank ch = true) →
      Spent (space.read call c) := by
    intro call c hblank
    rw [space, Peg.read_lexeme]
    cases Lexeme.someBlanks.length? c.rest with
    | none => trivial
    | some n => exact fun ch hch => hblank ch (List.mem_of_mem_drop hch)
  rcases hc.rest.reads_someBlanks with hreads | ⟨hblank, hblank'⟩
  · rw [space, Peg.read_lexeme, Peg.read_lexeme]
    rcases hreads with ⟨hn, hn'⟩ | ⟨n, n', hn, hn', -, hrest⟩
    · rw [hn, hn']
      exact .inl trivial
    · rw [hn, hn']
      exact .inl ⟨trivial, hc.left.ahead ⟨n, rfl⟩, hc.right.ahead ⟨n', rfl⟩, hrest⟩
  · exact .inr ⟨hread hblank, hread hblank'⟩

/-- A phrase that shows something makes up for blanks that may be missing. -/
theorem Loose.andThen (hw : w.Fair) (hp : Loose w T p p') (hq : Agree w T U S q q') (hshows : q.shows = true)
    (hshows' : q'.shows = true) : Agree w T U S (p *> q) (p' *> q') := by
  intro c c' hc
  rcases hp c c' hc with hagrees | ⟨hspent, hspent'⟩
  · exact Agree.map_at (Agree.seq_at hagrees hq) fun _ _ h => h.2
  · rcases hspent.andThen hw.left hshows with h | h
    · rcases hspent'.andThen hw.right hshows' with h' | h'
      · rw [h, h']
        trivial
      · rw [h']
        exact .exhausted_right _
    · rw [h]
      trivial

/-- A loose phrase after one that agrees is loose. -/
theorem Agree.andThen_loose (hp : Agree w T T R p p') (hq : Loose w T q q') : Loose w T (p *> q) (p' *> q') := by
  intro c c' hc
  rw [read_andThen, read_andThen]
  rcases (hp c c' hc).cases with h | h | ⟨h, h'⟩ | ⟨v, d, v', d', h, h', -, hd⟩
  · rw [h]
    exact .inl trivial
  · rw [h]
    exact .inl (.exhausted_right _)
  · rw [h, h']
    exact .inl trivial
  · rw [h, h']
    exact hq d d' hd

end Grammar

end ElmLint
