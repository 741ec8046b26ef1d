import ElmLint.Proofs.Rendering
import ElmLint.Proofs.Spaced

/-!
# Reading the names of a rendering

A name that is written down is read as a name (`IsLowerName.reads`), and as no keyword unless it is one (`missesWord_word`,
`IsLowerName.misses_keyword`). A name with its qualifier is read to its end, with capitalised segments only
(`reads_upperPath_qualifiedWord`) or with a last one of either case (`reads_path_qualifiedWord`), and taken apart again
(`qualified_qualifiedWord`).
-/

namespace ElmLint

theorem runLength_eq_length {p : Char → Bool} {cs : List Char} (h : ∀ c ∈ cs, p c = true) : runLength p cs = cs.length := by
  rw [runLength, List.takeWhile_eq_self_iff.2 h]

/-! ## Single names -/

section Names

variable {first : Char → Bool} {w : List Char}

theorem IsName.isNameChar (h : IsName first w) (hfirst : ∀ c, first c = true → isNameChar c = true) :
    ∀ c ∈ w, isNameChar c = true := by
  obtain ⟨c, cs, rfl, hc, hcs⟩ := h
  exact List.forall_mem_cons.2 ⟨hfirst c hc, hcs⟩

theorem all_isSolid_of_isNameChar (h : ∀ c ∈ w, isNameChar c = true) : w.all isSolid = true :=
  List.all_eq_true.2 fun c hc => isSolid_of_isNameChar (h c hc)

/-- The length of a name. -/
theorem IsName.nameLength?_eq (h : IsName first w) : nameLength? first w = some w.length := by
  obtain ⟨c, cs, rfl, hc, hcs⟩ := h
  rw [nameLength?_cons_eq_some_iff, runLength_eq_length hcs, List.length_cons]
  exact ⟨hc, rfl⟩

/-- A word of name characters is no other word. -/
theorem wordLength?_eq_none {word : List Char} (h : ∀ c ∈ w, isNameChar c = true) (hne : word ≠ w) : wordLength? word w = none := by
  rw [Option.eq_none_iff_forall_ne_some]
  intro n hn
  obtain ⟨⟨rest, rfl⟩, hend, -⟩ := wordLength?_eq_some_iff.1 hn
  rw [List.drop_left] at hend
  cases rest with
  | nil => exact hne (List.append_nil word).symm
  | cons c cs => simp [h c (by simp)] at hend

theorem missesWord_word {word : String} (h : ∀ c ∈ w, isNameChar c = true) (hword : word.toList.all isSolid = true)
    (hne : word.toList ≠ w) : (Lexeme.word word).MissesWord w :=
  Lexeme.missesWord_of_solid (all_isSolid_of_isNameChar h) hword (wordLength?_eq_none h hne)

end Names

namespace IsLowerName

variable {name : String}

theorem isNameChar (h : IsLowerName name) : ∀ c ∈ name.toList, isNameChar c = true :=
  h.1.isNameChar fun _ => isNameChar_of_isLower

theorem reads (h : IsLowerName name) : Lexeme.lowerName.ReadsWord name.toList :=
  Lexeme.readsWord_of_solid (all_isSolid_of_isNameChar h.isNameChar) rfl h.1.nameLength?_eq

theorem ne_of_mem_keywords (h : IsLowerName name) {word : String} (hword : word ∈ keywords) : word.toList ≠ name.toList :=
  fun heq => h.2 (String.toList_inj.1 heq ▸ hword)

theorem misses_keyword (h : IsLowerName name) : Lexeme.keyword.MissesWord name.toList :=
  Lexeme.missesWord_of_solid (all_isSolid_of_isNameChar h.isNameChar) rfl
    (List.findSome?_eq_none_iff.2 fun _ hword => wordLength?_eq_none h.isNameChar (h.ne_of_mem_keywords hword))

end IsLowerName

theorem IsLowerName.isLetter {name : String} (h : IsLowerName name) : IsName isLetter name.toList := by
  obtain ⟨⟨c, cs, heq, hc, hcs⟩, -⟩ := h
  exact ⟨c, cs, heq, by simp [ElmLint.isLetter, hc], hcs⟩

theorem IsUpperName.isLetter {name : String} (h : IsUpperName name) : IsName isLetter name.toList := by
  obtain ⟨c, cs, heq, hc, hcs⟩ := h
  exact ⟨c, cs, heq, by simp [ElmLint.isLetter, hc], hcs⟩

/-- A keyword is read as one. -/
theorem reads_keyword (word : String) (h : word ∈ keywords) : Lexeme.keyword.ReadsWord word.toList := by
  have hreads : ∀ word ∈ keywords, Lexeme.keyword.length? word.toList = some word.toList.length ∧ word.toList.all isSolid = true := by
    decide
  exact Lexeme.readsWord_of_solid (hreads word h).2 rfl (hreads word h).1

/-! ## Dotted names -/

/-- A dotted name goes on with the rest of a segment. -/
theorem dottedTail_append {last : Char → Bool} {capitalised : Bool} {cs : List Char} (h : ∀ c ∈ cs, isNameChar c = true)
    (rest : List Char) : dottedTail last capitalised (cs ++ rest) = cs.length + dottedTail last capitalised rest := by
  induction cs with
  | nil => simp
  | cons c cs ih =>
    have hc := h c List.mem_cons_self
    have hne : c ≠ '.' := by
      rintro rfl
      exact absurd hc (by decide)
    rw [List.cons_append, dottedTail_cons_of_ne hne, if_pos hc, ih fun d hd => h d (List.mem_cons_of_mem c hd), List.length_cons]
    omega

/-- A dotted name whose segments all begin with a character of a class and are all capitalised but the last one. -/
def IsDotted (last : Char → Bool) : List (List Char) → Prop
  | [] => False
  | [segment] => IsName last segment
  | segment :: segments => IsName isUpper segment ∧ IsName last segment ∧ IsDotted last segments

/-- A dotted name is read to its end. -/
theorem dottedLength?_intercalate {last : Char → Bool} : ∀ {segments : List (List Char)}, IsDotted last segments →
    dottedLength? last (['.'].intercalate segments) = some (['.'].intercalate segments).length
  | [segment], h => by
    obtain ⟨c, cs, rfl, hc, hcs⟩ := h
    have htail : dottedTail last (isUpper c) cs = cs.length + dottedTail last (isUpper c) [] := by
      simpa using dottedTail_append hcs []
    rw [List.intercalate_singleton, dottedLength?, if_pos hc, htail]
    simp [dottedTail]
  | segment :: next :: segments, h => by
    obtain ⟨⟨c, cs, rfl, hc, hcs⟩, ⟨_, _, heq, hlast, -⟩, hmore⟩ := h
    cases heq
    have ih := dottedLength?_intercalate hmore
    rw [List.intercalate_cons_cons]
    generalize ['.'].intercalate (next :: segments) = rest at ih ⊢
    cases rest with
    | nil => cases ih
    | cons d ds =>
      simp only [dottedLength?] at ih
      split at ih
      · next hd =>
        have hds := Nat.succ.inj (Option.some.inj ih)
        rw [List.append_assoc, List.cons_append, dottedLength?, if_pos hlast, dottedTail_append hcs, List.singleton_append, dottedTail,
          hc, hd, Bool.true_and, if_pos rfl, hds]
        simp only [List.length_cons, List.length_append]
      · cases ih

/-- The word of a name with its qualifier is its segments with dots between them. -/
theorem qualifiedWord_eq (qualifier : ModuleName) (name : String) :
    qualifiedWord qualifier name = ['.'].intercalate ((qualifier ++ [name]).map String.toList) := by
  rw [qualifiedWord, ModuleName.dotted, String.toList_intercalate]
  rfl

theorem isDotted_map_append {last : Char → Bool} (hlast : ∀ c, isUpper c = true → last c = true) {name : String}
    (hname : IsName last name.toList) : ∀ {qualifier : ModuleName}, (∀ segment ∈ qualifier, IsUpperName segment) →
    IsDotted last ((qualifier ++ [name]).map String.toList)
  | [], _ => hname
  | segment :: qualifier, h => by
    have hsegment : IsUpperName segment := h segment List.mem_cons_self
    have ih := isDotted_map_append hlast hname fun s hs => h s (List.mem_cons_of_mem segment hs)
    obtain ⟨next, rest, hmore⟩ : ∃ next rest, (qualifier ++ [name]).map String.toList = next :: rest :=
      List.exists_cons_of_ne_nil (by simp)
    rw [hmore] at ih
    rw [List.cons_append, List.map_cons, hmore]
    obtain ⟨c, cs, heq, hc, hcs⟩ := hsegment
    exact ⟨⟨c, cs, heq, hc, hcs⟩, ⟨c, cs, heq, hlast c hc, hcs⟩, ih⟩

theorem IsDotted.solid {last : Char → Bool} (hlast : ∀ c, last c = true → isNameChar c = true) :
    ∀ {segments : List (List Char)}, IsDotted last segments → (['.'].intercalate segments).all isSolid = true
  | [segment], h => by
    rw [List.intercalate_singleton]
    exact all_isSolid_of_isNameChar (IsName.isNameChar h hlast)
  | segment :: next :: segments, h => by
    rw [List.intercalate_cons_cons, List.all_append, List.all_append, h.2.2.solid hlast,
      all_isSolid_of_isNameChar (h.2.1.isNameChar hlast)]
    rfl

section Qualified

variable {qualifier : ModuleName} {name : String}

/-- Segments with dots between them are taken apart into the last one and those before it. -/
theorem qualified_intercalate {segments : List (List Char)} {last : List Char} (h : ∀ s ∈ segments ++ [last], '.' ∉ s) :
    Grammar.qualified (['.'].intercalate (segments ++ [last])) = (segments.map String.ofList, String.ofList last) := by
  have hsplit : ModuleName.ofDotted (['.'].intercalate (segments ++ [last])) = segments.map String.ofList ++ [String.ofList last] := by
    rw [ModuleName.ofDotted, List.splitOn_intercalate _ h (by simp), List.map_append, List.map_singleton]
  simp [Grammar.qualified, hsplit]

/-- A name with its qualifier is taken apart into them. -/
theorem qualified_qualifiedWord (h : ∀ segment ∈ qualifier ++ [name], '.' ∉ segment.toList) :
    Grammar.qualified (qualifiedWord qualifier name) = (qualifier, name) := by
  have hdots : ∀ segment ∈ qualifier.map String.toList ++ [name.toList], '.' ∉ segment := by
    simpa only [List.forall_mem_append, List.forall_mem_map, List.forall_mem_singleton] using h
  rw [qualifiedWord_eq, List.map_append, List.map_singleton, qualified_intercalate hdots]
  simp [Function.comp_def]

theorem dot_notMem {w : List Char} (h : ∀ c ∈ w, isNameChar c = true) : '.' ∉ w :=
  fun hdot => absurd (h _ hdot) (by decide)

/-- A capitalised name with its qualifier. -/
theorem reads_upperPath_qualifiedWord (h : ∀ segment ∈ qualifier ++ [name], IsUpperName segment) :
    Lexeme.upperPath.ReadsWord (qualifiedWord qualifier name) := by
  have hdotted : IsDotted isUpper ((qualifier ++ [name]).map String.toList) :=
    isDotted_map_append (fun _ => id) (h name (by simp)) fun s hs => h s (List.mem_append_left _ hs)
  rw [qualifiedWord_eq]
  exact Lexeme.readsWord_of_solid (hdotted.solid fun _ => isNameChar_of_isUpper) rfl (dottedLength?_intercalate hdotted)

/-- A name of either case with its qualifier has segments that begin with a letter. -/
theorem isDotted_isLetter (hqualifier : ∀ segment ∈ qualifier, IsUpperName segment)
    (hname : IsUpperName name ∨ IsLowerName name) : IsDotted isLetter ((qualifier ++ [name]).map String.toList) :=
  isDotted_map_append (fun c hc => by simp [isLetter, hc]) (hname.elim IsUpperName.isLetter IsLowerName.isLetter) hqualifier

theorem solid_qualifiedWord (hqualifier : ∀ segment ∈ qualifier, IsUpperName segment) (hname : IsUpperName name ∨ IsLowerName name) :
    (qualifiedWord qualifier name).all isSolid = true := by
  rw [qualifiedWord_eq]
  exact (isDotted_isLetter hqualifier hname).solid fun c hc => by simp [isNameChar, hc]

/-- A name of either case with its qualifier. -/
theorem reads_path_qualifiedWord (hqualifier : ∀ segment ∈ qualifier, IsUpperName segment)
    (hname : IsUpperName name ∨ IsLowerName name) : Lexeme.path.ReadsWord (qualifiedWord qualifier name) := by
  refine Lexeme.readsWord_of_solid (solid_qualifiedWord hqualifier hname) rfl ?_
  rw [qualifiedWord_eq]
  exact dottedLength?_intercalate (isDotted_isLetter hqualifier hname)

end Qualified

end ElmLint
