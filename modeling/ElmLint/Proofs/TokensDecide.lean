import ElmLint.Proofs.ModuleAgreement
import ElmLint.Proofs.Parse

/-!
# What the tokens of a source decide

Two sources with the same tokens, but for their offsets, are read as the same module, but for its comments
(`Module.parse_eq_of_tokens`): whatever fills the gaps between the tokens, either both are read or neither is, and all ranges are the
same. That holds unless a source has a token `where` and a literal with a closing brace and, after it, the character of the
marker between two items. For then the settings of an effect module may end inside the literal, and an item begin there that is
read up to the next literal and its gaps (`Module.parse_ne_of_tokens`).
-/

namespace ElmLint

/-- No literal has an item after a closing brace, or there are no settings that could end at such a brace. -/
def Scanned.Sealed (s : Scanned) : Prop :=
  (∃ t ∈ s.tokens, t.kind = .name ∧ t.text = "where") →
    ∀ t ∈ s.tokens, Marker.separating.char ∉ t.text.toList.dropWhile (· != '}')

instance (s : Scanned) : Decidable s.Sealed := inferInstanceAs (Decidable (_ → _))

/-- A module without its comments. -/
def Module.withoutComments (m : Module) : Module := { m with comments := [] }

namespace Scanned

variable {source source' : List Char} {s s' : Scanned}

theorem sealed_words (h : s.Sealed) : (.name, "where".toList) ∈ s.tokens.map Token.word →
    ∀ v ∈ s.tokens.map Token.word, Marker.separating.char ∉ v.2.dropWhile (· != '}') := by
  intro hwhere v hv
  obtain ⟨t, ht, hword⟩ := List.mem_map.1 hwhere
  obtain ⟨u, hu, rfl⟩ := List.mem_map.1 hv
  refine h ⟨t, ht, congrArg Prod.fst hword, ?_⟩ u hu
  exact String.toList_inj.1 (congrArg Prod.snd hword)

/-- Sources with the same tokens have texts with one skeleton, and the same can be seen of them. -/
theorem alike_of_tokens (hs : ofSource source = .ok s) (hs' : ofSource source' = .ok s')
    (htokens : s.tokens.map Token.unplaced = s'.tokens.map Token.unplaced) :
    Alike (s.tokens.map Token.word) (LaidOut.ofScanned source s).text (LaidOut.ofScanned source' s').text ∧
      (LaidOut.ofScanned source s).seen = (LaidOut.ofScanned source' s').seen := by
  have hwords : ∀ s : Scanned, s.tokens.map Token.word = (s.tokens.map Token.unplaced).map Token.word :=
    fun s => (List.map_map (f := Token.unplaced) (g := Token.word)).symm
  have hseen : ∀ s : Scanned, s.tokens.flatMap Token.seen = (s.tokens.map Token.unplaced).flatMap Token.seen :=
    fun s => (List.flatMap_map Token.unplaced Token.seen s.tokens).symm
  refine ⟨⟨Layout.skeleton s.tokens, LaidOut.renders hs, ?_⟩, ?_⟩
  · have h := LaidOut.renders hs'
    rw [hwords, ← htokens, ← hwords] at h
    rwa [Layout.skeleton, ← Layout.skeletonFrom_unplaced, ← htokens, Layout.skeletonFrom_unplaced] at h
  · rw [LaidOut.seen_ofScanned hs, LaidOut.seen_ofScanned hs', hseen, htokens, ← hseen]

end Scanned

namespace LaidOut

/-- Texts with one skeleton are read as the same items. -/
theorem readPhrase_topLevel_eq {l l' : LaidOut} {words : List (Token.Kind × List Char)} (htext : Alike words l.text l'.text)
    (hseen : l.seen = l'.seen)
    (hwords : (.name, "where".toList) ∈ words → ∀ v ∈ words, Marker.separating.char ∉ v.2.dropWhile (· != '}')) (items : List TopItem) :
    l.readPhrase Grammar.topLevel = .ok items ↔ l'.readPhrase Grammar.topLevel = .ok items := by
  obtain ⟨vs, next, hread⟩ := Grammar.exists_readText_topLevel l.range l.text
  obtain ⟨vs', next', hread'⟩ := Grammar.exists_readText_topLevel l'.range l'.text
  have hagree := Grammar.agree_topLevel (Grammar.Runs.fair_ofFuel hseen (Grammar.fuelFor l.text) (Grammar.fuelFor l'.text))
    (Grammar.settled_run hseen _ _) hwords (.start l.text) (.start l'.text) ⟨Cursor.on_start _, Cursor.on_start _, htext⟩
  change (Grammar.readText l.range (Grammar.topLevel l.range) l.text).Agrees _ _
    (Grammar.readText l'.range (Grammar.topLevel l'.range) l'.text) at hagree
  rw [hread, hread'] at hagree
  obtain ⟨rfl, -, -, hend⟩ := hagree
  rw [readPhrase_ok_iff, readPhrase_ok_iff, hread, hread']
  constructor
  · rintro ⟨_, hok, hnil⟩
    cases hok
    exact ⟨next', rfl, hend.1 hnil⟩
  · rintro ⟨_, hok, hnil⟩
    cases hok
    exact ⟨next, rfl, hend.2 hnil⟩

end LaidOut

namespace Module

/-- **What the tokens decide.** Two sources with the same tokens, but for their offsets, are both read as a module or neither is, and
the modules are the same, but for their comments. -/
theorem parse_eq_of_tokens {source source' : String} {s s' : Scanned} (hs : Scanned.ofSource source.toList = .ok s)
    (hs' : Scanned.ofSource source'.toList = .ok s') (htokens : s.tokens.map Token.unplaced = s'.tokens.map Token.unplaced)
    (hsealed : s.Sealed) (file : String) :
    ((∃ m, parse source file = .ok m) ↔ ∃ m', parse source' file = .ok m') ∧
      ∀ m m', parse source file = .ok m → parse source' file = .ok m' → m.withoutComments = m'.withoutComments := by
  obtain ⟨htext, hseen⟩ := Scanned.alike_of_tokens hs hs' htokens
  have hitems := LaidOut.readPhrase_topLevel_eq htext hseen (Scanned.sealed_words hsealed)
  refine ⟨⟨?_, ?_⟩, ?_⟩
  · rintro ⟨m, hm⟩
    obtain ⟨items, hread, rfl, hvalues⟩ := (parse_ok_iff_of_scanned hs).1 hm
    exact ⟨ofItems items s'.comments file, (parse_ok_iff_of_scanned hs').2 ⟨items, (hitems items).1 hread, rfl, hvalues⟩⟩
  · rintro ⟨m', hm'⟩
    obtain ⟨items, hread, rfl, hvalues⟩ := (parse_ok_iff_of_scanned hs').1 hm'
    exact ⟨ofItems items s.comments file, (parse_ok_iff_of_scanned hs).2 ⟨items, (hitems items).2 hread, rfl, hvalues⟩⟩
  · intro m m' hm hm'
    obtain ⟨items, hread, rfl, -⟩ := (parse_ok_iff_of_scanned hs).1 hm
    obtain ⟨items', hread', rfl, -⟩ := (parse_ok_iff_of_scanned hs').1 hm'
    obtain rfl := Except.ok.inj (((hitems items).1 hread).symm.trans hread')
    rfl

set_option maxRecDepth 100000 in
/-- A comment, tabs and a line at the end make no difference, also where settings end before a literal with a brace. -/
theorem parse_eq_of_same_tokens :
    ∃ m m', parse "module A where \x7b\x7d exposing (..)\nx = '\x7d'" "A.elm" = .ok m ∧
      parse "module A where\t\x7b\x7d exposing (..)\nx =\t'\x7d' --\n" "A.elm" = .ok m' ∧
      m.withoutComments = m'.withoutComments := by
  obtain ⟨s, hs, hany⟩ := exists_ok_of_any (Scanned.ofSource "module A where \x7b\x7d exposing (..)\nx = '\x7d'".toList)
    (fun s => (Scanned.ofSource "module A where\t\x7b\x7d exposing (..)\nx =\t'\x7d' --\n".toList).toOption.any fun s' : Scanned =>
      decide (s.tokens.map Token.unplaced = s'.tokens.map Token.unplaced ∧ s.Sealed)) (by decide +kernel)
  obtain ⟨s', hs', htest⟩ := exists_ok_of_any _ _ hany
  obtain ⟨htokens, hsealed⟩ := of_decide_eq_true htest
  obtain ⟨haccepted, hsame⟩ := parse_eq_of_tokens hs hs' htokens hsealed "A.elm"
  obtain ⟨m, hm, -⟩ := exists_parse_of_any "module A where \x7b\x7d exposing (..)\nx = '\x7d'" "A.elm" (fun _ => true)
    (by decide +kernel)
  obtain ⟨m', hm'⟩ := haccepted.1 ⟨m, hm⟩
  exact ⟨m, m', hm, hm', hsame m m' hm hm'⟩

set_option maxRecDepth 100000 in
/-- The blank in the last literal is not told by the tokens: the literal begins where the one that holds the brace ends. -/
theorem parse_ne_of_tokens :
    ∃ s s' m m', Scanned.ofSource "module A where \x7b \"\x7d exposing (..)\x1ex = \" \"".toList = .ok s ∧
      Scanned.ofSource "module A where \x7b \"\x7d exposing (..)\x1ex = \"\t\"".toList = .ok s' ∧
      s.tokens.map Token.unplaced = s'.tokens.map Token.unplaced ∧
      parse "module A where \x7b \"\x7d exposing (..)\x1ex = \" \"" "A.elm" = .ok m ∧
      parse "module A where \x7b \"\x7d exposing (..)\x1ex = \"\t\"" "A.elm" = .ok m' ∧ m.withoutComments ≠ m'.withoutComments := by
  obtain ⟨s, hs, hany⟩ := exists_ok_of_any (Scanned.ofSource "module A where \x7b \"\x7d exposing (..)\x1ex = \" \"".toList)
    (fun s => (Scanned.ofSource "module A where \x7b \"\x7d exposing (..)\x1ex = \"\t\"".toList).toOption.any fun s' : Scanned =>
      decide (s.tokens.map Token.unplaced = s'.tokens.map Token.unplaced)) (by decide +kernel)
  obtain ⟨s', hs', htest⟩ := exists_ok_of_any _ _ hany
  obtain ⟨m, hm, hspace⟩ := exists_parse_of_any "module A where \x7b \"\x7d exposing (..)\x1ex = \" \"" "A.elm"
    (fun m => m.literals.map (·.value) == [.string [32]]) (by decide +kernel)
  obtain ⟨m', hm', htab⟩ := exists_parse_of_any "module A where \x7b \"\x7d exposing (..)\x1ex = \"\t\"" "A.elm"
    (fun m => m.literals.map (·.value) == [.string [9]]) (by decide +kernel)
  refine ⟨s, s', m, m', hs, hs', of_decide_eq_true htest, hm, hm', fun heq => ?_⟩
  have hliterals : m.withoutComments.literals = m'.withoutComments.literals := congrArg Module.literals heq
  change m.literals = m'.literals at hliterals
  rw [hliterals, beq_iff_eq.1 htab] at hspace
  cases hspace

end Module

end ElmLint
