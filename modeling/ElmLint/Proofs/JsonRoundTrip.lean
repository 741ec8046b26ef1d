import ElmLint.Json.Writer
import ElmLint.Proofs.Digits
import ElmLint.Proofs.JsonValue

/-!
# Reading what was written as JSON

A code point is written in one of four ways (`Encoded`), and each of them is undone when it is read, as long as no first half of a
surrogate pair comes to stand before a second half that was not written with it (`Unpaired`). So strings are read back
(`readString_encodeString`), then numbers, then values of any depth.

* `printable_encode`: nothing but printable ASCII characters is written;
* `read_encode`: what was written is read back.
-/

namespace ElmLint

/-- No character is a surrogate. -/
theorem toNat_valid (c : Char) : c.toNat < 0xD800 ∨ 0xDFFF < c.toNat ∧ c.toNat < 0x110000 := by
  have hvalid : c.toNat.isValidChar := c.valid
  rwa [Nat.isValidChar] at hvalid

theorem CodePoint.ofNat_number : ∀ p : CodePoint, .ofNat p.number = p
  | .char c => by
    have hvalid := toNat_valid c
    have hchar : ¬ (0xD800 ≤ c.toNat ∧ c.toNat < 0xD800 + 0x800) := by omega
    simp only [number, ofNat, firstSurrogate, dif_neg hchar, Char.ofNat_toNat]
  | .surrogate index => by
    have hrange : 0xD800 ≤ 0xD800 + index.val ∧ 0xD800 + index.val < 0xD800 + 0x800 := ⟨by omega, by omega⟩
    simp only [number, ofNat, firstSurrogate, dif_pos hrange, Nat.add_sub_cancel_left]

/-- A printable character of ASCII. -/
def IsPrintableAscii (c : Char) : Prop := ' ' ≤ c ∧ c ≤ '~'

instance : DecidablePred IsPrintableAscii := fun _ => inferInstanceAs (Decidable (_ ∧ _))

namespace JsonValue

/-! ## Code points -/

/-- The ways to write a code point: with the letter of a short escape, as it is, with its number, and with the numbers of a
surrogate pair. -/
inductive Encoded : CodePoint → List Char → Prop
  | short {x c : Char} : shortEscape? x = some c → Encoded (.char c) ['\\', x]
  | plain {c : Char} : c ≠ '"' → c ≠ '\\' → IsPrintableAscii c → Encoded (.char c) [c]
  | numbered {p : CodePoint} : p.number < 0x10000 → Encoded p (unicodeEscape p.number)
  | paired {high low : Nat} : isHighSurrogate high = true → isLowSurrogate low = true →
      Encoded (.ofNat (joinSurrogates high low)) (unicodeEscape high ++ unicodeEscape low)

/-- The first half of the surrogate pair of a number. -/
theorem isHighSurrogate_half {n : Nat} (h : n < 0x110000) : isHighSurrogate (0xD800 + (n - 0x10000) / 0x400) = true := by
  simp only [isHighSurrogate, Bool.and_eq_true, decide_eq_true_eq]
  omega

/-- The second half of the surrogate pair of a number. -/
theorem isLowSurrogate_half (n : Nat) : isLowSurrogate (0xDC00 + (n - 0x10000) % 0x400) = true := by
  simp only [isLowSurrogate, Bool.and_eq_true, decide_eq_true_eq]
  omega

theorem joinSurrogates_halves {n : Nat} (h : 0x10000 ≤ n) :
    joinSurrogates (0xD800 + (n - 0x10000) / 0x400) (0xDC00 + (n - 0x10000) % 0x400) = n := by
  obtain ⟨m, rfl⟩ := Nat.exists_eq_add_of_le h
  unfold joinSurrogates
  simp only [Nat.add_sub_cancel_left]
  rw [Nat.add_assoc, Nat.div_add_mod']

theorem encoded_paired {c : Char} (h : 0x10000 ≤ c.toNat) : Encoded (.char c)
    (unicodeEscape (0xD800 + (c.toNat - 0x10000) / 0x400) ++ unicodeEscape (0xDC00 + (c.toNat - 0x10000) % 0x400)) := by
  have hbound : c.toNat < 0x110000 := by
    rcases toNat_valid c with hlow | hhigh
    · exact hlow.trans (by decide)
    · exact hhigh.2
  have hencoded := Encoded.paired (isHighSurrogate_half hbound) (isLowSurrogate_half c.toNat)
  rw [joinSurrogates_halves h] at hencoded
  exact CodePoint.ofNat_number (.char c) ▸ hencoded

theorem encoded_encodeChar (c : Char) : Encoded (.char c) (encodeChar c) := by
  simp only [encodeChar, Bool.or_eq_true, Bool.and_eq_true, beq_iff_eq, decide_eq_true_eq]
  split
  · next h => rcases h with rfl | rfl <;> exact .short rfl
  next hquote =>
  rw [not_or] at hquote
  split
  · next h => exact h ▸ .short rfl
  split
  · next h => exact h ▸ .short rfl
  split
  · next h => exact h ▸ .short rfl
  split
  · next h => exact h ▸ .short rfl
  split
  · next h => exact h ▸ .short rfl
  split
  · next h => exact .plain hquote.1 hquote.2 h
  split
  · next h => exact .numbered (p := .char c) h
  · next h => exact encoded_paired (Nat.le_of_not_lt h)

theorem encoded_encodePoint : ∀ p : CodePoint, Encoded p (encodePoint p)
  | .char c => encoded_encodeChar c
  | .surrogate index => .numbered (by
      have := index.isLt
      simp only [CodePoint.number, CodePoint.firstSurrogate]
      omega)

/-! ## Escapes with a number -/

section Escapes

variable {n high low offset : Nat} {after : List Char}

theorem fourHex?_hexPadded (hn : n < 0x10000) (hafter : after ≠ []) : fourHex? (hexPadded 4 n ++ after) = some n := by
  have hlength : (hexPadded 4 n).length = 4 := length_hexPadded (by decide) hn
  have hdigits : (hexPadded 4 n).all isHexDigit = true := List.all_eq_true.2 isHexDigit_hexPadded
  have hmore : after.isEmpty = false := by simpa using hafter
  simp [fourHex?, List.take_left' hlength, List.drop_left' hlength, hlength, hdigits, hmore, hexNumber_hexPadded]

/-- The text does not begin with an escape that a first half of a surrogate pair before it would be joined with. -/
def Unjoined (after : List Char) : Prop :=
  ∀ more, after = '\\' :: 'u' :: more → ∃ low, fourHex? more = some low ∧ isLowSurrogate low = false

theorem unjoined_unicodeEscape (hn : n < 0x10000) (hlow : isLowSurrogate n = false) (hafter : after ≠ []) :
    Unjoined (unicodeEscape n ++ after) := by
  intro more heq
  have hmore : hexPadded 4 n ++ after = more := by simpa [unicodeEscape] using heq
  exact ⟨n, hmore ▸ fourHex?_hexPadded hn hafter, hlow⟩

theorem unjoined_encoded {p : CodePoint} {w : List Char} (h : Encoded p w) (hp : isLowSurrogate p.number = false) (hafter : after ≠ []) :
    Unjoined (w ++ after) := by
  cases h with
  | short hx =>
    intro more heq
    have hu := (List.cons.inj (List.cons.inj heq).2).1
    rw [hu] at hx
    cases hx
  | plain _ hslash _ => exact fun more heq => absurd (List.cons.inj heq).1 hslash
  | numbered hnumber => exact unjoined_unicodeEscape hnumber hp hafter
  | paired hhigh _ =>
    simp only [isHighSurrogate, Bool.and_eq_true, decide_eq_true_eq] at hhigh
    rw [List.append_assoc]
    refine unjoined_unicodeEscape (by omega) ?_ (by simp [unicodeEscape])
    simp only [isLowSurrogate, Bool.and_eq_false_iff, decide_eq_false_iff_not]
    omega

theorem readEscape_numbered (offset : Nat) (hn : n < 0x10000) (hafter : after ≠ []) (hjoin : isHighSurrogate n = true → Unjoined after) :
    readEscape offset ('u' :: (hexPadded 4 n ++ after)) = .ok (.ofNat n, 5) := by
  have hlength : (hexPadded 4 n).length = 4 := length_hexPadded (by decide) hn
  simp only [readEscape, fourHex?_hexPadded hn hafter, List.drop_left' hlength]
  split
  · next more =>
    split
    · next hhigh =>
      rw [Bool.and_eq_true] at hhigh
      obtain ⟨low, hfour, hlow⟩ := hjoin hhigh.1 more rfl
      simp [hfour, hlow]
    · rfl
  · rfl

theorem readEscape_paired (offset : Nat) (hhigh : isHighSurrogate high = true) (hlow : isLowSurrogate low = true)
    (hafter : after ≠ []) :
    readEscape offset ('u' :: (hexPadded 4 high ++ (unicodeEscape low ++ after))) = .ok (.ofNat (joinSurrogates high low), 11) := by
  have hhigh' := hhigh
  have hlow' := hlow
  simp only [isHighSurrogate, isLowSurrogate, Bool.and_eq_true, decide_eq_true_eq] at hhigh' hlow'
  have hlength : (hexPadded 4 high).length = 4 := length_hexPadded (by decide) (by omega)
  have hlong : 4 < (hexPadded 4 low ++ after).length := by
    have := List.length_pos_iff.2 hafter
    rw [List.length_append, length_hexPadded (by decide) (by omega)]
    omega
  have hfirst : fourHex? (hexPadded 4 high ++ (unicodeEscape low ++ after)) = some high :=
    fourHex?_hexPadded (by omega) (by simp [unicodeEscape])
  have hsecond : fourHex? (hexPadded 4 low ++ after) = some low := fourHex?_hexPadded (by omega) hafter
  simp only [readEscape, hfirst, List.drop_left' hlength]
  simp only [unicodeEscape, List.cons_append, hhigh, hlong, decide_true, Bool.and_self, if_true, hsecond, hlow]

end Escapes

/-! ## Strings -/

/-- No first half of a surrogate pair stands directly before a second half. -/
def Unpaired (ps : List CodePoint) : Prop :=
  ps.IsChain fun p q => ¬ (isHighSurrogate p.number = true ∧ isLowSurrogate q.number = true)

section Strings

variable {start offset : Nat} {after : List Char}

/-- The characters of an escape after its first are passed over. -/
theorem readChars_skip : ∀ (w : List Char) (offset : Nat),
    readChars start offset w.length (w ++ after) = readChars start (offset + w.length) 0 after
  | [], _ => rfl
  | _ :: w, offset => by
    have hrest := readChars_skip w (offset + 1)
    rwa [Nat.add_right_comm] at hrest

theorem readChars_escape {w : List Char} {p : CodePoint} (hw : w ≠ [])
    (h : readEscape offset (w ++ after) = .ok (p, w.length)) :
    readChars start offset 0 ('\\' :: w ++ after) =
      (readChars start (offset + ('\\' :: w).length) 0 after).map fun (ps, next) => (p :: ps, next) := by
  have hmore : (w ++ after).isEmpty = false := by simp [hw]
  have hskip : readChars start (offset + 1) w.length (w ++ after) = readChars start (offset + 1 + w.length) 0 after :=
    readChars_skip w (offset + 1)
  rw [List.cons_append, readChars]
  simp only [hmore, h, hskip, List.length_cons, Nat.add_right_comm]
  rfl

/-- What was written for a code point is read as that code point. -/
theorem readChars_encoded {p : CodePoint} {w : List Char} (hw : Encoded p w) (hafter : after ≠ [])
    (hjoin : isHighSurrogate p.number = true → Unjoined after) :
    readChars start offset 0 (w ++ after) =
      (readChars start (offset + w.length) 0 after).map fun (ps, next) => (p :: ps, next) := by
  cases hw with
  | @short x c hx =>
    refine readChars_escape (by simp) (?_ : readEscape offset (x :: after) = _)
    unfold readEscape
    split
    · next heq =>
      rw [(List.cons.inj heq).1] at hx
      cases hx
    · next heq =>
      cases heq
      rw [hx]
      rfl
    · next heq => cases heq
  | @plain c hquote hslash hprintable =>
    have hcontrol : ¬ c.toNat ≤ 0x1F := Nat.not_le.2 hprintable.1
    rw [List.singleton_append, readChars]
    simp [hquote, hslash, hcontrol]
  | @numbered p hnumber =>
    have hread := readEscape_numbered offset hnumber hafter hjoin
    rw [CodePoint.ofNat_number] at hread
    refine readChars_escape (by simp) ?_
    rw [List.length_cons, length_hexPadded (by decide) hnumber]
    exact hread
  | @paired high low hhigh hlow =>
    have hread := readEscape_paired offset hhigh hlow hafter
    simp only [isHighSurrogate, isLowSurrogate, Bool.and_eq_true, decide_eq_true_eq] at hhigh hlow
    rw [unicodeEscape, List.cons_append]
    refine readChars_escape (by simp) ?_
    have hfour : ∀ n < 16 ^ 4, (hexPadded 4 n).length = 4 := fun n => length_hexPadded (by decide)
    have hlength : ('u' :: hexPadded 4 high ++ unicodeEscape low).length = 11 := by
      simp [unicodeEscape, hfour high (by omega), hfour low (by omega)]
    rw [hlength, List.append_assoc]
    exact hread

theorem readChars_flatMap : ∀ {ps : List CodePoint}, Unpaired ps → ∀ offset : Nat,
    readChars start offset 0 (ps.flatMap encodePoint ++ '"' :: after) =
      .ok (ps, ⟨offset + (ps.flatMap encodePoint).length + 1, after⟩)
  | [], _, _ => rfl
  | p :: ps, h, offset => by
    have hjoin : isHighSurrogate p.number = true → Unjoined (ps.flatMap encodePoint ++ '"' :: after) := by
      intro hp
      cases ps with
      | nil => exact fun more heq => absurd (List.cons.inj heq).1 (by decide)
      | cons q ps =>
        have hq : isLowSurrogate q.number = false := by
          simpa [hp] using (List.isChain_cons_cons.1 h).1
        rw [List.flatMap_cons, List.append_assoc]
        exact unjoined_encoded (encoded_encodePoint q) hq (by simp)
    rw [List.flatMap_cons, List.append_assoc, readChars_encoded (encoded_encodePoint p) (by simp) hjoin,
      readChars_flatMap (List.IsChain.of_cons h : Unpaired ps), Except.map, List.length_append, Nat.add_assoc offset]

end Strings

theorem readString_encodeString {t : Text} (h : Unpaired t.codePoints) (offset : Nat) (after : List Char) :
    readString ⟨offset, encodeString t ++ after⟩ = .ok (t, ⟨offset + (encodeString t).length, after⟩) := by
  have hread : readChars offset (offset + 1) 0 (t.codePoints.flatMap encodePoint ++ '"' :: after) = _ := readChars_flatMap h (offset + 1)
  have htext : encodeString t ++ after = '"' :: (t.codePoints.flatMap encodePoint ++ '"' :: after) := by simp [encodeString]
  have hlength : (encodeString t).length = (t.codePoints.flatMap encodePoint).length + 2 := by simp [encodeString]
  rw [htext, hlength, readString, List.drop_succ_cons, List.drop_zero, hread, Except.map]
  simp only [Nat.add_assoc, Nat.add_comm 1, Nat.reduceAdd]

/-! ## Numbers -/

/-- Where a value may end: at a comma, at a closing bracket or brace, or at the end of the text. -/
def Closing (after : List Char) : Prop := ∀ c ∈ after.head?, c = ',' ∨ c = ']' ∨ c = '}'

section Numbers

variable {after : List Char}

theorem digitRun_closing (h : Closing after) : digitRun after = 0 := by
  cases after with
  | nil => rfl
  | cons c cs => rcases h c rfl with rfl | rfl | rfl <;> rfl

theorem pointLength_closing (h : Closing after) : pointLength after = 0 := by
  cases after with
  | nil => rfl
  | cons c cs => rcases h c rfl with rfl | rfl | rfl <;> rfl

theorem powerLength_closing (h : Closing after) : powerLength after = 0 := by
  cases after with
  | nil => rfl
  | cons c cs => rcases h c rfl with rfl | rfl | rfl <;> rfl

theorem digitRun_append {digits : List Char} (hdigits : ∀ c ∈ digits, isAsciiDigit c = true) (h : Closing after) :
    digitRun (digits ++ after) = digits.length := by
  have hrun := digitRun_closing h
  rw [digitRun, List.length_eq_zero_iff] at hrun
  rw [digitRun, List.takeWhile_append_of_pos hdigits, hrun, List.append_nil]

theorem wholeLength?_toDigits (n : Nat) (h : Closing after) :
    wholeLength? (Nat.toDigits 10 n ++ after) = some (Nat.toDigits 10 n).length := by
  by_cases hn : n = 0
  · subst hn
    rfl
  · obtain ⟨c, cs, hcs, hc, hmore, hzero⟩ := exists_toDigits_cons n
    rw [hcs, List.cons_append, wholeLength?, if_pos hc, digitRun_append hmore h, List.length_cons]
    exact hzero hn

theorem magnitudeLength?_toDigits (n : Nat) (h : Closing after) :
    magnitudeLength? (Nat.toDigits 10 n ++ after) = some (Nat.toDigits 10 n).length := by
  rw [magnitudeLength?, wholeLength?_toDigits n h]
  simp [pointLength_closing h, powerLength_closing h]

theorem numberLength?_toDigits (n : Nat) (h : Closing after) :
    numberLength? (Nat.toDigits 10 n ++ after) = some (Nat.toDigits 10 n).length := by
  have hmagnitude := magnitudeLength?_toDigits n h
  obtain ⟨c, cs, hcs, hc, -, -⟩ := exists_toDigits_cons n
  unfold numberLength?
  split
  · next heq =>
    rw [hcs, List.cons_append] at heq
    rw [(List.cons.inj heq).1] at hc
    cases hc
  · exact hmagnitude

/-- No constant begins with a digit. -/
theorem find?_constants_of_digit {c : Char} (hc : isAsciiDigit c = true) (cs : List Char) :
    (constants.find? fun (word, _) => word.toList.isPrefixOf (c :: cs)) = none := by
  have hheads : ∀ word ∈ constants.map Prod.fst, ∃ d ds, word.toList = d :: ds ∧ isAsciiDigit d = false := by
    simp only [constants, List.map_cons, List.map_nil, List.forall_mem_cons]
    exact ⟨⟨_, _, rfl, rfl⟩, ⟨_, _, rfl, rfl⟩, ⟨_, _, rfl, rfl⟩, ⟨_, _, rfl, rfl⟩, ⟨_, _, rfl, rfl⟩, ⟨_, _, rfl, rfl⟩,
      List.forall_mem_nil _⟩
  refine List.find?_eq_none.2 fun constant hmem => ?_
  obtain ⟨word, value⟩ := constant
  obtain ⟨d, ds, hword, hd⟩ := hheads word (List.mem_map.2 ⟨_, hmem, rfl⟩)
  have hne : d ≠ c := by
    rintro rfl
    rw [hc] at hd
    cases hd
  simp [hword, hne]

theorem readScalar_toDigits (n offset : Nat) (h : Closing after) :
    readScalar ⟨offset, Nat.toDigits 10 n ++ after⟩ = .ok (.ofNat n, ⟨offset + (Nat.toDigits 10 n).length, after⟩) := by
  have hconstants : (constants.find? fun (word, _) => word.toList.isPrefixOf (Nat.toDigits 10 n ++ after)) = none := by
    obtain ⟨c, cs, hcs, hc, -, -⟩ := exists_toDigits_cons n
    rw [hcs]
    exact find?_constants_of_digit hc (cs ++ after)
  simp only [readScalar, hconstants, numberLength?_toDigits n h, Cursor.advance, List.take_left, List.drop_left]
  rfl

end Numbers

/-! ## Values -/

/-- A value that comes back from what is written for it: its numbers are natural numbers, its strings and names hold no two halves of
a surrogate pair next to each other that are not one character, and no object has two members of one name. -/
inductive Restorable : JsonValue → Prop
  | null : Restorable .null
  | bool (value : Bool) : Restorable (.bool value)
  | ofNat (n : Nat) : Restorable (.ofNat n)
  | string {value : Text} : Unpaired value.codePoints → Restorable (.string value)
  | array {items : List JsonValue} : (∀ item ∈ items, Restorable item) → Restorable (.array items)
  | object {members : List (Text × JsonValue)} : (members.map Prod.fst).Nodup → (∀ member ∈ members, Unpaired member.1.codePoints) →
      (∀ member ∈ members, Restorable member.2) → Restorable (.object members)

section Blanks

variable {c : Char} (offset : Nat) (cs : List Char)

theorem skipBlanks_of_not (h : isBlank c = false) : skipBlanks ⟨offset, c :: cs⟩ = ⟨offset, c :: cs⟩ := by
  simp [skipBlanks, Cursor.skipWhile, Cursor.advance, h]

theorem skipBlanks_blank (h : isBlank c = false) : skipBlanks ⟨offset, ' ' :: c :: cs⟩ = ⟨offset + 1, c :: cs⟩ := by
  have hblank : isBlank ' ' = true := rfl
  simp [skipBlanks, Cursor.skipWhile, Cursor.advance, h, hblank]

end Blanks

/-- Neither a blank nor a closing bracket begins a value. -/
theorem exists_encode_cons {v : JsonValue} (h : v.Restorable) : ∃ c cs, encode v = c :: cs ∧ isBlank c = false ∧ c ≠ ']' := by
  cases h with
  | null => exact ⟨_, _, rfl, rfl, by decide⟩
  | bool value => cases value <;> exact ⟨_, _, rfl, rfl, by decide⟩
  | ofNat n =>
    obtain ⟨c, cs, hcs, hc, -, -⟩ := exists_toDigits_cons n
    have hencode : encode (.ofNat n) = Nat.toDigits 10 n := Nat.toList_repr
    refine ⟨c, cs, hencode.trans hcs, ?_, ?_⟩
    · cases hblank : isBlank c with
      | false => rfl
      | true =>
        simp only [isBlank, Bool.or_eq_true, beq_iff_eq] at hblank
        rcases hblank with ((rfl | rfl) | rfl) | rfl <;> cases hc
    · rintro rfl
      cases hc
  | string _ => exact ⟨_, _, rfl, rfl, by decide⟩
  | array _ => exact ⟨_, _, rfl, rfl, by decide⟩
  | object _ _ _ => exact ⟨_, _, rfl, rfl, by decide⟩

/-! ## One step of the reader -/

section Steps

variable {fuel offset offset' : Nat} {c : Char} {cs after : List Char} {start : Cursor} {value : JsonValue} {name : Text}

theorem readValue_of_digit (hc : isAsciiDigit c = true) : readValue (fuel + 1) ⟨offset, c :: cs⟩ = readScalar ⟨offset, c :: cs⟩ := by
  rw [readValue]
  split
  · next heq =>
    cases heq
    cases hc
  · next heq =>
    cases heq
    cases hc
  · next heq =>
    cases heq
    cases hc
  · rfl

theorem readValue_array (hblank : isBlank c = false) (hclose : c ≠ ']') : readValue (fuel + 1) ⟨offset, '[' :: c :: cs⟩ =
    (readItems fuel ⟨offset + 1, c :: cs⟩).map fun (items, next) => (.array items, next) := by
  have hskip := skipBlanks_of_not (offset + 1) cs hblank
  simp [readValue, Cursor.advance, hskip, hclose]

theorem readValue_object : readValue (fuel + 1) ⟨offset, '\x7b' :: '"' :: cs⟩ =
    (readMembers fuel ⟨offset + 1, '"' :: cs⟩).map fun (members, next) => (.object (membersOf members), next) := by
  have hskip := skipBlanks_of_not (offset + 1) cs (c := '"') rfl
  simp [readValue, Cursor.advance, hskip]

theorem readItems_last (h : readValue fuel start = .ok (value, ⟨offset, ']' :: after⟩)) :
    readItems (fuel + 1) start = .ok ([value], ⟨offset + 1, after⟩) := by
  have hskip := skipBlanks_of_not offset after (c := ']') rfl
  simp [readItems, h, hskip, Cursor.advance]

theorem readItems_more (h : readValue fuel start = .ok (value, ⟨offset, ',' :: ' ' :: c :: cs⟩)) (hblank : isBlank c = false) :
    readItems (fuel + 1) start = (readItems fuel ⟨offset + 2, c :: cs⟩).map fun (items, last) => (value :: items, last) := by
  have hcomma := skipBlanks_of_not offset (' ' :: c :: cs) (c := ',') rfl
  have hskip := skipBlanks_blank (offset + 1) cs hblank
  simp [readItems, h, hcomma, Cursor.advance, hskip]

theorem readMembers_last (hquote : start.rest.head? = some '"')
    (hname : readString start = .ok (name, ⟨offset, ':' :: ' ' :: c :: cs⟩)) (hblank : isBlank c = false)
    (hvalue : readValue fuel ⟨offset + 2, c :: cs⟩ = .ok (value, ⟨offset', '\x7d' :: after⟩)) :
    readMembers (fuel + 1) start = .ok ([(name, value)], ⟨offset' + 1, after⟩) := by
  have hcolon := skipBlanks_of_not offset (' ' :: c :: cs) (c := ':') rfl
  have hskip := skipBlanks_blank (offset + 1) cs hblank
  have hbrace := skipBlanks_of_not offset' after (c := '\x7d') rfl
  simp [readMembers, hquote, hname, hcolon, Cursor.advance, hskip, hvalue, hbrace]

theorem readMembers_more {d : Char} {ds : List Char} (hquote : start.rest.head? = some '"')
    (hname : readString start = .ok (name, ⟨offset, ':' :: ' ' :: c :: cs⟩)) (hblank : isBlank c = false)
    (hvalue : readValue fuel ⟨offset + 2, c :: cs⟩ = .ok (value, ⟨offset', ',' :: ' ' :: d :: ds⟩)) (hnext : isBlank d = false) :
    readMembers (fuel + 1) start =
      (readMembers fuel ⟨offset' + 2, d :: ds⟩).map fun (members, last) => ((name, value) :: members, last) := by
  have hcolon := skipBlanks_of_not offset (' ' :: c :: cs) (c := ':') rfl
  have hskip := skipBlanks_blank (offset + 1) cs hblank
  have hcomma := skipBlanks_of_not offset' (' ' :: d :: ds) (c := ',') rfl
  have hskip' := skipBlanks_blank (offset' + 1) ds hnext
  simp [readMembers, hquote, hname, hcolon, Cursor.advance, hskip, hvalue, hcomma, hskip']

end Steps

/-! ## Printable characters -/

theorem printable_of_all {w : List Char} (h : (w.all fun c => decide (IsPrintableAscii c)) = true) : ∀ c ∈ w, IsPrintableAscii c :=
  fun c hc => of_decide_eq_true (List.all_eq_true.1 h c hc)

theorem printable_hexPadded {width n : Nat} : ∀ c ∈ hexPadded width n, IsPrintableAscii c := by
  rw [hexPadded, List.forall_mem_append]
  refine ⟨fun c hc => ?_, fun c hc => ?_⟩
  · rw [(List.mem_replicate.1 hc).2]
    decide
  · exact of_decide_eq_true (of_mem_toDigits (p := fun c => decide (IsPrintableAscii c)) (by decide) (by decide) n c hc)

theorem printable_unicodeEscape (n : Nat) : ∀ c ∈ unicodeEscape n, IsPrintableAscii c := by
  rw [unicodeEscape, List.forall_mem_cons, List.forall_mem_cons]
  exact ⟨by decide, by decide, printable_hexPadded⟩

theorem printable_encoded {p : CodePoint} {w : List Char} (h : Encoded p w) : ∀ c ∈ w, IsPrintableAscii c := by
  cases h with
  | @short x _ hx =>
    have hletter : IsPrintableAscii x := by
      unfold shortEscape? at hx
      split at hx <;> first | decide | cases hx
    simp only [List.forall_mem_cons, hletter]
    exact ⟨by decide, trivial, List.forall_mem_nil _⟩
  | plain _ _ hprintable => exact List.forall_mem_singleton.2 hprintable
  | numbered _ => exact printable_unicodeEscape _
  | paired _ _ => exact List.forall_mem_append.2 ⟨printable_unicodeEscape _, printable_unicodeEscape _⟩

theorem printable_encodeString (t : Text) : ∀ c ∈ encodeString t, IsPrintableAscii c := by
  rw [encodeString, List.cons_append, List.forall_mem_cons, List.forall_mem_append, List.forall_mem_singleton]
  refine ⟨by decide, fun c hc => ?_, by decide⟩
  obtain ⟨p, -, hmem⟩ := List.mem_flatMap.1 hc
  exact printable_encoded (encoded_encodePoint p) c hmem

/-! ## Values that were written -/

theorem encodeItems_cons_cons (item next : JsonValue) (items : List JsonValue) :
    encodeItems (item :: next :: items) = encode item ++ ',' :: ' ' :: encodeItems (next :: items) := by
  simp [encodeItems]

theorem encodeMembers_cons_cons (name : Text) (value : JsonValue) (next : Text × JsonValue) (members : List (Text × JsonValue)) :
    encodeMembers ((name, value) :: next :: members) =
      encodeString name ++ ':' :: ' ' :: encode value ++ ',' :: ' ' :: encodeMembers (next :: members) := by
  simp [encodeMembers]

theorem exists_encodeItems_cons : ∀ {items : List JsonValue}, items ≠ [] → (∀ item ∈ items, item.Restorable) →
    ∃ c cs, encodeItems items = c :: cs ∧ isBlank c = false ∧ c ≠ ']'
  | [], h, _ => absurd rfl h
  | [item], _, h => exists_encode_cons (h item List.mem_cons_self)
  | item :: next :: items, _, h => by
    obtain ⟨c, cs, hcs, hc⟩ := exists_encode_cons (h item List.mem_cons_self)
    rw [encodeItems_cons_cons, hcs]
    exact ⟨c, _, rfl, hc⟩

theorem exists_encodeMembers_cons : ∀ {members : List (Text × JsonValue)}, members ≠ [] → ∃ cs, encodeMembers members = '"' :: cs
  | [], h => absurd rfl h
  | [_], _ => ⟨_, rfl⟩
  | _ :: _ :: _, _ => ⟨_, rfl⟩

mutual

/-- Nothing but printable ASCII characters is written. -/
theorem printable_encode : ∀ {v : JsonValue}, v.Restorable → ∀ c ∈ encode v, IsPrintableAscii c
  | .null, _ => printable_of_all (by decide)
  | .bool true, _ => printable_of_all (by decide)
  | .bool false, _ => printable_of_all (by decide)
  | .number _, .ofNat n => fun c hc => by
    have hencode : encode (.number (toString n)) = Nat.toDigits 10 n := Nat.toList_repr
    rw [hencode] at hc
    exact of_decide_eq_true (of_mem_toDigits (p := fun c => decide (IsPrintableAscii c)) (by decide) (by decide) n c hc)
  | .string t, _ => printable_encodeString t
  | .array items, .array h => by
    rw [encode, List.cons_append, List.forall_mem_cons, List.forall_mem_append, List.forall_mem_singleton]
    exact ⟨by decide, printable_encodeItems h, by decide⟩
  | .object members, .object _ _ h => by
    rw [encode, List.cons_append, List.forall_mem_cons, List.forall_mem_append, List.forall_mem_singleton]
    exact ⟨by decide, printable_encodeMembers h, by decide⟩

theorem printable_encodeItems : ∀ {items : List JsonValue}, (∀ item ∈ items, item.Restorable) → ∀ c ∈ encodeItems items, IsPrintableAscii c
  | [], _ => List.forall_mem_nil _
  | [item], h => printable_encode (h item List.mem_cons_self)
  | item :: next :: items, h => by
    rw [List.forall_mem_cons] at h
    rw [encodeItems_cons_cons, List.forall_mem_append, List.forall_mem_cons, List.forall_mem_cons]
    exact ⟨printable_encode h.1, by decide, by decide, printable_encodeItems h.2⟩

theorem printable_encodeMembers : ∀ {members : List (Text × JsonValue)}, (∀ member ∈ members, member.2.Restorable) →
    ∀ c ∈ encodeMembers members, IsPrintableAscii c
  | [], _ => List.forall_mem_nil _
  | [(name, value)], h => by
    rw [encodeMembers, List.append_assoc, List.forall_mem_append, List.forall_mem_append]
    exact ⟨printable_encodeString name, printable_of_all (by decide), printable_encode (h _ List.mem_cons_self)⟩
  | (name, value) :: next :: members, h => by
    rw [List.forall_mem_cons] at h
    rw [encodeMembers_cons_cons, List.append_assoc, List.forall_mem_append, List.cons_append, List.cons_append, List.forall_mem_cons,
      List.forall_mem_cons, List.forall_mem_append, List.forall_mem_cons, List.forall_mem_cons]
    exact ⟨printable_encodeString name, by decide, by decide, printable_encode h.1, by decide, by decide, printable_encodeMembers h.2⟩

end

mutual

/-- What was written for a value is read as that value. -/
theorem readValue_encode : ∀ {v : JsonValue}, v.Restorable → ∀ (fuel : Nat), (encode v).length ≤ fuel → ∀ (offset : Nat) {after : List Char},
    Closing after → readValue fuel ⟨offset, encode v ++ after⟩ = .ok (v, ⟨offset + (encode v).length, after⟩)
  | _, h, 0, hfuel, _, _, _ => by
    obtain ⟨c, cs, hcs, -⟩ := exists_encode_cons h
    rw [hcs] at hfuel
    cases hfuel
  | .null, _, fuel + 1, _, offset, after, _ => rfl
  | .bool true, _, fuel + 1, _, offset, after, _ => rfl
  | .bool false, _, fuel + 1, _, offset, after, _ => rfl
  | .number _, .ofNat n, fuel + 1, _, offset, after, hafter => by
    have hscalar := readScalar_toDigits n offset hafter
    have hencode : encode (.number (toString n)) = Nat.toDigits 10 n := Nat.toList_repr
    obtain ⟨c, cs, hcs, hc, -, -⟩ := exists_toDigits_cons n
    rw [hcs] at hscalar hencode
    rw [hencode, List.cons_append, readValue_of_digit hc]
    exact hscalar
  | .string t, .string h, fuel + 1, _, offset, after, _ => by
    rw [encode, readValue, readString_encodeString h offset after]
    rfl
  | .array [], _, fuel + 1, _, offset, after, _ => rfl
  | .array (item :: items), .array h, fuel + 1, hfuel, offset, after, _ => by
    obtain ⟨c, cs, hcs, hblank, hclose⟩ := exists_encodeItems_cons (List.cons_ne_nil item items) h
    have hlength : (encode (.array (item :: items))).length = (encodeItems (item :: items)).length + 2 := by simp [encode]
    have hitems := readItems_encode (List.cons_ne_nil item items) h fuel (by omega) (offset + 1) after
    have htext : encode (.array (item :: items)) ++ after = '[' :: (encodeItems (item :: items) ++ ']' :: after) := by simp [encode]
    rw [hlength, htext]
    rw [hcs, List.cons_append] at hitems ⊢
    rw [readValue_array hblank hclose, hitems]
    simp [Except.map, Nat.add_assoc, Nat.add_comm 1]
  | .object [], _, fuel + 1, _, offset, after, _ => rfl
  | .object (member :: members), .object hnodup hnames hvalues, fuel + 1, hfuel, offset, after, _ => by
    obtain ⟨cs, hcs⟩ := exists_encodeMembers_cons (List.cons_ne_nil member members)
    have hlength : (encode (.object (member :: members))).length = (encodeMembers (member :: members)).length + 2 := by simp [encode]
    have hmembers := readMembers_encode (List.cons_ne_nil member members) hnames hvalues fuel (by omega) (offset + 1) after
    have htext : encode (.object (member :: members)) ++ after = '\x7b' :: (encodeMembers (member :: members) ++ '\x7d' :: after) := by
      simp [encode]
    rw [hlength, htext]
    rw [hcs, List.cons_append] at hmembers ⊢
    rw [readValue_object, hmembers]
    simp [Except.map, Nat.add_assoc, Nat.add_comm 1, membersOf_of_nodup hnodup]

/-- What was written for the items of an array is read as those items. -/
theorem readItems_encode : ∀ {items : List JsonValue}, items ≠ [] → (∀ item ∈ items, item.Restorable) → ∀ (fuel : Nat),
    (encodeItems items).length < fuel → ∀ (offset : Nat) (after : List Char),
    readItems fuel ⟨offset, encodeItems items ++ ']' :: after⟩ = .ok (items, ⟨offset + (encodeItems items).length + 1, after⟩)
  | _, _, _, 0, hfuel, _, _ => absurd hfuel (Nat.not_lt_zero _)
  | [], hne, _, _, _, _, _ => absurd rfl hne
  | [item], _, h, fuel + 1, hfuel, offset, after => by
    have hclosing : Closing (']' :: after) := by simp [Closing]
    exact readItems_last (readValue_encode (h item List.mem_cons_self) fuel (Nat.le_of_lt_succ hfuel) offset hclosing)
  | item :: next :: items, _, h, fuel + 1, hfuel, offset, after => by
    rw [List.forall_mem_cons] at h
    rw [encodeItems_cons_cons, List.length_append, List.length_cons, List.length_cons] at hfuel ⊢
    obtain ⟨c, cs, hcs, hblank, -⟩ := exists_encodeItems_cons (List.cons_ne_nil next items) h.2
    have hclosing : Closing (',' :: ' ' :: (encodeItems (next :: items) ++ ']' :: after)) := by simp [Closing]
    have hitem := readValue_encode h.1 fuel (by omega) offset hclosing
    have hitems := readItems_encode (List.cons_ne_nil next items) h.2 fuel (by omega) (offset + (encode item).length + 2) after
    rw [List.append_assoc, List.cons_append, List.cons_append]
    rw [hcs, List.cons_append] at hitem hitems ⊢
    rw [readItems_more hitem hblank, hitems]
    simp [Except.map]
    omega

/-- What was written for the members of an object is read as those members. -/
theorem readMembers_encode : ∀ {members : List (Text × JsonValue)}, members ≠ [] → (∀ member ∈ members, Unpaired member.1.codePoints) →
    (∀ member ∈ members, member.2.Restorable) → ∀ (fuel : Nat), (encodeMembers members).length < fuel →
    ∀ (offset : Nat) (after : List Char),
    readMembers fuel ⟨offset, encodeMembers members ++ '\x7d' :: after⟩ =
      .ok (members, ⟨offset + (encodeMembers members).length + 1, after⟩)
  | _, _, _, _, 0, hfuel, _, _ => absurd hfuel (Nat.not_lt_zero _)
  | [], hne, _, _, _, _, _, _ => absurd rfl hne
  | [(name, value)], _, hnames, h, fuel + 1, hfuel, offset, after => by
    have hname : Unpaired name.codePoints := hnames _ List.mem_cons_self
    have hvalue : value.Restorable := h _ List.mem_cons_self
    have htext : encodeMembers [(name, value)] = encodeString name ++ ':' :: ' ' :: encode value := by simp [encodeMembers]
    rw [htext, List.length_append, List.length_cons, List.length_cons] at hfuel ⊢
    obtain ⟨c, cs, hcs, hblank, -⟩ := exists_encode_cons hvalue
    have hclosing : Closing ('\x7d' :: after) := by simp [Closing]
    have hreadName := readString_encodeString hname offset (':' :: ' ' :: (encode value ++ '\x7d' :: after))
    have hread := readValue_encode hvalue fuel (by omega) (offset + (encodeString name).length + 2) hclosing
    rw [List.append_assoc, List.cons_append, List.cons_append]
    rw [hcs, List.cons_append] at hread hreadName ⊢
    rw [readMembers_last rfl hreadName hblank hread]
    simp
    omega
  | (name, value) :: next :: members, _, hnames, h, fuel + 1, hfuel, offset, after => by
    rw [List.forall_mem_cons] at hnames h
    have hname : Unpaired name.codePoints := hnames.1
    have hvalue : value.Restorable := h.1
    rw [encodeMembers_cons_cons, List.append_assoc, List.length_append, List.cons_append, List.cons_append, List.length_cons,
      List.length_cons, List.length_append, List.length_cons, List.length_cons] at hfuel ⊢
    obtain ⟨c, cs, hcs, hblank, -⟩ := exists_encode_cons hvalue
    obtain ⟨ds, hds⟩ := exists_encodeMembers_cons (List.cons_ne_nil next members)
    have hclosing : Closing (',' :: ' ' :: (encodeMembers (next :: members) ++ '\x7d' :: after)) := by simp [Closing]
    have hreadName := readString_encodeString hname offset
      (':' :: ' ' :: (encode value ++ ',' :: ' ' :: (encodeMembers (next :: members) ++ '\x7d' :: after)))
    have hread := readValue_encode hvalue fuel (by omega) (offset + (encodeString name).length + 2) hclosing
    have hmembers := readMembers_encode (List.cons_ne_nil next members) hnames.2 h.2 fuel (by omega)
      (offset + (encodeString name).length + 2 + (encode value).length + 2) after
    simp only [List.append_assoc, hcs, hds, List.cons_append] at hread hreadName hmembers ⊢
    rw [readMembers_more rfl hreadName hblank hread rfl, hmembers]
    simp [Except.map]
    omega

end

/-- Reading gives back the value that was written. -/
theorem read_encode {v : JsonValue} (h : v.Restorable) : read (encode v) = .ok v := by
  obtain ⟨c, cs, hcs, hblank, -⟩ := exists_encode_cons h
  have hmark : c ≠ '\uFEFF' := by
    have hprintable := printable_encode h c (by rw [hcs]; exact List.mem_cons_self)
    rintro rfl
    exact absurd hprintable (by decide)
  have hclosing : Closing [] := by simp [Closing]
  have hvalue := readValue_encode h (2 * (encode v).length + 1) (by omega) 0 hclosing
  rw [List.append_nil] at hvalue
  have hstart : skipBlanks (.start (encode v)) = ⟨0, encode v⟩ := by
    rw [hcs]
    exact skipBlanks_of_not 0 cs hblank
  have hbegin : ((encode v).head? == some '\uFEFF') = false := by simp [hcs, hmark]
  have hend : skipBlanks ⟨0 + (encode v).length, []⟩ = ⟨0 + (encode v).length, []⟩ := rfl
  simp only [read, hbegin, hstart, hvalue, hend]
  rfl

end JsonValue

end ElmLint
