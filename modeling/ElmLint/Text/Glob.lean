import ElmLint.Text.CodePoint

/-!
# File patterns

A pattern is matched against a whole file name. `*` stands for any characters, slashes included, `?` for one character, and
`[…]` for one character of a set, or outside it when the set begins with `!`. A bracket that is never closed stands for
itself.

* `Glob.accepts` says what the items of a pattern stand for.
* `Glob.endings` decides it for all endings of a name at once, one item after another, so that the time grows with the length
  of the pattern times that of the name (`Glob.endings_eq`).
-/

namespace ElmLint

namespace Glob

/-- What a part of a pattern stands for. -/
inductive Item where
  /-- Any code points. -/
  | star
  /-- One code point, whichever. -/
  | any
  /-- The given code point. -/
  | exact (p : CodePoint)
  /-- One code point of a set, or outside it. The set holds the code points of the runs, and all code points between the end
  of one run and the beginning of the next. -/
  | set (negated : Bool) (runs : List (List CodePoint))
deriving Repr, DecidableEq, Inhabited

/-! ## Sets -/

/-- The text of a set from the code point after its bracket up to the closing one. A bracket right at the beginning, or right
after a `!` there, belongs to the set. -/
def setText? (ps : List CodePoint) : Option (List CodePoint) :=
  let head := if ps.head? == some (.char '!') then 1 else 0
  let head := if (ps.drop head).head? == some (.char ']') then head + 1 else head
  let body := (ps.drop head).takeWhile (· != .char ']')
  if (ps.drop (head + body.length)).isEmpty then none else some (ps.take (head + body.length))

/-- Cut the text of a set at the hyphens that make ranges. The first `keep` code points are no such hyphens; between two of
them there are at least two code points. -/
def runsFrom : (keep : Nat) → List CodePoint → List (List CodePoint)
  | _, [] => [[]]
  | 0, .char '-' :: ps => [] :: runsFrom 2 ps
  | keep, p :: ps =>
    match runsFrom (keep - 1) ps with
    | run :: runs => (p :: run) :: runs
    | [] => [[p]]

/-- A hyphen at the very end makes no range and belongs to the last run. -/
def closeRuns (runs : List (List CodePoint)) : List (List CodePoint) :=
  match runs.reverse with
  | [] :: run :: rest => ((run ++ [.char '-']) :: rest).reverse
  | _ => runs

/-- Whether the end of a run comes after the beginning of the next, so that the range between them is empty. -/
def reversed (run next : List CodePoint) : Bool :=
  match run.getLast?, next.head? with
  | some a, some b => b.less a
  | _, _ => false

/-- Take out the empty ranges, together with their two ends. -/
def dropReversed : List (List CodePoint) → List (List CodePoint)
  | [] => []
  | run :: runs =>
    match dropReversed runs with
    | next :: rest => if reversed run next then (run.dropLast ++ next.drop 1) :: rest else run :: next :: rest
    | [] => [run]

/-- The runs of a set's text. -/
def runsOf (text : List CodePoint) : List (List CodePoint) :=
  dropReversed (closeRuns (runsFrom (if text.head? == some (.char '!') then 2 else 1) text))

/-- What the text of a set stands for. A `!` negates the set when it comes first once the empty ranges are out; a hyphen right
after it then makes no range and belongs to the set. A set that is left empty matches no code point, or every one when it is
negated. -/
def Item.ofSetText (text : List CodePoint) : Item :=
  match runsOf text with
  | [[.char '!']] => .any
  | [.char '!'] :: next :: runs => .set true ((.char '-' :: next) :: runs)
  | (.char '!' :: run) :: runs => .set true (run :: runs)
  | runs => .set false runs

/-! ## Patterns -/

/-- The items of a pattern; `skip` code points still belong to the last set. -/
def itemsFrom : (skip : Nat) → List CodePoint → List Item
  | _, [] => []
  | skip + 1, _ :: ps => itemsFrom skip ps
  | 0, .char '*' :: ps => .star :: itemsFrom 0 ps
  | 0, .char '?' :: ps => .any :: itemsFrom 0 ps
  | 0, .char '[' :: ps =>
    match setText? ps with
    | some text => Item.ofSetText text :: itemsFrom (text.length + 1) ps
    | none => .exact (.char '[') :: itemsFrom 0 ps
  | 0, p :: ps => .exact p :: itemsFrom 0 ps

/-- Whether a code point lies in the runs of a set or in a range between two of them. -/
def inRuns (p : CodePoint) : List (List CodePoint) → Bool
  | [] => false
  | [run] => run.contains p
  | run :: next :: runs =>
    run.contains p
    || (match run.getLast?, next.head? with
        | some a, some b => !p.less a && !b.less p
        | _, _ => false)
    || inRuns p (next :: runs)

/-- Whether an item other than a star stands for a code point. -/
def Item.accepts : Item → CodePoint → Bool
  | star, _ => false
  | any, _ => true
  | exact q, p => q == p
  | set negated runs, p => inRuns p runs != negated

/-- Whether some ending of a text, the whole and the empty one included, satisfies `f`. -/
def anyEnding (f : List CodePoint → Bool) : List CodePoint → Bool
  | [] => f []
  | p :: ps => f (p :: ps) || anyEnding f ps

/-- Whether items stand for a whole text. -/
def accepts : List Item → List CodePoint → Bool
  | [], ps => ps.isEmpty
  | .star :: items, ps => anyEnding (accepts items) ps
  | _ :: _, [] => false
  | item :: items, p :: ps => item.accepts p && accepts items ps

/-! ## All endings at once -/

/-- A value for each ending of a text, from the whole to the empty one. -/
def forEnding (f : List CodePoint → Bool) : List CodePoint → List Bool
  | [] => [f []]
  | p :: ps => f (p :: ps) :: forEnding f ps

/-- For each place of a list, whether something is true there or further on. -/
def hereOrLater : List Bool → List Bool
  | [] => []
  | b :: bs =>
    match hereOrLater bs with
    | [] => [b]
    | later :: rest => (b || later) :: later :: rest

/-- Whether items stand for each ending of a text. -/
def endings : List Item → List CodePoint → List Bool
  | [], ps => ps.map (fun _ => false) ++ [true]
  | .star :: items, ps => hereOrLater (endings items ps)
  | item :: items, ps => ps.zipWith (fun p rest => item.accepts p && rest) (endings items ps).tail ++ [false]

theorem hereOrLater_forEnding (f : List CodePoint → Bool) : ∀ ps : List CodePoint,
    hereOrLater (forEnding f ps) = forEnding (anyEnding f) ps
  | [] => rfl
  | p :: ps => by
    have ih := hereOrLater_forEnding f ps
    simp only [forEnding, hereOrLater, ih]
    cases ps <;> simp [forEnding, anyEnding]

theorem zipWith_tail_forEnding (item : Item) (items : List Item) (h : item ≠ .star) : ∀ ps : List CodePoint,
    ps.zipWith (fun p rest => item.accepts p && rest) (forEnding (accepts items) ps).tail ++ [false] =
      forEnding (accepts (item :: items)) ps
  | [] => by cases item <;> simp_all [forEnding, accepts]
  | p :: ps => by
    have ih := zipWith_tail_forEnding item items h ps
    cases ps with
    | nil => cases item <;> simp_all [forEnding, accepts]
    | cons q qs => cases item <;> simp_all [forEnding, accepts]

/-- The table of the endings says of each of them what the items say of it. -/
theorem endings_eq : ∀ (items : List Item) (ps : List CodePoint), endings items ps = forEnding (accepts items) ps
  | [], ps => by
    induction ps with
    | nil => rfl
    | cons p ps ih => simpa [endings, forEnding, accepts] using ih
  | .star :: items, ps => by
    rw [endings, endings_eq items ps, hereOrLater_forEnding]
    congr
  | .any :: items, ps => by simpa [endings, endings_eq items ps] using zipWith_tail_forEnding .any items (by simp) ps
  | .exact p :: items, ps => by
    simpa [endings, endings_eq items ps] using zipWith_tail_forEnding (.exact p) items (by simp) ps
  | .set negated runs :: items, ps => by
    simpa [endings, endings_eq items ps] using zipWith_tail_forEnding (.set negated runs) items (by simp) ps

end Glob

/-- Whether a file name matches a pattern. -/
def globMatches (pattern name : Text) : Bool :=
  (Glob.endings (Glob.itemsFrom 0 pattern.codePoints) name.codePoints).headD false

end ElmLint
