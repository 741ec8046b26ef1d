import ElmLint.Text.Quoted

/-!
# What a command line may say

A command is described by its options and by the operands it takes. The description is enough to read a command line and to
write the text that tells how the command is used.
-/

namespace ElmLint

namespace CommandLine

/-- What an option does with the settings `σ`. -/
inductive Effect (σ : Type) where
  | flag (update : σ → σ)
  /-- The option takes a value, which the usage calls `metavar`; two dashes stand for no value. -/
  | value (metavar : String) (update : Option String → σ → σ)
  /-- The option takes one of some values; two dashes stand for no value. -/
  | choice (values : List String) (update : Option String → σ → σ)
  /-- The option asks how the command is used, and nothing else is done. -/
  | help
  /-- The option asks for the version of the program, and nothing else is done. -/
  | version

/-- An option with the ways to spell it: a dash and a letter, or two dashes and a name. -/
structure OptionSpec (σ : Type) where
  spellings : List String
  effect : Effect σ
  description : String

namespace OptionSpec

variable {σ : Type}

/-- The option in messages. -/
def label (o : OptionSpec σ) : String := "/".intercalate o.spellings

/-- Whether an option takes a value. -/
def takesValue (o : OptionSpec σ) : Bool :=
  match o.effect with
  | .value _ _ | .choice _ _ => true
  | _ => false

/-- The option with its value, as the usage shows it. -/
def shape (o : OptionSpec σ) (spelling : String) : String :=
  match o.effect with
  | .value metavar _ => spelling ++ " " ++ metavar
  | .choice values _ => spelling ++ " \x7b" ++ ",".intercalate values ++ "\x7d"
  | _ => spelling

end OptionSpec

/-- The operands that a command takes. -/
inductive OperandSpec where
  | none
  | one (metavar : String)
  /-- One or more. -/
  | many (metavar : String)
  /-- The name of a command, and whatever follows it. -/
  | command (metavar : String)
deriving Repr, DecidableEq, Inhabited

/-- The operands as the usage shows them. -/
def OperandSpec.shapes : OperandSpec → List String
  | none => []
  | one metavar => [metavar]
  | many metavar => [metavar, "[" ++ metavar ++ " ...]"]
  | command metavar => [metavar, "..."]

/-- A command: how it is called, its options and its operands. -/
structure CommandSpec (σ : Type) where
  program : String
  description : String
  options : List (OptionSpec σ)
  operands : OperandSpec

/-! ## Usage -/

/-- The width of a line of help. -/
def helpWidth : Nat := 78

/-- Fill lines with words, when `used` characters of the first line are taken and the next lines begin at `indent`. A line
has at least one word. -/
def fillLines (indent : Nat) : (used : Nat) → (line : List String) → List String → List (List String)
  | _, line, [] => [line]
  | used, line, word :: words =>
    if helpWidth < used + 1 + word.length && !line.isEmpty then
      line :: fillLines indent (indent + word.length) [word] words
    else fillLines indent (used + 1 + word.length) (line ++ [word]) words

/-- Lines of words as a text whose lines after the first are indented. -/
def joinLines (indent : Nat) (lines : List (List String)) : String :=
  ("\n" ++ String.ofList (List.replicate indent ' ')).intercalate (lines.map fun line => " ".intercalate line)

namespace CommandSpec

variable {σ : Type}

/-- How a command is called. When that does not fit on one line, the operands get lines of their own. -/
def usage (c : CommandSpec σ) : String :=
  let options := c.options.map fun o => "[" ++ o.shape (o.spellings.headD "") ++ "]"
  let start := "usage: " ++ c.program
  let indent := start.length + 1
  let whole := " ".intercalate (start :: options ++ c.operands.shapes)
  if whole.length ≤ helpWidth then whole
  else
    start ++ " " ++ joinLines indent
      (fillLines indent (indent - 1) [] options ++ fillLines indent (indent - 1) [] c.operands.shapes)

/-- What is printed when someone asks for help. -/
def help (c : CommandSpec σ) : String :=
  let entry (o : OptionSpec σ) := "\n  " ++ ", ".intercalate (o.spellings.map o.shape) ++ "\n        " ++ o.description
  c.usage ++ "\n\n" ++ c.description ++ "\n\noptions:" ++ String.join (c.options.map entry)

end CommandSpec

end CommandLine

end ElmLint
