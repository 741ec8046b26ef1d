import ElmLint.CommandLine.Spec
import ElmLint.Text.Digit

/-!
# Reading command lines

`CommandSpec.read` reads the words of a command line in two passes. The first tells options from operands: an option is spelled
in full, or by a beginning of it that no other option shares, perhaps with its value attached; after two dashes there are
operands only. The second lets the options take effect from left to right and collects the operands, which have to stand
together. Words that are of no use to the command are left over for its caller to judge.
-/

namespace ElmLint

namespace CommandLine

/-! ## What can go wrong -/

/-- Why a command line is refused. -/
inductive Problem where
  | ambiguous (word : String) (spellings : List String)
  | ignoredValue (option value : String)
  | missingValue (option : String)
  | invalidChoice (argument value : String) (values : List String)
  | missingOperand (metavar : String)
  | unrecognized (words : List String)
deriving Repr, DecidableEq, Inhabited

/-- The problem in words. -/
def Problem.message : Problem → String
  | ambiguous word spellings => "ambiguous option: " ++ word ++ " could match " ++ ", ".intercalate spellings
  | ignoredValue option value => "argument " ++ option ++ ": ignored explicit argument " ++ quoted value
  | missingValue option => "argument " ++ option ++ ": expected one argument"
  | invalidChoice argument value values =>
    "argument " ++ argument ++ ": invalid choice: " ++ quoted value ++
      " (choose from " ++ ", ".intercalate (values.map fun (v : String) => quoted v) ++ ")"
  | missingOperand metavar => "the following arguments are required: " ++ metavar
  | unrecognized words => "unrecognized arguments: " ++ " ".intercalate words

/-- Why a command is not run: it was asked how it is used, or for its version, or its command line is refused. -/
inductive Halt where
  | help (text : String)
  | version
  | refused (usage program : String) (problem : Problem)
deriving Repr, DecidableEq, Inhabited

section Reader

variable {σ : Type}

/-! ## Options and operands apart -/

/-- What a word is to a command. -/
inductive Role (σ : Type) where
  | operand
  /-- The two dashes after which there are operands only. -/
  | separator
  | option (spec : OptionSpec σ) (spelling : List Char) (attached : Option (List Char))
  /-- A word that looks like an option and is none. -/
  | unknown

/-- A word and its role. -/
structure Word (σ : Type) where
  text : String
  role : Role σ

/-- All spellings of options, each with its option. -/
def spellings (options : List (OptionSpec σ)) : List (List Char × OptionSpec σ) :=
  options.flatMap fun o => o.spellings.map (·.toList, o)

/-- The option that is spelled so. -/
def spelled? (options : List (OptionSpec σ)) (spelling : List Char) : Option (OptionSpec σ) :=
  ((spellings options).find? (·.1 == spelling)).map Prod.snd

/-- A word up to its first equals sign, and the value after that. -/
def splitEquals (word : List Char) : List Char × Option (List Char) :=
  match word.dropWhile (· != '=') with
  | [] => (word, none)
  | _ :: value => (word.takeWhile (· != '='), some value)

/-- The options that a word may abbreviate. After two dashes it is the beginning of a spelling; after one dash it is a letter
with something attached. -/
def abbreviated (options : List (OptionSpec σ)) (word : List Char) :
    List (List Char × OptionSpec σ × Option (List Char)) :=
  if ['-', '-'].isPrefixOf word then
    let (beginning, attached) := splitEquals word
    ((spellings options).filter (beginning.isPrefixOf ·.1)).map fun (spelling, o) => (spelling, o, attached)
  else
    ((spellings options).filter (·.1 == word.take 2)).map fun (spelling, o) => (spelling, o, some (word.drop 2))

/-- Whether a word is a negative number: digits after a dash, perhaps with a point before some of them. -/
def isNegativeNumber (word : List Char) : Bool :=
  match word with
  | '-' :: digits =>
    let digits := if digits.getLast? == some '\n' then digits.dropLast else digits
    match digits.dropWhile isDigit with
    | [] => !digits.isEmpty
    | '.' :: fraction => !fraction.isEmpty && fraction.all isDigit
    | _ => false
  | _ => false

/-- The role of a word that stands before any separator. -/
def roleOf (options : List (OptionSpec σ)) (word : List Char) : Except Problem (Role σ) :=
  if word.head? != some '-' || word == ['-'] then .ok .operand
  else
    match spelled? options word with
    | some o => .ok (.option o word none)
    | none =>
      let (name, attached) := splitEquals word
      match spelled? options name with
      | some o => .ok (.option o name attached)
      | none =>
        match abbreviated options word with
        | [(spelling, o, attached)] => .ok (.option o spelling attached)
        | [] => .ok (if isNegativeNumber word || word.contains ' ' then .operand else .unknown)
        | several => .error (.ambiguous (String.ofList word) (several.map fun m => String.ofList m.1))

/-- The words of a command line with their roles. -/
def wordsOf (options : List (OptionSpec σ)) : List String → Except Problem (List (Word σ))
  | [] => .ok []
  | text :: rest =>
    if text == "--" then .ok (⟨text, .separator⟩ :: rest.map (⟨·, .operand⟩))
    else
      match roleOf options text.toList with
      | .error problem => .error problem
      | .ok role => (wordsOf options rest).map (⟨text, role⟩ :: ·)

/-! ## Options in one word -/

/-- An option with its value, if it has one. -/
abbrev Use (σ : Type) := OptionSpec σ × Option String

/-- The options that stand in one word, and the option that waits for a value in the next word. -/
structure Cluster (σ : Type) where
  uses : List (Use σ) := []
  awaiting : Option (OptionSpec σ) := none

/-- A cluster with one more option in front. -/
def Cluster.cons (use : Use σ) (c : Cluster σ) : Cluster σ := { c with uses := use :: c.uses }

/-- An option with nothing attached. -/
def bare (o : OptionSpec σ) : Cluster σ := if o.takesValue then { awaiting := some o } else { uses := [(o, none)] }

/-- An option with its value attached. -/
def withValue (o : OptionSpec σ) (value : List Char) : Cluster σ :=
  { uses := [(o, if value == ['-', '-'] then none else some (String.ofList value))] }

/-- The options in a word that starts with a dash and the letter of an option, when the characters after it are attached to
it: they are its value, or the letters of further options. -/
def letters (options : List (OptionSpec σ)) : OptionSpec σ → List Char → Except Problem (Cluster σ)
  | o, [] => if o.takesValue then .ok (withValue o []) else .error (.ignoredValue o.label "")
  | o, c :: cs =>
    if o.takesValue then .ok (withValue o (c :: cs))
    else
      match spelled? options ['-', c], cs with
      | none, _ => .error (.ignoredValue o.label (String.ofList (c :: cs)))
      | some next, [] => .ok ((bare next).cons (o, none))
      | some next, c :: cs => (letters options next (c :: cs)).map (·.cons (o, none))

/-- The options in the word of an option. -/
def clusterOf (options : List (OptionSpec σ)) (o : OptionSpec σ) (spelling : List Char) :
    Option (List Char) → Except Problem (Cluster σ)
  | none => .ok (bare o)
  | some attached =>
    if ['-', '-'].isPrefixOf spelling then
      if o.takesValue then .ok (withValue o attached) else .error (.ignoredValue o.label (String.ofList attached))
    else letters options o attached

/-! ## Effects -/

/-- The operands read so far: none yet, some that stand together and may go on, or all there are. -/
inductive Operands where
  | pending
  | ongoing (taken : List String)
  | complete (taken : List String)
deriving Repr, DecidableEq, Inhabited

namespace Operands

/-- The operands that were read. -/
def taken : Operands → List String
  | pending => []
  | ongoing words | complete words => words

/-- The operands when an option comes between. -/
def interrupted : Operands → Operands
  | ongoing words => complete words
  | operands => operands

/-- Take an operand, or leave it over. -/
def take (spec : OperandSpec) (word : String) : Operands → Operands × List String
  | pending => match spec with
    | .one _ | .many _ => (ongoing [word], [])
    | _ => (pending, [word])
  | ongoing words => match spec with
    | .many _ => (ongoing (words ++ [word]), [])
    | _ => (complete words, [word])
  | complete words => (complete words, [word])

/-- Pass over a separator that operands stand before or after, or leave it over. -/
def separate (spec : OperandSpec) (word : String) : Operands → Operands × List String
  | pending => match spec with
    | .one _ | .many _ => (pending, [])
    | _ => (pending, [word])
  | ongoing words => match spec with
    | .many _ => (ongoing words, [])
    | _ => (complete words, [])
  | complete words => (complete words, [word])

end Operands

/-- How far a command line has been read: the settings, the operands, and the words left over. -/
structure Progress (σ : Type) where
  settings : σ
  operands : Operands := .pending
  extras : List String := []

/-- What an option does. -/
def applyUse (c : CommandSpec σ) (use : Use σ) (settings : σ) : Except Halt σ :=
  match use.1.effect with
  | .flag update => .ok (update settings)
  | .value _ update => .ok (update use.2 settings)
  | .choice values update =>
    match use.2.filter (!values.contains ·) with
    | some value => .error (.refused c.usage c.program (.invalidChoice use.1.label value values))
    | none => .ok (update use.2 settings)
  | .help => .error (.help c.help)
  | .version => .error .version

/-- What options do one after another. -/
def applyUses (c : CommandSpec σ) : List (Use σ) → σ → Except Halt σ
  | [], settings => .ok settings
  | use :: uses, settings => (applyUse c use settings).bind (applyUses c uses)

/-- The progress with the options of a word. -/
def Progress.apply (p : Progress σ) (c : CommandSpec σ) (uses : List (Use σ)) : Except Halt (Progress σ) :=
  (applyUses c uses p.settings).map fun settings => ⟨settings, p.operands.interrupted, p.extras⟩

/-- Whether the operands that begin with these words are the name of a command with what follows it. A separator with nothing
after it is none. -/
def beginsCommand (spec : OperandSpec) (words : List (Word σ)) : Bool :=
  match spec, words with
  | .command _, [⟨_, .separator⟩] => false
  | .command _, _ => true
  | _, _ => false

/-- Read words from left to right. -/
def readWords (c : CommandSpec σ) : List (Word σ) → Progress σ → Except Halt (Progress σ)
  | [], p => .ok p
  | ⟨text, .unknown⟩ :: ws, p => readWords c ws ⟨p.settings, p.operands.interrupted, p.extras ++ [text]⟩
  | ⟨text, .operand⟩ :: ws, p =>
    if beginsCommand c.operands (⟨text, .operand⟩ :: ws) then .ok { p with operands := .complete (text :: ws.map (·.text)) }
    else
      let (operands, extras) := p.operands.take c.operands text
      readWords c ws ⟨p.settings, operands, p.extras ++ extras⟩
  | ⟨text, .separator⟩ :: ws, p =>
    if beginsCommand c.operands (⟨text, .separator⟩ :: ws) then
      .ok { p with operands := .complete (text :: ws.map (·.text)) }
    else
      let (operands, extras) := p.operands.separate c.operands text
      readWords c ws ⟨p.settings, operands, p.extras ++ extras⟩
  | ⟨_, .option o spelling attached⟩ :: ws, p =>
    match clusterOf c.options o spelling attached with
    | .error problem => .error (.refused c.usage c.program problem)
    | .ok cluster =>
      match cluster.awaiting, ws with
      | none, ws => (p.apply c cluster.uses).bind (readWords c ws)
      | some waiting, ⟨value, .operand⟩ :: ws =>
        (p.apply c (cluster.uses ++ [(waiting, some value)])).bind (readWords c ws)
      | some waiting, _ => .error (.refused c.usage c.program (.missingValue waiting.label))

/-- The metavariable of operands that a command cannot do without. -/
def OperandSpec.required? : OperandSpec → Option String
  | one metavar | many metavar => some metavar
  | _ => Option.none

/-- Read a command line: the settings, the operands, and the words left over. -/
def CommandSpec.read (c : CommandSpec σ) (start : σ) (words : List String) : Except Halt (σ × List String × List String) :=
  match wordsOf c.options words with
  | .error problem => .error (.refused c.usage c.program problem)
  | .ok words =>
    match readWords c words { settings := start } with
    | .error halt => .error halt
    | .ok p =>
      match p.operands, c.operands.required? with
      | .pending, some metavar => .error (.refused c.usage c.program (.missingOperand metavar))
      | operands, _ => .ok (p.settings, operands.taken, p.extras)

end Reader

end CommandLine

end ElmLint
