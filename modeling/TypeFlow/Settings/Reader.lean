import TypeFlow.Settings
/-!
# Reading settings

A settings text has lines `key = value`, blank lines and comments. A key is bare or in quotes; the
four keys of `Settings` are known, and each may be set once. A value is a boolean or a whole number
up to `Settings.largest`, in decimal, hexadecimal, octal or binary digits, which single underscores
may group. Keys that are not set keep their standard value. Any other text is refused as a whole.
-/

namespace TypeFlow

namespace Settings

/-- The value of a key. -/
inductive Value where
  | number (n : Nat)
  | flag (b : Bool)
  deriving DecidableEq, Repr

/-! ## Characters -/

/-- Blanks within a line. -/
def isBlank (c : Char) : Bool := c = ' ' || c = '\t'

/-- Comments hold tabs and everything that is not a control character. -/
def isCommentChar (c : Char) : Bool := c = '\t' || (0x20 ≤ c.toNat && c.toNat ≠ 0x7f)

/-- Bare keys are made of letters, digits, underscores and dashes. -/
def isBareChar (c : Char) : Bool := c.isAlphanum || c = '_' || c = '-'

def doubleQuote : Char := '\x22'

def singleQuote : Char := '\x27'

def backslash : Char := '\x5c'

/-- The value of a digit of a base up to sixteen. -/
def digit? (base : Nat) (c : Char) : Option Nat :=
  let d :=
    if '0' ≤ c ∧ c ≤ '9' then some (c.toNat - '0'.toNat)
    else if 'a' ≤ c ∧ c ≤ 'f' then some (c.toNat - 'a'.toNat + 10)
    else if 'A' ≤ c ∧ c ≤ 'F' then some (c.toNat - 'A'.toNat + 10)
    else none
  d.filter (· < base)

/-! ## Numbers -/

/-- The digits of a number; an underscore may stand between two of them. -/
def digits? (base : Nat) : List Char → Option (List Nat)
  | [] => none
  | [c] => (digit? base c).map fun d => [d]
  | c :: '_' :: rest => do
    let d ← digit? base c
    let ds ← digits? base rest
    return d :: ds
  | c :: rest => do
    let d ← digit? base c
    let ds ← digits? base rest
    return d :: ds

/-- The number that digits stand for, the highest first. -/
def ofDigits (base : Nat) (ds : List Nat) : Nat := ds.foldl (fun n d => base * n + d) 0

/-- A decimal number starts with zero only if that is all of it. -/
def decimal? (cs : List Char) : Option Nat :=
  match digits? 10 cs with
  | some (0 :: _ :: _) => none
  | some ds => some (ofDigits 10 ds)
  | none => none

/-- A number without a limit. A sign goes with decimal digits only, and a minus with zero only. -/
def number? : List Char → Option Nat
  | '0' :: 'x' :: cs => (digits? 16 cs).map (ofDigits 16)
  | '0' :: 'o' :: cs => (digits? 8 cs).map (ofDigits 8)
  | '0' :: 'b' :: cs => (digits? 2 cs).map (ofDigits 2)
  | '+' :: cs => decimal? cs
  | '-' :: cs => (decimal? cs).filter (· = 0)
  | cs => decimal? cs

/-- The value that a word stands for. -/
def value? (cs : List Char) : Option Value :=
  if cs = "true".toList then some (.flag true)
  else if cs = "false".toList then some (.flag false)
  else ((number? cs).filter (· ≤ largest)).map .number

/-! ## Keys -/

/-- The character that a code point stands for. -/
def scalar? (code : Nat) : Option Char := if code.isValidChar then some (Char.ofNat code) else none

/-- The character that a letter stands for behind a backslash. -/
def escaped? (c : Char) : Option Char :=
  if c = 'b' then some '\x08'
  else if c = 't' then some '\t'
  else if c = 'n' then some '\n'
  else if c = 'f' then some '\x0c'
  else if c = 'r' then some '\r'
  else if c = doubleQuote ∨ c = backslash then some c
  else none

/-- The number of some hexadecimal digits, without underscores. -/
def hex? (cs : List Char) : Option Nat := (cs.mapM (digit? 16)).map (ofDigits 16)

/-- The content of a key in double quotes and what follows the closing one. -/
def readQuoted : List Char → Option (List Char × List Char)
  | [] => none
  | c :: rest =>
    if c = doubleQuote then some ([], rest)
    else if c = backslash then
      match rest with
      | 'u' :: a :: b :: c :: d :: rest => do
        let x ← scalar? (← hex? [a, b, c, d])
        let (key, rest) ← readQuoted rest
        return (x :: key, rest)
      | 'U' :: a :: b :: c :: d :: e :: f :: g :: h :: rest => do
        let x ← scalar? (← hex? [a, b, c, d, e, f, g, h])
        let (key, rest) ← readQuoted rest
        return (x :: key, rest)
      | e :: rest => do
        let x ← escaped? e
        let (key, rest) ← readQuoted rest
        return (x :: key, rest)
      | [] => none
    else if isCommentChar c then do
      let (key, rest) ← readQuoted rest
      return (c :: key, rest)
    else none

/-- A key and what follows it. -/
def readKey : List Char → Option (List Char × List Char)
  | [] => none
  | c :: rest =>
    if c = doubleQuote then readQuoted rest
    else if c = singleQuote then
      match rest.dropWhile (· ≠ singleQuote) with
      | [] => none
      | _ :: after => some (rest.takeWhile (· ≠ singleQuote), after)
    else if isBareChar c then
      some ((c :: rest).takeWhile isBareChar, (c :: rest).dropWhile isBareChar)
    else none

/-! ## Lines -/

/-- The end of a line: blanks and a comment, if any. -/
def isLineEnd (cs : List Char) : Bool :=
  match cs.dropWhile isBlank with
  | [] => true
  | '#' :: comment => comment.all isCommentChar
  | _ => false

/-- A key and its value, and the end of a line. -/
def readSetting (cs : List Char) : Option (List Char × Value) := do
  let (key, rest) ← readKey cs
  match rest.dropWhile isBlank with
  | '=' :: rest =>
    let rest := rest.dropWhile isBlank
    let inValue (c : Char) := !isBlank c && c ≠ '#'
    let value ← value? (rest.takeWhile inValue)
    if isLineEnd (rest.dropWhile inValue) then some (key, value) else none
  | _ => none

/-- A line: nothing, or a key and its value. -/
def readLine (cs : List Char) : Option (Option (List Char × Value)) :=
  if isLineEnd cs then some none else (readSetting (cs.dropWhile isBlank)).map some

/-- Split a text at line feeds; a carriage return before one belongs to the line's end. -/
def lines : List Char → List (List Char)
  | [] => [[]]
  | '\n' :: cs => [] :: lines cs
  | '\r' :: '\n' :: cs => [] :: lines cs
  | c :: cs =>
    match lines cs with
    | [] => [[c]]
    | l :: ls => (c :: l) :: ls

/-! ## Settings -/

/-- A key that was not set yet gets its value. -/
def putOnce {α : Type} (old : Option α) (new : α) : Option (Option α) :=
  match old with
  | none => some (some new)
  | some _ => none

/-- The keys set so far. -/
structure Partial where
  maxRounds : Option Nat
  lower : Option Bool
  allowUntypedParams : Option Bool
  traceRules : Option Bool

/-- Set a key: it must be known, fit its value and be set for the first time. -/
def Partial.put (p : Partial) (key : List Char) (value : Value) : Option Partial :=
  if key = "max_rounds".toList then
    match value with
    | .number n => (putOnce p.maxRounds n).map fun v => { p with maxRounds := v }
    | .flag _ => none
  else
    match value with
    | .number _ => none
    | .flag b =>
      if key = "desugar".toList then (putOnce p.lower b).map fun v => { p with lower := v }
      else if key = "allow_untyped_params".toList then
        (putOnce p.allowUntypedParams b).map fun v => { p with allowUntypedParams := v }
      else if key = "trace_rules".toList then
        (putOnce p.traceRules b).map fun v => { p with traceRules := v }
      else none

/-- Settings from the keys that were set. -/
def Partial.complete (p : Partial) : Settings :=
  ⟨p.maxRounds.getD standard.maxRounds, p.lower.getD standard.lower,
    p.allowUntypedParams.getD standard.allowUntypedParams,
    p.traceRules.getD standard.traceRules⟩

/-- Read lines on top of the keys set so far. -/
def readLines (p : Partial) : List (List Char) → Option Partial
  | [] => some p
  | l :: ls =>
    match readLine l with
    | none => none
    | some none => readLines p ls
    | some (some (key, value)) =>
      match p.put key value with
      | none => none
      | some p => readLines p ls

/-- The text without a byte order mark at its start. -/
def withoutMark : List Char → List Char
  | '\uFEFF' :: cs => cs
  | cs => cs

/-- Settings from their text. -/
def ofText? (text : String) : Option Settings :=
  (readLines ⟨none, none, none, none⟩ (lines (withoutMark text.toList))).map Partial.complete

/-! ## Faults -/

/-- Why settings could not be read or written. -/
inductive Fault where
  | unreadableFile (file : String)
  | inFile (file : String)
  | invalid
  /-- The settings have no text. -/
  | unwritable
  deriving DecidableEq, Repr

/-- The wording of a fault. -/
def Fault.message : Fault → String
  | .unreadableFile file => s!"failed to read {file}"
  | .inFile file => s!"in {file}"
  | .invalid => "invalid pipeline configuration"
  | .unwritable => "failed to serialize pipeline configuration"

/-- Settings from the content of a file, if it has any; or else the faults, from the outermost to
the one that causes it. -/
def ofFile (file : String) (content? : Option String) : Except (List Fault) Settings :=
  match content? with
  | none => .error [.unreadableFile file]
  | some content =>
    match ofText? content with
    | some s => .ok s
    | none => .error [.inFile file, .invalid]

end Settings

end TypeFlow
