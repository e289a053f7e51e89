import Px4Rs.Message

/-! The line-based parser of .msg files. -/
namespace Px4Rs.Parser
open Px4Rs.Message

/-! The string functions the parser uses. -/

def isWhitespace (c : Char) : Bool :=
  let n := c.toNat
  (9 ≤ n ∧ n ≤ 13) || n = 0x20 || n = 0x85 || n = 0xa0 || n = 0x1680 ||
    (0x2000 ≤ n ∧ n ≤ 0x200a) || n = 0x2028 || n = 0x2029 || n = 0x202f || n = 0x205f ||
    n = 0x3000

def trim (t : Text) : Text := ((t.dropWhile isWhitespace).reverse.dropWhile isWhitespace).reverse

/- `word` is the word being read, last character first. -/
def splitWhitespaceFrom (word : Text) : Text → List Text
  | [] => if word = [] then [] else [word.reverse]
  | c :: cs =>
    if isWhitespace c then
      if word = [] then splitWhitespaceFrom [] cs
      else word.reverse :: splitWhitespaceFrom [] cs
    else splitWhitespaceFrom (c :: word) cs

def splitWhitespace (t : Text) : List Text := splitWhitespaceFrom [] t

/- `line` is the line being read, last character first. -/
def linesFrom (line : Text) : Text → List Text
  | [] => if line = [] then [] else [line.reverse]
  | c :: cs =>
    if c = '\n' then
      (match line with
        | '\r' :: line => line.reverse
        | line => line.reverse) :: linesFrom [] cs
    else linesFrom (c :: line) cs

/-- `str::lines`: ended by LF or CRLF, the last one perhaps not ended. -/
def lines (t : Text) : List Text := linesFrom [] t

/-- What comes before the first `c` and after it. -/
def splitOnce (c : Char) : Text → Option (Text × Text)
  | [] => none
  | d :: ds =>
    if d = c then some ([], ds) else (splitOnce c ds).map fun r => (d :: r.1, r.2)

def stripPrefix : Text → Text → Option Text
  | [], t => some t
  | _ :: _, [] => none
  | p :: ps, c :: cs => if p = c then stripPrefix ps cs else none

/-- `from_str` of an unsigned integer of `w` bits: decimal digits after at most one `+`. -/
def parseUnsigned (w : Nat) (t : Text) : Option Nat :=
  let digits := match t with
    | '+' :: ds => ds
    | ds => ds
  if digits ≠ [] ∧ digits.all Char.isDigit then
    let n := digits.foldl (fun n d => 10 * n + (d.toNat - '0'.toNat)) 0
    if n < 2 ^ w then some n else none
  else none

/-- The width of `usize` where the generator runs. -/
def usizeBits : Nat := 64

/-! The grammar. -/

def isCamelCase : Text → Bool
  | [] => false
  | c :: cs => c.isUpper && (c :: cs).all fun c => c.isAlphanum || c = '_'

def parseFieldType (tok : Text) : Option FieldType :=
  match splitOnce '[' tok with
  | some (base, rest) =>
    if rest.getLast? = some ']' then do
      let n ← parseUnsigned usizeBits rest.dropLast
      match Scalar.parse base with
      | some s => some (.scalarArray s n)
      | none => if isCamelCase base then some (.nestedArray base n) else none
    else none
  | none =>
    match Scalar.parse tok with
    | some s => some (.scalar s)
    | none => if isCamelCase tok then some (.nested tok) else none

structure Parsed where
  fields : List Field
  constants : List Constant
  topics : Option (List Text)
deriving DecidableEq

/-- A `type ident = value` line, cut at its first `=`. -/
def parseConstant (lineno : Nat) (lhs rhs : Text) : Except ParseError Constant :=
  match splitWhitespace (trim lhs) with
  | [] => .error (.syntaxError lineno "missing type in constant")
  | [_] => .error (.syntaxError lineno "missing name in constant")
  | [tyTok, nameTok] =>
    match Scalar.parse tyTok with
    | some ty => .ok ⟨ty, nameTok, trim rhs⟩
    | none => .error (.syntaxError lineno
        ("constant type must be a scalar, got `" ++ String.ofList tyTok ++ "`"))
  | _ => .error (.syntaxError lineno "unexpected tokens before `=` in constant")

def parseField (lineno : Nat) (code : Text) : Except ParseError Field :=
  match splitWhitespace code with
  | [] => .error (.syntaxError lineno "empty line after comment strip")
  | [_] => .error (.syntaxError lineno "missing field name")
  | [tyTok, nameTok] =>
    match parseFieldType tyTok with
    | some ty => .ok ⟨nameTok, ty⟩
    | none => .error (.syntaxError lineno
        ("cannot parse field type `" ++ String.ofList tyTok ++ "`"))
  | _ => .error (.syntaxError lineno "unexpected extra tokens in field line")

/-- One line; a later `# TOPICS` line replaces the names of an earlier one. -/
def parseLine (lineno : Nat) (rawLine : Text) (p : Parsed) : Except ParseError Parsed :=
  let trimmed := trim rawLine
  match stripPrefix ['#'] trimmed with
  | some rest =>
    match stripPrefix "TOPICS".toList (trim rest) with
    | some list =>
      let names := splitWhitespace list
      if names = [] then
        .error (.syntaxError lineno "`# TOPICS` directive with no names")
      else .ok { p with topics := some names }
    | none => .ok p
  | none =>
    let code := match splitOnce '#' trimmed with
      | some (before, _) => trim before
      | none => trimmed
    if code = [] then .ok p
    else
      match splitOnce '=' code with
      | some (lhs, rhs) => do
        let c ← parseConstant lineno lhs rhs
        .ok { p with constants := p.constants ++ [c] }
      | none => do
        let f ← parseField lineno code
        .ok { p with fields := p.fields ++ [f] }

def parseLines (lineno : Nat) (p : Parsed) : List Text → Except ParseError Parsed
  | [] => .ok p
  | l :: ls => do
    let p ← parseLine lineno l p
    parseLines (lineno + 1) p ls

def parseStr (name text : Text) : Except ParseError MsgDef := do
  let p ← parseLines 1 ⟨[], [], none⟩ (lines text)
  let snakeName := camelToSnake name
  .ok
    { name, snakeName
      fields := p.fields
      constants := p.constants
      topics := p.topics.getD [snakeName]
      messageVersion :=
        (p.constants.find? fun c => c.name = "MESSAGE_VERSION".toList).bind fun c =>
          parseUnsigned 32 (trim c.value) }

theorem parseStr_name {name text : Text} {d : MsgDef} (h : parseStr name text = .ok d) :
    d.name = name := by
  simp only [parseStr] at h
  cases hp : parseLines 1 ⟨[], [], none⟩ (lines text) with
  | error e => simp [hp, bind, Except.bind] at h
  | ok p =>
    simp only [hp, bind, Except.bind, Except.ok.injEq] at h
    rw [← h]

end Px4Rs.Parser
