import FlowFabric.Decimal.Literal
import FlowFabric.Settings.Basic

/-! A flat mapping in YAML, one `key: value` to a line. Keys without a meaning are ignored, and a
value that is left out stands for the default. -/

namespace FlowFabric

namespace Settings

/-- A value as it stands in the text. Only a plain one can be a number, a truth value or nothing. -/
inductive Scalar where
  | plain (text : List Char)
  | quoted (text : List Char)
deriving DecidableEq

/-- A line of the mapping. -/
structure Entry where
  key : List Char
  value : Scalar

namespace Scalar

/-- Whether the character separates words on a line. -/
def isBlank (c : Char) : Bool := c == ' ' || c == '\t'

/-- The code points that count as white space in Unicode. -/
def isSpace (c : Char) : Bool :=
  let n := c.toNat
  (decide (9 ≤ n) && decide (n ≤ 13)) || n == 0x20 || n == 0x85 || n == 0xA0 || n == 0x1680
    || (decide (0x2000 ≤ n) && decide (n ≤ 0x200A)) || n == 0x2028 || n == 0x2029 || n == 0x202F
    || n == 0x205F || n == 0x3000

/-- A text without the blanks at its end. -/
def trimEnd (cs : List Char) : List Char := (cs.reverse.dropWhile isBlank).reverse

/-- Whether nothing but blanks and a comment follows. -/
def endsLine : List Char → Bool
  | [] => true
  | c :: rest => isBlank c && (match (c :: rest).dropWhile isBlank with
    | [] => true
    | d :: _ => d == '#')

/-- The character that stands for an escaped one. -/
def unescape? (c : Char) : Option Char :=
  match c with
  | '"' => some '"'
  | '\\' => some '\\'
  | '/' => some '/'
  | ' ' => some ' '
  | 't' => some '\t'
  | 'n' => some '\n'
  | 'r' => some '\r'
  | '0' => some '\x00'
  | _ => none

/-- Reads up to a closing single quote; two of them stand for one. -/
def single? : List Char → Option (List Char × List Char)
  | [] => none
  | '\'' :: '\'' :: rest => (single? rest).map fun p => ('\'' :: p.1, p.2)
  | '\'' :: rest => some ([], rest)
  | c :: rest => (single? rest).map fun p => (c :: p.1, p.2)

/-- Reads up to a closing double quote. -/
def double? : List Char → Option (List Char × List Char)
  | [] => none
  | '"' :: rest => some ([], rest)
  | '\\' :: c :: rest => do
    let d ← unescape? c
    let p ← double? rest
    return (d :: p.1, p.2)
  | c :: rest => (double? rest).map fun p => (c :: p.1, p.2)

/-- Reads a quoted text, `none` if the first character opens none. -/
def quoted? : List Char → Option (Option (List Char × List Char))
  | '\'' :: rest => some (single? rest)
  | '"' :: rest => some (double? rest)
  | _ => none

/-- Whether a plain text may start like this. The other characters have a meaning of their own. -/
def startsPlain : List Char → Bool
  | [] => true
  | c :: rest =>
    if c == '-' || c == '?' || c == ':' then
      match rest with
      | [] => false
      | d :: _ => !isBlank d
    else !(",[]\x7b\x7d#&*!|>%@\x60'\"".toList.contains c)

/-- Splits a text at the first colon that ends it or has a blank
behind it. A comment hides what follows. -/
def splitColon? : List Char → Option (List Char × List Char)
  | [] => none
  | c :: rest =>
    if c == ':' && (match rest with | [] => true | d :: _ => isBlank d) then some ([], rest)
    else if isBlank c && (match rest with | [] => false | d :: _ => d == '#') then none
    else (splitColon? rest).map fun p => (c :: p.1, p.2)

/-- A text up to a comment. -/
def beforeComment : List Char → List Char
  | [] => []
  | c :: rest =>
    if isBlank c && (match rest with | [] => false | d :: _ => d == '#') then []
      else c :: beforeComment rest

/-- Reads the value that stands behind a colon. -/
def ofChars? (cs : List Char) : Option Scalar :=
  let body := cs.dropWhile isBlank
  match quoted? body with
  | some none => none
  | some (some (text, rest)) => if endsLine rest then some (quoted text) else none
  | none =>
    if body.head? == some '#' then some (plain [])
    else
      -- A plain text that contains a key and its colon would be a mapping inside a value.
      let text := trimEnd (beforeComment body)
      if startsPlain text && (splitColon? text).isNone then some (plain text) else none

def text : Scalar → List Char
  | plain t => t
  | quoted t => t

/-- Whether the value says nothing. -/
def isAbsent : Scalar → Bool
  | plain t => t.isEmpty || t == ['~'] || t == "null".toList
  | quoted _ => false

def bool? : Scalar → Option Bool
  | plain t =>
    if t == "true".toList then some true
    else if t == "false".toList then some false
    else none
  | quoted _ => none

/-- The values that stand for no finite number. -/
def special? {R : Type} [Quantity R] (t : String) : Option R :=
  if t ∈ [".inf", ".Inf", ".INF", "+.inf", "+.Inf", "+.INF"] then some Quantity.infinity
  else if t ∈ ["-.inf", "-.Inf", "-.INF"] then some (0 - Quantity.infinity)
  else if t ∈ [".nan", ".NaN", ".NAN"] then some (Quantity.infinity - Quantity.infinity)
  else none

/-- Whether the text is a number to a reader of whole numbers but not a quantity: too wide for 64
bits while it still fits 128. -/
def isWide (n : Numeral) : Bool :=
  n.whole
    && (if n.negative then decide (Nat.pow 2 63 < n.digits ∧ n.digits ≤ Nat.pow 2 127)
      else decide (Nat.pow 2 64 ≤ n.digits ∧ n.digits < Nat.pow 2 128))

/-- Whether the text is a row of digits with a zero in front, which is no number. -/
def isPadded (t : List Char) : Bool :=
  match t with
  | '0' :: _ :: _ => t.all Char.isDigit
  | _ => false

/-- Reads a quantity. A decimal that is too large to be finite is none. -/
def quantity? {R : Type} [Quantity R] : Scalar → Option R
  | quoted _ => none
  | plain t =>
    match special? (String.ofList t) with
    | some v => some v
    | none =>
      match Numeral.ofChars? t with
      | none => none
      | some n =>
        let v : R := n.value
        -- Padded rows of digits, integers that are too wide and decimals that overflow are texts.
        if isPadded t || isWide n || !Quantity.isFinite v then none else some v

/-- Reads one of a set of names. -/
def name? {α : Type} (ofName? : String → Option α) (s : Scalar) : Option α :=
  ofName? (String.ofList s.text)

/-- Reads a value that may be absent. -/
def optional? {α : Type} (read? : Scalar → Option α) (s : Scalar) : Option (Option α) :=
  if s.isAbsent then some none else (read? s).map some

end Scalar

open Scalar

def splitLines (cs : List Char) : List (List Char) :=
  cs.splitOnP fun c => c == '\n' || c == '\r'

/-- Whether a line holds at most a comment. -/
def isIdle (line : List Char) : Bool :=
  match line.dropWhile isBlank with
  | [] => true
  | c :: _ => c == '#'

/-- Reads a line of the mapping. -/
def Entry.ofLine? (line : List Char) : Option Entry :=
  match quoted? line with
  | some none => none
  | some (some (key, rest)) =>
    match splitColon? (rest.dropWhile isBlank) with
    | some ([], value) => (Scalar.ofChars? value).map fun v => ⟨key, v⟩
    | _ => none
  | none =>
    match splitColon? line with
    | none => none
    | some (key, value) =>
      let key := trimEnd key
      if key.isEmpty || !startsPlain key then none
      else (Scalar.ofChars? value).map fun v => ⟨key, v⟩

def indentation (line : List Char) : Nat := (line.takeWhile (· == ' ')).length

/-- Whether a line says that the document starts. -/
def isOpening (line : List Char) : Bool :=
  line.take 3 == "---".toList && endsLine (line.drop 3)

/-- Whether a line is the mapping without entries. -/
def isEmptyMapping (line : List Char) : Bool :=
  match line.dropWhile isBlank with
  | '\x7b' :: rest =>
    match rest.dropWhile isBlank with
    | '\x7d' :: tail => endsLine tail
    | _ => false
  | _ => false

/-- The lines that say something, behind the one that opens the document. -/
def contentLines (cs : List Char) : List (List Char) :=
  match (splitLines cs).filter fun l => !isIdle l with
  | [] => []
  | l :: rest => if isOpening l then rest else l :: rest

/-- Reads the entries of a text. All of them start in the same column. -/
def entries? (cs : List Char) : Option (List Entry) :=
  match contentLines cs with
  | [] => none
  | l :: rest =>
    if rest.isEmpty && isEmptyMapping l then some []
    else if rest.all fun m => indentation m == indentation l then
      (l :: rest).mapM fun m => Entry.ofLine? (m.drop (indentation l))
    else none

/-- The value of a key, `none` if the key occurs twice. -/
def lookup? (entries : List Entry) (key : String) : Option Scalar :=
  match entries.filter fun e => e.key == key.toList with
  | [] => some (plain [])
  | [e] => some e.value
  | _ => none

/-- Reads the value of a key that may be absent. -/
def field? {α : Type} (entries : List Entry) (read? : Scalar → Option α) (key : String) :
    Option (Option α) :=
  (lookup? entries key).bind (optional? read?)

variable {R : Type} [Quantity R]

def ofEntries? (entries : List Entry) : Option (Settings R) := do
  let base : Settings R := Settings.default
  let minInterval ← field? entries quantity? "min_time_between_events"
  let monitoringInterval ← field? entries quantity? "monitoring_interval"
  let dynamicRouting ← field? entries bool? "dynamic_routing"
  let discipline ← field? entries (name? Discipline.ofName?) "packet_scheduler"
  let selection ← field? entries (name? SelectionRule.ofName?) "link_selection"
  let timeout ← field? entries quantity? "transmission_timeout"
  let fabric ← field? entries (name? FabricKind.ofName?) "topology"
  return {
    minInterval := minInterval.getD base.minInterval
    monitoringInterval := monitoringInterval.getD base.monitoringInterval
    dynamicRouting := dynamicRouting.getD base.dynamicRouting
    discipline := discipline.getD base.discipline
    selection := selection.getD base.selection
    timeout := timeout
    fabric := fabric.getD base.fabric }

/-- Reads settings. A text of white space alone gives the defaults. -/
def ofText (text : String) : Except SettingsFault (Settings R) :=
  let cs := text.toList
  if cs.all isSpace then check Settings.default
  else
    match (entries? cs).bind ofEntries? with
    | some s => check s
    | none => .error .malformed

/-- Reads settings from the contents of a file, if there is one. -/
def ofFile : Option String → Except SettingsFault (Settings R)
  | some text => ofText text
  | none => .error .unreadable

end Settings

end FlowFabric
