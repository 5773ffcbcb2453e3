import Jukebox.Toml.Moment
import Jukebox.Toml.Node
import Jukebox.Toml.Number
import Jukebox.Toml.Quoted

/-!
Reads a TOML file. Each reader takes its part off the front of the text and gives the rest; the
whole is read or refused.
-/

set_option autoImplicit false

namespace Jukebox.Toml

/-- Arrays and tables in braces may be nested this deep, and this many keys may be dotted. -/
def maxDepth : Nat := 80

def key? : Text → Option (Text × Text)
  | '"' :: t => basic? t
  | '\'' :: t => literal? t
  | t =>
    let bare := t.takeWhile isBareChar
    if bare.isEmpty then none else some (bare, t.dropWhile isBareChar)

def keys? : Nat → Text → Option (List Text × Text)
  | 0, _ => none
  | n + 1, t => do
    let (k, rest) ← key? t
    match skipSpace rest with
    | '.' :: rest => do
      let (ks, rest) ← keys? n (skipSpace rest)
      return (k :: ks, rest)
    | rest => return ([k], rest)

def keyPath? (t : Text) : Option (List Text × Text) := keys? maxDepth t

def isScalarChar (c : Char) : Bool :=
  c.isAlphanum || c == '_' || c == '-' || c == '+' || c == '.' || c == ':'

def scalar? (t : Text) : Option Node :=
  if t = "true".toList then some (.boolean true)
  else if t = "false".toList then some (.boolean false)
  else if isMoment t then some .moment
  else (number? t).map .number

def bare? (t : Text) : Option (Node × Text) :=
  let word := t.takeWhile isScalarChar
  let rest := t.dropWhile isScalarChar
  match date? word, rest with
  | some [], ' ' :: c :: more =>
    if c.isDigit then
      let both := word ++ ' ' :: (c :: more).takeWhile isScalarChar
      (scalar? both).map (·, (c :: more).dropWhile isScalarChar)
    else (scalar? word).map (·, rest)
  | _, _ => (scalar? word).map (·, rest)

def items? (item? : Text → Option (Node × Text)) : Nat → Text → Option (List Node × Text)
  | 0, _ => none
  | n + 1, t => match skipGap t with
    | ']' :: rest => some ([], rest)
    | t => do
      let (v, rest) ← item? t
      match skipGap rest with
      | ']' :: rest => return ([v], rest)
      | ',' :: rest => do
        let (vs, rest) ← items? item? n rest
        return (v :: vs, rest)
      | _ => none

def keyValue? (skip : Text → Text) (value? : Text → Option (Node × Text)) (t : Text) :
    Option ((List Text × Node) × Text) := do
  let (path, rest) ← keyPath? t
  match skip rest with
  | '=' :: rest => do
    let (v, rest) ← value? (skip rest)
    return ((path, v), rest)
  | _ => none

def entries? (value? : Text → Option (Node × Text)) :
    Nat → Branch → Text → Option (Branch × Text)
  | 0, _, _ => none
  | n + 1, table, t => match skipGap t with
    | '\x7d' :: rest => some (table, rest)
    | t => do
      let ((path, v), rest) ← keyValue? skipGap value? t
      let table ← table.assign path v
      match skipGap rest with
      | '\x7d' :: rest => return (table, rest)
      | ',' :: rest => entries? value? n table rest
      | _ => none

def value? : Nat → Text → Option (Node × Text)
  | _, '"' :: t => (quoted? ('"' :: t)).map fun (read, rest) => (.text read, rest)
  | _, '\'' :: t => (quoted? ('\'' :: t)).map fun (read, rest) => (.text read, rest)
  | 0, '[' :: _ => none
  | 0, '\x7b' :: _ => none
  | depth + 1, '[' :: t =>
    (items? (value? depth) (t.length + 1) t).map fun (vs, rest) => (.array vs, rest)
  | depth + 1, '\x7b' :: t =>
    (entries? (value? depth) (t.length + 1) (.empty .inline) t).map
      fun (table, rest) => (table.node, rest)
  | _, t => bare? t

structure Document where
  root : Branch
  header : List Text

namespace Document

def empty : Document := ⟨.empty .opened, []⟩

def openHeader (several : Bool) (path : List Text) (d : Document) : Option Document :=
  match path.getLast? with
  | none => none
  | some key => do
    let change := if several then Branch.openNext key else Branch.openKey key
    let root ← d.root.descend path.dropLast change
    return ⟨root, path⟩

def assign (path : List Text) (v : Node) (d : Document) : Option Document := do
  let root ← d.root.descend d.header (·.assign path v)
  return { d with root }

end Document

def header? (d : Document) : Text → Option (Document × Text)
  | '[' :: '[' :: t => do
    match ← keyPath? (skipSpace t) with
    | (path, ']' :: ']' :: rest) => return (← d.openHeader true path, rest)
    | _ => none
  | '[' :: t => do
    match ← keyPath? (skipSpace t) with
    | (path, ']' :: rest) => return (← d.openHeader false path, rest)
    | _ => none
  | _ => none

def expression? (d : Document) (t : Text) : Option (Document × Text) :=
  match t with
  | '[' :: _ => header? d t
  | t => do
    let ((path, v), rest) ← keyValue? skipSpace (value? maxDepth) t
    return (← d.assign path v, rest)

/-- Reads the lines of a file, of which a text of `n` characters has no more than `n`. -/
def lines? : Nat → Document → Text → Option Document
  | 0, d, t => if (skipGap t).isEmpty then some d else none
  | n + 1, d, t => match skipGap t with
    | [] => some d
    | t => do
      let (d, rest) ← expression? d t
      lines? n d (← lineEnd? rest)

def read? (t : Text) : Option Table :=
  let t := if t.head? == some '\uFEFF' then t.tail else t
  (lines? t.length .empty t).map (·.root.table)

end Jukebox.Toml
