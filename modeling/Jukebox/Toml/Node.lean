import Jukebox.Toml

/-!
A TOML document as far as it is read. A table remembers how it came about, since that decides who
may still add to it.
-/

set_option autoImplicit false

namespace Jukebox.Toml

inductive TableKind where
  | opened
  /-- Named on the way to a header further down. -/
  | implied
  | dotted
  | inline
  deriving DecidableEq, Repr

inductive Node where
  | text (t : Text)
  | boolean (b : Bool)
  | number (fits : Bool)
  | moment
  | array (items : List Node)
  /-- The tables that headers in double brackets have opened, the first one first. -/
  | tables (front : List Node) (last : Node)
  | table (kind : TableKind) (entries : List (Text × Node))

mutual

def Node.value : Node → Value
  | .text t => .text t
  | .boolean b => .boolean b
  | .number b => .number b
  | .moment => .moment
  | .array items => .array (values items)
  | .tables front last => .array (values front ++ [last.value])
  | .table _ entries => .table (valueEntries entries)

def values : List Node → List Value
  | [] => []
  | n :: ns => n.value :: values ns

def valueEntries : List (Text × Node) → List (Text × Value)
  | [] => []
  | (key, n) :: es => (key, n.value) :: valueEntries es

end

structure Branch where
  kind : TableKind
  entries : List (Text × Node)

namespace Branch

def empty (kind : TableKind) : Branch := ⟨kind, []⟩

def node (b : Branch) : Node := .table b.kind b.entries

def table (b : Branch) : Table := ⟨valueEntries b.entries⟩

def get? (t : Branch) (key : Text) : Option Node := t.entries.lookup key

def erase (t : Branch) (key : Text) : Branch :=
  { t with entries := t.entries.filter (·.1 ≠ key) }

def put (t : Branch) (key : Text) (v : Node) : Branch :=
  { t with entries := (t.erase key).entries ++ [(key, v)] }

/-- Changes the table at the end of a path of headers. Tables that are missing on the way are
implied, and of several tables under one key the last is meant. -/
def descend : List Text → (Branch → Option Branch) → Branch → Option Branch
  | [], change, t => change t
  | k :: ks, change, t => match t.get? k with
    | none => (descend ks change (empty .implied)).map fun u => t.put k u.node
    | some (.table .inline _) => none
    | some (.table kind es) => (descend ks change ⟨kind, es⟩).map fun u => t.put k u.node
    | some (.tables front (.table kind es)) =>
      (descend ks change ⟨kind, es⟩).map fun u => t.put k (.tables front u.node)
    | some _ => none

def define (key : Text) (v : Node) (t : Branch) : Option Branch :=
  match t.get? key with
  | none => some (t.put key v)
  | some _ => none

/-- Sets a new key below a path of dotted keys. Such a path makes its tables itself, and cannot
reach into one that a header has opened. -/
def assignBelow : List Text → Text → Node → Branch → Option Branch
  | [], key, v, t => if t.kind = .dotted then t.define key v else none
  | k :: ks, key, v, t => match t.get? k with
    | none => (assignBelow ks key v (empty .dotted)).map fun u => t.put k u.node
    | some (.table .opened _) | some (.table .inline _) => none
    | some (.table kind es) => (assignBelow ks key v ⟨kind, es⟩).map fun u => t.put k u.node
    | some (.tables front (.table kind es)) =>
      (assignBelow ks key v ⟨kind, es⟩).map fun u => t.put k (.tables front u.node)
    | some _ => none

def assign : List Text → Node → Branch → Option Branch
  | [], _, _ => none
  | [key], v, t => t.define key v
  | k :: ks, v, t => assignBelow ((k :: ks).dropLast) ((k :: ks).getLast (by simp)) v t

def openKey (key : Text) (t : Branch) : Option Branch :=
  match t.get? key with
  | none => some (t.put key (empty .opened).node)
  | some (.table .implied es) => some (t.put key (.table .opened es))
  | some _ => none

def openNext (key : Text) (t : Branch) : Option Branch :=
  match t.get? key with
  | none => some (t.put key (.tables [] (empty .opened).node))
  | some (.tables front last) => some (t.put key (.tables (front ++ [last]) (empty .opened).node))
  | some _ => none

end Branch

end Jukebox.Toml
