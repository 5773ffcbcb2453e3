import Jukebox.Text.Basic

/-!
Paths of files. A path is a sequence of components: runs of separators count as one, and a single
point names nothing except at the start of a relative path. Two paths with the same components are
the same, however they are written.
-/

set_option autoImplicit false

namespace Jukebox.Path

/-- What paths are written in: characters, or bytes that need not be characters. -/
class Alphabet (α : Type) where
  slash : α
  dot : α
  slash_ne_dot : slash ≠ dot

export Alphabet (slash dot slash_ne_dot)

instance alphabetChar : Alphabet Char := ⟨'/', '.', by decide⟩

instance alphabetUInt8 : Alphabet UInt8 := ⟨0x2F, 0x2E, by decide⟩

inductive Lead where
  | root
  | here
  | nothing
  deriving DecidableEq, Repr

inductive Component (α : Type) where
  | lead (l : Lead)
  | up
  | name (n : List α)
  deriving DecidableEq, Repr

/-- A path cut at its separators. -/
structure Shape (α : Type) where
  lead : Lead
  pieces : List (List α)
  deriving DecidableEq, Repr

variable {α : Type} [DecidableEq α] [Alphabet α]

def Lead.text : Lead → List α
  | .root => [slash]
  | .here => [dot]
  | .nothing => []

def leadOf (part : List α) : Lead :=
  if part = [] then .root else if part = [dot] then .here else .nothing

def opening (part : List α) : List (List α) :=
  if part = [] then [] else if part = [dot] then [[]] else [part]

def ofParts : List (List α) → Shape α
  | [] => ⟨.nothing, []⟩
  | p :: ps => if p = [] ∧ ps = [] then ⟨.nothing, [[]]⟩ else ⟨leadOf p, opening p ++ ps⟩

def shape (p : List α) : Shape α := ofParts (p.splitOn slash)

def Shape.text (s : Shape α) : List α := s.lead.text ++ [slash].intercalate s.pieces

def idle (piece : List α) : Bool := piece.isEmpty || piece == [dot]

def component (piece : List α) : Component α := if piece = [dot, dot] then .up else .name piece

def Shape.names (s : Shape α) : List (List α) := s.pieces.filter (!idle ·)

def Shape.components (s : Shape α) : List (Component α) :=
  (match s.lead with
    | .nothing => []
    | l => [.lead l]) ++ s.names.map component

def components (p : List α) : List (Component α) := (shape p).components

def same (p q : List α) : Bool := components p == components q

def isAbsolute (p : List α) : Bool := p.head? == some slash

def join (p q : List α) : List α :=
  if isAbsolute q then q
  else if p.isEmpty || p.getLast? == some slash then p ++ q
  else p ++ slash :: q

def trimEnd (pieces : List (List α)) : List (List α) := (pieces.reverse.dropWhile idle).reverse

/-- The paths that a path lies in, from the inside out: each leaves out one component more. The
pieces are given from the last one on. -/
def parentsFrom (lead : Lead) : List (List α) → List (List α)
  | [] => if lead = .here then [[]] else []
  | p :: ps =>
    if idle p then parentsFrom lead ps
    else Shape.text ⟨lead, (ps.dropWhile idle).reverse⟩ :: parentsFrom lead ps

/-- The root and the empty path lie in nothing. -/
def parents (p : List α) : List (List α) := parentsFrom (shape p).lead (shape p).pieces.reverse

def parent? (p : List α) : Option (List α) := (parents p).head?

def afterNames? : List (List α) → List (List α) → Option (List (List α))
  | [], ps => some ps
  | n :: ns, ps => match ps.dropWhile idle with
    | [] => none
    | q :: qs => if q = n then afterNames? ns qs else none

def relativeTo? (base p : List α) : Option (List α) :=
  let b := shape base
  let s := shape p
  if b.components = [] then some (Shape.text ⟨s.lead, trimEnd s.pieces⟩)
  else if b.lead ≠ s.lead then none
  else (afterNames? b.names s.pieces).map fun ps =>
    [slash].intercalate (trimEnd (ps.dropWhile idle))

end Jukebox.Path
