import Jukebox.Lexeme.Lexer
import Jukebox.Query
import Jukebox.Query.Error
import Jukebox.Stream

/-!
Reads a query by recursive descent over a stream of lexemes. Besides the query the parser keeps
what kind of word the text ends in, which is known for a text that is no query too.
-/

set_option autoImplicit false

namespace Jukebox

inductive NameList where
  | titles
  | albums
  | artists
  deriving DecidableEq, Repr

inductive WordClass where
  | keyword
  | name (list : NameList)
  deriving DecidableEq, Repr

structure Cursor where
  word : WordClass
  lexeme : Option Lexeme
  deriving DecidableEq, Repr

def Cursor.typed (c : Cursor) : Option Text := c.lexeme.map Lexeme.text

structure Parser where
  stream : Stream Lexeme
  /-- The kinds that were asked for in vain since a lexeme was taken last. -/
  expected : List Kind
  cursor : Cursor
  deriving DecidableEq, Repr

inductive Stop where
  | failed (e : ParseError)
  /-- Where no parser comes to, for want of fuel or in front of a lexeme that it has accepted. -/
  | unreachable
  deriving DecidableEq, Repr

abbrev Parsing := ExceptT Stop (StateM Parser)

namespace Parser

def ofLexemes (ls : List Lexeme) : Parser := ⟨.ofList ls, [], ⟨.keyword, none⟩⟩

def onStream {α : Type} (f : Stream Lexeme → α × Stream Lexeme) : Parsing α :=
  modifyGet fun p => ((f p.stream).1, { p with stream := (f p.stream).2 })

def enter (word : WordClass) : Parsing Unit := modify fun p => { p with cursor := ⟨word, none⟩ }

def clear : Parsing Unit := modify fun p => { p with expected := [] }

def ask (kinds : List Kind) : Parsing Unit :=
  modify fun p => { p with expected := p.expected ++ kinds }

def fail {α : Type} (error : List Kind → ParseError) : Parsing α := do
  let p ← get
  clear
  throw (.failed (error p.expected))

/-- Takes the next lexeme if it is of one of the kinds. A name that is not, where a keyword may
stand, is the start of one. -/
def accept (kinds : List Kind) : Parsing (Option Lexeme) := do
  match ← onStream Stream.peekOne with
  | none => return none
  | some l =>
    if l.kind ∈ kinds then
      onStream fun s => ((), s.consume 1)
      clear
      return some l
    else
      ask kinds
      if l.kind = .name ∧ kinds.any Kind.isKeyword then
        modify fun p => { p with cursor := ⟨.keyword, some l⟩ }
      return none

def expect (kinds : List Kind) : Parsing Lexeme := do
  ask kinds
  match ← onStream Stream.next with
  | none => fail .endOfText
  | some l =>
    if l.kind ∈ kinds then
      clear
      return l
    else fail (.unexpected l)

/-- Goes on with a list of names, of which some were read. The walk stops in front of the first
lexeme that does not belong to the list. -/
def moreNames (list : NameList) : Nat → Stream.Walk Lexeme → Bool → List Text → Parsing (List Text)
  | 0, _, _, _ => throw .unreachable
  | fuel + 1, walk, wanted, names => do
    let (item, walk) := walk.next
    modify fun p => { p with stream := walk.stream }
    match wanted, item with
    | true, some l =>
      if l.kind = .name then
        modify fun p => { p with expected := [], cursor := ⟨.name list, some l⟩ }
        moreNames list fuel walk false (names ++ [l.text])
      else
        ask [.name]
        fail (.unexpected l)
    | false, some l =>
      if l.kind = .comma then
        modify fun p => { p with expected := [], cursor := ⟨.name list, none⟩ }
        moreNames list fuel walk true names
      else
        ask [.comma]
        return names
    | true, none =>
      ask [.name]
      fail .endOfText
    | false, none => return names

def nameList (list : NameList) : Parsing (List Text) := do
  let p ← get
  moreNames list (p.stream.toList.length + 1) p.stream.walk true []

def flag (k : Keyword) (set : Selection → Selection) (s : Selection) : Parsing Selection := do
  match ← accept [.keyword k] with
  | some _ =>
    enter .keyword
    return set s
  | none => return s

def optional (names : Option (List Text)) (k : Keyword) (clause : Selection → Parsing Selection)
    (s : Selection) : Parsing Selection := do
  if names.isNone then
    match ← accept [.keyword k] with
    | some _ => clause s
    | none => return s
  else return s

mutual

def onClause : Nat → Selection → Parsing Selection
  | 0, _ => throw .unreachable
  | fuel + 1, s => do
    enter (.name .albums)
    let names ← nameList .albums
    let s ← flag .ordered (fun s => { s with ordered := true }) { s with albums := some names }
    optional s.artists .byArtists (byClause fuel) s

def byClause : Nat → Selection → Parsing Selection
  | 0, _ => throw .unreachable
  | fuel + 1, s => do
    enter (.name .artists)
    let names ← nameList .artists
    optional s.albums .onAlbums (onClause fuel) { s with artists := some names }

end

/-- The titles of a selection. One that starts with `on` or `by` takes tracks of any title. -/
def titles : Parsing (List Text) := do
  let first ← onStream Stream.peekOne
  match first.map Lexeme.kind with
  | some (.keyword .onAlbums) | some (.keyword .byArtists) => return [matchAll]
  | _ => nameList .titles

/-- At most two clauses follow the titles, as neither comes twice. -/
def clauses (s : Selection) : Parsing Selection := do
  match (← accept [.keyword .onAlbums, .keyword .byArtists]).map Lexeme.kind with
  | some (.keyword .onAlbums) => onClause 2 s
  | some (.keyword .byArtists) => byClause 2 s
  | _ => return s

def linked (rest : Parsing Query) (s : Selection) : Parsing Query := do
  match (← accept [.keyword .and, .keyword .or]).map Lexeme.kind with
  | some (.keyword .and) =>
    enter (.name .titles)
    return .link s .and (← rest)
  | some (.keyword .or) =>
    enter (.name .titles)
    return .link s .or (← rest)
  | _ => return .last s

def query : Nat → Parsing Query
  | 0 => throw .unreachable
  | fuel + 1 => do
    let names ← titles
    let s ← clauses (.ofTitles names)
    let s ← flag .shuffle (fun s => { s with shuffle := true }) s
    linked (query fuel) s

def whole : Parsing Query := do
  let p ← get
  let q ← query (p.stream.toList.length + 1)
  if ← onStream Stream.isExhausted then return q
  let _ ← expect [.keyword .and, .keyword .or]
  throw .unreachable

end Parser

namespace Query

def parsed (ls : List Lexeme) : Except Stop Query × Parser := Parser.whole.run (.ofLexemes ls)

def ofLexemes (ls : List Lexeme) : Except ParseError Query :=
  (parsed ls).1.mapError fun
    | .failed e => e
    | .unreachable => ⟨none, [], none⟩

def parse (t : Text) : Except ParseError Query :=
  (ofLexemes t.lexemes).mapError fun e => { e with source := some t }

def cursor (t : Text) : Cursor := (parsed t.lexemes).2.cursor

end Query

instance decidableEqExcept {ε α : Type} [DecidableEq ε] [DecidableEq α] :
    DecidableEq (Except ε α)
  | .ok a, .ok b => decidable_of_iff (a = b) ⟨congrArg _, Except.ok.inj⟩
  | .error d, .error e => decidable_of_iff (d = e) ⟨congrArg _, Except.error.inj⟩
  | .ok _, .error _ => isFalse nofun
  | .error _, .ok _ => isFalse nofun

end Jukebox
