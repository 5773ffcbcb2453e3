import Jukebox.Text.Basic

set_option autoImplicit false

namespace Jukebox

inductive Keyword where
  | and
  | or
  | onAlbums
  | byArtists
  | ordered
  | shuffle
  deriving DecidableEq, Repr

namespace Keyword

def word : Keyword → String
  | .and => "and"
  | .or => "or"
  | .onAlbums => "on"
  | .byArtists => "by"
  | .ordered => "ordered"
  | .shuffle => "shuffle"

def text (k : Keyword) : Text := k.word.toList

def all : List Keyword := [.and, .byArtists, .onAlbums, .or, .ordered, .shuffle]

theorem mem_all (k : Keyword) : k ∈ all := by cases k <;> decide

theorem text_ne_nil (k : Keyword) : k.text ≠ [] := by cases k <;> decide

theorem text_injective {k l : Keyword} (h : k.text = l.text) : k = l := by
  revert h; cases k <;> cases l <;> decide

def ofText? (t : Text) : Option Keyword := all.find? (·.text = t)

theorem ofText?_text (k : Keyword) : ofText? k.text = some k := by cases k <;> decide

def startingWith (start : Text) : List Text := (all.map text).filter (Text.startsWith start)

end Keyword

inductive Kind where
  | name
  | keyword (k : Keyword)
  | comma
  | invalid
  deriving DecidableEq, Repr

namespace Kind

def rank : Kind → Nat
  | .name => 0
  | .keyword .and => 1
  | .keyword .or => 2
  | .keyword .onAlbums => 3
  | .keyword .byArtists => 4
  | .keyword .ordered => 5
  | .keyword .shuffle => 6
  | .comma => 7
  | .invalid => 8

theorem rank_injective {k l : Kind} (h : k.rank = l.rank) : k = l := by
  revert h
  rcases k with _ | (_ | _ | _ | _ | _ | _) | _ | _ <;>
    rcases l with _ | (_ | _ | _ | _ | _ | _) | _ | _ <;> decide

def all : List Kind :=
  [.name, .keyword .and, .keyword .or, .keyword .onAlbums, .keyword .byArtists, .keyword .ordered,
    .keyword .shuffle, .comma, .invalid]

theorem mem_all (k : Kind) : k ∈ all := by
  rcases k with _ | (_ | _ | _ | _ | _ | _) | _ | _ <;> decide

def text : Kind → Text
  | .name => "name".toList
  | .keyword k => k.text
  | .comma => "','".toList
  | .invalid => "invalid lexeme".toList

def isKeyword : Kind → Bool
  | .keyword _ => true
  | _ => false

end Kind

structure Lexeme where
  kind : Kind
  text : Text
  /-- The byte at which the lexeme starts, an escaping colon included. -/
  column : Nat
  deriving DecidableEq, Repr

def Lexeme.describe (l : Lexeme) : Text :=
  match l.kind with
  | .name => "unexpected name: '".toList ++ l.text ++ ['\'']
  | .invalid => "invalid lexeme: '".toList ++ l.text ++ ['\'']
  | .comma => "unexpected ','".toList
  | .keyword _ => "unexpected '".toList ++ l.text ++ ['\'']

end Jukebox
