import Jukebox.Proofs.Lexeme.Reading
import Jukebox.Proofs.Query.Grammar

set_option autoImplicit false

namespace Jukebox

open Lexeme

def Writable (names : List Text) : Prop := names ≠ [] ∧ ∀ n ∈ names, IsName n

theorem Writable.single {c : Char} (h : isNameChar c) : Writable [[c]] :=
  ⟨List.cons_ne_nil _ _, fun _ hn => List.mem_singleton.1 hn ▸ .single h⟩

structure Selection.WellFormed (s : Selection) : Prop where
  titles : Writable s.titles
  albums : ∀ names, s.albums = some names → Writable names
  artists : ∀ names, s.artists = some names → Writable names
  ordered : s.ordered → s.albums ≠ none

def Query.WellFormed : Query → Prop
  | .last s => s.WellFormed
  | .link s _ rest => s.WellFormed ∧ rest.WellFormed

namespace Grammar

/-- The lexemes that the lexer makes: each name has the shape of a name. -/
def Named (ls : List Lexeme) : Prop := ∀ l ∈ ls, l.kind = .name → IsName l.text

theorem Named.left {ls ms : List Lexeme} (h : Named (ls ++ ms)) : Named ls :=
  fun l hl => h l (List.mem_append_left ms hl)

theorem Named.right {ls ms : List Lexeme} (h : Named (ls ++ ms)) : Named ms :=
  fun l hl => h l (List.mem_append_right ls hl)

theorem Named.tail {l : Lexeme} {ls : List Lexeme} (h : Named (l :: ls)) : Named ls :=
  fun m hm => h m (List.mem_cons_of_mem l hm)

theorem Names.writable {ls : List Lexeme} {ns : List Text} (h : Names ls ns) (hn : Named ls) :
    Writable ns := by
  induction h with
  | @one l hl =>
    refine ⟨by simp, fun n hm => ?_⟩
    rw [List.mem_singleton.1 hm]
    exact hn l List.mem_cons_self hl
  | @more l c ls ns hl _ _ ih =>
    refine ⟨by simp, fun n hm => ?_⟩
    cases hm with
    | head => exact hn l List.mem_cons_self hl
    | tail _ hm => exact (ih hn.tail.tail).2 n hm

theorem OnAlbums.writable {ls : List Lexeme} {ns : List Text} {ordered : Bool}
    (h : OnAlbums ls ns ordered) (hn : Named ls) : Writable ns := by
  obtain ⟨-, h, -⟩ := h
  exact h.writable hn.left.tail

theorem ByArtists.writable {ls : List Lexeme} {ns : List Text} (h : ByArtists ls ns)
    (hn : Named ls) : Writable ns := by
  obtain ⟨-, h⟩ := h
  exact h.writable hn.tail

theorem Titles.writable {next ts : List Lexeme} {ns : List Text} (h : Titles next ts ns)
    (hn : Named ts) : Writable ns := by
  cases h with
  | listed h => exact h.writable hn
  | implied => exact .single (by decide)

theorem forall_eq_some {names : List Text} (h : Writable names) :
    ∀ ns, some names = some ns → Writable ns := by
  intro ns he
  cases he
  exact h

theorem Clauses.writable {cs : List Lexeme} {albums artists : Option (List Text)} {ordered : Bool}
    (h : Clauses cs albums ordered artists) (hn : Named cs) :
    (∀ ns, albums = some ns → Writable ns) ∧ (∀ ns, artists = some ns → Writable ns) ∧
      (ordered → albums ≠ none) := by
  cases h with
  | neither => exact ⟨nofun, nofun, nofun⟩
  | albums h => exact ⟨forall_eq_some (h.writable hn), nofun, by simp⟩
  | albumsArtists h h' =>
    exact ⟨forall_eq_some (h.writable hn.left), forall_eq_some (h'.writable hn.right), by simp⟩
  | artists h' => exact ⟨nofun, forall_eq_some (h'.writable hn), nofun⟩
  | artistsAlbums h' h =>
    exact ⟨forall_eq_some (h.writable hn.right), forall_eq_some (h'.writable hn.left), by simp⟩

theorem Selects.wellFormed {next ls : List Lexeme} {s : Selection} (h : Selects next ls s)
    (hn : Named ls) : s.WellFormed := by
  obtain ⟨ht, hc, -⟩ := h
  obtain ⟨halbums, hartists, hordered⟩ := hc.writable hn.left.right
  exact ⟨ht.writable hn.left.left, halbums, hartists, hordered⟩

theorem Derives.wellFormed {ls : List Lexeme} {q : Query} (h : Derives ls q) (hn : Named ls) :
    q.WellFormed := by
  induction h with
  | last h => exact h.wellFormed hn
  | link h _ _ ih => exact ⟨h.wellFormed hn.left, ih hn.right.tail⟩

end Grammar

theorem Query.wellFormed_of_parse {t : Text} {q : Query} (h : parse t = .ok q) : q.WellFormed :=
  (derives_of_parse h).wellFormed fun _ hl => isName_of_mem_scan hl

end Jukebox
