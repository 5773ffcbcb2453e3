import Jukebox.Proofs.Query.Steps
import Jukebox.Proofs.Stream

/-!
The descent reads what the reader of places reads. While it goes down through the clauses of a
selection it asks, kind by kind, for all that its place expects.
-/

set_option autoImplicit false

namespace Jukebox

open Place

theorem ParseError.mem_kindSet {k : Kind} {ks : List Kind} : k ∈ kindSet ks ↔ k ∈ ks := by
  simp [kindSet, k.mem_all]

theorem ParseError.unexpected_congr {l : Lexeme} {ks ms : List Kind} (h : ∀ k, k ∈ ks ↔ k ∈ ms) :
    unexpected l ks = unexpected l ms := by
  simp only [unexpected, kindSet, h]

namespace Parser

def left (st : Parser) : List Lexeme := st.stream.toList

theorem peekOne_left (st : Parser) : st.stream.peekOne.1 = st.left.head? := st.stream.peekOne_eq.1

section Binding

variable {α β : Type} {m : Parsing α} {f : α → Parsing β} {st st' : Parser}

theorem run_bind : (m >>= f).run st = ExceptT.bindCont f (m.run st).1 (m.run st).2 := rfl

theorem bind_ok {a : α} (h : m.run st = (.ok a, st')) : (m >>= f).run st = (f a).run st' := by
  rw [run_bind, h]
  rfl

theorem bind_error {e : Stop} (h : m.run st = (.error e, st')) :
    (m >>= f).run st = (.error e, st') := by
  rw [run_bind, h]
  rfl

theorem run_onStream (g : Stream Lexeme → α × Stream Lexeme) :
    (onStream g).run st = (.ok (g st.stream).1, { st with stream := (g st.stream).2 }) := rfl

end Binding

variable {n : Nat} {st : Parser} {l : Lexeme} {ls : List Lexeme} {ks pending : List Kind}

theorem accept_take (hleft : st.left = l :: ls) (hl : l.kind ∈ ks) :
    ∃ st', (accept ks).run st = (.ok (some l), st') ∧ st'.left = ls ∧ st'.expected = [] := by
  refine ⟨⟨st.stream.peekOne.2.consume 1, [], st.cursor⟩, ?_, ?_, rfl⟩
  · rw [accept, bind_ok (run_onStream _), peekOne_left, hleft, List.head?_cons]
    simp only [if_pos hl]
    rfl
  · rw [left, st.stream.toList_consume_peekOne]
    exact congrArg List.tail hleft

theorem accept_leave (hleft : st.left = l :: ls) (hl : l.kind ∉ ks) :
    ∃ st', (accept ks).run st = (.ok none, st') ∧ st'.left = l :: ls ∧
      st'.expected = st.expected ++ ks ∧
      st'.cursor =
        if l.kind = .name ∧ ks.any Kind.isKeyword then ⟨.keyword, some l⟩ else st.cursor := by
  have hrest : st.stream.peekOne.2.toList = l :: ls := st.stream.toList_peekOne.trans hleft
  rw [accept, bind_ok (run_onStream _), peekOne_left, hleft, List.head?_cons]
  simp only [if_neg hl]
  by_cases hname : l.kind = .name ∧ ks.any Kind.isKeyword
  · simp only [if_pos hname]
    exact ⟨_, rfl, hrest, rfl, rfl⟩
  · simp only [if_neg hname]
    exact ⟨_, rfl, hrest, rfl, rfl⟩

theorem accept_nil (ks : List Kind) (hleft : st.left = []) :
    ∃ st', (accept ks).run st = (.ok none, st') ∧ st'.left = [] ∧ st'.cursor = st.cursor := by
  rw [accept, bind_ok (run_onStream _), peekOne_left, hleft, List.head?_nil]
  exact ⟨_, rfl, st.stream.toList_peekOne.trans hleft, rfl⟩

/-- A parser behind the part of a selection that the place tells of. In front of a lexeme it has
asked in vain for all that the place expects but the kinds which are pending. -/
structure At (n : Nat) (p : Place) (s : Selection) (pending : List Kind) (st : Parser) : Prop where
  mayEnd : p.mayEnd
  short : st.left.length ≤ n
  asked : ∀ l ∈ st.left.head?, ∀ k, k ∈ p.expected s ↔ k ∈ st.expected ∨ k ∈ pending
  refused : ∀ l ∈ st.left.head?, l.kind ∉ st.expected
  cursor : (∀ l ∈ st.left.head?, l.kind ≠ .name) → st.cursor = p.cursor

variable {p : Place} {s : Selection}

theorem At.follow (h : At n p s pending st) (hleft : st.left = l :: ls) {k : Keyword}
    (hl : l.kind = .keyword k) (hk : .keyword k ∈ pending) : p.move s l = follow s k := by
  rw [move_keyword hl h.mayEnd, if_pos]
  exact (h.asked l (by simp [hleft]) _).2 (.inr hk)

/-- Either the next lexeme is taken, or the kinds are not pending any more. A name that is left
there is noticed as the start of a keyword. -/
theorem At.accept (ks : List Kind) (h : At n p s (ks ++ pending) st) (hks : ks.any Kind.isKeyword) :
    (∃ l ls st', st.left = l :: ls ∧ l.kind ∈ ks ∧ (accept ks).run st = (.ok (some l), st') ∧
      st'.left = ls ∧ st'.expected = []) ∨
    ∃ st', (accept ks).run st = (.ok none, st') ∧ st'.left = st.left ∧ At n p s pending st' ∧
      (∀ l ∈ st.left.head?, l.kind ∉ ks ∧ (l.kind = .name → st'.cursor = ⟨.keyword, some l⟩)) := by
  cases hleft : st.left with
  | nil =>
    obtain ⟨st', hrun, hleft', hcursor⟩ := accept_nil ks hleft
    refine .inr ⟨st', hrun, hleft', ⟨h.mayEnd, ?_, ?_, ?_, fun _ => ?_⟩, nofun⟩
    · simp [hleft']
    · simp [hleft']
    · simp [hleft']
    · rw [hcursor, h.cursor (by simp [hleft])]
  | cons l ls =>
    have hhead : l ∈ st.left.head? := by simp [hleft]
    by_cases hl : l.kind ∈ ks
    · obtain ⟨st', hrun, hleft', hexpected⟩ := accept_take hleft hl
      exact .inl ⟨l, ls, st', rfl, hl, hrun, hleft', hexpected⟩
    · obtain ⟨st', hrun, hleft', hexpected, hcursor⟩ := accept_leave hleft hl
      refine .inr ⟨st', hrun, hleft', ⟨h.mayEnd, ?_, ?_, ?_, ?_⟩, ?_⟩
      · rw [hleft', ← hleft]
        exact h.short
      · intro m _ k
        rw [h.asked l hhead k, hexpected, List.mem_append, List.mem_append, or_assoc]
      · rintro m hm
        obtain rfl : l = m := by simpa [hleft'] using hm
        rw [hexpected, List.mem_append]
        exact not_or.2 ⟨h.refused l hhead, hl⟩
      · intro hname
        have hname : l.kind ≠ .name := hname l (by simp [hleft'])
        rw [hcursor, if_neg fun hn => hname hn.1]
        refine h.cursor fun m hm => ?_
        obtain rfl : l = m := by simpa [hleft] using hm
        exact hname
      · rintro m hm
        obtain rfl : l = m := by simpa using hm
        exact ⟨hl, fun hname => by rw [hcursor, if_pos ⟨hname, hks⟩]⟩

/-- What comes of a part of a query that is read from a place on: it gets through to another place,
or fails where the reader of places fails. -/
inductive Outcome {α : Type} (Q : α → Place → Selection → Parser → Prop) (p : Place) (s : Selection)
    (ls : List Lexeme) : Except Stop α × Parser → Prop
  | through {a : α} {st : Parser} {front : List Lexeme} {p' : Place} {s' : Selection}
      (hls : ls = front ++ st.left) (hruns : Runs p s front p' s') (hat : Q a p' s' st) :
      Outcome Q p s ls (.ok a, st)
  | failed {e : ParseError} {st : Parser} (hread : readQuery p s ls = .error e)
      (hcursor : readCursor p s ls = st.cursor) : Outcome Q p s ls (.error (.failed e), st)

/-- What comes of a query that is read from a place on. A lexeme that is left over is one at which
the reader of places stops. -/
inductive Agrees (p : Place) (s : Selection) (ls : List Lexeme) : Except Stop Query × Parser → Prop
  | read {q : Query} {st : Parser} (hleft : st.left = []) (hread : readQuery p s ls = .ok q)
      (hcursor : readCursor p s ls = st.cursor) : Agrees p s ls (.ok q, st)
  | stuck {q : Query} {st : Parser} {l : Lexeme} {rest : List Lexeme} (hleft : st.left = l :: rest)
      (hl : l.kind ∉ [.keyword .and, .keyword .or])
      (hread : readQuery p s ls =
        .error (.unexpected l (st.expected ++ [.keyword .and, .keyword .or])))
      (hcursor : readCursor p s ls = st.cursor) : Agrees p s ls (.ok q, st)
  | failed {e : ParseError} {st : Parser} (hread : readQuery p s ls = .error e)
      (hcursor : readCursor p s ls = st.cursor) : Agrees p s ls (.error (.failed e), st)

section Sequence

variable {α β : Type} {Q : α → Place → Selection → Parser → Prop}
  {R : β → Place → Selection → Parser → Prop} {m : Parsing α} {front : List Lexeme} {p' : Place}
  {s' : Selection}

theorem Outcome.behind {out : Except Stop α × Parser} (hruns : Runs p s front p' s')
    (h : Outcome Q p' s' ls out) : Outcome Q p s (front ++ ls) out := by
  cases h with
  | through hls hruns' hat =>
    exact .through (by rw [hls, List.append_assoc]) (hruns.trans hruns') hat
  | failed hread hcursor =>
    exact .failed ((readQuery_of_runs hruns _).trans hread)
      ((readCursor_of_runs hruns _).trans hcursor)

theorem Outcome.bind_cases {f : α → Parsing β} {P : Except Stop β × Parser → Prop}
    (h : Outcome Q p s ls (m.run st))
    (hok : ∀ a st' front p' s', ls = front ++ st'.left → Runs p s front p' s' → Q a p' s' st' →
      P ((f a).run st'))
    (hfailed : ∀ e st', readQuery p s ls = .error e → readCursor p s ls = st'.cursor →
      P (.error (.failed e), st')) : P ((m >>= f).run st) := by
  generalize hm : m.run st = out at h
  cases h with
  | through hls hruns hat =>
    rw [bind_ok hm]
    exact hok _ _ _ _ _ hls hruns hat
  | failed hread hcursor =>
    rw [bind_error hm]
    exact hfailed _ _ hread hcursor

theorem Outcome.bind {f : α → Parsing β} (h : Outcome Q p s ls (m.run st))
    (hf : ∀ a p' s' st', Q a p' s' st' → Outcome R p' s' st'.left ((f a).run st')) :
    Outcome R p s ls ((m >>= f).run st) := by
  refine h.bind_cases (fun a st' front p' s' hls hruns hat => ?_) fun _ _ => .failed
  rw [hls]
  exact (hf a p' s' st' hat).behind hruns

theorem Agrees.behind {out : Except Stop Query × Parser} (hruns : Runs p s front p' s')
    (h : Agrees p' s' ls out) : Agrees p s (front ++ ls) out := by
  have hquery := readQuery_of_runs hruns ls
  have hword := readCursor_of_runs hruns ls
  cases h with
  | read hleft hread hcursor => exact .read hleft (hquery.trans hread) (hword.trans hcursor)
  | stuck hleft hl hread hcursor =>
    exact .stuck hleft hl (hquery.trans hread) (hword.trans hcursor)
  | failed hread hcursor => exact .failed (hquery.trans hread) (hword.trans hcursor)

theorem Outcome.agrees {f : α → Parsing Query} (h : Outcome Q p s ls (m.run st))
    (hf : ∀ a p' s' st', Q a p' s' st' → Agrees p' s' st'.left ((f a).run st')) :
    Agrees p s ls ((m >>= f).run st) := by
  refine h.bind_cases (fun a st' front p' s' hls hruns hat => ?_) fun _ _ => .failed
  rw [hls]
  exact (hf a p' s' st' hat).behind hruns

end Sequence

/-- Before the next lexeme, nothing but a name of the list can stand at the place. -/
structure Wants (list : NameList) (p : Place) (ls : List Lexeme) : Prop where
  expected : ∀ s, p.expected s = [.name]
  mayEnd : p.mayEnd = false
  step : ∀ l s, l.kind = .name → Step l p s (.named list l) (s.addName l.text list)
  move : ∀ l ∈ ls.head?, l.kind ≠ .name → ∀ s, p.move s l = .fail

theorem wants_wanting (list : NameList) (ls : List Lexeme) : Wants list (.wanting list) ls where
  expected _ := rfl
  mayEnd := rfl
  step _ _ := .name
  move l _ hl s := by cases hk : l.kind <;> simp_all [Place.move, Place.mayEnd]

theorem wants_start {linked : Bool}
    (h : ∀ l ∈ ls.head?, l.kind ≠ .keyword .onAlbums ∧ l.kind ≠ .keyword .byArtists) :
    Wants .titles (.start linked) ls where
  expected _ := rfl
  mayEnd := rfl
  step _ _ := .title
  move l hl hname s := by
    obtain ⟨hon, hby⟩ := h l hl
    rcases hk : l.kind with _ | (_ | _ | _ | _ | _ | _) | _ | _ <;>
      simp_all [Place.move, Place.mayEnd]

theorem Wants.failed {α : Type} {Q : α → Place → Selection → Parser → Prop} {list : NameList}
    (h : Wants list p (l :: ls)) (hl : l.kind ≠ .name) (hcursor : st.cursor = p.cursor) :
    Outcome Q p s (l :: ls) (.error (.failed (.unexpected l [.name])), st) := by
  have hfail := h.move l (by simp) hl s
  refine .failed ?_ ?_
  · rw [readQuery, hfail, h.expected]
  · rw [readCursor, hfail, hcursor, cursorAt, if_neg (by simp [h.mayEnd])]

theorem Wants.ended {α : Type} {Q : α → Place → Selection → Parser → Prop} {list : NameList}
    (h : Wants list p []) (hcursor : st.cursor = p.cursor) :
    Outcome Q p s [] (.error (.failed (.endOfText [.name])), st) := by
  refine .failed ?_ hcursor.symm
  rw [readQuery, if_neg (by simp [h.mayEnd]), h.expected]

section Names

variable {list : NameList} {after : Selection → List Kind} {base : Selection}

theorem At.behind_names {name : Lexeme}
    (hafter : ∀ name s k, k ∈ (Place.named list name).expected s ↔ k = .comma ∨ k ∈ after s)
    (hshort : st.left.length ≤ n) (hcursor : st.cursor = ⟨.name list, some name⟩)
    (hasked : ∀ l ∈ st.left.head?, st.expected = [.comma] ∧ l.kind ≠ .comma) :
    At n (.named list name) s (after s) st := by
  refine ⟨rfl, hshort, fun l hl k => ?_, fun l hl => ?_, fun _ => hcursor⟩
  · rw [hafter, (hasked l hl).1, List.mem_singleton]
  · rw [(hasked l hl).1, List.mem_singleton]
    exact (hasked l hl).2

def Listed (n : Nat) (list : NameList) (after : Selection → List Kind) (base : Selection)
    (names : List Text) (p : Place) (s : Selection) (st : Parser) : Prop :=
  s = base.addNames names list ∧ At n p s (after s) st

theorem moreNames_outcome
    (hafter : ∀ name s k, k ∈ (Place.named list name).expected s ↔ k = .comma ∨ k ∈ after s)
    {fuel : Nat} {w : Stream.Walk Lexeme} {wanted : Bool} {names : List Text} (hw : w.Ahead ls)
    (hfuel : ls.length < fuel) (hshort : ls.length ≤ n) (hnone : st.expected = [])
    (hcursor : st.cursor = p.cursor)
    (hplace : if wanted then Wants list p ls else ∃ name, p = .named list name) :
    Outcome (Listed n list after base) p (base.addNames names list) ls
      ((moreNames list fuel w wanted names).run st) := by
  -- The fuel lasts for the lexemes in front of the walk and for the end of the text.
  induction fuel generalizing w wanted names ls p st with
  | zero => exact absurd hfuel (Nat.not_lt_zero _)
  | succ fuel ih =>
    obtain ⟨hitem, hstream, hahead⟩ := hw.next
    rw [moreNames]
    generalize w.next = next at *
    obtain ⟨item, w⟩ := next
    dsimp only at hitem hstream hahead ⊢
    subst hitem
    have hleft (expected : List Kind) : left ⟨w.stream, expected, st.cursor⟩ = ls := hstream
    cases ls with
    | nil =>
      cases wanted with
      | true =>
        change Outcome _ p _ [] (.error (.failed (.endOfText (st.expected ++ [.name]))), _)
        rw [hnone]
        exact Wants.ended hplace hcursor
      | false =>
        obtain ⟨name, rfl⟩ := hplace
        change Outcome _ _ _ _ (.ok names, ⟨w.stream, st.expected, st.cursor⟩)
        refine .through (hleft _).symm .nil ⟨rfl, At.behind_names hafter ?_ hcursor ?_⟩
        · rw [hleft]
          exact hshort
        · rw [hleft]
          nofun
    | cons l ls =>
      have hlength : ls.length < fuel := by simpa using hfuel
      have hshort' : ls.length ≤ n := Nat.le_of_succ_le hshort
      cases wanted with
      | true =>
        by_cases hl : l.kind = .name
        · simp only [List.head?_cons, if_pos hl]
          have hmore : Outcome (Listed n list after base) (.named list l) _ ls
              ((moreNames list fuel w false (names ++ [l.text])).run
                ⟨w.stream, [], ⟨.name list, some l⟩⟩) :=
            ih hahead hlength hshort' rfl rfl ⟨l, rfl⟩
          rw [Selection.addNames_concat] at hmore
          exact hmore.behind (.one (Wants.step hplace l _ hl))
        · simp only [List.head?_cons, if_neg hl]
          change Outcome _ p _ _ (.error (.failed (.unexpected l (st.expected ++ [.name]))), _)
          rw [hnone]
          exact Wants.failed hplace hl hcursor
      | false =>
        obtain ⟨name, rfl⟩ := hplace
        by_cases hl : l.kind = .comma
        · simp only [List.head?_cons, if_pos hl]
          have hmore : Outcome (Listed n list after base) (.wanting list) _ ls
              ((moreNames list fuel w true names).run ⟨w.stream, [], ⟨.name list, none⟩⟩) :=
            ih hahead hlength hshort' rfl rfl (wants_wanting list ls)
          exact hmore.behind (.one (.comma hl))
        · simp only [List.head?_cons, if_neg hl]
          change Outcome _ _ _ _ (.ok names, ⟨w.stream, st.expected ++ [.comma], st.cursor⟩)
          rw [hnone, List.nil_append]
          refine .through (hleft _).symm .nil ⟨rfl, At.behind_names hafter ?_ hcursor ?_⟩
          · rw [hleft]
            exact hshort
          · rw [hleft]
            exact fun m hm => ⟨rfl, Option.some.inj hm ▸ hl⟩

theorem nameList_outcome
    (hafter : ∀ name s k, k ∈ (Place.named list name).expected s ↔ k = .comma ∨ k ∈ after s)
    (hshort : st.left.length ≤ n) (hnone : st.expected = []) (hcursor : st.cursor = p.cursor)
    (hwants : Wants list p st.left) :
    Outcome (Listed n list after base) p base st.left ((nameList list).run st) := by
  have hahead : st.stream.walk.Ahead st.left := .fresh rfl
  have hrun : (nameList list).run st =
      (moreNames list (st.left.length + 1) st.stream.walk true []).run st := rfl
  rw [hrun]
  change Outcome _ p (base.addNames [] list) _ _
  refine moreNames_outcome hafter hahead (Nat.lt_succ_self _) hshort hnone hcursor ?_
  exact hwants

end Names

def afterClauses : List Kind := [.keyword .shuffle, .keyword .and, .keyword .or]

def opener (names : Option (List Text)) (k : Keyword) : List Kind :=
  if names.isNone then [.keyword k] else []

def afterAlbums (s : Selection) : List Kind :=
  .keyword .ordered :: (opener s.artists .byArtists ++ afterClauses)

def afterArtists (s : Selection) : List Kind := opener s.albums .onAlbums ++ afterClauses

def afterTitles (s : Selection) : List Kind :=
  opener s.albums .onAlbums ++ opener s.artists .byArtists ++ afterClauses

theorem mem_expected_albums (name : Lexeme) (s : Selection) (k : Kind) :
    k ∈ (Place.named .albums name).expected s ↔ k = .comma ∨ k ∈ afterAlbums s := by
  grind [Place.expected, afterAlbums, opener, afterClauses]

theorem mem_expected_artists (name : Lexeme) (s : Selection) (k : Kind) :
    k ∈ (Place.named .artists name).expected s ↔ k = .comma ∨ k ∈ afterArtists s := by
  grind [Place.expected, afterArtists, opener, afterClauses]

theorem mem_expected_titles (name : Lexeme) (s : Selection) (k : Kind) :
    k ∈ (Place.named .titles name).expected s ↔ k = .comma ∨ k ∈ afterTitles s := by
  grind [Place.expected, afterTitles, opener, afterClauses]

theorem mem_expected_ordered (s : Selection) (k : Kind) :
    k ∈ Place.ordered.expected s ↔ k ∈ opener s.artists .byArtists ++ afterClauses := by
  grind [Place.expected, opener, afterClauses]

theorem At.start (hmayEnd : p.mayEnd) (hshort : st.left.length ≤ n) (hnone : st.expected = [])
    (hcursor : st.cursor = p.cursor) (hpending : ∀ k, k ∈ p.expected s ↔ k ∈ pending) :
    At n p s pending st := by
  refine ⟨hmayEnd, hshort, ?_, ?_, fun _ => hcursor⟩
  · simp [hnone, hpending]
  · simp [hnone]

theorem At.short_of_cons (h : At n p s pending st) (hleft : st.left = l :: ls) : ls.length < n := by
  have hshort := h.short
  rw [hleft] at hshort
  exact hshort

def Flagged (n : Nat) (set : Selection → Selection) (after : Selection → List Kind)
    (s a : Selection) (p : Place) (s' : Selection) (st : Parser) : Prop :=
  s' = a ∧ (a = s ∨ a = set s) ∧ At n p a (after a) st

theorem flag_outcome {k : Keyword} {set : Selection → Selection} (p' : Place)
    {after : Selection → List Kind} (h : At n p s (.keyword k :: after s) st)
    (hfollow : follow s k = .go p' (set s)) (hmayEnd : p'.mayEnd)
    (hcursor : p'.cursor = ⟨.keyword, none⟩) (hafter : ∀ s k, k ∈ p'.expected s ↔ k ∈ after s) :
    Outcome (Flagged n set after s) p s st.left ((flag k set s).run st) := by
  obtain ⟨l, ls, st', hleft, hl, hrun, hleft', hnone⟩ | ⟨st', hrun, hleft, hat, -⟩ :=
    At.accept [.keyword k] h rfl
  · rw [flag, bind_ok hrun, hleft]
    have hl : l.kind = .keyword k := List.mem_singleton.1 hl
    have hmove := (h.follow hleft hl List.mem_cons_self).trans hfollow
    have hrest : left { st' with cursor := ⟨.keyword, none⟩ } = ls := hleft'
    refine .through (congrArg (l :: ·) hrest.symm) (.one (step_of_move hmove)) ⟨rfl, .inr rfl, ?_⟩
    refine At.start hmayEnd ?_ hnone hcursor.symm (hafter _)
    rw [hrest]
    exact Nat.le_of_lt (h.short_of_cons hleft)
  · rw [flag, bind_ok hrun, ← hleft]
    exact .through rfl .nil ⟨rfl, .inl rfl, hat⟩

def Narrowed (n : Nat) (a : Selection) (p : Place) (s : Selection) (st : Parser) : Prop :=
  s = a ∧ At n p a afterClauses st

theorem optional_outcome {names : Option (List Text)} {k : Keyword} {list : NameList}
    {clause : Selection → Parsing Selection} (h : At n p s (opener names k ++ afterClauses) st)
    (hfollow : follow s k = .go (.wanting list) (s.openList list))
    (hclause : names = none → ∀ st : Parser, st.left.length ≤ n → st.expected = [] →
      Outcome (Narrowed n) (.wanting list) (s.openList list) st.left ((clause s).run st)) :
    Outcome (Narrowed n) p s st.left ((optional names k clause s).run st) := by
  cases names with
  | some names => exact .through rfl .nil ⟨rfl, h⟩
  | none =>
    obtain ⟨l, ls, st', hleft, hl, hrun, hleft', hnone⟩ | ⟨st', hrun, hleft, hat, -⟩ :=
      At.accept [.keyword k] h rfl
    · have hl : l.kind = .keyword k := List.mem_singleton.1 hl
      have hmove := (h.follow hleft hl List.mem_cons_self).trans hfollow
      have hinner := hclause rfl st' (hleft' ▸ Nat.le_of_lt (h.short_of_cons hleft)) hnone
      have hrun' : (optional none k clause s).run st = (clause s).run st' := bind_ok hrun
      rw [hleft, hrun', ← hleft']
      exact hinner.behind (.one (step_of_move hmove))
    · have hrun' : (optional none k clause s).run st = (.ok s, st') := bind_ok hrun
      rw [hrun', ← hleft]
      exact .through rfl .nil ⟨rfl, hat⟩

def room (s : Selection) : Nat :=
  (if s.albums.isNone then 1 else 0) + if s.artists.isNone then 1 else 0

theorem clause_outcome (fuel : Nat) :
    (∀ (s : Selection) (st : Parser), s.albums = none → room s ≤ fuel → st.left.length ≤ n →
      st.expected = [] → Outcome (Narrowed n) (.wanting .albums) (s.openList .albums) st.left
        ((onClause fuel s).run st)) ∧
    ∀ (s : Selection) (st : Parser), s.artists = none → room s ≤ fuel → st.left.length ≤ n →
      st.expected = [] → Outcome (Narrowed n) (.wanting .artists) (s.openList .artists) st.left
        ((byClause fuel s).run st) := by
  -- Each clause closes one of the lists for which there is room.
  induction fuel with
  | zero =>
    refine ⟨fun s st hs hroom => ?_, fun s st hs hroom => ?_⟩ <;> simp [room, hs] at hroom
  | succ fuel ih =>
    obtain ⟨hon, hby⟩ := ih
    refine ⟨fun s st hs hroom hshort hnone => ?_, fun s st hs hroom hshort hnone => ?_⟩
    · have hlist : Outcome (Listed n .albums afterAlbums (s.openList .albums)) _ _ _
          ((nameList .albums).run { st with cursor := ⟨.name .albums, none⟩ }) :=
        nameList_outcome mem_expected_albums hshort hnone rfl (wants_wanting .albums _)
      refine hlist.bind ?_
      rintro names p _ st' ⟨rfl, hat⟩
      have hnames : (s.openList .albums).addNames names .albums = { s with albums := some names } :=
        Selection.addNames_albums _ _
      rw [hnames] at hat ⊢
      refine (flag_outcome .ordered hat rfl rfl rfl mem_expected_ordered).bind ?_
      rintro _ p s' st' ⟨rfl, hset, hat⟩
      have hroom' : room s' ≤ fuel := by
        rcases hset with rfl | rfl <;> simp [room, hs] at hroom ⊢ <;> omega
      exact optional_outcome hat rfl fun hartists st => hby s' st hartists hroom'
    · have hlist : Outcome (Listed n .artists afterArtists (s.openList .artists)) _ _ _
          ((nameList .artists).run { st with cursor := ⟨.name .artists, none⟩ }) :=
        nameList_outcome mem_expected_artists hshort hnone rfl (wants_wanting .artists _)
      refine hlist.bind ?_
      rintro names p _ st' ⟨rfl, hat⟩
      have hnames : (s.openList .artists).addNames names .artists =
          { s with artists := some names } := Selection.addNames_artists _ _
      rw [hnames] at hat ⊢
      have hroom' : room { s with artists := some names } ≤ fuel := by
        simp [room, hs] at hroom ⊢
        omega
      exact optional_outcome hat rfl fun halbums st => hon _ st halbums hroom'

/-- The keyword of a clause is taken, whether a place behind the titles or one before them. -/
theorem clauses_taken {s₀ : Selection} (hs : s.albums = none ∧ s.artists = none)
    (hleft : st.left = l :: ls) (hshort : ls.length ≤ n) {k : Keyword}
    (hk : k = .onAlbums ∨ k = .byArtists) (hl : l.kind = .keyword k)
    (hmove : p.move s₀ l = follow s k) :
    Outcome (Narrowed n) p s₀ st.left ((clauses s).run st) := by
  have hmem : l.kind ∈ [Kind.keyword .onAlbums, .keyword .byArtists] := by
    rcases hk with rfl | rfl <;> simp [hl]
  obtain ⟨st', hrun, rfl, hnone⟩ := accept_take hleft hmem
  have hroom : room s ≤ 2 := by simp [room, hs]
  rw [hleft, clauses, bind_ok hrun]
  obtain ⟨hon, hby⟩ := clause_outcome (n := n) 2
  rcases hk with rfl | rfl
  · simp only [Option.map_some, hl]
    exact (hon s st' hs.1 hroom hshort hnone).behind (.one (step_of_move hmove))
  · simp only [Option.map_some, hl]
    exact (hby s st' hs.2 hroom hshort hnone).behind (.one (step_of_move hmove))

theorem clauses_outcome (hs : s.albums = none ∧ s.artists = none)
    (h : At n p s (afterTitles s) st) : Outcome (Narrowed n) p s st.left ((clauses s).run st) := by
  have hpending : afterTitles s = [.keyword .onAlbums, .keyword .byArtists] ++ afterClauses := by
    simp [afterTitles, opener, hs]
  rw [hpending] at h
  obtain ⟨l, ls, -, hleft, hl, -⟩ | ⟨st', hrun, hleft, hat, -⟩ :=
    At.accept [.keyword .onAlbums, .keyword .byArtists] h rfl
  · have hshort := Nat.le_of_lt (h.short_of_cons hleft)
    obtain hl | hl : l.kind = .keyword .onAlbums ∨ l.kind = .keyword .byArtists := by simpa using hl
    · exact clauses_taken hs hleft hshort (.inl rfl) hl (h.follow hleft hl (by simp))
    · exact clauses_taken hs hleft hshort (.inr rfl) hl (h.follow hleft hl (by simp))
  · rw [clauses, bind_ok hrun, ← hleft]
    exact .through rfl .nil ⟨rfl, hat⟩

theorem Agrees.link {m : Parsing Query} {link : Link} (hmove : p.move s l = .link link)
    (h : Agrees (.start true) .empty ls (m.run st)) :
    Agrees p s (l :: ls) ((do return .link s link (← m) : Parsing Query).run st) := by
  have hquery : readQuery p s (l :: ls) =
      (readQuery (.start true) .empty ls).map (.link s link) := by rw [readQuery, hmove]
  have hword : readCursor p s (l :: ls) = readCursor (.start true) .empty ls := by
    rw [readCursor, hmove]
  generalize hm : m.run st = out at h
  cases h with
  | read hleft hread hcursor =>
    rw [bind_ok hm]
    exact .read hleft (by rw [hquery, hread]; rfl) (hword.trans hcursor)
  | stuck hleft hl hread hcursor =>
    rw [bind_ok hm]
    exact .stuck hleft hl (by rw [hquery, hread]; rfl) (hword.trans hcursor)
  | failed hread hcursor =>
    rw [bind_error hm]
    exact .failed (by rw [hquery, hread]; rfl) (hword.trans hcursor)

theorem At.stops (h : At n p s [] st) (hleft : st.left = l :: ls) :
    p.move s l = .fail ∧
      ∀ k, k ∈ p.expected s ↔ k ∈ st.expected ++ [.keyword .and, .keyword .or] := by
  have hhead : l ∈ st.left.head? := by simp [hleft]
  have hasked (k : Kind) : k ∈ p.expected s ↔ k ∈ st.expected := by
    rw [h.asked l hhead, List.mem_nil_iff, or_false]
  refine ⟨?_, fun k => ?_⟩
  · refine Classical.byContradiction fun hmove => ?_
    exact h.refused l hhead ((hasked _).1 ((move_ne_fail_of_mayEnd h.mayEnd).1 hmove))
  · have hlinks (hk : k ∈ [Kind.keyword .and, .keyword .or]) : k ∈ st.expected := by
      rw [← hasked]
      obtain rfl | rfl : k = .keyword .and ∨ k = .keyword .or := by simpa using hk
      · exact and_mem_expected.2 h.mayEnd
      · exact or_mem_expected.2 h.mayEnd
    rw [hasked, List.mem_append, or_iff_left_of_imp hlinks]

theorem linked_agrees {rest : Parsing Query} (h : At n p s [.keyword .and, .keyword .or] st)
    (hrest : ∀ st : Parser, st.left.length < n → st.expected = [] →
      st.cursor = (Place.start true).cursor →
      Agrees (.start true) .empty st.left (rest.run st)) :
    Agrees p s st.left ((linked rest s).run st) := by
  obtain ⟨l, ls, st', hleft, hl, hrun, rfl, hnone⟩ | ⟨st', hrun, hleft, hat, hhead⟩ :=
    At.accept [.keyword .and, .keyword .or] h rfl
  · have hnext : Agrees (.start true) .empty st'.left
        (rest.run { st' with cursor := ⟨.name .titles, none⟩ }) :=
      hrest { st' with cursor := ⟨.name .titles, none⟩ } (h.short_of_cons hleft) hnone rfl
    rw [hleft, linked, bind_ok hrun]
    obtain hl | hl : l.kind = .keyword .and ∨ l.kind = .keyword .or := by simpa using hl
    · simp only [Option.map_some, hl]
      exact hnext.link (move_eq_link_iff.2 ⟨h.mayEnd, hl⟩)
    · simp only [Option.map_some, hl]
      exact hnext.link (move_eq_link_iff.2 ⟨h.mayEnd, hl⟩)
  · rw [linked, bind_ok hrun]
    change Agrees p s st.left (.ok (.last s), st')
    cases hst : st.left with
    | nil =>
      refine .read (hleft.trans hst) (readQuery_of_mayEnd h.mayEnd) ?_
      exact (hat.cursor (by simp [hleft, hst])).symm
    | cons l ls =>
      have hleft' := hleft.trans hst
      obtain ⟨hkind, hname⟩ := hhead l (by simp [hst])
      obtain ⟨hmove, hkinds⟩ := hat.stops hleft'
      refine .stuck hleft' hkind ?_ ?_
      · rw [readQuery, hmove, ParseError.unexpected_congr hkinds]
      · rw [readCursor, hmove, cursorAt]
        by_cases hl : l.kind = .name
        · rw [if_pos ⟨h.mayEnd, hl⟩, hname hl]
        · rw [if_neg fun hn => hl hn.2, hat.cursor]
          intro m hm
          obtain rfl : l = m := by simpa [hleft'] using hm
          exact hl

theorem tail_agrees {rest : Parsing Query} (h : At n p s afterClauses st)
    (hrest : ∀ st : Parser, st.left.length < n → st.expected = [] →
      st.cursor = (Place.start true).cursor →
      Agrees (.start true) .empty st.left (rest.run st)) :
    Agrees p s st.left
      ((flag .shuffle (fun s => { s with shuffle := true }) s >>= linked rest).run st) := by
  have hflag : Outcome (Flagged n _ (fun _ => [.keyword .and, .keyword .or]) s) p s st.left
      ((flag .shuffle (fun s => { s with shuffle := true }) s).run st) :=
    flag_outcome .shuffled h rfl rfl rfl fun _ _ => Iff.rfl
  refine hflag.agrees ?_
  rintro _ p s st' ⟨rfl, -, hat⟩
  exact linked_agrees hat hrest

def looked (st : Parser) : Parser := { st with stream := st.stream.peekOne.2 }

theorem left_looked (st : Parser) : st.looked.left = st.left := st.stream.toList_peekOne

theorem titles_implied (hleft : st.left = l :: ls)
    (hl : l.kind = .keyword .onAlbums ∨ l.kind = .keyword .byArtists) :
    titles.run st = (.ok [matchAll], st.looked) := by
  rw [titles, bind_ok (run_onStream _), peekOne_left, hleft, List.head?_cons]
  rcases hl with hl | hl
  · simp only [Option.map_some, hl]
    rfl
  · simp only [Option.map_some, hl]
    rfl

theorem titles_named
    (h : ∀ l ∈ st.left.head?, l.kind ≠ .keyword .onAlbums ∧ l.kind ≠ .keyword .byArtists) :
    titles.run st = (nameList .titles).run st.looked := by
  rw [titles, bind_ok (run_onStream _), peekOne_left]
  cases hleft : st.left with
  | nil => rfl
  | cons l ls =>
    obtain ⟨hon, hby⟩ := h l (by simp [hleft])
    simp only [List.head?_cons, Option.map_some]
    split
    · next hl => exact absurd (Option.some.inj hl) hon
    · next hl => exact absurd (Option.some.inj hl) hby
    · rfl

theorem query_agrees {fuel : Nat} {first : Bool} (hfuel : st.left.length < fuel)
    (hnone : st.expected = []) (hcursor : st.cursor = (Place.start first).cursor) :
    Agrees (.start first) .empty st.left ((query fuel).run st) := by
  induction fuel generalizing first st with
  | zero => exact absurd hfuel (Nat.not_lt_zero _)
  | succ fuel ih =>
    have hshort : st.looked.left.length ≤ fuel := by
      rw [left_looked]
      exact Nat.le_of_lt_succ hfuel
    have hrest (st : Parser) (hleft : st.left.length < fuel) (hnone : st.expected = [])
        (hcursor : st.cursor = (Place.start true).cursor) := ih hleft hnone hcursor
    rw [query, ← left_looked]
    by_cases hclause : ∃ l ∈ st.left.head?,
        l.kind = .keyword .onAlbums ∨ l.kind = .keyword .byArtists
    · obtain ⟨l, hl, hkind⟩ := hclause
      obtain ⟨ls, hleft⟩ := List.head?_eq_some_iff.1 hl
      have hleft' := (left_looked st).trans hleft
      have hls : ls.length ≤ fuel := by
        rw [hleft'] at hshort
        exact Nat.le_of_succ_le hshort
      have hnarrowed : Outcome (Narrowed fuel) (.start first) .empty st.looked.left
          ((clauses (.ofTitles [matchAll])).run st.looked) := by
        obtain hl | hl := hkind
        · exact clauses_taken ⟨rfl, rfl⟩ hleft' hls (.inl rfl) hl (by simp [Place.move, hl]; rfl)
        · exact clauses_taken ⟨rfl, rfl⟩ hleft' hls (.inr rfl) hl (by simp [Place.move, hl]; rfl)
      rw [bind_ok (titles_implied hleft hkind)]
      refine hnarrowed.agrees ?_
      rintro s p _ st' ⟨rfl, hat⟩
      exact tail_agrees hat hrest
    · have hhead : ∀ l ∈ st.left.head?,
          l.kind ≠ .keyword .onAlbums ∧ l.kind ≠ .keyword .byArtists :=
        fun l hl => not_or.1 fun hkind => hclause ⟨l, hl, hkind⟩
      have hlist : Outcome (Listed fuel .titles afterTitles .empty) (.start first) .empty
          st.looked.left (titles.run st) := by
        rw [titles_named hhead]
        exact nameList_outcome mem_expected_titles hshort hnone hcursor
          (wants_start (left_looked st ▸ hhead))
      refine hlist.agrees ?_
      rintro names p _ st' ⟨rfl, hat⟩
      have hnames : Selection.empty.addNames names .titles = .ofTitles names :=
        Selection.addNames_titles _ _
      rw [hnames] at hat ⊢
      refine (clauses_outcome ⟨rfl, rfl⟩ hat).agrees ?_
      rintro s p _ st' ⟨rfl, hat⟩
      exact tail_agrees hat hrest

theorem run_isExhausted : (onStream Stream.isExhausted).run st =
    (.ok st.left.isEmpty, { st with stream := st.stream.isExhausted.2 }) := by
  rw [run_onStream, st.stream.isExhausted_eq.1]
  rfl

theorem expect_fail (hleft : st.left = l :: ls) (hl : l.kind ∉ ks) :
    ∃ st', (expect ks).run st = (.error (.failed (.unexpected l (st.expected ++ ks))), st') ∧
      st'.cursor = st.cursor := by
  have hnext : st.stream.next.1 = some l := by rw [st.stream.next_eq.1]; exact congrArg _ hleft
  have hask : (ask ks).run st = (.ok (), { st with expected := st.expected ++ ks }) := rfl
  rw [expect, bind_ok hask, bind_ok (run_onStream _), hnext]
  simp only [if_neg hl]
  exact ⟨_, rfl, rfl⟩

/-- The parser stops where the reader of places stops, and never for want of fuel or in front of a
lexeme that it has accepted. -/
theorem whole_agrees (ls : List Lexeme) :
    (whole.run (ofLexemes ls)).1 = (readQuery (.start false) .empty ls).mapError .failed ∧
      (whole.run (ofLexemes ls)).2.cursor = readCursor (.start false) .empty ls := by
  have hfuel : (ofLexemes ls).left.length < ls.length + 1 := Nat.lt_succ_self _
  have hnone : (ofLexemes ls).expected = [] := rfl
  have hquery : Agrees (.start false) .empty ls _ := query_agrees hfuel hnone rfl
  have hrun : whole.run (ofLexemes ls) = (query (ls.length + 1) >>= _).run (ofLexemes ls) := rfl
  generalize hq : (query (ls.length + 1)).run (ofLexemes ls) = out at hquery
  cases hquery with
  | read hleft hread hcursor =>
    rw [hrun, bind_ok hq, bind_ok run_isExhausted, hleft, hread]
    exact ⟨rfl, hcursor.symm⟩
  | @stuck q st l rest hleft hl hread hcursor =>
    have hexhausted : left { st with stream := st.stream.isExhausted.2 } = l :: rest :=
      (congrArg Stream.Marked.rest st.stream.isExhausted_eq.2).trans hleft
    obtain ⟨st', hexpect, hcursor'⟩ := expect_fail hexhausted hl
    rw [hrun, bind_ok hq, bind_ok run_isExhausted, hleft, hread]
    simp only [List.isEmpty_cons, Bool.false_eq_true, if_false]
    rw [bind_error hexpect]
    exact ⟨rfl, hcursor'.trans hcursor.symm⟩
  | failed hread hcursor =>
    rw [hrun, bind_error hq, hread]
    exact ⟨rfl, hcursor.symm⟩

end Parser

namespace Query

theorem ofLexemes_eq (ls : List Lexeme) : ofLexemes ls = readQuery (.start false) .empty ls := by
  rw [ofLexemes, parsed, (Parser.whole_agrees ls).1]
  cases readQuery (.start false) .empty ls <;> rfl

theorem cursor_eq (t : Text) : cursor t = readCursor (.start false) .empty t.lexemes :=
  (Parser.whole_agrees t.lexemes).2

end Query

end Jukebox
