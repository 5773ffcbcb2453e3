import Jukebox.Proofs.Query.Descent

/-!
The grammar of queries over lexemes. A text is read as a query exactly if its lexemes derive that
query, so that no text has two readings and no lexeme is left over.
-/

set_option autoImplicit false

namespace Jukebox

namespace Grammar

open Place

/-- `NAME {"," NAME}`, with the texts of the names. -/
inductive Names : List Lexeme → List Text → Prop where
  | one {l} (h : l.kind = .name) : Names [l] [l.text]
  | more {l c ls ns} (hl : l.kind = .name) (hc : c.kind = .comma) (h : Names ls ns) :
      Names (l :: c :: ls) (l.text :: ns)

/-- `[KEYWORD]`, with whether it is there. -/
inductive Flag (k : Keyword) : List Lexeme → Bool → Prop where
  | absent : Flag k [] false
  | present {l} (h : l.kind = .keyword k) : Flag k [l] true

/-- `"on" names ["ordered"]` -/
inductive OnAlbums : List Lexeme → List Text → Bool → Prop where
  | mk {l ls os ns ordered} (hl : l.kind = .keyword .onAlbums) (hn : Names ls ns)
      (ho : Flag .ordered os ordered) : OnAlbums (l :: ls ++ os) ns ordered

/-- `"by" names` -/
inductive ByArtists : List Lexeme → List Text → Prop where
  | mk {l ls ns} (hl : l.kind = .keyword .byArtists) (hn : Names ls ns) : ByArtists (l :: ls) ns

/-- `[on-albums [by-artists] | by-artists [on-albums]]` -/
inductive Clauses : List Lexeme → Option (List Text) → Bool → Option (List Text) → Prop where
  | neither : Clauses [] none false none
  | albums {ls ns ordered} (h : OnAlbums ls ns ordered) : Clauses ls (some ns) ordered none
  | albumsArtists {ls ns ordered ms bs} (h : OnAlbums ls ns ordered) (h' : ByArtists ms bs) :
      Clauses (ls ++ ms) (some ns) ordered (some bs)
  | artists {ms bs} (h' : ByArtists ms bs) : Clauses ms none false (some bs)
  | artistsAlbums {ls ns ordered ms bs} (h' : ByArtists ms bs) (h : OnAlbums ls ns ordered) :
      Clauses (ms ++ ls) (some ns) ordered (some bs)

/-- The titles in front of the lexemes `next`: names, or nothing if `on` or `by` is next. -/
inductive Titles (next : List Lexeme) : List Lexeme → List Text → Prop where
  | listed {ls ns} (h : Names ls ns) : Titles next ls ns
  | implied {l} (h : next.head? = some l)
      (hl : l.kind = .keyword .onAlbums ∨ l.kind = .keyword .byArtists) : Titles next [] [matchAll]

/-- `titles clauses ["shuffle"]`, in front of the lexemes `next`. -/
inductive Selects (next : List Lexeme) : List Lexeme → Selection → Prop where
  | mk {ts cs ss titles albums ordered artists shuffle} (ht : Titles (cs ++ ss ++ next) ts titles)
      (hc : Clauses cs albums ordered artists) (hs : Flag .shuffle ss shuffle) :
      Selects next (ts ++ cs ++ ss) ⟨titles, albums, ordered, artists, shuffle⟩

/-- `selection [("and" | "or") query]` -/
inductive Derives : List Lexeme → Query → Prop where
  | last {ls s} (h : Selects [] ls s) : Derives ls (.last s)
  | link {ls l rest s q} {link : Link} (h : Selects (l :: rest) ls s)
      (hl : l.kind = .keyword link.keyword) (hq : Derives rest q) :
      Derives (ls ++ l :: rest) (.link s link q)

theorem Names.snoc {ls : List Lexeme} {ns : List Text} {c l : Lexeme} (h : Names ls ns)
    (hc : c.kind = .comma) (hl : l.kind = .name) : Names (ls ++ [c, l]) (ns ++ [l.text]) := by
  induction h with
  | one hm => exact .more hm hc (.one hl)
  | more hm hd _ ih => exact .more hm hd ih

theorem Titles.append {next ts : List Lexeme} {ns : List Text} (h : Titles next ts ns)
    (more : List Lexeme) : Titles (next ++ more) ts ns := by
  cases h with
  | listed h => exact .listed h
  | implied h hl => exact .implied (by rw [List.head?_append, h, Option.some_or]) hl

/-! Derived lexemes are run over. -/

theorem Names.runs_wanting {ls : List Lexeme} {ns : List Text} (h : Names ls ns)
    (list : NameList) (s : Selection) :
    ∃ name, Runs (.wanting list) s ls (.named list name) (s.addNames ns list) := by
  induction h generalizing s with
  | @one l hl => exact ⟨l, .one (.name hl)⟩
  | @more l c ls ns hl hc _ ih =>
    obtain ⟨name, hr⟩ := ih (s.addName l.text list)
    exact ⟨name, .cons (.name hl) (.cons (.comma hc) hr)⟩

theorem Names.runs_start {ls : List Lexeme} {ns : List Text} (h : Names ls ns) (linked : Bool)
    (s : Selection) :
    ∃ name, Runs (.start linked) s ls (.named .titles name) (s.addNames ns .titles) := by
  cases h with
  | @one l hl => exact ⟨l, .one (.title hl)⟩
  | @more l c ls ns hl hc h =>
    obtain ⟨name, hr⟩ := h.runs_wanting .titles (s.addName l.text .titles)
    exact ⟨name, .cons (.title hl) (.cons (.comma hc) hr)⟩

theorem step_start_of_named {l name : Lexeme} {linked : Bool} {s s' : Selection} {p' : Place}
    (hl : l.kind = .keyword .onAlbums ∨ l.kind = .keyword .byArtists)
    (h : Step l (.named .titles name) (s.addName matchAll .titles) p' s') :
    Step l (.start linked) s p' s' := by
  cases h with
  | comma h => simp [h] at hl
  | albums h => exact .impliedAlbums h
  | artists h => exact .impliedArtists h
  | shuffle h => simp [h] at hl

theorem OnAlbums.runs {ls : List Lexeme} {ns : List Text} {ordered : Bool}
    (h : OnAlbums ls ns ordered) {p : Place} {s : Selection} (hp : p.beforeAlbums)
    (ha : s.albums = none) (ho : s.ordered = false) :
    ∃ p', Runs p s ls p' { s with albums := some ns, ordered } ∧ p'.beforeArtists := by
  obtain ⟨hl, hn, hf⟩ := h
  obtain ⟨name, hr⟩ := hn.runs_wanting .albums (s.openList .albums)
  have hs : (s.openList .albums).addNames ns .albums = { s with albums := some ns } :=
    Selection.addNames_albums _ _
  rw [hs] at hr
  have hr := Runs.cons (.albums hl hp ha) hr
  cases hf with
  | absent =>
    refine ⟨.named .albums name, ?_, rfl⟩
    rw [List.append_nil, ← ho]
    exact hr
  | present hl => exact ⟨_, hr.trans (.one (.ordered hl)), rfl⟩

theorem ByArtists.runs {ls : List Lexeme} {ns : List Text} (h : ByArtists ls ns) {p : Place}
    {s : Selection} (hp : p.beforeArtists) (ha : s.artists = none) :
    ∃ p', Runs p s ls p' { s with artists := some ns } ∧ p'.beforeAlbums := by
  obtain ⟨hl, hn⟩ := h
  obtain ⟨name, hr⟩ := hn.runs_wanting .artists (s.openList .artists)
  have hs : (s.openList .artists).addNames ns .artists = { s with artists := some ns } :=
    Selection.addNames_artists _ _
  rw [hs] at hr
  exact ⟨_, .cons (.artists hl hp ha) hr, rfl⟩

theorem ne_shuffled_of_beforeAlbums {p : Place} (h : p.beforeAlbums) : p ≠ .shuffled := by
  rintro rfl; cases h

theorem ne_shuffled_of_beforeArtists {p : Place} (h : p.beforeArtists) : p ≠ .shuffled := by
  rintro rfl; cases h

theorem Clauses.runs {cs : List Lexeme} {albums artists : Option (List Text)} {ordered : Bool}
    (h : Clauses cs albums ordered artists) (name : Lexeme) (titles : List Text) :
    ∃ p, Runs (.named .titles name) (.ofTitles titles) cs p
      ⟨titles, albums, ordered, artists, false⟩ ∧ p.mayEnd ∧ p ≠ .shuffled := by
  cases h with
  | neither => exact ⟨_, .nil, rfl, nofun⟩
  | albums h =>
    obtain ⟨p, hr, hp⟩ := h.runs (p := .named .titles name) (s := .ofTitles titles) rfl rfl rfl
    exact ⟨p, hr, mayEnd_of_beforeArtists hp, ne_shuffled_of_beforeArtists hp⟩
  | @albumsArtists ls ns ordered ms bs h h' =>
    obtain ⟨p, hr, hp⟩ := h.runs (p := .named .titles name) (s := .ofTitles titles) rfl rfl rfl
    obtain ⟨p', hr', hp'⟩ := h'.runs (s := ⟨titles, some ns, ordered, none, false⟩) hp rfl
    exact ⟨p', hr.trans hr', mayEnd_of_beforeAlbums hp', ne_shuffled_of_beforeAlbums hp'⟩
  | artists h' =>
    obtain ⟨p, hr, hp⟩ := h'.runs (p := .named .titles name) (s := .ofTitles titles) rfl rfl
    exact ⟨p, hr, mayEnd_of_beforeAlbums hp, ne_shuffled_of_beforeAlbums hp⟩
  | @artistsAlbums ls ns ordered ms bs h' h =>
    obtain ⟨p, hr, hp⟩ := h'.runs (p := .named .titles name) (s := .ofTitles titles) rfl rfl
    obtain ⟨p', hr', hp'⟩ := h.runs (s := ⟨titles, none, false, some bs, false⟩) hp rfl rfl
    exact ⟨p', hr.trans hr', mayEnd_of_beforeArtists hp', ne_shuffled_of_beforeArtists hp'⟩

theorem Clauses.exists_cons {cs : List Lexeme} {albums artists : Option (List Text)}
    {ordered : Bool} (h : Clauses cs albums ordered artists) :
    cs = [] ∨ ∃ l cs', cs = l :: cs' ∧
      (l.kind = .keyword .onAlbums ∨ l.kind = .keyword .byArtists) := by
  cases h with
  | neither => exact .inl rfl
  | albums h => obtain ⟨hl, -, -⟩ := h; exact .inr ⟨_, _, rfl, .inl hl⟩
  | albumsArtists h h' => obtain ⟨hl, -, -⟩ := h; exact .inr ⟨_, _, rfl, .inl hl⟩
  | artists h' => obtain ⟨hl, -⟩ := h'; exact .inr ⟨_, _, rfl, .inr hl⟩
  | artistsAlbums h' h => obtain ⟨hl, -⟩ := h'; exact .inr ⟨_, _, rfl, .inr hl⟩

def Follows (next : List Lexeme) : Prop :=
  ∀ l, next.head? = some l → ∃ link : Link, l.kind = .keyword link.keyword

theorem follows_nil : Follows [] := nofun

theorem follows_link {l : Lexeme} {link : Link} (h : l.kind = .keyword link.keyword)
    (rest : List Lexeme) : Follows (l :: rest) := by
  rintro m ⟨⟩
  exact ⟨link, h⟩

theorem not_opens_clause {ss next : List Lexeme} {shuffle : Bool} (hs : Flag .shuffle ss shuffle)
    (hn : Follows next) {l : Lexeme} (h : (ss ++ next).head? = some l) :
    ¬(l.kind = .keyword .onAlbums ∨ l.kind = .keyword .byArtists) := by
  cases hs with
  | absent =>
    obtain ⟨link, hl⟩ := hn l h
    cases link <;> simp [hl, Link.keyword]
  | present hl => cases h; simp [hl]

theorem Flag.runs {ss : List Lexeme} {shuffle : Bool} (h : Flag .shuffle ss shuffle) {p : Place}
    {s : Selection} (hp : p.mayEnd) (hn : p ≠ .shuffled) (hs : s.shuffle = false) :
    ∃ p', Runs p s ss p' { s with shuffle } ∧ p'.mayEnd := by
  cases h with
  | absent => exact ⟨p, by rw [← hs]; exact .nil, hp⟩
  | present hl => exact ⟨_, .one (.shuffle hl hp hn), rfl⟩

theorem Selects.runs {next ls : List Lexeme} {s : Selection} (h : Selects next ls s)
    (hn : Follows next) (linked : Bool) :
    ∃ p, Runs (.start linked) .empty ls p s ∧ p.mayEnd := by
  obtain @⟨ts, cs, ss, titles, albums, ordered, artists, shuffle, ht, hc, hs⟩ := h
  have hf {p : Place} (hp : p.mayEnd) (hn : p ≠ .shuffled) :=
    hs.runs (s := ⟨titles, albums, ordered, artists, false⟩) hp hn rfl
  cases ht with
  | listed ht =>
    obtain ⟨name, hr⟩ := ht.runs_start linked .empty
    rw [Selection.addNames_titles] at hr
    obtain ⟨p, hr', hp, hq⟩ := hc.runs name titles
    obtain ⟨p', hr'', hp'⟩ := hf hp hq
    exact ⟨p', (hr.trans hr').trans hr'', hp'⟩
  | @implied l hl hk =>
    obtain rfl | ⟨m, cs, rfl, hm⟩ := hc.exists_cons
    · -- Without clauses nothing in front of a link or the end implies the title.
      exact absurd hk (not_opens_clause hs hn hl)
    · obtain ⟨p, hr', hp, hq⟩ := hc.runs m [matchAll]
      obtain ⟨p', hr'', hp'⟩ := hf hp hq
      cases hr' with
      | cons hl hr' => exact ⟨p', (Runs.cons (step_start_of_named hm hl) hr').trans hr'', hp'⟩

theorem Derives.readQuery_eq {ls : List Lexeme} {q : Query} (h : Derives ls q) (linked : Bool) :
    readQuery (.start linked) .empty ls = .ok q := by
  -- On the derivation: the link ends the run, and the rest is read from an empty selection.
  induction h generalizing linked with
  | @last ls s hs =>
    obtain ⟨p, hr, hp⟩ := hs.runs follows_nil linked
    have h := readQuery_of_runs hr []
    rwa [List.append_nil, readQuery_of_mayEnd hp] at h
  | link hs hl _ ih =>
    obtain ⟨p, hr, hp⟩ := hs.runs (follows_link hl _) linked
    rw [readQuery_of_runs hr, readQuery_of_link hp hl, ih true]
    rfl

/-! What a run has passed is derived. -/

inductive Before : NameList → List Lexeme → Selection → Prop where
  | titles : Before .titles [] .empty
  | albums {ts cs l titles artists} (ht : Titles (cs ++ [l]) ts titles)
      (hc : Clauses cs none false artists) (hl : l.kind = .keyword .onAlbums) :
      Before .albums (ts ++ cs ++ [l]) ⟨titles, some [], false, artists, false⟩
  | artists {ts cs l titles albums ordered} (ht : Titles (cs ++ [l]) ts titles)
      (hc : Clauses cs albums ordered none) (hl : l.kind = .keyword .byArtists) :
      Before .artists (ts ++ cs ++ [l]) ⟨titles, albums, ordered, some [], false⟩

/-- What has been read of a selection at a place in it. -/
inductive Reached : List Lexeme → Place → Selection → Prop where
  | start {linked} : Reached [] (.start linked) .empty
  | wanting {list bs s} (h : Before list bs s) : Reached bs (.wanting list) s
  | named {list bs s ls ns name} (h : Before list bs s) (hn : Names ls ns) :
      Reached (bs ++ ls) (.named list name) (s.addNames ns list)
  | comma {list bs s ls ns c} (h : Before list bs s) (hn : Names ls ns) (hc : c.kind = .comma) :
      Reached (bs ++ ls ++ [c]) (.wanting list) (s.addNames ns list)
  | ordered {bs s ls ns l} (h : Before .albums bs s) (hn : Names ls ns)
      (hl : l.kind = .keyword .ordered) :
      Reached (bs ++ ls ++ [l]) .ordered { s.addNames ns .albums with ordered := true }
  | shuffled {ts cs l titles albums ordered artists} (ht : Titles (cs ++ [l]) ts titles)
      (hc : Clauses cs albums ordered artists) (hl : l.kind = .keyword .shuffle) :
      Reached (ts ++ cs ++ [l]) .shuffled ⟨titles, albums, ordered, artists, true⟩

theorem Clauses.onAlbums {cs ls : List Lexeme} {artists : Option (List Text)} {ns : List Text}
    {ordered : Bool} (hc : Clauses cs none false artists) (h : OnAlbums ls ns ordered) :
    Clauses (cs ++ ls) (some ns) ordered artists := by
  cases hc with
  | neither => exact .albums h
  | artists h' => exact .artistsAlbums h' h

theorem Clauses.byArtists {cs ms : List Lexeme} {albums : Option (List Text)} {bs : List Text}
    {ordered : Bool} (hc : Clauses cs albums ordered none) (h' : ByArtists ms bs) :
    Clauses (cs ++ ms) albums ordered (some bs) := by
  cases hc with
  | neither => exact .artists h'
  | albums h => exact .albumsArtists h h'

theorem Clauses.not_ordered {cs : List Lexeme} {artists : Option (List Text)} {ordered : Bool}
    (h : Clauses cs none ordered artists) : ordered = false := by
  cases h <;> rfl

theorem Reached.clauses {ls : List Lexeme} {p : Place} {s : Selection} (h : Reached ls p s)
    (hp : p.mayEnd) (hn : p ≠ .shuffled) :
    ∃ ts cs, ls = ts ++ cs ∧ (∀ next, Titles (cs ++ next) ts s.titles) ∧
      Clauses cs s.albums s.ordered s.artists ∧ s.shuffle = false := by
  cases h with
  | start => cases hp
  | wanting => cases hp
  | comma => cases hp
  | shuffled => exact absurd rfl hn
  | @named list bs s ls ns name h hls =>
    cases h with
    | titles =>
      rw [Selection.addNames_titles]
      exact ⟨ls, [], by simp, fun _ => .listed hls, .neither, rfl⟩
    | @albums ts cs l titles artists ht hc hl =>
      rw [Selection.addNames_albums]
      refine ⟨ts, cs ++ (l :: ls ++ []), by simp, fun next => ?_,
        hc.onAlbums (.mk hl hls .absent), rfl⟩
      simpa using ht.append (ls ++ next)
    | @artists ts cs l titles albums ordered ht hc hl =>
      rw [Selection.addNames_artists]
      refine ⟨ts, cs ++ (l :: ls), by simp, fun next => ?_, hc.byArtists (.mk hl hls), rfl⟩
      simpa using ht.append (ls ++ next)
  | @ordered bs s ls ns m h hls hm =>
    cases h with
    | @albums ts cs l titles artists ht hc hl =>
      rw [Selection.addNames_albums]
      refine ⟨ts, cs ++ (l :: ls ++ [m]), by simp, fun next => ?_,
        hc.onAlbums (.mk hl hls (.present hm)), rfl⟩
      simpa using ht.append (ls ++ m :: next)

theorem Reached.step {ls : List Lexeme} {l : Lexeme} {p p' : Place} {s s' : Selection}
    (h : Reached ls p s) (hl : Step l p s p' s') : Reached (ls ++ [l]) p' s' := by
  -- The titles and clauses passed so far stay derived; only the last list is still open.
  cases hl with
  | title hk => cases h; exact .named .titles (.one hk)
  | impliedAlbums hk =>
    cases h
    have ht : Titles ([] ++ [l]) [] [matchAll] := .implied rfl (.inl hk)
    exact .wanting (.albums ht .neither hk)
  | impliedArtists hk =>
    cases h
    have ht : Titles ([] ++ [l]) [] [matchAll] := .implied rfl (.inr hk)
    exact .wanting (.artists ht .neither hk)
  | name hk =>
    cases h with
    | wanting h => exact .named h (.one hk)
    | comma h hn hc =>
      have hr : Reached _ (.named _ l) _ := .named h (hn.snoc hc hk)
      simpa [Selection.addNames] using hr
  | comma hk => cases h with | named h hn => exact .comma h hn hk
  | albums hk hp ha =>
    obtain ⟨ts, cs, rfl, ht, hc, hs⟩ := h.clauses (mayEnd_of_beforeAlbums hp)
      (ne_shuffled_of_beforeAlbums hp)
    rw [ha] at hc
    obtain ⟨titles, albums, ordered, artists, shuffle⟩ := s
    obtain rfl : ordered = false := hc.not_ordered
    obtain rfl : shuffle = false := hs
    exact .wanting (.albums (ht [l]) hc hk)
  | artists hk hp ha =>
    obtain ⟨ts, cs, rfl, ht, hc, hs⟩ := h.clauses (mayEnd_of_beforeArtists hp)
      (ne_shuffled_of_beforeArtists hp)
    rw [ha] at hc
    obtain ⟨titles, albums, ordered, artists, shuffle⟩ := s
    obtain rfl : shuffle = false := hs
    exact .wanting (.artists (ht [l]) hc hk)
  | ordered hk => cases h with | named h hn => exact .ordered h hn hk
  | shuffle hk hp hn =>
    obtain ⟨ts, cs, rfl, ht, hc, -⟩ := h.clauses hp hn
    exact .shuffled (ht [l]) hc hk

theorem Reached.runs {ls ms : List Lexeme} {p p' : Place} {s s' : Selection}
    (h : Reached ls p s) (hr : Runs p s ms p' s') : Reached (ls ++ ms) p' s' := by
  induction hr generalizing ls with
  | nil => rwa [List.append_nil]
  | cons hl _ ih => simpa using ih (h.step hl)

theorem Reached.selects {ls : List Lexeme} {p : Place} {s : Selection} (h : Reached ls p s)
    (hp : p.mayEnd) (next : List Lexeme) : Selects next ls s := by
  by_cases hn : p = .shuffled
  · subst hn
    cases h with
    | @shuffled ts cs l titles albums ordered artists ht hc hl =>
      exact .mk (by simpa using ht.append next) hc (.present hl)
  · obtain ⟨ts, cs, rfl, ht, hc, hs⟩ := h.clauses hp hn
    obtain ⟨titles, albums, ordered, artists, shuffle⟩ := s
    obtain rfl : shuffle = false := hs
    have ht : Titles (cs ++ [] ++ next) ts titles := by simpa using ht next
    simpa using Selects.mk ht hc .absent

theorem derives_of_readQuery {linked : Bool} {ls : List Lexeme} {q : Query}
    (h : readQuery (.start linked) .empty ls = .ok q) : Derives ls q := by
  induction q generalizing linked ls with
  | last s =>
    obtain ⟨p, s', hr, hp, hq⟩ | ⟨_, _, _, _, _, _, _, _, _, _, _, _, hq⟩ :=
      exists_runs_of_readQuery h
    · cases hq
      exact .last ((Reached.start.runs hr).selects hp [])
    · cases hq
  | link s link q ih =>
    obtain ⟨_, _, _, _, hq⟩ | ⟨front, l, rest, p, s', link', q', rfl, hr, hp, hl, hrest, hq⟩ :=
      exists_runs_of_readQuery h
    · cases hq
    · cases hq
      exact .link ((Reached.start.runs hr).selects hp _) hl (ih hrest)

/-- A link after a whole query is never left over: what follows it is read as a further query. -/
theorem Derives.readQuery_link {front : List Lexeme} {q : Query} (h : Derives front q)
    {l : Lexeme} {link : Link} (hl : l.kind = .keyword link.keyword) (rest : List Lexeme)
    (linked : Bool) :
    readQuery (.start linked) .empty (front ++ l :: rest) =
      (readQuery (.start true) .empty rest).map fun more => Query.append link more q := by
  induction h generalizing linked with
  | @last ls s hs =>
    obtain ⟨p, hr, hp⟩ := hs.runs (follows_nil) linked
    rw [readQuery_of_runs hr, readQuery_of_link hp hl]
    rfl
  | @link ls m ms s q link' hs hm _ ih =>
    obtain ⟨p, hr, hp⟩ := hs.runs (follows_link hm ms) linked
    rw [List.append_assoc, List.cons_append, readQuery_of_runs hr, readQuery_of_link hp hm, ih true]
    cases readQuery (.start true) .empty rest <;> rfl

theorem move_start (linked linked' : Bool) (s : Selection) (l : Lexeme) :
    (Place.start linked).move s l = (Place.start linked').move s l := by
  obtain ⟨_ | k | _ | _, text, column⟩ := l
  · rfl
  · cases k <;> rfl
  · rfl
  · rfl

theorem readQuery_start (linked linked' : Bool) (ls : List Lexeme) :
    readQuery (.start linked) .empty ls = readQuery (.start linked') .empty ls := by
  cases ls with
  | nil => rfl
  | cons l ls => rw [readQuery, readQuery, move_start linked linked', expected, expected]

end Grammar

namespace Query

open Grammar

theorem parse_eq_ok_iff {t : Text} {q : Query} :
    parse t = .ok q ↔ ofLexemes t.lexemes = .ok q := by
  unfold parse
  cases ofLexemes t.lexemes with
  | ok q' => exact Iff.rfl
  | error e => exact ⟨nofun, nofun⟩

theorem derives_of_parse {t : Text} {q : Query} (h : parse t = .ok q) : Derives t.lexemes q :=
  derives_of_readQuery ((ofLexemes_eq _).symm.trans (parse_eq_ok_iff.1 h))

theorem parse_of_derives {t : Text} {q : Query} (h : Derives t.lexemes q) : parse t = .ok q :=
  parse_eq_ok_iff.2 ((ofLexemes_eq _).trans (h.readQuery_eq false))

end Query

end Jukebox
