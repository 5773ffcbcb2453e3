import Jukebox.Proofs.Library.Growth
import Jukebox.Proofs.Pattern.Meaning

set_option autoImplicit false

namespace Jukebox

open Catalogue Lexeme

def Plan.hasLongPattern (p : Plan) : Bool :=
  p.top.order.hasLongPattern || p.levels.any Level.hasLongPattern

namespace Library

structure Grown (lib : Library) (r : TrackRow) (lib' : Library) : Prop where
  home : lib'.home = lib.home
  catalogue : lib.catalogue.Grown r lib'.catalogue

theorem add_cases (home : OsText) (ts : List Track) (t : Track) :
    (∃ id, (after home ts).add t = (.existing id, after home ts)) ∨
      ∃ lib' r, (after home ts).add t = (.added r.id, lib') ∧ r.path = storedIn home t ∧
        (after home ts).Grown r lib' := by
  have hrec := records home ts
  rw [add, hrec.storedPath]
  obtain ⟨id, hadd⟩ | ⟨c', r, hadd, hpath, hc⟩ :=
    Catalogue.add_cases hrec.consistent (storedIn home t) t
  · exact .inl ⟨id, by rw [hadd]⟩
  · refine .inr ⟨{ after home ts with catalogue := c' }, r, ?_, hpath, rfl, hc⟩
    rw [hadd]

namespace Grown

variable {lib lib' : Library} {r : TrackRow} {p : Plan} {ps : List Plan} {seed seed' : Nat}

theorem failure? (h : lib.Grown r lib') (p : Plan) :
    lib'.failure? p = lib.failure? p ∨
      lib.failure? p = none ∧ lib'.failure? p = some .operandTooLong ∧ p.hasLongPattern := by
  unfold Library.failure?
  cases p.refusal? with
  | some e => exact .inl rfl
  | none =>
    by_cases hc : lib.catalogue.comparisonFails p
    · rw [if_pos hc, if_pos (h.catalogue.comparisonFails hc)]
      exact .inl rfl
    · by_cases hc' : lib'.catalogue.comparisonFails p
      · rw [if_neg hc, if_pos hc']
        rw [comparisonFails, Bool.and_eq_true] at hc'
        exact .inr ⟨rfl, rfl, hc'.1⟩
      · rw [if_neg hc, if_neg hc']
        exact .inl rfl

theorem paths (h : lib.Grown r lib') (hp : p.top.order ≠ .random) :
    GrowsBy (lib.locate r.path) (lib.paths seed p) (lib'.paths seed' p) := by
  have hlocate : lib'.locate = lib.locate := by
    funext stored
    rw [locate, locate, h.home]
  rw [Library.paths, Library.paths, hlocate]
  exact (h.catalogue.found hp seed seed').map fun t => lib.locate t.path

theorem runEach (h : lib.Grown r lib') (seed : Nat) (hps : ∀ p ∈ ps, p.top.order ≠ .random)
    {answers' : List (List OsText)} (hrun : lib'.runEach seed' ps = .ok answers') :
    ∃ answers, lib.runEach seed ps = .ok answers ∧
      List.Forall₂ (GrowsBy (lib.locate r.path)) answers answers' := by
  obtain ⟨hnone, rfl⟩ := runEach_eq_ok_iff.1 hrun
  refine ⟨_, runEach_eq_ok_iff.2 ⟨fun p hp => ?_, rfl⟩, ?_⟩
  · obtain heq | ⟨hnone', -⟩ := h.failure? p
    · rw [← heq, hnone p hp]
    · exact hnone'
  · rw [List.forall₂_map_left_iff, List.forall₂_map_right_iff, List.forall₂_same]
    exact fun p hp => h.paths (hps p hp)

theorem runEach_error (h : lib.Grown r lib') {answers : List (List OsText)}
    (hrun : lib.runEach seed ps = .ok answers) {e : SelectError}
    (he : lib'.runEach seed' ps = .error e) :
    e = .statement .operandTooLong ∧ ∃ p ∈ ps, p.hasLongPattern := by
  obtain ⟨p, hp, cause, rfl, hcause⟩ := runEach_eq_error he
  have hnone := (runEach_eq_ok_iff.1 hrun).1 p hp
  obtain heq | ⟨-, hlong, hpattern⟩ := h.failure? p
  · rw [heq, hnone] at hcause
    cases hcause
  · rw [hcause] at hlong
    cases hlong
    exact ⟨rfl, p, hp, hpattern⟩

theorem column (h : lib.Grown r lib') (names : NameList) :
    lib.column names <+: lib'.column names := by
  cases names with
  | titles =>
    rw [Library.column, Library.column, h.catalogue.tracks, List.map_append]
    exact List.prefix_append _ _
  | albums => exact h.catalogue.keeps.albums.map _
  | artists => exact h.catalogue.keeps.artists.map _

theorem values (h : lib.Grown r lib') (l : Lookup) : lib.values l ⊆ lib'.values l := by
  intro v hv
  rw [Library.values, List.mem_eraseDups, List.mem_filter] at hv ⊢
  exact ⟨(h.column l.list).subset hv.1, hv.2⟩

theorem lookUp (h : lib.Grown r lib') (l : Lookup) {vs' : List Text}
    (hvs : lib'.lookUp l = .ok vs') : ∃ vs, lib.lookUp l = .ok vs ∧ vs ⊆ vs' := by
  unfold Library.lookUp at hvs ⊢
  split at hvs
  · cases hvs
  · next hok =>
    cases hvs
    refine ⟨_, if_neg fun hfail => hok ?_, h.values l⟩
    rw [Bool.and_eq_true, Bool.not_eq_true', List.isEmpty_eq_false_iff] at hfail ⊢
    refine ⟨hfail.1, fun hnil => hfail.2 ?_⟩
    have hcolumn := h.column l.list
    rwa [hnil, List.prefix_nil] at hcolumn

end Grown

theorem lookUp_cases (lib : Library) (l : Lookup) :
    lib.lookUp l = .ok (lib.values l) ∨
      lib.lookUp l = .error .operandTooLong ∧
        Like.maxOperand < Text.bytes (startingWith (l.start.getD [])) := by
  unfold lookUp
  split
  · next hfail =>
    rw [Bool.and_eq_true, Like.tooLong, decide_eq_true_eq] at hfail
    exact .inr ⟨rfl, hfail.1⟩
  · exact .inl rfl

theorem lookUp_error {lib : Library} {l : Lookup} {e : StatementError}
    (h : lib.lookUp l = .error e) :
    e = .operandTooLong ∧ Like.tooLong (startingWith (l.start.getD [])) := by
  obtain hok | ⟨herror, hlong⟩ := lib.lookUp_cases l
  · rw [hok] at h
    cases h
  · rw [herror] at h
    cases h
    exact ⟨rfl, decide_eq_true hlong⟩

/-- A track that was there already changes nothing. A track that is added leaves every answer in its
order and comes into it at most once for each plan; where names are looked up, none gets lost. An
answer is lost only if the new track is the first one to be compared with a pattern that is too
long. -/
theorem add_keeps_answers (home : OsText) (ts : List Track) (t : Track) :
    let lib := after home ts
    let lib' := (lib.add t).2
    (∀ id, (lib.add t).1 = .existing id → lib' = lib) ∧
    ∀ id, (lib.add t).1 = .added id →
      (∀ text q seed seed', Query.parse text = .ok q → q.Unshuffled →
        (∀ paths', lib'.select seed' text = .ok paths' → ∃ paths answers answers',
          lib.select seed text = .ok paths ∧ paths.Sublist paths' ∧
          lib.runEach seed q.plans = .ok answers ∧ paths = answers.flatten ∧
          lib'.runEach seed' q.plans = .ok answers' ∧ paths' = answers'.flatten ∧
          List.Forall₂ (GrowsBy (lib.locate (storedIn home t))) answers answers') ∧
        ∀ paths e, lib.select seed text = .ok paths → lib'.select seed' text = .error e →
          e = .statement .operandTooLong ∧ ∃ p ∈ q.plans, p.hasLongPattern) ∧
      ∀ l, lib.values l ⊆ lib'.values l ∧
        (∀ vs', lib'.lookUp l = .ok vs' → ∃ vs, lib.lookUp l = .ok vs ∧ vs ⊆ vs') ∧
        ∀ e, lib'.lookUp l = .error e →
          e = .operandTooLong ∧ Like.tooLong (startingWith (l.start.getD [])) := by
  intro lib lib'
  obtain ⟨id, hadd⟩ | ⟨lib'', r, hadd, hpath, hgrown⟩ := add_cases home ts t
  · have hlib : lib' = lib := congrArg Prod.snd hadd
    refine ⟨fun _ _ => hlib, fun _ hadded => ?_⟩
    have hanswer : (lib.add t).1 = .existing id := congrArg Prod.fst hadd
    rw [hanswer] at hadded
    cases hadded
  · have hanswer : (lib.add t).1 = .added r.id := congrArg Prod.fst hadd
    have hlib : lib' = lib'' := congrArg Prod.snd hadd
    rw [← hlib] at hgrown
    refine ⟨fun _ hexisting => ?_, fun _ _ => ⟨fun text q seed seed' hq hplain => ⟨?_, ?_⟩, ?_⟩⟩
    · rw [hanswer] at hexisting
      cases hexisting
    · intro paths' hpaths
      obtain ⟨answers', hrun', rfl⟩ := (select_eq_ok_iff hq).1 hpaths
      obtain ⟨answers, hrun, hgrows⟩ :=
        hgrown.runEach seed (fun p => Query.order_ne_random hplain) hrun'
      rw [hpath] at hgrows
      exact ⟨_, answers, answers', (select_eq_ok_iff hq).2 ⟨answers, hrun, rfl⟩,
        GrowsBy.sublist_flatten hgrows, hrun, rfl, hrun', rfl, hgrows⟩
    · intro paths e hpaths he
      obtain ⟨answers, hrun, -⟩ := (select_eq_ok_iff hq).1 hpaths
      exact hgrown.runEach_error hrun ((select_eq_error_iff hq).1 he)
    · exact fun l => ⟨hgrown.values l, fun _ => hgrown.lookUp l, fun _ => lookUp_error⟩

/-! A library that answers a query for a long title until it has a track to compare it with. -/

theorem like_replicate (n : Nat) :
    (Pattern.ofText (List.replicate (n + 1) 'b')).like =
      '%' :: List.replicate (n + 1) 'b' ++ ['%'] := by
  have hlast : (List.replicate (n + 1) 'b').getLast? ≠ some '$' := by
    rw [List.getLast?_replicate]
    simp
  have hpattern : Pattern.ofText (List.replicate (n + 1) 'b') =
      ⟨false, List.replicate (n + 1) 'b', false⟩ := by
    rw [List.replicate_succ] at hlast ⊢
    rw [Pattern.ofText, Pattern.closing, if_neg hlast]
    exact fun _ h => absurd (List.cons.inj h).1 (by decide)
  have hescape : Like.escape (List.replicate (n + 1) 'b') = List.replicate (n + 1) 'b' := by
    refine Like.escape_eq_self fun c hc => ?_
    rw [List.eq_of_mem_replicate hc]
    decide
  have hparts : (List.replicate (n + 1) 'b').splitOn '.' = [List.replicate (n + 1) 'b'] :=
    List.splitOn_eq_singleton fun hm => absurd (List.eq_of_mem_replicate hm) (by decide)
  rw [hpattern, Pattern.like, Pattern.parts, hparts, List.map_singleton, hescape]
  simp

theorem bytes_replicate (n : Nat) (c : Char) :
    Text.bytes (List.replicate n c) = n * c.utf8Size := by
  induction n with
  | zero => exact (Nat.zero_mul _).symm
  | succ n ih => rw [List.replicate_succ, Text.bytes_cons, ih, Nat.succ_mul, Nat.add_comm]

theorem isName_replicate {c : Char} (hc : isNameChar c) (n : Nat) :
    IsName (List.replicate (n + 1) c) := by
  have hname : ∀ d ∈ List.replicate (n + 1) c, isNameChar d := fun d hd =>
    List.eq_of_mem_replicate hd ▸ hc
  have hmk := IsName.mk (.inl rfl) (List.cons_ne_nil c (List.replicate n c)) hname (.inl rfl)
  rwa [List.nil_append, List.append_nil] at hmk

theorem tooLong_replicate {n : Nat} (h : Like.maxOperand < n) :
    (Pattern.ofText (List.replicate n 'b')).tooLong := by
  have hbytes : Text.bytes (List.replicate n 'b') = n := (bytes_replicate n 'b').trans n.mul_one
  obtain ⟨m, rfl⟩ := Nat.exists_eq_add_one_of_ne_zero (Nat.ne_zero_of_lt h)
  rw [Pattern.tooLong, Like.tooLong, like_replicate, decide_eq_true_eq, Text.bytes_append,
    Text.bytes_cons, hbytes]
  omega

def oneTrack : Library := after music [⟨Text.utf8 ['x'], ['a'], none, none, []⟩]

def secondTrack : Track := ⟨Text.utf8 ['y'], ['b'], none, none, []⟩

def longTitle : Text := List.replicate 50001 'b'

def twoTitles : Query := .last (.ofTitles [['a'], longTitle])

theorem longTitle_ne (c : Char) : longTitle ≠ [c] := fun h => by
  have hlen := congrArg List.length h
  rw [longTitle, List.length_replicate, List.length_singleton] at hlen
  exact absurd hlen (by decide)

theorem twoTitles_wellFormed : twoTitles.WellFormed := by
  refine wellFormed_ofTitles ⟨List.cons_ne_nil _ _, fun n hn => ?_⟩
  rcases List.mem_cons.1 hn with rfl | hn
  · exact .single (by decide)
  · obtain rfl := List.mem_singleton.1 hn
    exact isName_replicate (by decide) 50000

theorem twoTitles_unshuffled : twoTitles.Unshuffled := by
  intro n hn
  obtain rfl := List.mem_singleton.1 hn
  rfl

def titlesPlan (p : Pattern) : Plan :=
  .only ⟨[], [⟨.title, [.ofText ['a'], p]⟩],
    .keys [.rank .title [.ofText ['a'], p], .column .title]⟩

theorem plans_twoTitles : twoTitles.plans = [titlesPlan (.ofText longTitle)] := by
  have hall : matchAll ∉ [['a'], longTitle] := by
    intro hm
    rcases List.mem_cons.1 hm with h | h
    · exact absurd h (by decide)
    · exact longTitle_ne '.' (List.mem_singleton.1 h).symm
  rw [twoTitles, Query.plans, Query.firstPlan, level_ofTitles (List.cons_ne_nil _ _) hall]
  rfl

theorem failure?_oneTrack (p : Pattern) : oneTrack.failure? (titlesPlan p) = none := by
  have hrefusal : (titlesPlan p).refusal? = none := rfl
  have hfilter : oneTrack.catalogue.filteringFails (titlesPlan p) = false := rfl
  have hsort : oneTrack.catalogue.sortingFails (titlesPlan p) = false := rfl
  rw [failure?, hrefusal, comparisonFails, hfilter, hsort, Bool.or_false, Bool.and_false]
  rfl

theorem failure?_secondTrack {p : Pattern} (h : p.tooLong) :
    (oneTrack.add secondTrack).2.failure? (titlesPlan p) = some .operandTooLong := by
  have hrefusal : (titlesPlan p).refusal? = none := rfl
  have hlong : (titlesPlan p).top.order.hasLongPattern = true := by
    simp [titlesPlan, Plan.top, Order.hasLongPattern, h]
  have hfails : Pattern.tryFails (.text ['b']) [.ofText ['a'], p] = true := by
    have ha : (Pattern.ofText ['a']).admitsValue (.text ['b']) = false := rfl
    rw [Pattern.tryFails, Pattern.tryFails, h, ha]
    exact Bool.or_true _
  have hfilter : (oneTrack.add secondTrack).2.catalogue.filteringFails (titlesPlan p) = true := by
    refine List.any_eq_true.2 ⟨⟨2, ['b'], ['y']⟩, by decide, ?_⟩
    refine List.any_eq_true.2 ⟨⟨⟨2, ['b'], ['y']⟩, none, none⟩, List.mem_singleton_self _, ?_⟩
    have hrow : Row.filterFails ⟨⟨2, ['b'], ['y']⟩, none, none⟩
        [⟨.title, [.ofText ['a'], p]⟩] = true := Bool.or_eq_true_iff.2 (.inl hfails)
    exact Bool.or_eq_true_iff.2 (.inl hrow)
  rw [failure?, hrefusal, comparisonFails, hfilter, hlong]
  rfl

theorem paths_oneTrack (p : Pattern) :
    oneTrack.paths 0 (titlesPlan p) = [Text.utf8 "/music/x".toList] := by
  have hfound : oneTrack.catalogue.tracks.filter (oneTrack.catalogue.finds (titlesPlan p)) =
      [⟨1, ['a'], ['x']⟩] := rfl
  exact paths_singleton hfound 0

theorem select_oneTrack :
    oneTrack.select 0 twoTitles.render = .ok [Text.utf8 "/music/x".toList] := by
  rw [select_eq (Query.parse_render twoTitles_wellFormed), plans_twoTitles, List.findSome?_cons,
    failure?_oneTrack, List.map_singleton, paths_oneTrack]
  rfl

theorem select_secondTrack :
    (oneTrack.add secondTrack).2.select 0 twoTitles.render =
      .error (.statement .operandTooLong) := by
  have hlong : (Pattern.ofText longTitle).tooLong := tooLong_replicate (by decide)
  rw [select_eq (Query.parse_render twoTitles_wellFormed), plans_twoTitles, List.findSome?_cons,
    failure?_secondTrack hlong]

/-- What was selected is lost with an addition. -/
theorem add_loses_answer :
    Query.parse twoTitles.render = .ok twoTitles ∧ twoTitles.Unshuffled ∧
      (oneTrack.add secondTrack).1 = .added 2 ∧
      oneTrack.select 0 twoTitles.render = .ok [Text.utf8 "/music/x".toList] ∧
      ¬∃ paths', (oneTrack.add secondTrack).2.select 0 twoTitles.render = .ok paths' ∧
        [Text.utf8 "/music/x".toList].Sublist paths' := by
  refine ⟨Query.parse_render twoTitles_wellFormed, twoTitles_unshuffled, by decide,
    select_oneTrack, ?_⟩
  rintro ⟨paths', hpaths, -⟩
  rw [select_secondTrack] at hpaths
  cases hpaths

theorem add_keeps_answers_one_track :
    (oneTrack.add ⟨Text.utf8 ['x'], ['b'], none, none, []⟩).2 = oneTrack ∧
    (∃ paths paths', oneTrack.select 0 ['a'] = .ok paths ∧
      (oneTrack.add secondTrack).2.select 1 ['a'] = .ok paths' ∧ paths.Sublist paths') ∧
    (∃ p ∈ twoTitles.plans, p.hasLongPattern) ∧
    ∃ vs vs', oneTrack.lookUp ⟨.titles, none⟩ = .ok vs ∧
      (oneTrack.add secondTrack).2.lookUp ⟨.titles, none⟩ = .ok vs' ∧ vs ⊆ vs' := by
  have hone : Query.parse (Query.last (.ofTitles [['a']])).render =
      .ok (.last (.ofTitles [['a']])) :=
    Query.parse_render (wellFormed_ofTitles (writable_replicate 0))
  obtain ⟨hsame, -⟩ := add_keeps_answers music [⟨Text.utf8 ['x'], ['a'], none, none, []⟩]
    ⟨Text.utf8 ['x'], ['b'], none, none, []⟩
  obtain ⟨-, hgrown⟩ :=
    add_keeps_answers music [⟨Text.utf8 ['x'], ['a'], none, none, []⟩] secondTrack
  obtain ⟨hselect, hlookUp⟩ := hgrown 2 (by decide)
  refine ⟨hsame 1 (by decide), ?_, ?_, ?_⟩
  · have hok : (oneTrack.add secondTrack).2.runEach 1 (Query.last (.ofTitles [['a']])).plans = _ :=
      runEach_eq_ok_iff.2 ⟨fun p hp => by
        obtain rfl := List.mem_singleton.1 hp
        rfl, rfl⟩
    have hpaths := (select_eq_ok_iff hone).2 ⟨_, hok, rfl⟩
    obtain ⟨paths, -, -, hselected, hsub, -⟩ :=
      (hselect _ _ 0 1 hone (by decide)).1 _ hpaths
    exact ⟨paths, _, hselected, hpaths, hsub⟩
  · have hparse := Query.parse_render twoTitles_wellFormed
    exact ((hselect _ _ 0 0 hparse twoTitles_unshuffled).2 _ _ select_oneTrack select_secondTrack).2
  · have hvs : (oneTrack.add secondTrack).2.lookUp ⟨.titles, none⟩ = .ok _ := rfl
    obtain ⟨vs, hvs', hsub⟩ := (hlookUp ⟨.titles, none⟩).2.1 _ hvs
    exact ⟨vs, _, hvs', hvs, hsub⟩

end Library

end Jukebox
