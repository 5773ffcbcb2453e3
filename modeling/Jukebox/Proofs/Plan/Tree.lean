import Jukebox.Command.Style
import Jukebox.Statement
import Jukebox.Proofs.Plan.Sound
import Jukebox.Proofs.Text.Parts

/-!
Trees read back. Each line of a tree shows by its start which part of the plan it is, and the names
in a line end where a comma or a bracket comes. Two plans of queries with the same tree are the same
plan, at every depth.
-/

set_option autoImplicit false

namespace Jukebox

open Lexeme

def Spelled (ps : List Pattern) : Prop := ∃ names, Writable names ∧ ps = names.map Pattern.ofText

def Key.Spelled : Key → Prop
  | .column _ => True
  | .rank _ ps => Jukebox.Spelled ps

def Order.Spelled : Order → Prop
  | .random => True
  | .keys ks => ∀ k ∈ ks, k.Spelled

structure Level.Spelled (l : Level) : Prop where
  filters : ∀ f ∈ l.filters, Jukebox.Spelled f.patterns
  order : l.order.Spelled

theorem Level.Spelled.unordered {l : Level} (h : l.Spelled) : l.unordered.Spelled :=
  ⟨h.filters, nofun⟩

namespace Selection

variable {s : Selection}

theorem narrowing_spelled (h : s.WellFormed) {n : Narrowing} (hn : n ∈ s.narrowings) :
    Spelled n.filter.patterns ∧ ∀ k ∈ n.keys, k.Spelled := by
  rcases mem_narrowings.1 hn with hn | hn
  · obtain ⟨ps, hps, rfl⟩ := Option.map_eq_some_iff.1 hn
    have hspelled : Spelled ps := exists_writable_of_narrowing? h.albums hps
    cases s.ordered <;> simp [Key.Spelled, hspelled]
  · obtain ⟨ps, hps, rfl⟩ := Option.map_eq_some_iff.1 hn
    have hspelled : Spelled ps := exists_writable_of_narrowing? h.artists hps
    simp [Key.Spelled, hspelled]

theorem titleFilters_spelled (h : s.WellFormed) {f : Filter} (hf : f ∈ s.titleFilters) :
    Spelled f.patterns := by
  unfold titleFilters at hf
  split at hf
  · cases hf
  · next names hne =>
    rw [List.mem_singleton.1 hf]
    exact ⟨_, ⟨hne, fun n hn => h.titles.2 n (List.mem_of_mem_filter hn)⟩, rfl⟩

theorem level_spelled (h : s.WellFormed) : s.level.Spelled := by
  refine ⟨fun f hf => ?_, ?_⟩
  · rcases List.mem_append.1 hf with hf | hf
    · obtain ⟨n, hn, rfl⟩ := List.mem_map.1 hf
      exact (narrowing_spelled h hn).1
    · exact titleFilters_spelled h hf
  · rw [level]
    cases s.shuffle with
    | true => exact trivial
    | false =>
      intro k hk
      rcases List.mem_append.1 hk with hk | hk
      · obtain ⟨n, hn, hk⟩ := List.mem_flatMap.1 hk
        exact (narrowing_spelled h hn).2 k hk
      · rcases List.mem_cons.1 hk with rfl | hk
        · exact ⟨s.titles, h.titles, rfl⟩
        · rw [List.mem_singleton.1 hk]
          exact trivial

end Selection

theorem Query.spelled_plans {q : Query} (h : q.WellFormed) {p : Plan} (hp : p ∈ q.plans) :
    ∀ l ∈ p.levels, l.Spelled :=
  of_mem_levels (fun _ => Selection.level_spelled) (fun _ => Level.Spelled.unordered) h hp

/-! What a line shows, as it is read. -/

theorem Column.text_free (c d : Column) (h : c.text <+: d.text) : c = d := by
  revert h
  cases c <;> cases d <;> decide

theorem Join.text_free (i j : Join) (h : i.text <+: j.text) : i = j := by
  revert h
  cases i <;> cases j <;> decide

def isNamed (c : Char) : Bool := isNameChar c || c == '^' || c == '$'

theorem isNamed_of_isName {name : Text} (h : IsName name) : ∀ c ∈ name, isNamed c := by
  intro c hc
  rcases h.mem hc with hc | rfl | rfl
  · simp [isNamed, hc]
  · decide
  · decide

theorem patternList_ofText (names : List Text) (s : Text) :
    patternList (names.map Pattern.ofText) ++ s =
      ['['] ++ (Text.join ", " (names.map id) ++ ([']'] ++ s)) := by
  have htexts : (names.map Pattern.ofText).map Pattern.text = names.map id := by
    rw [List.map_map]
    exact List.map_congr_left fun n _ => Pattern.text_ofText n
  rw [patternList, htexts, List.append_assoc, List.append_assoc]

section Parts

variable {s t : Text}

theorem patternList_cancel {ps qs : List Pattern} (hp : Spelled ps) (hq : Spelled qs)
    (h : patternList ps ++ s = patternList qs ++ t) : ps = qs ∧ s = t := by
  obtain ⟨ns, ⟨hne, hns⟩, rfl⟩ := hp
  obtain ⟨ms, ⟨hne', hms⟩, rfl⟩ := hq
  rw [patternList_ofText, patternList_ofText] at h
  obtain ⟨n, ns, rfl⟩ := List.exists_cons_of_ne_nil hne
  obtain ⟨m, ms, rfl⟩ := List.exists_cons_of_ne_nil hne'
  have hstop : Apart ", ".toList [']'] := by decide
  -- One name may start with another, so that a name is told only together with what follows it.
  have hend (u : Text) : ∀ c, ([']'] ++ u).head? = some c → isNamed c = false := by
    rintro c ⟨⟩
    decide
  obtain ⟨hall, he⟩ := join_cancel_of (R := Eq)
    (P := fun u => ∀ c, u.head? = some c → isNamed c = false)
    (by rintro u c ⟨⟩; decide)
    (fun a ha b hb u v hu hv => span_cancel (isNamed_of_isName (hns a ha))
      (isNamed_of_isName (hms b hb)) hu hv)
    (hstop.not_prefix s) (hstop.not_prefix t) (hend s) (hend t) (List.append_cancel_left h)
  rw [List.forall₂_eq_eq_eq] at hall
  rw [hall]
  exact ⟨rfl, List.append_cancel_left he⟩

theorem Filter.text_append (f : Filter) (s : Text) :
    f.text ++ s = f.column.text ++ (" ~ ".toList ++ (patternList f.patterns ++ s)) := by
  rw [text, List.append_assoc, List.append_assoc]

theorem Filter.text_injective {f g : Filter} (hf : Spelled f.patterns) (hg : Spelled g.patterns)
    (h : f.text = g.text) : f = g := by
  obtain ⟨c, ps⟩ := f
  obtain ⟨d, qs⟩ := g
  have hwhole := congrArg (· ++ []) h
  simp only [Filter.text_append] at hwhole
  obtain ⟨rfl, hrest⟩ := code_cancel Column.text_free hwhole
  obtain ⟨rfl, -⟩ := patternList_cancel hf hg (List.append_cancel_left hrest)
  rfl

theorem Key.rank_text_append (c : Column) (ps : List Pattern) (s : Text) : (rank c ps).text ++ s =
    "rank(".toList ++ (c.text ++ (" ~ ".toList ++ (patternList ps ++ ([')'] ++ s)))) := by
  have hrank : (rank c ps).text =
      "rank(".toList ++ c.text ++ " ~ ".toList ++ patternList ps ++ [')'] := rfl
  rw [hrank, List.append_assoc, List.append_assoc, List.append_assoc, List.append_assoc]

theorem Key.text_cancel {k l : Key} (hk : k.Spelled) (hl : l.Spelled)
    (h : k.text ++ s = l.text ++ t) : k = l ∧ s = t := by
  have hapart (c : Column) : Apart c.text "rank(".toList := by cases c <;> decide
  cases k with
  | column c =>
    cases l with
    | column d =>
      obtain ⟨rfl, he⟩ := code_cancel Column.text_free h
      exact ⟨rfl, he⟩
    | rank d qs =>
      rw [Key.rank_text_append] at h
      exact absurd h ((hapart c).append_ne _ _)
  | rank c ps =>
    cases l with
    | column d =>
      rw [Key.rank_text_append] at h
      exact absurd h.symm ((hapart d).append_ne _ _)
    | rank d qs =>
      rw [Key.rank_text_append, Key.rank_text_append] at h
      obtain ⟨rfl, hrest⟩ := code_cancel Column.text_free (List.append_cancel_left h)
      obtain ⟨rfl, he⟩ := patternList_cancel hk hl (List.append_cancel_left hrest)
      exact ⟨rfl, List.append_cancel_left he⟩

end Parts

theorem Order.lines_injective {o o' : Order} (ho : o.Spelled) (ho' : o'.Spelled)
    (h : o.lines = o'.lines) : o = o' := by
  have hapart : Apart "  order randomly".toList "  order by ".toList := by decide
  match o, o' with
  | .random, .random => rfl
  | .keys [], .keys [] => rfl
  | .random, .keys [] | .keys [], .random => cases h
  | .keys [], .keys (_ :: _) | .keys (_ :: _), .keys [] => cases h
  | .random, .keys (l :: ls) =>
    exact absurd (List.head_eq_of_cons_eq h) (hapart.append_ne [] _)
  | .keys (k :: ks), .random =>
    exact absurd (List.head_eq_of_cons_eq h).symm (hapart.append_ne [] _)
  | .keys (k :: ks), .keys (l :: ls) =>
    have hkeys := congrArg (· ++ []) (List.append_cancel_left (List.head_eq_of_cons_eq h))
    obtain ⟨hall, -⟩ := join_cancel (R := Eq)
      (fun k hk l hl s t => Key.text_cancel (ho k hk) (ho' l hl)) (by decide) (by decide) hkeys
    rw [List.forall₂_eq_eq_eq] at hall
    rw [hall]

namespace Plan

/-- The lines of a tree, by what they show. -/
def blocks (p : Plan) : List (Text × List Text) :=
  [("tracks".toList, ["tracks".toList]),
    ("  join ".toList, p.top.joins.map ("  join ".toList ++ ·.text)),
    ("  where ".toList, p.top.filters.map ("  where ".toList ++ ·.text)),
    ("  intersect".toList, p.inner?.toList.map fun _ => "  intersect".toList),
    ("    ".toList, p.inner?.toList.flatMap fun inner => inner.treeLines.map ("    ".toList ++ ·)),
    ("  order ".toList, p.top.order.lines)]

theorem treeLines_eq (p : Plan) : p.treeLines = p.blocks.flatMap Prod.snd := by
  cases p with
  | only l => simp [treeLines, treeLines.lines, blocks, top, inner?]
  | within l inner => simp [treeLines, treeLines.lines, blocks, top, inner?]

theorem mem_order_lines {o : Order} {t : Text} (h : t ∈ o.lines) : "  order ".toList <+: t := by
  match o with
  | .random =>
    rw [List.mem_singleton.1 h]
    decide
  | .keys [] => cases h
  | .keys (k :: ks) =>
    rw [List.mem_singleton.1 h]
    have hstart : "  order ".toList <+: "  order by ".toList := by decide
    exact hstart.trans (List.prefix_append _ _)

theorem tagged_blocks (p : Plan) : Tagged p.blocks := by
  have htags : p.blocks.map Prod.fst = ["tracks".toList, "  join ".toList, "  where ".toList,
    "  intersect".toList, "    ".toList, "  order ".toList] := rfl
  refine ⟨?_, by rw [htags]; decide⟩
  have hmap {α : Type} (tag : Text) (f : α → Text) (as : List α) :
      ∀ t ∈ as.map (tag ++ f ·), tag <+: t := by
    intro t ht
    obtain ⟨a, -, rfl⟩ := List.mem_map.1 ht
    exact List.prefix_append _ _
  simp only [blocks, List.forall_mem_cons]
  refine ⟨⟨List.prefix_rfl, nofun⟩, hmap _ _ _, hmap _ _ _, ?_, ?_, fun t ht => mem_order_lines ht,
    nofun⟩
  · intro t ht
    obtain ⟨-, -, rfl⟩ := List.mem_map.1 ht
    exact List.prefix_rfl
  · intro t ht
    obtain ⟨inner, -, ht⟩ := List.mem_flatMap.1 ht
    exact hmap _ id inner.treeLines t ht

theorem blocks_eq_of_treeLines {p q : Plan} (h : p.treeLines = q.treeLines) :
    p.blocks = q.blocks := by
  rw [treeLines_eq, treeLines_eq] at h
  exact p.tagged_blocks.blocks_eq q.tagged_blocks rfl h

theorem top_eq_of_treeLines {p q : Plan} (hp : p.top.Spelled) (hq : q.top.Spelled)
    (h : p.treeLines = q.treeLines) : p.top = q.top := by
  have hblocks := blocks_eq_of_treeLines h
  simp only [blocks, List.cons.injEq, Prod.mk.injEq, true_and, and_true] at hblocks
  obtain ⟨hjoins, hfilters, -, -, horder⟩ := hblocks
  have hjoins' : p.top.joins = q.top.joins := map_cancel (fun i _ j _ hij => by
    have htext : i.text = j.text := List.append_cancel_left hij
    exact Join.text_free i j (htext ▸ List.prefix_rfl)) hjoins
  have hfilters' : p.top.filters = q.top.filters := map_cancel (fun f hf g hg hfg =>
    Filter.text_injective (hp.filters f hf) (hq.filters g hg) (List.append_cancel_left hfg))
    hfilters
  have horder' : p.top.order = q.top.order := Order.lines_injective hp.order hq.order horder
  calc p.top = ⟨p.top.joins, p.top.filters, p.top.order⟩ := rfl
    _ = ⟨q.top.joins, q.top.filters, q.top.order⟩ := by rw [hjoins', hfilters', horder']
    _ = q.top := rfl

theorem inner_eq_of_treeLines {p q : Plan} (h : p.treeLines = q.treeLines) :
    p.inner?.map treeLines = q.inner?.map treeLines := by
  have hblocks := blocks_eq_of_treeLines h
  simp only [blocks, List.cons.injEq, Prod.mk.injEq, true_and, and_true] at hblocks
  obtain ⟨-, -, hmark, hinner, -⟩ := hblocks
  -- The line above an inner plan tells whether there is one, the margin which lines are its own.
  cases hp : p.inner? with
  | none =>
    cases hq : q.inner? with
    | none => rfl
    | some q' =>
      rw [hp, hq] at hmark
      cases hmark
  | some p' =>
    cases hq : q.inner? with
    | none =>
      rw [hp, hq] at hmark
      cases hmark
    | some q' =>
      rw [hp, hq, Option.toList_some, Option.toList_some, List.flatMap_singleton,
        List.flatMap_singleton] at hinner
      exact congrArg some (map_cancel (fun _ _ _ _ => List.append_cancel_left) hinner)

theorem treeLines_injective {p q : Plan} (hp : ∀ l ∈ p.levels, l.Spelled)
    (hq : ∀ l ∈ q.levels, l.Spelled) (h : p.treeLines = q.treeLines) : p = q := by
  induction p generalizing q with
  | only l =>
    have htop : l = q.top := top_eq_of_treeLines (hp _ (top_mem_levels _)) (hq _ q.top_mem_levels) h
    have hinner := inner_eq_of_treeLines h
    cases q with
    | only m => exact congrArg only htop
    | within m q => cases hinner
  | within l p ih =>
    have htop : l = q.top := top_eq_of_treeLines (hp _ (top_mem_levels _)) (hq _ q.top_mem_levels) h
    have hinner := inner_eq_of_treeLines h
    cases q with
    | only m => cases hinner
    | within m q =>
      have hpq : p = q := ih (fun n hn => hp n (List.mem_cons_of_mem l hn))
        (fun n hn => hq n (List.mem_cons_of_mem m hn)) (Option.some.inj hinner)
      exact congrArg₂ within htop hpq

end Plan

/-! All that a tree shows can be seen, so that its lines are not broken. -/

theorem shown_of_isName {name : Text} (h : IsName name) : Shown name := by
  intro c hc
  rcases h.mem hc with hc | rfl | rfl
  · exact Nat.le_trans (by decide) (toNat_of_isNameChar hc).1
  · decide
  · decide

theorem shown_patternList {ps : List Pattern} (h : Spelled ps) : Shown (patternList ps) := by
  obtain ⟨names, ⟨-, hnames⟩, rfl⟩ := h
  have hjoin : Shown (Text.join ", " (names.map id)) := by
    rw [List.map_id]
    exact .join (by decide) fun n hn => shown_of_isName (hnames n hn)
  rw [← List.append_nil (patternList _), patternList_ofText]
  simp only [shown_append]
  exact ⟨by decide, hjoin, by decide, nofun⟩

theorem Column.shown_text (c : Column) : Shown c.text := by cases c <;> decide

theorem Filter.shown_text {f : Filter} (h : Spelled f.patterns) : Shown f.text := by
  simp only [text, shown_append]
  exact ⟨⟨f.column.shown_text, by decide⟩, shown_patternList h⟩

theorem Key.shown_text {k : Key} (h : k.Spelled) : Shown k.text := by
  cases k with
  | column c => exact c.shown_text
  | rank c ps =>
    rw [← List.append_nil (rank c ps).text, rank_text_append]
    simp only [shown_append]
    exact ⟨by decide, c.shown_text, by decide, shown_patternList h, by decide, nofun⟩

theorem Order.shown_lines {o : Order} (h : o.Spelled) : ∀ t ∈ o.lines, Shown t := by
  match o with
  | .random => decide
  | .keys [] => nofun
  | .keys (k :: ks) =>
    intro t ht
    rw [List.mem_singleton.1 ht, shown_append]
    refine ⟨by decide, .join (by decide) fun u hu => ?_⟩
    obtain ⟨l, hl, rfl⟩ := List.mem_map.1 hu
    exact Key.shown_text (h l hl)

theorem shown_map {α : Type} (tag : Text) (htag : Shown tag) {f : α → Text} {as : List α}
    (h : ∀ a ∈ as, Shown (f a)) : ∀ t ∈ as.map (tag ++ f ·), Shown t := by
  intro t ht
  obtain ⟨a, ha, rfl⟩ := List.mem_map.1 ht
  exact shown_append.2 ⟨htag, h a ha⟩

namespace Plan

theorem shown_level {l : Level} (hl : l.Spelled) {inner : List Text}
    (hinner : ∀ t ∈ inner, Shown t) : ∀ t ∈ treeLines.lines l inner, Shown t := by
  have hjoins : ∀ j ∈ l.joins, Shown j.text := fun j _ => by cases j <;> decide
  have hfilters : ∀ f ∈ l.filters, Shown f.text := fun f hf => Filter.shown_text (hl.filters f hf)
  simp only [treeLines.lines, List.forall_mem_append]
  exact ⟨⟨⟨⟨by decide, shown_map _ (by decide) hjoins⟩, shown_map _ (by decide) hfilters⟩, hinner⟩,
    Order.shown_lines hl.order⟩

theorem shown_treeLines {p : Plan} (hp : ∀ l ∈ p.levels, l.Spelled) :
    ∀ t ∈ p.treeLines, Shown t := by
  induction p with
  | only l => exact shown_level (hp l List.mem_cons_self) nofun
  | within l p ih =>
    have hinner := shown_map "    ".toList (by decide)
      (ih fun m hm => hp m (List.mem_cons_of_mem l hm))
    exact shown_level (hp l List.mem_cons_self) (List.forall_mem_cons.2 ⟨by decide, hinner⟩)

theorem lines_tree {p : Plan} (hp : ∀ l ∈ p.levels, l.Spelled) :
    Text.lines p.tree = p.treeLines := Text.lines_flatMap (shown_treeLines hp)

theorem treeLines_ne_nil (p : Plan) : p.treeLines ≠ [] := by
  rw [treeLines_eq]
  exact List.cons_ne_nil _ _

theorem splitOn_indent_tree {p : Plan} (hp : ∀ l ∈ p.levels, l.Spelled) :
    (Style.indent p.tree).splitOn '\n' = p.treeLines.map (Style.margin ++ ·) := by
  have hshown := shown_map Style.margin (by decide) (shown_treeLines hp)
  rw [Style.indent, lines_tree hp]
  exact List.splitOn_intercalate '\n' (fun t ht => (hshown t ht).not_mem (by decide))
    (by simpa using p.treeLines_ne_nil)

theorem indent_tree_injective {p q : Plan} (hp : ∀ l ∈ p.levels, l.Spelled)
    (hq : ∀ l ∈ q.levels, l.Spelled) (h : Style.indent p.tree = Style.indent q.tree) : p = q := by
  have hlines := congrArg (List.splitOn '\n') h
  rw [splitOn_indent_tree hp, splitOn_indent_tree hq] at hlines
  exact treeLines_injective hp hq (map_cancel (fun _ _ _ _ => List.append_cancel_left) hlines)

end Plan

namespace Query

theorem spelled_of_compile {t : Text} {ps : List Plan} (h : compile t = .ok ps) {p : Plan}
    (hp : p ∈ ps) : ∀ l ∈ p.levels, l.Spelled := by
  unfold compile at h
  cases hq : parse t with
  | error e =>
    rw [hq] at h
    cases h
  | ok q =>
    rw [hq] at h
    cases h
    exact spelled_plans (wellFormed_of_parse hq) hp

/-- The tree of a plan of a query is that of no other plan, also with the margin with which it is
shown. So what is shown tells the statement that is run. -/
theorem tree_determines_plan {t u : Text} {ps qs : List Plan} (ht : compile t = .ok ps)
    (hu : compile u = .ok qs) {p q : Plan} (hp : p ∈ ps) (hq : q ∈ qs) :
    (p.tree = q.tree → p = q) ∧
      (Style.indent p.tree = Style.indent q.tree → p.statement = q.statement) := by
  have hpq := Plan.indent_tree_injective (spelled_of_compile ht hp) (spelled_of_compile hu hq)
  exact ⟨fun h => hpq (congrArg Style.indent h), fun h => congrArg Plan.statement (hpq h)⟩

/-- A selection that narrows another is not shuffled, and nothing is said of it in the tree. -/
theorem tree_determines_plan_shuffled :
    ∃ p q, compile "a by ^b$, c and d".toList = .ok [p] ∧
      compile "a by ^b$ ,c and d shuffle".toList = .ok [q] ∧
      p.tree = q.tree ∧ p = q ∧ Style.indent p.tree = Style.indent q.tree ∧
      p.statement = q.statement := by
  let first : Selection := ⟨[['a']], none, false, some ["^b$".toList, ['c']], false⟩
  let plan (shuffle : Bool) : Plan :=
    firstPlan (.link first .and (.last ⟨[['d']], none, false, none, shuffle⟩))
  have hplain : compile "a by ^b$, c and d".toList = .ok [plan false] := by decide +kernel
  have hshuffled : compile "a by ^b$ ,c and d shuffle".toList = .ok [plan true] := by decide +kernel
  have htree : (plan false).tree = (plan true).tree := by decide +kernel
  have hindent : Style.indent (plan false).tree = Style.indent (plan true).tree :=
    congrArg Style.indent htree
  obtain ⟨hplan, hstatement⟩ :=
    tree_determines_plan hplain hshuffled List.mem_cons_self List.mem_cons_self
  exact ⟨_, _, hplain, hshuffled, htree, hplan htree, hindent, hstatement hindent⟩

end Query

end Jukebox
