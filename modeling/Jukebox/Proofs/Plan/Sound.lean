import Jukebox.Plan.OfQuery
import Jukebox.Plan.Sound
import Jukebox.Proofs.Query.WellFormed

set_option autoImplicit false

namespace Jukebox

theorem Column.isIn_append {c : Column} {joined : List Join} (h : c.isIn joined)
    (around : List Join) : c.isIn (joined ++ around) := by
  unfold isIn at h ⊢
  cases hj : c.join? with
  | none => rfl
  | some j =>
    rw [hj] at h
    exact decide_eq_true (List.mem_append_left around (of_decide_eq_true h))

/-- A level that stands by itself: it joins no table twice and filters no column twice, and where it
filters or sorts it has the column and some pattern. -/
structure Level.Closed (l : Level) : Prop where
  joins : l.joins.Nodup
  columns : (l.filters.map Filter.column).Nodup
  filters : ∀ f ∈ l.filters, f.column.isIn l.joins ∧ f.patterns ≠ []
  order : l.order.sound l.joins

theorem Level.Closed.unordered {l : Level} (h : l.Closed) : l.unordered.Closed :=
  ⟨h.joins, h.columns, h.filters, rfl⟩

theorem Level.Closed.sound {l : Level} (h : l.Closed) (around : List Join) : l.sound around := by
  have hfilters : l.filters.all (Filter.sound (l.joins ++ around)) := by
    rw [List.all_eq_true]
    intro f hf
    obtain ⟨hc, hp⟩ := h.filters f hf
    simp [Filter.sound, Column.isIn_append hc around, hp]
  rw [Level.sound, decide_eq_true h.joins, hfilters]
  rfl

namespace Plan

variable {p : Plan}

theorem mem_levels_unordered {l : Level} (h : l ∈ p.unordered.levels) :
    l ∈ p.levels ∨ ∃ m ∈ p.levels, l = m.unordered := by
  cases p with
  | only m => exact .inr ⟨m, List.mem_cons_self, List.mem_singleton.1 h⟩
  | within m inner =>
    rcases List.mem_cons.1 h with rfl | h
    · exact .inr ⟨m, List.mem_cons_self, rfl⟩
    · exact .inl (List.mem_cons_of_mem m h)

theorem soundIn_of_closed (h : ∀ l ∈ p.levels, l.Closed) (around : List Join) :
    p.soundIn around := by
  induction p generalizing around with
  | only l => exact (h l List.mem_cons_self).sound around
  | within l inner ih =>
    have hinner := ih (fun m hm => h m (List.mem_cons_of_mem l hm)) (l.joins ++ around)
    rw [soundIn, (h l List.mem_cons_self).sound around, hinner]
    rfl

theorem top_mem_levels (p : Plan) : p.top ∈ p.levels := by
  cases p <;> exact List.mem_cons_self

theorem sound_of_closed (h : ∀ l ∈ p.levels, l.Closed) : p.sound := by
  rw [sound, (h p.top p.top_mem_levels).order, soundIn_of_closed h]
  rfl

end Plan

/-- The names that a clause asks for. It asks for none if every value matches one of them. -/
def asked? (names? : Option (List Text)) : Option (List Text) :=
  names?.filter (!·.contains matchAll)

theorem narrowing?_eq (names? : Option (List Text)) :
    narrowing? names? = (asked? names?).map (·.map Pattern.ofText) := by
  cases names? with
  | none => rfl
  | some names =>
    by_cases h : matchAll ∈ names
    · simp [narrowing?, asked?, Option.filter, h]
    · simp [narrowing?, asked?, Option.filter, h]

theorem exists_writable_of_narrowing? {names? : Option (List Text)} {ps : List Pattern}
    (hw : ∀ names, names? = some names → Writable names) (h : narrowing? names? = some ps) :
    ∃ names, Writable names ∧ ps = names.map Pattern.ofText := by
  rw [narrowing?_eq] at h
  obtain ⟨names, hn, rfl⟩ := Option.map_eq_some_iff.1 h
  exact ⟨names, hw names (Option.filter_eq_some_iff.1 hn).1, rfl⟩

theorem narrowing?_ne_nil {names? : Option (List Text)} {ps : List Pattern}
    (hw : ∀ names, names? = some names → Writable names) (h : narrowing? names? = some ps) :
    ps ≠ [] := by
  obtain ⟨names, hnames, rfl⟩ := exists_writable_of_narrowing? hw h
  simpa using hnames.1

namespace Selection

theorem titleFilters_sound (s : Selection) (joined : List Join) :
    s.titleFilters.all (Filter.sound joined) := by
  unfold titleFilters
  split
  · rfl
  · next names hne => simpa [Filter.sound, Column.isIn, Column.join?] using hne

theorem mem_narrowings {s : Selection} {n : Narrowing} :
    n ∈ s.narrowings ↔ s.byAlbum? = some n ∨ s.byArtist? = some n := by
  simp [narrowings, Option.mem_toList]

theorem narrowing_sound {s : Selection} (h : s.WellFormed) {n : Narrowing} (hn : n ∈ s.narrowings)
    {joined : List Join} (hj : n.join ∈ joined) :
    n.filter.sound joined ∧ n.keys.all (Key.sound joined) := by
  rcases mem_narrowings.1 hn with hn | hn
  · obtain ⟨ps, hps, rfl⟩ := Option.map_eq_some_iff.1 hn
    have hne := narrowing?_ne_nil h.albums hps
    have halbums : Join.albums ∈ joined := hj
    cases s.ordered <;>
      simp [Filter.sound, Key.sound, Column.isIn, Column.join?, halbums, hne]
  · obtain ⟨ps, hps, rfl⟩ := Option.map_eq_some_iff.1 hn
    have hne := narrowing?_ne_nil h.artists hps
    have hartists : Join.artists ∈ joined := hj
    simp [Filter.sound, Key.sound, Column.isIn, Column.join?, hartists, hne]

theorem joins_nodup (s : Selection) : s.level.joins.Nodup := by
  cases ha : narrowing? s.albums <;> cases hb : narrowing? s.artists <;>
    simp [level, narrowings, byAlbum?, byArtist?, ha, hb]

theorem join_mem {s : Selection} {n : Narrowing} (hn : n ∈ s.narrowings) :
    n.join ∈ s.level.joins := List.mem_map_of_mem hn

theorem order_sound {s : Selection} (h : s.WellFormed) : s.level.order.sound s.level.joins := by
  have hkeys : (s.narrowings.flatMap Narrowing.keys).all (Key.sound s.level.joins) := by
    rw [List.all_eq_true]
    intro k hk
    obtain ⟨n, hn, hk⟩ := List.mem_flatMap.1 hk
    exact List.all_eq_true.1 (narrowing_sound h hn (join_mem hn)).2 k hk
  have htitles : s.titleKeys.all (Key.sound s.level.joins) := by
    simp [titleKeys, Key.sound, Column.isIn, Column.join?, h.titles.1]
  cases hs : s.shuffle
  · simp only [level, hs] at hkeys htitles ⊢
    simp [Order.sound, List.all_append, hkeys, htitles]
  · simp [level, hs, Order.sound]

theorem columns_nodup (s : Selection) : (s.level.filters.map Filter.column).Nodup := by
  have htitles : s.titleFilters.map Filter.column = [] ∨
      s.titleFilters.map Filter.column = [.title] := by
    unfold titleFilters
    split
    · exact .inl rfl
    · exact .inr rfl
  cases ha : narrowing? s.albums <;> cases hb : narrowing? s.artists <;>
    obtain ht | ht := htitles <;>
      simp [level, narrowings, byAlbum?, byArtist?, ha, hb, ht]

theorem level_closed {s : Selection} (h : s.WellFormed) : s.level.Closed := by
  refine ⟨s.joins_nodup, s.columns_nodup, fun f hf => ?_, order_sound h⟩
  have hsound : f.sound s.level.joins := by
    rcases List.mem_append.1 hf with hf | hf
    · obtain ⟨n, hn, rfl⟩ := List.mem_map.1 hf
      exact (narrowing_sound h hn (join_mem hn)).1
    · exact List.all_eq_true.1 (s.titleFilters_sound s.level.joins) f hf
  simpa [Filter.sound] using hsound

end Selection

theorem Plan.soundIn_unordered (p : Plan) (around : List Join) :
    p.unordered.soundIn around = p.soundIn around := by
  cases p <;> rfl

namespace Query

theorem of_mem_levels_firstPlan {P : Level → Prop}
    (hlevel : ∀ s : Selection, s.WellFormed → P s.level)
    (hunordered : ∀ l, P l → P l.unordered) {q : Query} (h : q.WellFormed) :
    ∀ l ∈ q.firstPlan.levels, P l := by
  induction q with
  | last s =>
    intro l hl
    rw [List.mem_singleton.1 hl]
    exact hlevel s h
  | link s link rest ih =>
    intro l hl
    cases link with
    | or =>
      rw [List.mem_singleton.1 hl]
      exact hlevel s h.1
    | and =>
      rcases List.mem_cons.1 hl with rfl | hl
      · exact hlevel s h.1
      · rcases Plan.mem_levels_unordered hl with hl | ⟨m, hm, rfl⟩
        · exact ih h.2 l hl
        · exact hunordered m (ih h.2 m hm)

theorem closed_firstPlan {q : Query} (h : q.WellFormed) : ∀ l ∈ q.firstPlan.levels, l.Closed :=
  of_mem_levels_firstPlan (fun _ => Selection.level_closed) (fun _ => Level.Closed.unordered) h

theorem soundIn_firstPlan {q : Query} (h : q.WellFormed) (around : List Join) :
    q.firstPlan.soundIn around := Plan.soundIn_of_closed (closed_firstPlan h) around

theorem top_firstPlan (q : Query) : q.firstPlan.top = q.head.level := by
  cases q with
  | last s => rfl
  | link s l rest => cases l <;> rfl

theorem sound_firstPlan {q : Query} (h : q.WellFormed) : q.firstPlan.sound :=
  Plan.sound_of_closed (closed_firstPlan h)

/-- The query, and the query after each `or`, up to the first that does not go on with `or`. -/
def orChain : Query → List Query
  | .last s => [.last s]
  | .link s .and rest => [.link s .and rest]
  | .link s .or rest => .link s .or rest :: rest.orChain

theorem plans_eq (q : Query) : q.plans = q.orChain.map firstPlan := by
  induction q with
  | last s => rfl
  | link s l rest ih =>
    cases l with
    | and => rfl
    | or => rw [plans, orChain, List.map_cons, ih]

theorem WellFormed.of_mem_orChain {q n : Query} (h : q.WellFormed) (hn : n ∈ q.orChain) :
    n.WellFormed := by
  induction q with
  | last s =>
    obtain rfl := List.mem_singleton.1 hn
    exact h
  | link s l rest ih =>
    cases l with
    | and =>
      obtain rfl := List.mem_singleton.1 hn
      exact h
    | or =>
      rcases List.mem_cons.1 hn with rfl | hn
      · exact h
      · exact ih h.2 hn

theorem of_mem_levels {P : Level → Prop} (hlevel : ∀ s : Selection, s.WellFormed → P s.level)
    (hunordered : ∀ l, P l → P l.unordered) {q : Query} (h : q.WellFormed) {p : Plan}
    (hp : p ∈ q.plans) : ∀ l ∈ p.levels, P l := by
  rw [plans_eq] at hp
  obtain ⟨n, hn, rfl⟩ := List.mem_map.1 hp
  exact of_mem_levels_firstPlan hlevel hunordered (h.of_mem_orChain hn)

theorem closed_plans {q : Query} (h : q.WellFormed) {p : Plan} (hp : p ∈ q.plans) :
    ∀ l ∈ p.levels, l.Closed :=
  of_mem_levels (fun _ => Selection.level_closed) (fun _ => Level.Closed.unordered) h hp

def Unshuffled (q : Query) : Prop := ∀ n ∈ q.orChain, n.head.shuffle = false

instance (q : Query) : Decidable q.Unshuffled :=
  inferInstanceAs (Decidable (∀ n ∈ q.orChain, n.head.shuffle = false))

theorem order_ne_random {q : Query} (h : q.Unshuffled) {p : Plan} (hp : p ∈ q.plans) :
    p.top.order ≠ .random := by
  rw [plans_eq] at hp
  obtain ⟨n, hn, rfl⟩ := List.mem_map.1 hp
  rw [top_firstPlan, Selection.level, h n hn]
  nofun

end Query

end Jukebox
