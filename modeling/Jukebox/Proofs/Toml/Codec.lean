import Jukebox.Proofs.Toml.Laws
import Jukebox.Proofs.Toml.Written
import Jukebox.Toml.Writer

/-!
The reader and the writer keep what is relied on. Each line that is written takes the document that
is read so far one step on, and so a plain document is built up again in the order in which it was
written.
-/

set_option autoImplicit false

namespace Jukebox.Toml

/-! Entries that are put behind those which are there. -/

namespace Branch

variable {kind : TableKind} {front : List (Text × Node)} {key : Text}

theorem filter_keys (h : key ∉ front.map Prod.fst) : front.filter (·.1 ≠ key) = front := by
  refine List.filter_eq_self.2 fun e he => decide_eq_true ?_
  rintro rfl
  exact h (List.mem_map_of_mem he)

theorem lookup_of_not_mem (h : key ∉ front.map Prod.fst) : front.lookup key = none := by
  refine List.lookup_eq_none_iff.2 fun e he => bne_iff_ne.2 ?_
  rintro rfl
  exact h (List.mem_map_of_mem he)

theorem get?_last (h : key ∉ front.map Prod.fst) (n : Node) :
    (⟨kind, front ++ [(key, n)]⟩ : Branch).get? key = some n := by
  rw [get?, List.lookup_append, lookup_of_not_mem h, Option.none_or]
  exact List.lookup_cons_self

theorem put_new (h : key ∉ front.map Prod.fst) (n : Node) :
    (⟨kind, front⟩ : Branch).put key n = ⟨kind, front ++ [(key, n)]⟩ := by
  rw [put, erase, filter_keys h]

theorem put_last (h : key ∉ front.map Prod.fst) (m n : Node) :
    (⟨kind, front ++ [(key, m)]⟩ : Branch).put key n = ⟨kind, front ++ [(key, n)]⟩ := by
  rw [put, erase, List.filter_append, filter_keys h]
  simp

end Branch

namespace Document

/-- A document with a section that is open. -/
def within (front : List (Text × Node)) (name : Text) (entries : List (Text × Node)) : Document :=
  ⟨⟨.opened, front ++ [(name, .table .opened entries)]⟩, [name]⟩

variable {front entries : List (Text × Node)} {key name : Text}

theorem openHeader_new (h : name ∉ front.map Prod.fst) (header : List Text) :
    (⟨⟨.opened, front⟩, header⟩ : Document).openHeader false [name] =
      some (within front name []) := by
  have hopen : Branch.openKey name ⟨.opened, front⟩ =
      some ⟨.opened, front ++ [(name, .table .opened [])]⟩ := by
    rw [Branch.openKey, Branch.get?, Branch.lookup_of_not_mem h]
    exact congrArg some (Branch.put_new h _)
  change (Branch.openKey name ⟨.opened, front⟩).bind _ = _
  rw [hopen]
  rfl

theorem assign_new (h : name ∉ front.map Prod.fst) (hkey : key ∉ entries.map Prod.fst) (n : Node) :
    (within front name entries).assign [key] n =
      some (within front name (entries ++ [(key, n)])) := by
  have hdefine : Branch.assign [key] n ⟨.opened, entries⟩ =
      some ⟨.opened, entries ++ [(key, n)]⟩ := by
    rw [Branch.assign, Branch.define, Branch.get?, Branch.lookup_of_not_mem hkey]
    exact congrArg some (Branch.put_new hkey n)
  have hdescend : Branch.descend [name] (Branch.assign [key] n)
      ⟨.opened, front ++ [(name, .table .opened entries)]⟩ =
        some ⟨.opened, front ++ [(name, .table .opened (entries ++ [(key, n)]))]⟩ := by
    rw [Branch.descend, Branch.get?_last h]
    dsimp only
    rw [Branch.descend, hdefine]
    exact congrArg some (Branch.put_last h _ _)
  rw [assign, within, hdescend]
  rfl

end Document

/-! What a reading of lines does to a document. -/

/-- Reading the text takes a document to another one, with no more steps than there are characters.
-/
def Takes (w : Text) (d d' : Document) : Prop :=
  ∃ k ≤ w.length, ∀ n rest, lines? (n + k) d (w ++ rest) = lines? n d' rest

namespace Takes

variable {w w' : Text} {d d' d'' : Document}

theorem refl (d : Document) : Takes [] d d := ⟨0, Nat.le_refl 0, fun _ _ => rfl⟩

theorem append (h : Takes w d d') (h' : Takes w' d' d'') : Takes (w ++ w') d d'' := by
  obtain ⟨k, hk, hread⟩ := h
  obtain ⟨k', hk', hread'⟩ := h'
  refine ⟨k' + k, ?_, fun n rest => ?_⟩
  · rw [List.length_append]
    omega
  · rw [← Nat.add_assoc, List.append_assoc, hread, hread']

theorem lineBreak (h : Takes w d d') : Takes ('\n' :: w) d d' := by
  obtain ⟨k, hk, hread⟩ := h
  refine ⟨k, Nat.le_succ_of_le hk, fun n rest => ?_⟩
  rw [← hread]
  cases n + k <;> rfl

theorem header {key : Text} (hkey : isBareKey key) (h : d.openHeader false [key] = some d') :
    Takes (['['] ++ key ++ "]\n".toList) d d' := by
  refine ⟨1, by simp, fun n rest => lines?_header (t := _ ++ rest) hkey ?_ h⟩
  simp only [List.append_assoc]
  rfl

theorem setting {key : Text} {n : Node} (hkey : isBareKey key)
    (hskip : ∀ rest, skipSpace (w ++ rest) = w ++ rest)
    (hread : ∀ rest, value? maxDepth (w ++ '\n' :: rest) = some (n, '\n' :: rest))
    (h : d.assign [key] n = some d') : Takes (key ++ " = ".toList ++ w ++ ['\n']) d d' := by
  have hlength : 1 ≤ (key ++ " = ".toList ++ w ++ ['\n']).length := by
    rw [List.length_append]
    exact Nat.le_add_left 1 _
  refine ⟨1, hlength, fun m rest => ?_⟩
  rw [List.append_assoc _ ['\n'], List.singleton_append, List.append_assoc _ w]
  exact lines?_setting hkey (hskip _) (hread rest) h

end Takes

/-! Settings and sections, one after the other. -/

theorem mapM_text? (ts : List Text) : (ts.map Value.text).mapM Value.text? = some ts := by
  induction ts with
  | nil => rfl
  | cons t ts ih =>
    rw [List.map_cons, List.mapM_cons, ih]
    rfl

theorem values_texts (ts : List Text) : values (ts.map .text) = ts.map .text := by
  induction ts with
  | nil => rfl
  | cons t ts ih => rw [List.map_cons, values, ih]; rfl

theorem valueEntries_append (front back : List (Text × Node)) :
    valueEntries (front ++ back) = valueEntries front ++ valueEntries back := by
  induction front with
  | nil => rfl
  | cons e front ih => exact congrArg ((e.1, e.2.value) :: ·) ih

theorem Value.IsSetting.written {v : Value} (h : v.IsSetting) :
    ∃ w n, writeValue? v = some w ∧ n.value = v ∧ (∀ rest, skipSpace (w ++ rest) = w ++ rest) ∧
      ∀ rest, value? maxDepth (w ++ '\n' :: rest) = some (n, '\n' :: rest) := by
  cases h with
  | text t =>
    exact ⟨writeText t, .text t, rfl, rfl, skipSpace_writeText t, fun rest =>
      value?_writeText _ t (unquoted_cons (by decide) rest)⟩
  | texts ts =>
    refine ⟨writeList ts, .array (ts.map .text), ?_, ?_, skipSpace_writeList ts, fun rest =>
      value?_writeList _ ts _⟩
    · rw [writeValue?, mapM_text?, Option.map_some]
    · rw [Node.value, values_texts]

theorem takes_settings {front : List (Text × Node)} {name : Text}
    (hname : name ∉ front.map Prod.fst) {entries : List (Text × Value)}
    (before : List (Text × Node))
    (hkeys : (before.map Prod.fst ++ entries.map Prod.fst).Nodup)
    (hbare : ∀ e ∈ entries, isBareKey e.1) (hset : ∀ e ∈ entries, e.2.IsSetting) :
    ∃ ws nodes, entries.mapM writeSetting? = some ws ∧ valueEntries nodes = entries ∧
      Takes ws.flatten (.within front name before) (.within front name (before ++ nodes)) := by
  induction entries generalizing before with
  | nil => exact ⟨[], [], rfl, rfl, by simpa using Takes.refl _⟩
  | cons e entries ih =>
    obtain ⟨key, v⟩ := e
    obtain ⟨hkey, hbare⟩ := List.forall_mem_cons.1 hbare
    obtain ⟨hv, hset⟩ := List.forall_mem_cons.1 hset
    obtain ⟨w, n, hw, hn, hskip, hread⟩ := hv.written
    have hnew : key ∉ before.map Prod.fst := fun hm =>
      (List.nodup_append.1 hkeys).2.2 key hm key List.mem_cons_self rfl
    have hrest : ((before ++ [(key, n)]).map Prod.fst ++ entries.map Prod.fst).Nodup := by
      simpa using hkeys
    obtain ⟨ws, nodes, hws, hnodes, htakes⟩ := ih (before ++ [(key, n)]) hrest hbare hset
    have hline : writeSetting? (key, v) = some (key ++ " = ".toList ++ w ++ ['\n']) := by
      rw [writeSetting?, if_pos hkey, hw, Option.map_some]
    refine ⟨(key ++ " = ".toList ++ w ++ ['\n']) :: ws, (key, n) :: nodes, ?_, ?_, ?_⟩
    · rw [List.mapM_cons, hline, hws]
      rfl
    · rw [valueEntries, hn, hnodes]
    · have hfirst := Takes.setting hkey hskip hread (Document.assign_new hname hnew n)
      rw [List.append_assoc, List.singleton_append] at htakes
      exact hfirst.append htakes

theorem takes_section {front : List (Text × Node)} {name : Text} {v : Value}
    (hname : name ∉ front.map Prod.fst) (hbare : isBareKey name) (hv : v.IsSection)
    (header : List Text) : ∃ w n, writeSection? (name, v) = some ('[' :: w) ∧ n.value = v ∧
      Takes ('[' :: w) ⟨⟨.opened, front⟩, header⟩ ⟨⟨.opened, front ++ [(name, n)]⟩, [name]⟩ := by
  obtain ⟨hkeys, hset⟩ := hv
  obtain ⟨ws, nodes, hws, hnodes, htakes⟩ :=
    takes_settings hname [] hkeys.nodup (List.forall_mem_map.1 hkeys.bare) hset
  refine ⟨name ++ "]\n".toList ++ ws.flatten, .table .opened nodes, ?_, ?_, ?_⟩
  · rw [writeSection?, if_pos hbare, hws]
    rfl
  · rw [Node.value, hnodes]
  · exact (Takes.header hbare (Document.openHeader_new hname header)).append htakes

theorem takes_sections {entries : List (Text × Value)} (front : List (Text × Node))
    (hkeys : (front.map Prod.fst ++ entries.map Prod.fst).Nodup)
    (hbare : ∀ e ∈ entries, isBareKey e.1) (hset : ∀ e ∈ entries, e.2.IsSection)
    (header : List Text) :
    ∃ ws nodes last, entries.mapM writeSection? = some ws ∧ valueEntries nodes = entries ∧
      Takes (ws.flatMap ('\n' :: ·)) ⟨⟨.opened, front⟩, header⟩
        ⟨⟨.opened, front ++ nodes⟩, last⟩ := by
  induction entries generalizing front header with
  | nil => exact ⟨[], [], header, rfl, rfl, by simpa using Takes.refl _⟩
  | cons e entries ih =>
    obtain ⟨name, v⟩ := e
    obtain ⟨hname, hbare⟩ := List.forall_mem_cons.1 hbare
    obtain ⟨hv, hset⟩ := List.forall_mem_cons.1 hset
    have hnew : name ∉ front.map Prod.fst := fun hm =>
      (List.nodup_append.1 hkeys).2.2 name hm name List.mem_cons_self rfl
    obtain ⟨w, n, hw, hn, hfirst⟩ := takes_section hnew hname hv header
    have hrest : ((front ++ [(name, n)]).map Prod.fst ++ entries.map Prod.fst).Nodup := by
      simpa using hkeys
    obtain ⟨ws, nodes, last, hws, hnodes, htakes⟩ :=
      ih (front ++ [(name, n)]) hrest hbare hset [name]
    refine ⟨('[' :: w) :: ws, (name, n) :: nodes, last, ?_, ?_, ?_⟩
    · rw [List.mapM_cons, hw, hws]
      rfl
    · rw [valueEntries, hn, hnodes]
    · rw [List.append_assoc, List.singleton_append] at htakes
      exact hfirst.lineBreak.append htakes

theorem lines?_nil (n : Nat) (d : Document) : lines? n d [] = some d := by
  cases n <;> rfl

theorem Takes.read {w : Text} {d : Document} (h : Takes w .empty d)
    (hmark : w.head? ≠ some '\uFEFF') : read? w = some d.root.table := by
  obtain ⟨k, hk, hread⟩ := h
  have hall := hread (w.length - k) []
  rw [Nat.sub_add_cancel hk, List.append_nil, lines?_nil] at hall
  rw [read?, if_neg (by simpa using hmark), hall]
  rfl

theorem join_cons (w : Text) (ws : List Text) :
    Text.join "\n" (w :: ws) = w ++ ws.flatMap ('\n' :: ·) := by
  induction ws generalizing w with
  | nil => simp [Text.join]
  | cons u ws ih =>
    have hcons : Text.join "\n" (w :: u :: ws) = w ++ '\n' :: Text.join "\n" (u :: ws) := by
      simp [Text.join, List.intercalate_cons_cons]
    rw [hcons, ih, List.flatMap_cons, List.cons_append]

theorem read?_write? {t : Table} (h : t.IsPlain) :
    ∃ w, write? t = some w ∧ read? w = some t := by
  obtain ⟨entries⟩ := t
  have hbare := List.forall_mem_map.1 h.keys.bare
  have hset := h.sections
  have hkeys : (entries.map Prod.fst).Nodup := h.keys.nodup
  cases entries with
  | nil => exact ⟨[], rfl, rfl⟩
  | cons e entries =>
    obtain ⟨name, v⟩ := e
    obtain ⟨hname, hbare⟩ := List.forall_mem_cons.1 hbare
    obtain ⟨hv, hset⟩ := List.forall_mem_cons.1 hset
    have hnew : name ∉ ([] : List (Text × Node)).map Prod.fst := nofun
    obtain ⟨w, n, hw, hn, hfirst⟩ := takes_section hnew hname hv []
    obtain ⟨ws, nodes, last, hws, hnodes, htakes⟩ :=
      takes_sections [(name, n)] hkeys hbare hset [name]
    refine ⟨Text.join "\n" (('[' :: w) :: ws), ?_, ?_⟩
    · rw [write?, List.mapM_cons, hw, hws]
      rfl
    · rw [join_cons, (hfirst.append htakes).read (by simp)]
      exact congrArg (fun es => some (⟨es⟩ : Table))
        ((valueEntries_append [(name, n)] nodes).trans (by rw [hnodes, valueEntries, hn]; rfl))

theorem codec_roundTrips : codec.RoundTrips := fun t h =>
  let ⟨w, hw, hr⟩ := read?_write? h
  ⟨w, hw, t, hr, .refl h⟩

/-! Comments. -/

theorem skipComment_line {l : Text} (hl : ∀ c ∈ l, isPlain c) (rest : Text) :
    skipGap.skipComment (l ++ '\n' :: rest) = skipGap rest := by
  induction l with
  | nil =>
    rw [List.nil_append, skipGap.skipComment]
    rfl
  | cons c l ih =>
    have hc : isPlain c := hl c List.mem_cons_self
    have hbreak : (c == '\n') = false := by
      rw [beq_eq_false_iff_ne]
      rintro rfl
      cases hc
    rw [List.cons_append, skipGap.skipComment, hbreak, hc]
    exact ih fun c hc => hl c (List.mem_cons_of_mem _ hc)

theorem skipGap_comments {lines : List Text}
    (h : ∀ l ∈ lines, l = [] ∨ ∃ comment, l = '#' :: comment ∧ comment.all isPlain) :
    skipGap (lines.flatMap (· ++ ['\n'])) = [] := by
  induction lines with
  | nil => rfl
  | cons l lines ih =>
    obtain ⟨hl, hlines⟩ := List.forall_mem_cons.1 h
    rw [List.flatMap_cons, List.append_assoc, List.singleton_append]
    rcases hl with rfl | ⟨comment, rfl, hcomment⟩
    · exact ih hlines
    · rw [List.cons_append, skipGap]
      exact (skipComment_line (List.all_eq_true.1 hcomment) _).trans (ih hlines)

theorem codec_skipsComments : codec.SkipsComments := by
  intro lines h
  have hgap := skipGap_comments h
  have hmark : (lines.flatMap (· ++ ['\n'])).head? ≠ some '\uFEFF' := by
    intro hm
    generalize lines.flatMap (· ++ ['\n']) = t at hgap hm
    cases t with
    | nil => cases hm
    | cons c t =>
      obtain rfl := Option.some.inj hm
      cases hgap
  have hread (n : Nat) : lines? n .empty (lines.flatMap (· ++ ['\n'])) = some .empty := by
    cases n with
    | zero => rw [lines?, hgap, List.isEmpty_nil, if_pos rfl]
    | succ n => rw [lines?, hgap]
  change read? _ = _
  rw [read?, if_neg (by simpa using hmark), hread]
  rfl

end Jukebox.Toml
