import Jukebox.Stream

/-!
What can be told of a stream from outside. However it is looked into, walked along and read, it
answers as a list with a mark behind the items that were looked at last and not taken off yet: the
source and the buffer are not to be told apart.
-/

set_option autoImplicit false

namespace Jukebox

namespace Stream

variable {α : Type}

inductive Step where
  | next
  | peek (n : Nat)
  | peekOne
  | consume (n : Nat)
  | lookahead (n : Nat)
  | isExhausted
  deriving DecidableEq, Repr

inductive Answer (α : Type) where
  | item (x : Option α)
  | items (xs : List α)
  | walked (xs : List (Option α))
  | exhausted (b : Bool)
  | done
  deriving DecidableEq, Repr

def perform (s : Stream α) : Step → Answer α × Stream α
  | .next => s.next.map .item id
  | .peek n => (s.peek n).map .items id
  | .peekOne => s.peekOne.map .item id
  | .consume n => (.done, s.consume n)
  | .lookahead n => (s.lookahead n).map .walked id
  | .isExhausted => s.isExhausted.map .exhausted id

def runWith {σ : Type} (perform : σ → Step → Answer α × σ) : σ → List Step → List (Answer α) × σ
  | s, [] => ([], s)
  | s, step :: steps => (runWith perform (perform s step).2 steps).map ((perform s step).1 :: ·) id

/-- A list of which the first items, as many as the mark says, were looked at. -/
@[ext] structure Marked (α : Type) where
  rest : List α
  mark : Nat
  mark_le : mark ≤ rest.length

namespace Marked

def ofList (items : List α) : Marked α := ⟨items, 0, Nat.zero_le _⟩

def skip (n : Nat) (m : Marked α) : Marked α where
  rest := m.rest.drop n
  mark := m.mark - n
  mark_le := by
    rw [List.length_drop]
    exact Nat.sub_le_sub_right m.mark_le n

/-- Moves the mark behind that many items, unless it is further on. -/
def look (n : Nat) (m : Marked α) : Marked α where
  rest := m.rest
  mark := max m.mark (min n m.rest.length)
  mark_le := Nat.max_le.2 ⟨m.mark_le, Nat.min_le_right n _⟩

/-- Only marked items can be consumed. A walk goes on from each item but the last that it shows, as
far as there are items. -/
def perform (m : Marked α) : Step → Answer α × Marked α
  | .next => (.item m.rest.head?, m.skip 1)
  | .peek n => (.items (m.rest.take n), m.look n)
  | .peekOne => (.item m.rest.head?, m.look 1)
  | .consume n => (.done, m.skip (min n m.mark))
  | .lookahead 0 => (.walked [], m)
  | .lookahead (n + 1) =>
    (.walked ((List.range (n + 1)).map (m.rest[·]?)), (m.skip (min n m.rest.length)).look 1)
  | .isExhausted => (.exhausted m.rest.isEmpty, m.look 1)

/-- How many items a step takes off the list. -/
def takes (m : Marked α) : Step → Nat
  | .next => min 1 m.rest.length
  | .consume n => min n m.mark
  | .lookahead n => min (n - 1) m.rest.length
  | .peek _ | .peekOne | .isExhausted => 0

def takesAll : Marked α → List Step → Nat
  | _, [] => 0
  | m, step :: steps => m.takes step + (m.perform step).2.takesAll steps

variable (m : Marked α)

@[simp] theorem rest_skip (n : Nat) : (m.skip n).rest = m.rest.drop n := rfl

@[simp] theorem mark_skip (n : Nat) : (m.skip n).mark = m.mark - n := rfl

@[simp] theorem rest_look (n : Nat) : (m.look n).rest = m.rest := rfl

@[simp] theorem mark_look (n : Nat) : (m.look n).mark = max m.mark (min n m.rest.length) := rfl

theorem skip_skip (n k : Nat) : (m.skip n).skip k = m.skip (n + k) := by
  ext1
  · exact List.drop_drop
  · exact Nat.sub_sub m.mark n k

theorem skip_of_nil (h : m.rest = []) (n : Nat) : m.skip n = m := by
  have hmark := m.mark_le
  rw [h, List.length_nil] at hmark
  ext1
  · rw [rest_skip, h, List.drop_nil]
  · rw [mark_skip]
    omega

theorem skip_min (n : Nat) : m.skip (min n m.rest.length) = m.skip n := by
  have hmark := m.mark_le
  ext1
  · rw [rest_skip, rest_skip]
    rcases Nat.le_total n m.rest.length with h | h
    · rw [Nat.min_eq_left h]
    · rw [Nat.min_eq_right h, List.drop_length, List.drop_of_length_le h]
  · rw [mark_skip, mark_skip]
    omega

theorem look_skip_look (n : Nat) : ((m.look 1).skip n).look 1 = (m.skip n).look 1 := by
  ext1
  · rfl
  · simp only [mark_look, mark_skip, rest_look, rest_skip, List.length_drop]
    omega

theorem takes_le (step : Step) : m.takes step ≤ m.rest.length := by
  have hmark := m.mark_le
  cases step <;> simp only [takes] <;> omega

theorem rest_perform (step : Step) : (m.perform step).2.rest = m.rest.drop (m.takes step) := by
  cases step with
  | next => exact congrArg rest (m.skip_min 1).symm
  | consume n => rfl
  | lookahead n => cases n <;> rfl
  | peek n | peekOne | isExhausted => rfl

/-- What is left of the list is an end of it, with nothing missing but what the steps took off. -/
theorem rest_runWith (steps : List Step) :
    (runWith perform m steps).2.rest = m.rest.drop (m.takesAll steps) ∧
      m.takesAll steps ≤ m.rest.length := by
  induction steps generalizing m with
  | nil => exact ⟨rfl, Nat.zero_le _⟩
  | cons step steps ih =>
    obtain ⟨hrest, hle⟩ := ih (m.perform step).2
    have htakes := m.takes_le step
    rw [rest_perform, List.length_drop] at hle
    rw [rest_perform, List.drop_drop] at hrest
    exact ⟨hrest, by rw [takesAll]; omega⟩

end Marked

def view (s : Stream α) : Marked α where
  rest := s.toList
  mark := s.buffer.length
  mark_le := by
    rw [toList, List.length_append]
    exact Nat.le_add_right _ _

@[simp] theorem rest_view (s : Stream α) : s.view.rest = s.toList := rfl

theorem view_fill (n : Nat) (s : Stream α) : (s.fill n).view = s.view.look n := by
  ext1
  · exact s.toList_fill n
  · simp only [view, fill, Marked.look, toList, List.length_append, List.length_take]
    omega

theorem next_eq (s : Stream α) : s.next.1 = s.toList.head? ∧ s.next.2.view = s.view.skip 1 := by
  obtain ⟨_ | ⟨x, buffer⟩, source⟩ := s
  · cases source <;> exact ⟨rfl, rfl⟩
  · exact ⟨rfl, rfl⟩

theorem take_buffer_fill (n : Nat) (s : Stream α) : (s.fill n).buffer.take n = s.toList.take n := by
  have hmissing : n ≤ (s.fill n).buffer.length ∨ (s.fill n).source = [] := by
    simp only [fill, List.length_append, List.length_take, List.drop_eq_nil_iff]
    omega
  rw [← s.toList_fill n, toList]
  rcases hmissing with h | h
  · rw [List.take_append_of_le_length h]
  · rw [h, List.append_nil]

theorem peek_eq (n : Nat) (s : Stream α) :
    (s.peek n).1 = s.toList.take n ∧ (s.peek n).2.view = s.view.look n :=
  ⟨s.take_buffer_fill n, s.view_fill n⟩

theorem peekOne_eq (s : Stream α) :
    s.peekOne.1 = s.toList.head? ∧ s.peekOne.2.view = s.view.look 1 := by
  refine ⟨?_, s.view_fill 1⟩
  have hhead : s.peekOne.1 = (s.toList.take 1).head? := congrArg List.head? (s.peek_eq 1).1
  rw [hhead, List.head?_take, if_neg Nat.one_ne_zero]

theorem toList_peekOne (s : Stream α) : s.peekOne.2.toList = s.toList :=
  congrArg Marked.rest s.peekOne_eq.2

theorem isExhausted_eq (s : Stream α) :
    s.isExhausted.1 = s.toList.isEmpty ∧ s.isExhausted.2.view = s.view.look 1 := by
  refine ⟨?_, s.peekOne_eq.2⟩
  have hnone : s.isExhausted.1 = s.peekOne.1.isNone := rfl
  rw [hnone, s.peekOne_eq.1]
  cases s.toList <;> rfl

theorem view_consume (n : Nat) (s : Stream α) :
    (s.consume n).view = s.view.skip (min n s.buffer.length) := by
  ext1
  · simp only [consume, view, Marked.skip, toList, List.drop_append]
    rcases Nat.le_total n s.buffer.length with h | h
    · rw [Nat.min_eq_left h, Nat.sub_eq_zero_of_le h, List.drop_zero]
    · rw [Nat.min_eq_right h, List.drop_of_length_le h, List.drop_length, Nat.sub_self,
        List.drop_zero]
  · simp only [consume, view, Marked.skip, List.length_drop]
    omega

theorem view_consume_one {s : Stream α} (h : s.view.look 1 = s.view) :
    (s.consume 1).view = s.view.skip 1 := by
  rw [view_consume]
  by_cases hnil : s.toList = []
  · rw [Marked.skip_of_nil _ hnil, Marked.skip_of_nil _ hnil]
  · have hmark : max s.buffer.length (min 1 s.toList.length) = s.buffer.length :=
      congrArg Marked.mark h
    have hlength := List.length_pos_iff.2 hnil
    have hone : min 1 s.buffer.length = 1 := by omega
    rw [hone]

theorem view_peekOne_look (s : Stream α) : s.peekOne.2.view.look 1 = s.peekOne.2.view := by
  rw [s.peekOne_eq.2]
  exact s.view.look_skip_look 0

theorem toList_consume_peekOne (s : Stream α) : (s.peekOne.2.consume 1).toList = s.toList.tail := by
  have hrest := congrArg Marked.rest (view_consume_one s.view_peekOne_look)
  rw [rest_view, Marked.rest_skip, rest_view, toList_peekOne, List.drop_one] at hrest
  exact hrest

/-! Walking along a stream. -/

namespace Walk

structure Shown (w : Walk α) : Prop where
  pending : w.pending = !w.stream.toList.isEmpty
  marked : w.stream.view.look 1 = w.stream.view

theorem shown_peekOne (s : Stream α) : Shown ⟨s.peekOne.2, s.peekOne.1.isSome⟩ := by
  refine ⟨?_, s.view_peekOne_look⟩
  rw [s.toList_peekOne, s.peekOne_eq.1]
  cases s.toList <;> rfl

theorem shown_next (w : Walk α) : w.next.2.Shown := shown_peekOne _

theorem Shown.next {w : Walk α} (h : w.Shown) :
    w.next.1 = w.stream.toList[1]? ∧ w.next.2.stream.view = (w.stream.view.skip 1).look 1 := by
  -- What the walk reads before it goes on is the item that it has shown.
  have hread :
      (if w.pending then w.stream.consume 1 else w.stream).view = w.stream.view.skip 1 := by
    rw [h.pending]
    by_cases hnil : w.stream.toList = []
    · rw [hnil, Marked.skip_of_nil _ hnil]
      rfl
    · rw [if_pos (by simpa using hnil), view_consume_one h.marked]
  refine ⟨?_, ?_⟩
  · have hhead : w.next.1 = (if w.pending then w.stream.consume 1 else w.stream).peekOne.1 := rfl
    rw [hhead, (peekOne_eq _).1, ← rest_view, hread]
    exact List.head?_drop
  · rw [← hread]
    exact (peekOne_eq _).2

theorem Shown.steps {w : Walk α} (h : w.Shown) (n : Nat) :
    (w.steps n).1 = (List.range n).map (w.stream.toList[· + 1]?) ∧
      (w.steps n).2.stream.view = (w.stream.view.skip n).look 1 := by
  induction n generalizing w with
  | zero => exact ⟨rfl, h.marked.symm⟩
  | succ n ih =>
    obtain ⟨hitems, hview⟩ := ih w.shown_next
    have hcons : w.steps (n + 1) = (w.next.1 :: (w.next.2.steps n).1, (w.next.2.steps n).2) := rfl
    have hrest : w.next.2.stream.toList = w.stream.toList.drop 1 := congrArg Marked.rest h.next.2
    rw [hcons]
    refine ⟨?_, ?_⟩
    · rw [hitems, h.next.1, List.range_succ_eq_map, List.map_cons, List.map_map, hrest]
      refine congrArg _ (List.map_congr_left fun i _ => ?_)
      rw [List.getElem?_drop]
      exact congrArg (w.stream.toList[·]?) (Nat.add_comm 1 (i + 1))
    · rw [hview, h.next.2, Marked.look_skip_look, Marked.skip_skip, Nat.add_comm]

/-- The items in front of a walk: the one that it has shown is behind it. -/
inductive Ahead (w : Walk α) : List α → Prop
  | fresh (h : w.pending = false) : Ahead w w.stream.toList
  | shown (h : w.Shown) : Ahead w w.stream.toList.tail

theorem Ahead.next {w : Walk α} {xs : List α} (h : w.Ahead xs) :
    w.next.1 = xs.head? ∧ w.next.2.stream.toList = xs ∧ w.next.2.Ahead xs.tail := by
  have hread : w.next.1 = xs.head? ∧ w.next.2.stream.toList = xs := by
    cases h with
    | fresh h =>
      have hfresh :
          w.next = (w.stream.peekOne.1, ⟨w.stream.peekOne.2, w.stream.peekOne.1.isSome⟩) := by
        simp only [Walk.next, h, Bool.false_eq_true, if_false]
      rw [hfresh]
      exact ⟨w.stream.peekOne_eq.1, w.stream.toList_peekOne⟩
    | shown h =>
      obtain ⟨hitem, hview⟩ := h.next
      refine ⟨?_, ?_⟩
      · rw [hitem, ← List.drop_one, List.head?_drop]
      · rw [← List.drop_one]
        exact congrArg Marked.rest hview
  exact ⟨hread.1, hread.2, hread.2 ▸ .shown w.shown_next⟩

end Walk

theorem lookahead_succ_eq (n : Nat) (s : Stream α) :
    (s.lookahead (n + 1)).1 = (List.range (n + 1)).map (s.toList[·]?) ∧
      (s.lookahead (n + 1)).2.view = (s.view.skip n).look 1 := by
  have hstart : s.lookahead (n + 1) = (s.walk.next.1 :: (s.walk.next.2.steps n).1,
      (s.walk.next.2.steps n).2.stream) := rfl
  have hview : s.walk.next.2.stream.view = s.view.look 1 := s.peekOne_eq.2
  have hrest : s.walk.next.2.stream.toList = s.toList := congrArg Marked.rest hview
  obtain ⟨hitems, hleft⟩ := s.walk.shown_next.steps n
  rw [hstart]
  refine ⟨?_, ?_⟩
  · have hfirst : s.walk.next.1 = s.toList[0]? := s.peekOne_eq.1.trans List.head?_eq_getElem?
    rw [hitems, hfirst, hrest, List.range_succ_eq_map, List.map_cons, List.map_map]
    rfl
  · rw [hleft, hview, Marked.look_skip_look]

theorem perform_eq (s : Stream α) (step : Step) :
    (s.perform step).1 = (s.view.perform step).1 ∧
      (s.perform step).2.view = (s.view.perform step).2 := by
  cases step with
  | next => exact s.next_eq.imp_left (congrArg Answer.item)
  | peek n => exact (s.peek_eq n).imp_left (congrArg Answer.items)
  | peekOne => exact s.peekOne_eq.imp_left (congrArg Answer.item)
  | consume n => exact ⟨rfl, s.view_consume n⟩
  | lookahead n =>
    cases n with
    | zero => exact ⟨rfl, rfl⟩
    | succ n =>
      obtain ⟨hitems, hview⟩ := s.lookahead_succ_eq n
      refine ⟨congrArg Answer.walked hitems, hview.trans ?_⟩
      exact congrArg (Marked.look 1) (s.view.skip_min n).symm
  | isExhausted => exact s.isExhausted_eq.imp_left (congrArg Answer.exhausted)

theorem runWith_eq (s : Stream α) (steps : List Step) :
    (runWith perform s steps).1 = (runWith Marked.perform s.view steps).1 ∧
      (runWith perform s steps).2.view = (runWith Marked.perform s.view steps).2 := by
  induction steps generalizing s with
  | nil => exact ⟨rfl, rfl⟩
  | cons step steps ih =>
    obtain ⟨hanswer, hview⟩ := s.perform_eq step
    obtain ⟨hanswers, hleft⟩ := ih (s.perform step).2
    rw [hview] at hanswers hleft
    refine ⟨?_, hleft⟩
    have hcons : (runWith perform s (step :: steps)).1 =
      (s.perform step).1 :: (runWith perform (s.perform step).2 steps).1 := rfl
    rw [hcons, hanswer, hanswers]
    rfl

/-- Whatever steps are taken on a stream, they are answered as they would be on its items with a
mark, and what is left is an end of these items: none gets lost, comes twice or changes place. -/
theorem runWith_ofList (items : List α) (steps : List Step) :
    let s := runWith perform (ofList items) steps
    let m := runWith Marked.perform (Marked.ofList items) steps
    s.1 = m.1 ∧ s.2.toList = m.2.rest ∧ s.2.buffer.length = m.2.mark ∧
      (Marked.ofList items).takesAll steps ≤ items.length ∧
      s.2.toList = items.drop ((Marked.ofList items).takesAll steps) := by
  intro s m
  obtain ⟨hanswers, hview⟩ := (ofList items).runWith_eq steps
  obtain ⟨hrest, hle⟩ := (Marked.ofList items).rest_runWith steps
  have htoList : s.2.toList = m.2.rest := congrArg Marked.rest hview
  exact ⟨hanswers, htoList, congrArg Marked.mark hview, hle, htoList.trans hrest⟩

example : (runWith perform (ofList [1, 2, 3]) [.lookahead 2, .consume 3, .peek 2]).1 =
    [.walked [some 1, some 2], .done, .items [3]] := by decide

end Stream

end Jukebox
