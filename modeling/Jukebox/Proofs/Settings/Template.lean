import Jukebox.Proofs.Toml.Laws
import Jukebox.Settings.Raw
import Jukebox.Settings.Template

set_option autoImplicit false

namespace Jukebox

open Toml

namespace RawSettings

def blank : RawSettings := ⟨none, none, none⟩

end RawSettings

namespace Template

theorem commentOut_comment {l : Text} (hl : l.all isPlain) :
    commentOut l = [] ∨ ∃ comment, commentOut l = '#' :: comment ∧ comment.all isPlain := by
  unfold commentOut
  split
  · exact .inl rfl
  · next t =>
    rw [List.all_cons, Bool.and_eq_true] at hl
    exact .inr ⟨t, rfl, hl.2⟩
  · refine .inr ⟨' ' :: l, rfl, ?_⟩
    rw [List.all_cons, hl]
    rfl

theorem isPlain_lines (isGlobal : Bool) :
    ∀ l ∈ (if isGlobal then globalLines else localLines), l.toList.all isPlain := by
  cases isGlobal <;> decide +kernel

/-- A template says nothing, though it shows every setting. -/
theorem parse?_text {toml : Codec} (h : toml.SkipsComments) (isGlobal : Bool) :
    RawSettings.parse? toml (Template.text isGlobal) = some RawSettings.blank := by
  let lines := (if isGlobal then globalLines else localLines).map fun l => commentOut l.toList
  have hcomments : ∀ l ∈ lines, l = [] ∨ ∃ comment, l = '#' :: comment ∧ comment.all isPlain :=
    List.forall_mem_map.2 fun l hl => commentOut_comment (isPlain_lines isGlobal l hl)
  have htext : Template.text isGlobal = lines.flatMap (· ++ ['\n']) := by
    rw [Template.text, List.flatMap_map]
  rw [RawSettings.parse?, htext, h lines hcomments]
  rfl

end Template

end Jukebox
