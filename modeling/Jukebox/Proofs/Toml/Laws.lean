import Mathlib.Data.List.Forall2
import Mathlib.Data.List.Nodup
import Jukebox.Toml

/-!
What is relied on of the functions that read and write TOML. Documents that consist of sections with
texts and lists of texts in them are written, and read back up to the order of their keys; and
comments say nothing.
-/

set_option autoImplicit false

namespace Jukebox.Toml

structure PlainKeys (keys : List Text) : Prop where
  nodup : keys.Nodup
  bare : ∀ key ∈ keys, isBareKey key

namespace Value

inductive IsSetting : Value → Prop where
  | text (t : Text) : IsSetting (.text t)
  | texts (ts : List Text) : IsSetting (.array (ts.map .text))

inductive IsSection : Value → Prop where
  | mk {entries : List (Text × Value)} (keys : PlainKeys (entries.map Prod.fst))
    (settings : ∀ e ∈ entries, e.2.IsSetting) : IsSection (.table entries)

/-- The same table but for the order of its keys. -/
inductive Reordered : Value → Value → Prop where
  | mk {before after : List (Text × Value)} (h : before.Perm after) :
    Reordered (.table before) (.table after)

end Value

namespace Table

structure IsPlain (t : Table) : Prop where
  keys : PlainKeys (t.entries.map Prod.fst)
  sections : ∀ e ∈ t.entries, e.2.IsSection

/-- The same sections with the same settings, each in any order. -/
def Reordered (t u : Table) : Prop :=
  ∃ entries, List.Forall₂ (fun a b => a.1 = b.1 ∧ a.2.Reordered b.2) t.entries entries ∧
    entries.Perm u.entries

theorem Reordered.refl {t : Table} (h : t.IsPlain) : t.Reordered t := by
  have hsame {v : Value} : v.IsSection → v.Reordered v
    | .mk _ _ => .mk (List.Perm.refl _)
  exact ⟨t.entries, List.forall₂_same.2 fun e he => ⟨rfl, hsame (h.sections e he)⟩,
    List.Perm.refl _⟩

end Table

namespace Codec

/-- A plain document is written, and what was written is read as that document. -/
def RoundTrips (toml : Codec) : Prop :=
  ∀ t : Table, t.IsPlain → ∃ written, toml.write? t = some written ∧
    ∃ read, toml.read? written = some read ∧ t.Reordered read

/-- Lines that are empty or comments make up the empty document. -/
def SkipsComments (toml : Codec) : Prop :=
  ∀ lines : List Text, (∀ l ∈ lines, l = [] ∨ ∃ comment, l = '#' :: comment ∧ comment.all isPlain) →
    toml.read? (lines.flatMap (· ++ ['\n'])) = some ⟨[]⟩

end Codec

end Jukebox.Toml
