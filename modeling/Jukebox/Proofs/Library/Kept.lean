import Jukebox.Library
import Jukebox.Proofs.Path.Relative
import Jukebox.Proofs.Text.Utf8

/-!
What is kept of a path. Where that is a text the path is kept whole, and leads back to where it led;
where it is none, the path leads to another file.
-/

set_option autoImplicit false

namespace Jukebox

open Jukebox.Path

namespace OsText

theorem isAbsolute_utf8 (t : Text) : isAbsolute (Text.utf8 t) = isAbsolute t := by
  rw [← isAbsolute_lossy, lossy_utf8]

theorem names_utf8_lossy_eq_iff {r : OsText} :
    (shape (Text.utf8 (lossy r))).names = (shape r).names ↔ r.IsText := by
  refine ⟨fun h => isText_iff_names.2 fun q hq => ?_, fun h => by rw [h]⟩
  rw [← h] at hq
  exact isText_iff_names.1 (isText_utf8 _) q hq

/-- Bytes lead, from a directory, to where the nearest text leads just if they are a text. -/
theorem components_join_lossy_iff (home r : OsText) :
    components (join home (Text.utf8 (lossy r))) = components (join home r) ↔ r.IsText := by
  refine ⟨fun h => names_utf8_lossy_eq_iff.1 ?_, fun h => by rw [h]⟩
  have hlossy : isAbsolute (Text.utf8 (lossy r)) = isAbsolute r := by
    rw [isAbsolute_utf8, isAbsolute_lossy]
  cases hr : isAbsolute r with
  | true =>
    rw [join_of_isAbsolute home hr, join_of_isAbsolute home (hlossy.trans hr)] at h
    exact (Shape.components_inj h).2
  | false =>
    have hnames := (Shape.components_inj h).2
    rw [names_join home hr, names_join home (hlossy.trans hr), ← names_shape, ← names_shape]
      at hnames
    exact List.append_cancel_left hnames

end OsText

namespace Library

variable {lib : Library} {p q : OsText}

/-- Nothing is lost of a path where the library keeps it. -/
def KeepsWhole (lib : Library) (p : OsText) : Prop := (lib.remainder p).IsText

theorem KeepsWhole.locate (h : lib.KeepsWhole p) :
    lib.locate (lib.storedPath p) = join lib.home (lib.remainder p) := congrArg (join lib.home) h

theorem keepsWhole_of_isText (h : p.IsText) : lib.KeepsWhole p := by
  rw [KeepsWhole, remainder]
  cases hr : relativeTo? lib.home p with
  | none => exact h
  | some r =>
    exact OsText.isText_iff_names.2 fun q hq =>
      OsText.isText_iff_names.1 h q (names_relativeTo?_subset hr hq)

theorem isAbsolute_storedPath (lib : Library) (p : OsText) :
    isAbsolute (lib.storedPath p) = isAbsolute (lib.remainder p) := OsText.isAbsolute_lossy _

theorem storedPath_relative_iff (hp : isAbsolute p) :
    isAbsolute (lib.storedPath p) = false ↔
      lib.home ≠ [] ∧ components lib.home <+: components p := by
  rw [isAbsolute_storedPath, remainder]
  exact not_isAbsolute_getD_iff hp

/-- An absolute path leads back to where it led just if it is kept whole. -/
theorem components_locate_iff (hp : isAbsolute p) :
    components (lib.locate (lib.storedPath p)) = components p ↔ lib.KeepsWhole p := by
  have hback : components (join lib.home (lib.remainder p)) = components p :=
    components_join_getD hp
  rw [← hback]
  exact OsText.components_join_lossy_iff lib.home (lib.remainder p)

theorem storedPath_inj (hp : lib.KeepsWhole p) (hq : lib.KeepsWhole q)
    (h : lib.locate (lib.storedPath p) = lib.locate (lib.storedPath q)) :
    lib.storedPath p = lib.storedPath q := by
  rw [hp.locate, hq.locate] at h
  exact congrArg OsText.lossy (join_stored_inj h)

theorem storedPath_congr {home other : OsText} (h : components other = components home)
    (p : OsText) : (new other).storedPath p = (new home).storedPath p := by
  rw [storedPath, storedPath, remainder, remainder, new, new, relativeTo?_congr h]

end Library

end Jukebox
