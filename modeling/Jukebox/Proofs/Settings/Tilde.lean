import Jukebox.Proofs.Path.Parent
import Jukebox.Proofs.Path.Relative
import Jukebox.Proofs.Settings.Merging

set_option autoImplicit false

namespace Jukebox

namespace Path

variable {home p rest : Text}

def afterTilde? : Text → Option Text
  | ['~'] => some []
  | '~' :: '/' :: rest => some rest
  | _ => none

def restComponents (t : Text) : List (Component Char) :=
  ((t.splitOn '/').filter (!idle ·)).map component

theorem afterTilde?_eq_some (h : afterTilde? p = some rest) :
    p = ['~'] ∧ rest = [] ∨ p = '~' :: '/' :: rest := by
  unfold afterTilde? at h
  split at h
  · cases h
    exact .inl ⟨rfl, rfl⟩
  · cases h
    exact .inr rfl
  · cases h

theorem components_join_rest (hhome : home ≠ []) (hrest : isAbsolute rest = false) :
    components (join home rest) = components home ++ restComponents rest := by
  rw [components, components, Shape.components, Shape.components, names_join home hrest,
    lead_join hhome hrest, List.map_append, List.append_assoc, restComponents]
  rfl

theorem isAbsolute_expandHome (hhome : isAbsolute home) (hp : afterTilde? p = some rest) :
    isAbsolute (expandHome home p) := by
  rcases afterTilde?_eq_some hp with ⟨rfl, -⟩ | rfl
  · exact hhome
  · exact isAbsolute_join hhome rest

theorem resolve_eq_expandHome (hhome : isAbsolute home) (hp : afterTilde? p = some rest)
    (base : Text) : resolve home base p = expandHome home p :=
  if_pos (isAbsolute_expandHome hhome hp)

theorem components_expandHome (hhome : isAbsolute home) (hp : afterTilde? p = some rest)
    (hrest : isAbsolute rest = false) :
    components (expandHome home p) = components home ++ restComponents rest := by
  rcases afterTilde?_eq_some hp with ⟨rfl, rfl⟩ | rfl
  · exact (List.append_nil (components home)).symm
  · refine components_join_rest ?_ hrest
    rintro rfl
    cases hhome

theorem expandHome_of_isAbsolute (hp : afterTilde? p = some rest) (hrest : isAbsolute rest) :
    expandHome home p = rest := by
  rcases afterTilde?_eq_some hp with ⟨-, rfl⟩ | rfl
  · cases hrest
  · exact join_of_isAbsolute home hrest

/-- A path with a tilde leads to one place, from whichever directory it is seen, in a settings file
and on the command line. The place lies in the home directory, with the components behind the tilde
and no others, if what is behind the tilde and a separator is relative. Where a second separator
follows, it is what is behind the first, and lies in the home directory only if that does. -/
theorem tilde_leads_home {home p rest : Text} (hhome : isAbsolute home)
    (hp : afterTilde? p = some rest) :
    (∀ base, resolve home base p = expandHome home p) ∧
    (∀ (c : Config) (cwd : Text),
      (c.withMusicHome home cwd p).settings.musicHome = expandHome home p) ∧
    (∀ front f back, (∀ g ∈ front, SettingsFile.musicHome? g = none) → f.musicHome? = some p →
      (Config.merge home (front ++ f :: back)).settings.musicHome = expandHome home p) ∧
    (isAbsolute rest = false →
      components (expandHome home p) = components home ++ restComponents rest) ∧
    (isAbsolute rest → expandHome home p = rest) ∧
    (components home <+: components (expandHome home p) ↔
      (isAbsolute rest → components home <+: components rest)) := by
  have hresolve := resolve_eq_expandHome hhome hp
  refine ⟨hresolve, fun c cwd => hresolve cwd, fun front f back hfront hf => ?_,
    components_expandHome hhome hp, expandHome_of_isAbsolute hp, ?_⟩
  · rw [Config.musicHome_merge_of_first home hfront hf, hresolve]
  · cases hrest : isAbsolute rest with
    | true =>
      rw [expandHome_of_isAbsolute hp hrest]
      exact ⟨fun h _ => h, fun h => h rfl⟩
    | false =>
      rw [components_expandHome hhome hp hrest]
      exact iff_of_true (List.prefix_append _ _) nofun

theorem tilde_leads_home_music :
    let home := "/home/tester".toList
    let p := "~/.//music/../x".toList
    let near : SettingsFile := ⟨"/a/.cantrip.toml".toList, ⟨none, none, none⟩⟩
    let above : SettingsFile := ⟨"/.cantrip.toml".toList, ⟨none, some ⟨some p, none⟩, none⟩⟩
    isAbsolute home ∧ afterTilde? p = some ".//music/../x".toList ∧
      components (resolve home "/base".toList p) =
        components home ++ [.name "music".toList, .up, .name ['x']] ∧
      (Config.merge home [near, above]).settings.musicHome =
        "/home/tester/.//music/../x".toList := by
  intro home p near above
  have hhome : isAbsolute home := rfl
  have hp : afterTilde? p = some ".//music/../x".toList := rfl
  obtain ⟨hresolve, -, hmerge, hcomponents, -⟩ := tilde_leads_home hhome hp
  refine ⟨hhome, hp, ?_, hmerge [near] above [] (List.forall_mem_singleton.2 rfl) rfl⟩
  rw [hresolve, hcomponents rfl]
  decide

/-- Behind a second separator a path leads out of the home directory. -/
theorem tilde_leaves_home :
    let home := "/home/tester".toList
    let p := "~//music".toList
    isAbsolute home ∧ afterTilde? p = some "/music".toList ∧
      resolve home "/base".toList p = "/music".toList ∧
      ¬components home <+: components (resolve home "/base".toList p) ∧
      restComponents "/music".toList = [.name "music".toList] := by
  decide

end Path

end Jukebox
