import Stencil.Configuration
import Stencil.Layering
import Stencil.Proofs.Fallible
import Stencil.Proofs.Yaml.Shape

/-!
# Distinct names of a document

A name that is set twice in a mapping keeps its place, so that the names of what a document means
are distinct. This carries over to the variables of a file and to those of a configuration.
-/

namespace Stencil

namespace Yaml

/-- An object, if it is one, has each name once. -/
def NamesDistinct : Json → Prop
  | .object members => (Members.names members).Nodup
  | _ => True

theorem namesDistinct_of_wellNamed {v : Json} (h : v.WellNamed) : NamesDistinct v := by
  cases h with
  | object distinct _ => exact distinct
  | null | bool _ | number _ | string _ | array _ => exact True.intro

theorem parse?_namesDistinct {t : Text} {value : Json} (h : parse? t = some value) :
    NamesDistinct value := namesDistinct_of_wellNamed (shaped_of_parse? h).1

end Yaml

open Fallible in
theorem Context.parse?_of_load {files : Files} {path : Text} {c : Context}
    (h : load files path = .ok c) : ∃ t value, Yaml.parse? t = some value ∧ ofJson value = .ok c := by
  obtain ⟨t, -, h⟩ := bind_eq_ok_iff.mp h
  cases hparse : Yaml.parse? t with
  | none => simp [hparse] at h
  | some value => exact ⟨t, value, hparse, by simpa [hparse] using h⟩

/-- The variables of a file have distinct names. -/
theorem Context.nodup_of_load {files : Files} {path : Text} {c : Context}
    (h : load files path = .ok c) : (Members.names c.bindings).Nodup := by
  obtain ⟨t, value, hparse, hvalue⟩ := parse?_of_load h
  have hdistinct := Yaml.parse?_namesDistinct hparse
  cases value with
  | object members =>
    cases hvalue
    exact hdistinct
  | null =>
    cases hvalue
    exact List.nodup_nil
  | bool _ | number _ | string _ | array _ => exact absurd hvalue (by simp [ofJson])

namespace Configuration
open Yaml Fallible

theorem ofNode?_distinct (d : Document) (node : Node) :
    Yields (ofNode? d node) fun config => (Members.names config.bindings).Nodup := by
  rw [ofNode?]
  refine (Yields.trivial _).bind fun found _ => ?_
  have hbindings (node : Node) : Yields (bindings? d node) fun read => (Members.names read).Nodup :=
    (Yields.trivial _).bind fun entries _ =>
      (d.members?_shaped (d.value?_shaped _) entries).mono fun _ h => h.1
  have hstandard : Yields (pure standard.bindings) fun read => (Members.names read).Nodup :=
    .pure List.nodup_nil
  dsimp only
  split
  · refine (hbindings _).bind fun read hread => ?_
    split <;> exact (Yields.trivial _).bind fun logging _ => .pure hread
  · refine hstandard.bind fun read hread => ?_
    split <;> exact (Yields.trivial _).bind fun logging _ => .pure hread

theorem nodup_of_parse? {t : Text} {config : Configuration} (h : parse? t = some config) :
    (Members.names config.bindings).Nodup := by
  obtain ⟨d, -, hd⟩ := Option.bind_eq_some_iff.mp h
  split at hd
  · cases hd
    exact List.nodup_nil
  · next node _ => exact (ofNode?_distinct d node).run? hd

theorem parse?_of_read {files : Files} {path : Text} {config : Configuration}
    (h : read files path = .ok config) : ∃ t, parse? t = some config := by
  obtain ⟨t, -, h⟩ := bind_eq_ok_iff.mp h
  refine ⟨t, ?_⟩
  cases hparse : parse? t with
  | none => simp [hparse] at h
  | some found => simpa [hparse] using h

/-- The variables of a configuration have distinct names. -/
theorem nodup_of_load {files : Files} {env : Environment} {given : Option Text}
    {config : Configuration} (h : load files env given = .ok config) :
    (Members.names config.bindings).Nodup := by
  rw [load] at h
  split at h
  · next path _ =>
    obtain ⟨found, hread, rfl⟩ := map_eq_ok_iff.mp h
    obtain ⟨t, hparse⟩ := parse?_of_read hread
    have hfound := nodup_of_parse? hparse
    exact hfound
  · cases h
    exact List.nodup_nil

end Configuration
end Stencil
