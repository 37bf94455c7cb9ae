import Stencil.Command
import Stencil.Proofs.Fallible
import Stencil.Proofs.Resolution.Positions
import Stencil.Proofs.Yaml.Shape

/-!
# Shape of a resolved mapping

Resolution changes strings only. So the mapping that a document is resolved to has distinct names
throughout and is nested within the limit of documents, as the document is.
-/

namespace Stencil

namespace Resolution
open Yaml
variable {engine : Engine} {context : Context}

theorem values_resolveMembers {members out : Members}
    (h : resolveMembers engine context members = .ok out) {P Q : Json → Prop}
    (hstep : ∀ m ∈ members, ∀ w, resolve engine context m.2 = .ok w → P m.2 → Q w)
    (hmembers : ∀ m ∈ members, P m.2) : ∀ m ∈ out, Q m.2 := by
  induction members generalizing out with
  | nil =>
    simp only [resolveMembers, Except.ok.injEq] at h
    simp [← h]
  | cons m rest ih =>
    obtain ⟨w, further, hvalue, hrest, rfl⟩ := resolveMembers_cons_ok_iff.mp h
    obtain ⟨hm, hmembers⟩ := List.forall_mem_cons.mp hmembers
    refine List.forall_mem_cons.mpr ⟨hstep m List.mem_cons_self w hvalue hm, ?_⟩
    exact ih hrest (fun m hm => hstep m (List.mem_cons_of_mem _ hm)) hmembers

theorem shaped_resolve {v w : Json} (h : resolve engine context v = .ok w) {depth : Nat}
    (hv : Shaped depth v) : Shaped depth w := by
  induction v using Json.member_induction generalizing w depth with
  | object members ih =>
    obtain ⟨out, hout, rfl⟩ := resolve_object_ok_iff.mp h
    obtain ⟨hnamed, hnested⟩ := hv
    cases hnamed with | object hdistinct hnamed =>
    cases hnested with | @object depth _ hnested =>
    have hvalues : ∀ m ∈ out, Shaped depth m.2 :=
      values_resolveMembers hout (P := Shaped depth) (fun m hm w hw hm' => ih m hm hw hm')
        fun m hm => ⟨hnamed m hm, hnested m hm⟩
    rw [← names_resolveMembers hout] at hdistinct
    exact ⟨.object hdistinct fun m hm => (hvalues m hm).1, .object fun m hm => (hvalues m hm).2⟩
  | other v hobject =>
    cases v with
    | object members => exact absurd rfl (hobject members)
    | string t =>
      by_cases ht : hasMarkers t = true
      · obtain ⟨new, -, rfl⟩ := resolve_template_ok ht h
        exact ⟨.string new, .string depth new⟩
      · simp only [resolve, ht, Bool.false_eq_true, ↓reduceIte, Except.ok.injEq] at h
        rwa [← h]
    | null | bool b | number n | array items =>
      simp only [resolve, Except.ok.injEq] at h
      rwa [← h]

end Resolution

namespace Command
open Fallible
variable {engine : Engine} {files : Files} {bindings : Members} {path : Text}
  {source : ContextSource} {members : Members}

theorem shaped_of_readMapping (h : readMapping files path = .ok members) :
    Yaml.Shaped Yaml.Document.nestingLimit (.object members) := by
  obtain ⟨t, -, h⟩ := bind_eq_ok_iff.mp h
  split at h
  · next found hparse =>
    obtain rfl := pure_eq_ok_iff.mp h
    exact Yaml.shaped_of_parse? hparse
  · obtain rfl := pure_eq_ok_iff.mp h
    exact ⟨.object List.nodup_nil (by simp), .object (by simp)⟩
  · cases h
  · cases h

/-- A resolved mapping has distinct names throughout and is nested within the limit of documents. -/
theorem shaped_of_resolveMapping
    (h : resolveMapping engine files bindings path source = .ok members) :
    Yaml.Shaped Yaml.Document.nestingLimit (.object members) := by
  obtain ⟨found, hfound, h⟩ := bind_eq_ok_iff.mp h
  obtain ⟨context, -, h⟩ := bind_eq_ok_iff.mp h
  have hresolve := Resolution.resolve_object_ok_iff.mpr ⟨members, mapError_eq_ok_iff.mp h, rfl⟩
  exact Resolution.shaped_resolve hresolve (shaped_of_readMapping hfound)

end Command
end Stencil
