import Recast.Emit.Service
import Recast.Proofs.Path.Sameness

/-! # Parsed trees that are used again

The language service takes a tree from its store when the digest of the text is the one it knows. A
store is faithful to some texts when every tree in it was parsed from one of them. As long as the
digests tell these texts apart, a faithful service answers as if it parsed everything anew.
-/

namespace Recast.Emit

open Recast.Script

namespace Service

variable {texts : Path → String → Prop} {service : Service}

/-- Every known tree was parsed from one of the texts, under some spelling of the path. -/
def Faithful (texts : Path → String → Prop) (service : Service) : Prop :=
  ∀ path digest tree, service.parsed.get? path = some (digest, tree) →
    ∃ spelled text, path.same spelled = true ∧ texts spelled text ∧ digest = Digest.of text ∧
      tree = Tree.parse spelled text

/-- No other text of the path, and no other spelling of it, has the digest of a text. -/
def TellsApart (texts : Path → String → Prop) (path : Path) (text : String) : Prop :=
  ∀ spelled other, path.same spelled = true → texts spelled other →
    Digest.of other = Digest.of text →
    spelled = path ∧ other = text

theorem faithful_empty (host? : Option Host) :
    Faithful texts { host? := host?, parsed := .empty } :=
  fun _ _ _ known => by simp [PathMap.get?, PathMap.empty, PathMap.lookup] at known

theorem Faithful.setHost (faithful : service.Faithful texts) (host : Host) :
    (service.setHost host).Faithful texts :=
  faithful

/-- Parsing answers with the tree of some text with the same digest. -/
theorem parse_spec (faithful : service.Faithful texts) {path : Path} {text : String}
    (listed : texts path text) :
    (∃ spelled other, path.same spelled = true ∧ texts spelled other ∧
      Digest.of other = Digest.of text ∧ (service.parse path text).1 = Tree.parse spelled other) ∧
      (service.parse path text).2.Faithful texts := by
  unfold parse
  dsimp only
  cases known : (service.parsed.get? path).filter (·.1 = Digest.of text) with
  | some found =>
    obtain ⟨digest, tree⟩ := found
    obtain ⟨stored, same⟩ := Option.filter_eq_some_iff.mp known
    obtain ⟨spelled, other, alike, listed, rfl, rfl⟩ := faithful path digest tree stored
    exact ⟨⟨spelled, other, alike, listed, by simpa using same, rfl⟩, faithful⟩
  | none =>
    refine ⟨⟨path, text, Path.same_self path, listed, rfl, rfl⟩, fun other digest tree stored => ?_⟩
    change (service.parsed.insert path (Digest.of text, Tree.parse path text)).get? other =
      some (digest, tree) at stored
    rw [PathMap.get?_insert] at stored
    split at stored
    · next same =>
      cases stored
      exact ⟨path, text, same, listed, rfl, rfl⟩
    · exact faithful other digest tree stored

theorem Faithful.parse (faithful : service.Faithful texts) {path : Path} {text : String}
    (listed : texts path text) :
    (service.parse path text).2.Faithful texts :=
  (parse_spec faithful listed).2

/-- When digests tell the texts apart, parsing answers with the tree of the text. -/
theorem parse_eq (faithful : service.Faithful texts) {path : Path} {text : String}
    (listed : texts path text) (apart : TellsApart texts path text) :
    (service.parse path text).1 = Tree.parse path text := by
  obtain ⟨spelled, other, same, known, digests, parsed⟩ := (parse_spec faithful listed).1
  obtain ⟨rfl, rfl⟩ := apart spelled other same known digests
  exact parsed

theorem parse_host? (service : Service) (path : Path) (text : String) :
    (service.parse path text).2.host? = service.host? := by
  unfold Service.parse
  dsimp only
  split <;> rfl

end Service

end Recast.Emit
